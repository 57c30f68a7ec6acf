import ShapeFont.Cli

/-!
# The program

Reads the font file, if the arguments name one, and writes out what `Cli` answers.
-/

namespace ShapeFont

def readContents (path : String) : IO FileContents := do
  match ← (IO.FS.Handle.mk path .read).toBaseIO with
  | .error _ => return .unopened
  | .ok handle =>
      match ← handle.readBinToEnd.toBaseIO with
      | .error _ => return .broken
      | .ok contents => return .whole contents.toList

def write (stream : IO.FS.Stream) (bytes : Bytes) : IO Unit := stream.write ⟨bytes.toArray⟩

end ShapeFont

def main (args : List String) : IO UInt32 := do
  let contents ← match args.head? with
    | some path => ShapeFont.readContents path
    | none => pure .unopened
  let reply := ShapeFont.Cli.run (args.map ShapeFont.Bytes.ofString) fun _ => contents
  ShapeFont.write (← IO.getStdout) reply.output
  ShapeFont.write (← IO.getStderr) reply.errors
  return reply.exitCode.toUInt32
