import ShapeFont.Font.File
import ShapeFont.Layout.Block
import ShapeFont.Number.Literal
import ShapeFont.Svg.Document

/-!
# The command line

`shx_render` takes a font file, a text and an optional size, and writes the text as an SVG document.
Arguments are checked before the file is read. They are bytes, as nothing makes them well-formed text.
-/

namespace ShapeFont.Cli

universe u

def programName : String := "shx_render"

structure Request (α : Type u) where
  fontPath : Bytes
  text : Bytes
  size : α

/-- What a run leaves behind: its exit code and its two outputs. -/
structure Reply where
  exitCode : Nat
  output : Bytes := []
  errors : Bytes := []
  deriving Repr, DecidableEq

def defaultSize : Float := 24

def usage : Reply :=
  { exitCode := 2
    errors := Bytes.ofString ("usage: " ++ programName ++ " <font.shx> <text> [size]\n") }

def badSize : Reply :=
  { exitCode := 2, errors := Bytes.ofString "size must be a positive number\n" }

/-- Arguments behind the size are ignored. A size that is not a number is not positive. -/
def Request.ofArgs : List Bytes → Except Reply (Request Float)
  | fontPath :: text :: rest =>
      let size := (rest.head?.map Literal.read).getD defaultSize
      if 0 < size then .ok { fontPath, text, size } else .error badSize
  | _ => .error usage

def describe (kind : FaultKind) (message : String) : String :=
  kind.name ++ " (" ++ message ++ ")\n"

def refusal (path : Bytes) (fault : LoadFault) : Reply :=
  { exitCode := 1
    errors := Bytes.ofString "Couldn't load font " ++ path ++
      Bytes.ofString (": " ++ describe fault.kind fault.message) }

def failure (fault : GlyphFault) : Reply :=
  { exitCode := 1
    errors := Bytes.ofString ("Render failed: " ++ describe fault.kind fault.message) }

def Request.job {α : Type u} [Scalar α] (request : Request α) (font : Font) : Typesetting α :=
  { font, options := { Options.standard with fontSize := request.size } }

/-- Draws the text with the font in `contents`, or says why it is not drawn. -/
def Request.draw {α : Type u} [Scalar α] (request : Request α) (contents : FileContents) :
    Except Reply (Svg.Drawing α) :=
  match (Font.loadFile contents).run Font.empty with
  | (some fault, _) => .error (refusal request.fontPath fault)
  | (none, font) =>
      let rendering := Layout.render (request.job font) request.text
      match rendering.fault with
      | some fault => .error (failure fault)
      | none => .ok (Svg.Drawing.ofPath (Path.empty.record rendering.events) request.size)

def Request.answer (request : Request Float) (contents : FileContents) : Reply :=
  match request.draw contents with
  | .error reply => reply
  | .ok drawing => { exitCode := 0, output := Bytes.ofString drawing.document }

/-- Runs the program; `readFile` says how the reading of a file ends. -/
def run (args : List Bytes) (readFile : Bytes → FileContents) : Reply :=
  match Request.ofArgs args with
  | .error reply => reply
  | .ok request => request.answer (readFile request.fontPath)

end ShapeFont.Cli
