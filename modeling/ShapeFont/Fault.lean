/-!
# What can go wrong

A file is refused with a `LoadFault`, a glyph program stops with a `GlyphFault`. Both name a cause;
its text and the kind it is reported under are read off the cause.
-/

namespace ShapeFont

/-- The kinds that faults are reported under, in the order of their code numbers from one on. -/
inductive FaultKind where
  | invalidHeader
  | unknownVariant
  | truncatedFile
  | duplicateFontInfo
  | ioError
  | divideByZero
  | invalidFactor
  | stackOverflow
  | stackUnderflow
  | unresolvedSubshape
  | emptyStream
  | recursionLimit
  deriving Repr, DecidableEq

namespace FaultKind

def name : FaultKind → String
  | invalidHeader => "InvalidHeader"
  | unknownVariant => "UnknownVariant"
  | truncatedFile => "TruncatedFile"
  | duplicateFontInfo => "DuplicateFontInfo"
  | ioError => "IoError"
  | divideByZero => "DivideByZero"
  | invalidFactor => "InvalidFactor"
  | stackOverflow => "StackOverflow"
  | stackUnderflow => "StackUnderflow"
  | unresolvedSubshape => "UnresolvedSubshape"
  | emptyStream => "EmptyStream"
  | recursionLimit => "RecursionLimit"

def all : List FaultKind :=
  [invalidHeader, unknownVariant, truncatedFile, duplicateFontInfo, ioError, divideByZero,
    invalidFactor, stackOverflow, stackUnderflow, unresolvedSubshape, emptyStream, recursionLimit]

/-- The name of a code number. Zero stands for the absence of a fault. -/
def nameOfCode : Nat → String
  | 0 => "None"
  | code + 1 => (all[code]?.map name).getD "Unknown"

end FaultKind

/-- Why a font file is refused. -/
inductive LoadFault where
  | headerNotText
  | headerNotThreeParts
  | unknownVariant
  | headerCut
  | shapesCountsCut
  | shapesTableCut
  | shapesGlyphCut
  /-- The metrics of a shapes or unifont file run past its end. -/
  | fontInfoCut
  | fontInfoTwice
  | bigFontCountsCut
  | bigFontTableCut
  | bigFontGlyphOutside
  | bigFontInfoOutside
  | unifontCountsCut
  | unifontGlyphCut
  | cannotOpen
  | cannotRead
  deriving Repr, DecidableEq

namespace LoadFault

def kind : LoadFault → FaultKind
  | headerNotText | headerNotThreeParts => .invalidHeader
  | unknownVariant => .unknownVariant
  | fontInfoTwice => .duplicateFontInfo
  | cannotOpen | cannotRead => .ioError
  | headerCut | shapesCountsCut | shapesTableCut | shapesGlyphCut | fontInfoCut
  | bigFontCountsCut | bigFontTableCut | bigFontGlyphOutside | bigFontInfoOutside
  | unifontCountsCut | unifontGlyphCut => .truncatedFile

def message : LoadFault → String
  | headerNotText => "header is not valid text"
  | headerNotThreeParts => "header must hold format, type and version"
  | unknownVariant => "not a shapes, bigfont or unifont file"
  | headerCut => "file ends inside the header"
  | shapesCountsCut => "shapes table header is truncated"
  | shapesTableCut => "shapes index table is truncated"
  | shapesGlyphCut => "glyph data runs past the end of the file"
  | fontInfoCut => "font info record is truncated"
  | fontInfoTwice => "font info record appears twice"
  | bigFontCountsCut => "bigfont table header is truncated"
  | bigFontTableCut => "bigfont index table is truncated"
  | bigFontGlyphOutside => "glyph data is out of range"
  | bigFontInfoOutside => "font info record is out of range"
  | unifontCountsCut => "unifont table header is truncated"
  | unifontGlyphCut => "glyph record runs past the end of the file"
  | cannotOpen => "couldn't open font file"
  | cannotRead => "error while reading font file"

end LoadFault

/-- Why a glyph program stops early. -/
inductive GlyphFault where
  | divideByZero
  | multiplyByZero
  | stackOverflow
  | stackUnderflow
  | missingSubshape
  /-- The program ends between an opcode and its last operand. -/
  | operandCut
  /-- The program ends inside the number of a subshape. -/
  | subshapeKeyCut
  | nestingLimit
  deriving Repr, DecidableEq

namespace GlyphFault

def kind : GlyphFault → FaultKind
  | divideByZero => .divideByZero
  | multiplyByZero => .invalidFactor
  | stackOverflow => .stackOverflow
  | stackUnderflow => .stackUnderflow
  | missingSubshape => .unresolvedSubshape
  | operandCut | subshapeKeyCut => .emptyStream
  | nestingLimit => .recursionLimit

def message : GlyphFault → String
  | divideByZero => "DIVIDE_VECTOR by zero"
  | multiplyByZero => "MULTIPLY_VECTOR by zero"
  | stackOverflow => "position stack overflow"
  | stackUnderflow => "position stack underflow"
  | missingSubshape => "referenced subshape does not exist"
  | operandCut => "glyph program ends inside an opcode"
  | subshapeKeyCut => "glyph program ends inside DRAW_SUBSHAPE"
  | nestingLimit => "subshape nesting limit reached"

end GlyphFault

end ShapeFont
