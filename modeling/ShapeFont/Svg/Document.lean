import ShapeFont.Number.Significant
import ShapeFont.Stroke.Path
import ShapeFont.Svg.Command

/-!
# SVG text

Numbers in SVG have up to six significant digits. A document shows one path inside a frame that
leaves a margin of a quarter of the font size around it.
-/

namespace ShapeFont.Svg

universe u

def number (value : Float) : String := Significant.text 6 value

def pair (point : Point Float) : String := number point.x ++ "," ++ number point.y

def flag (value : Bool) : String := if value then "1" else "0"

def Command.text : Command Float → String
  | .moveTo target => "M" ++ pair target ++ " "
  | .lineTo target => "L" ++ pair target ++ " "
  | .arcTo radius large sweep target =>
      "A" ++ number radius ++ "," ++ number radius ++ " 0 " ++ flag large ++ "," ++ flag sweep ++
        " " ++ pair target ++ " "

def pathData (strokes : List (Stroke Float)) : String :=
  String.join ((commands strokes).map Command.text)

/-- The part of the plane that a document shows, with y downwards. -/
structure Frame (α : Type u) where
  corner : Point α
  width : α
  height : α
  deriving Repr, DecidableEq

section

variable {α : Type u} [Scalar α]

/-- A path without points is shown as a square of the font size. -/
def shownBounds (path : Path α) (size : α) : Bounds α :=
  path.bounds?.getD ⟨Point.origin, ⟨size, size⟩⟩

def Frame.around (bounds : Bounds α) (size : α) : Frame α :=
  let margin := size / ofInt 4
  { corner := ⟨bounds.lower.x - margin, -bounds.upper.y - margin⟩
    width := (bounds.upper.x - bounds.lower.x) + ofInt 2 * margin
    height := (bounds.upper.y - bounds.lower.y) + ofInt 2 * margin }

def Frame.ofPath (path : Path α) (size : α) : Frame α := Frame.around (shownBounds path size) size

structure Drawing (α : Type u) where
  path : Path α
  frame : Frame α
  lineWidth : α
  deriving Repr, DecidableEq

/-- Lines are as broad as a twentieth of the font size. -/
def Drawing.ofPath (path : Path α) (size : α) : Drawing α :=
  { path, frame := Frame.ofPath path size, lineWidth := size / ofInt 20 }

end

def Frame.viewBox (frame : Frame Float) : String :=
  number frame.corner.x ++ " " ++ number frame.corner.y ++ " " ++ number frame.width ++ " " ++
    number frame.height

def attributeText (name value : String) : String := " " ++ name ++ "=\"" ++ value ++ "\""

def Drawing.document (drawing : Drawing Float) : String :=
  "<svg" ++ attributeText "xmlns" "http://www.w3.org/2000/svg" ++
    attributeText "viewBox" drawing.frame.viewBox ++
    attributeText "width" (number drawing.frame.width) ++
    attributeText "height" (number drawing.frame.height) ++ ">\n" ++
    "  <path" ++ attributeText "fill" "none" ++ attributeText "stroke" "black" ++
    attributeText "stroke-width" (number drawing.lineWidth) ++
    attributeText "stroke-linecap" "round" ++ attributeText "stroke-linejoin" "round" ++
    attributeText "d" (pathData drawing.path.strokes) ++ "/>\n" ++
    "</svg>\n"

end ShapeFont.Svg
