/-!
# Stand-ins for missing letters

Older fonts lack the precomposed German letters. Each has a spelling in plain letters, used only
where the font has no glyph for the letter itself.
-/

namespace ShapeFont.Fallback

def table : List (Nat × String) :=
  [(0x00E4, "ae"), (0x00F6, "oe"), (0x00FC, "ue"),
    (0x00C4, "Ae"), (0x00D6, "Oe"), (0x00DC, "Ue"), (0x00DF, "ss")]

/-- The plain spelling of a code point. -/
def spelling? (code : Nat) : Option String := table.lookup code

def letters (spelling : String) : List Nat := spelling.toList.map Char.toNat

end ShapeFont.Fallback
