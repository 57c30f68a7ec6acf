import ShapeFont.Layout.Selection
import ShapeFont.Proofs.Text.Sequences

/-!
# Lines and code points

No sequence of UTF-8 goes across a line feed. So it makes no difference whether a text is cut into
lines before it is decoded or after, and the glyphs of its lines are those of its code points
without the line feeds.
-/

namespace ShapeFont

namespace Utf8

variable {byte : UInt8} {rest : Bytes}

theorem codes_append_feed (text more : Bytes) :
    codes (text ++ 10 :: more) = codes text ++ 10 :: codes more := by
  have stops : ¬IsContinuation 10 := by decide
  unfold codes decode
  rw [decode_from_append_of_stop stops (Nat.zero_le _), List.map_append]
  rfl

theorem byte_of_decode_head (feed : (decodeHead byte rest).code = 10) : byte = 10 := by
  unfold decodeHead at feed
  cases found : sequence? byte rest with
  | none =>
      rw [found] at feed
      exact absurd feed (by decide)
  | some head =>
      rw [found, Option.getD_some] at feed
      obtain ⟨lead, announced, extended, least, -⟩ := sequence_iff_lead.mp found
      rw [feed] at extended least
      rcases lead_ascii_or_longer announced with rfl | longer
      · exact UInt8.toNat_inj.mp (Option.some.inj extended)
      · omega

theorem mem_of_mem_decode_from {skip : Nat} {text : Bytes} {head : Decoded}
    (member : head ∈ decodeFrom skip text) (feed : head.code = 10) : 10 ∈ text := by
  induction text generalizing skip with
  | nil => cases skip <;> simp [decodeFrom] at member
  | cons byte rest ih =>
      cases skip with
      | succ skip => exact List.mem_cons_of_mem _ (ih member)
      | zero =>
          rw [decodeFrom] at member
          rcases List.mem_cons.mp member with rfl | later
          · rw [byte_of_decode_head feed]
            exact List.mem_cons_self
          · exact List.mem_cons_of_mem _ (ih later)

theorem mem_of_mem_codes {text : Bytes} (member : 10 ∈ codes text) : 10 ∈ text := by
  obtain ⟨head, member, feed⟩ := List.mem_map.mp member
  exact mem_of_mem_decode_from member feed

end Utf8

namespace Layout

theorem split_lines_append_feed (text more : Bytes) :
    splitLines (text ++ 10 :: more) = splitLines text ++ splitLines more :=
  List.splitOnP_append_cons text more rfl

theorem split_lines_of_not_mem {text : Bytes} (none : 10 ∉ text) : splitLines text = [text] :=
  List.splitOn_eq_singleton none

@[elab_as_elim]
theorem line_induction {motive : Bytes → Prop} (last : ∀ line, 10 ∉ line → motive line)
    (feed : ∀ line more, 10 ∉ line → motive more → motive (line ++ 10 :: more)) (text : Bytes) :
    motive text := by
  induction size : text.length using Nat.strongRecOn generalizing text with
  | ind size ih =>
      subst size
      by_cases present : 10 ∈ text
      · have ⟨line, more, cut, clean⟩ := List.eq_append_cons_of_mem present
        have shorter : more.length < text.length := by
          rw [cut, List.length_append, List.length_cons]
          omega
        rw [cut]
        exact feed line more clean (ih more.length shorter more rfl)
      · exact last text present

theorem not_mem_codes {line : Bytes} (clean : 10 ∉ line) : 10 ∉ Utf8.codes line :=
  fun member => clean (Utf8.mem_of_mem_codes member)

/-- To decode a text and then to cut its code points at line feeds gives the code points of its lines:
no sequence, broken or not, takes a line feed with it. -/
theorem split_codes (text : Bytes) :
    (Utf8.codes text).splitOn 10 = (splitLines text).map Utf8.codes := by
  induction text using line_induction with
  | last line clean =>
      rw [split_lines_of_not_mem clean, List.splitOn_eq_singleton (not_mem_codes clean)]
      rfl
  | feed line more clean ih =>
      have cut : (Utf8.codes line ++ 10 :: Utf8.codes more).splitOn 10 =
          (Utf8.codes line).splitOn 10 ++ (Utf8.codes more).splitOn 10 :=
        List.splitOnP_append_cons _ _ rfl
      rw [Utf8.codes_append_feed, cut, ih, List.splitOn_eq_singleton (not_mem_codes clean),
        split_lines_append_feed, split_lines_of_not_mem clean]
      rfl

theorem codes_of_lines (text : Bytes) :
    (splitLines text).flatMap Utf8.codes = (Utf8.codes text).filter (· ≠ 10) := by
  have kept {line : Bytes} (clean : 10 ∉ line) :
      (Utf8.codes line).filter (· ≠ 10) = Utf8.codes line := by
    apply List.filter_eq_self.mpr
    intro code member
    simp only [ne_eq, decide_eq_true_eq]
    rintro rfl
    exact not_mem_codes clean member
  induction text using line_induction with
  | last line clean => rw [split_lines_of_not_mem clean, List.flatMap_singleton, kept clean]
  | feed line more clean ih =>
      rw [split_lines_append_feed, split_lines_of_not_mem clean, List.flatMap_append,
        List.flatMap_singleton, Utf8.codes_append_feed, List.filter_append, kept clean, ih]
      simp

/-- The programs that a code point selects: that of its own glyph or, for want of one, those of the
letters that stand in for it. -/
def programsOf (font : Font) (code : Nat) : List Bytes :=
  match font.glyph? code with
  | some program => [program]
  | none => ((Fallback.spelling? code).elim [] Fallback.letters).filterMap font.glyph?

def selectAll (font : Font) (text : Bytes) : List Bytes :=
  ((Utf8.codes text).filter (· ≠ 10)).flatMap (programsOf font)

theorem programs_of_spell (font : Font) (code : Nat) :
    (spell font code).filterMap font.glyph? = programsOf font code := by
  unfold spell programsOf Font.hasGlyph
  cases found : font.glyph? code with
  | some program => simp [found]
  | none =>
      cases Fallback.spelling? code with
      | some spelling => simp
      | none => simp [found]

theorem select_eq (font : Font) (line : Bytes) :
    select font line = (Utf8.codes line).flatMap (programsOf font) := by
  have present (codes : List Nat) :
      (codes.filter font.hasGlyph).filterMap font.glyph? = codes.filterMap font.glyph? := by
    rw [List.filterMap_filter]
    congr 1
    funext code
    unfold Font.hasGlyph
    cases font.glyph? code <;> rfl
  rw [select, selectCodes, present, List.filterMap_flatMap]
  congr 1
  funext code
  exact programs_of_spell font code

theorem select_lines (font : Font) (text : Bytes) :
    (splitLines text).flatMap (select font) = selectAll font text := by
  rw [selectAll, ← codes_of_lines, List.flatMap_assoc]
  congr 1
  funext line
  exact select_eq font line

end Layout

end ShapeFont
