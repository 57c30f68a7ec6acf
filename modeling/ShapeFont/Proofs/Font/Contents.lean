import Mathlib.Data.List.Basic
import ShapeFont.Proofs.Font.Records
import ShapeFont.Proofs.Font.Unifont
import ShapeFont.Proofs.Font.BigFont

/-!
# What accepted fonts hold

Programs are cut out of the file and names stand for glyphs that are there, whatever records a file
has and however often they overwrite each other. `Tidy` says so of a font that is being read; every
record keeps it, since a name is stored together with the glyph it stands for and no glyph is ever
taken away.
-/

namespace ShapeFont.Font

open Reader

/-- Names stand for glyphs that are there, and programs are parts of the file. -/
structure Tidy (data : Bytes) (font : Font) : Prop where
  named : ∀ (name : Bytes) (index : Nat), font.aliases[name]? = some index →
    (name ≠ [] ∧ ∀ letter ∈ name, letter ∈ Shapes.nameLetters) ∧
      index ≠ 0 ∧ ∃ program, font.glyphs[index]? = some program
  sliced : ∀ (index : Nat) (program : Bytes), font.glyphs[index]? = some program →
    program <:+: data ∧ program.length < 65536

section

variable {data : Bytes} {font : Font}

theorem tidy_of_nothing (names : font.aliases = ∅) (glyphs : font.glyphs = ∅) : Tidy data font where
  named := by
    intro name index found
    rw [names, Std.TreeMap.getElem?_emptyc] at found
    contradiction
  sliced := by
    intro index program found
    rw [glyphs, Std.TreeMap.getElem?_emptyc] at found
    contradiction

theorem Tidy.insert_glyph (tidy : Tidy data font) {index : Nat} {program : Bytes}
    (slice : program <:+: data) (small : program.length < 65536) :
    Tidy data (font.insertGlyph index program) where
  named := by
    intro name other found
    have ⟨letters, numbered, there⟩ := tidy.named name other found
    refine ⟨letters, numbered, ?_⟩
    rw [get_insert_glyph]
    split
    · exact ⟨program, rfl⟩
    · exact there
  sliced := by
    intro other stored found
    rw [get_insert_glyph] at found
    split at found
    · obtain rfl := Option.some.inj found
      exact ⟨slice, small⟩
    · exact tidy.sliced other stored found

/-- A name comes with its glyph, so it does not matter what was stored for either before. -/
theorem Tidy.store (tidy : Tidy data font) {index : Nat} {record : Bytes} (numbered : index ≠ 0)
    (slice : record <:+: data) (small : record.length < 65536) :
    Tidy data (Shapes.store font index record) where
  named := by
    intro name other found
    rw [Shapes.aliases_store] at found
    rw [Shapes.glyphs_store]
    split at found
    · next taken =>
        obtain rfl := Option.some.inj found
        have splits := Shapes.splits_split_name record
        rw [taken] at splits
        exact ⟨splits.name, numbered, _, if_pos rfl⟩
    · have ⟨letters, positive, there⟩ := tidy.named name other found
      refine ⟨letters, positive, ?_⟩
      split
      · exact ⟨_, rfl⟩
      · exact there
  sliced := by
    intro other program found
    rw [Shapes.glyphs_store] at found
    split at found
    · obtain rfl := Option.some.inj found
      have suffix := (Shapes.splits_split_name record).suffix
      exact ⟨suffix.isInfix.trans slice, Nat.lt_of_le_of_lt suffix.length_le small⟩
    · exact tidy.sliced other program found

theorem tidy_foldl {Item : Type} {step : Font → Item → Font} {items : List Item}
    (start : Tidy data font)
    (kept : ∀ font, Tidy data font → ∀ item ∈ items, Tidy data (step font item)) :
    Tidy data (items.foldl step font) :=
  List.foldlRecOn items step start kept

end

/-! ### Files of shapes -/

namespace Shapes

variable {data : Bytes} {font found : Font}

theorem glyphs_of_pieces (pieces : List Piece) {index : Nat} (noneBefore : font.glyphs[index]? = none) :
    (pieces.foldl Piece.addTo font).glyphs[index]? =
      (lastOf (Piece.recordFor index) pieces).map fun record => (splitName record).2 := by
  have given (font : Font) (piece : Piece) : (piece.addTo font).glyphs[index]? =
      (piece.recordFor index).elim font.glyphs[index]? fun record => some (splitName record).2 := by
    cases piece with
    | glyph other record _ =>
        rw [Piece.addTo, glyphs_store, Piece.recordFor]
        split
        · rfl
        · rfl
    | info named => rfl
  rw [view_foldl (Piece.recordFor index) (fun font => font.glyphs[index]?) Piece.addTo _ given,
    noneBefore]
  cases lastOf (Piece.recordFor index) pieces with
  | none => rfl
  | some record => rfl

theorem record_for_zero (pieces : List Piece) : lastOf (Piece.recordFor 0) pieces = none := by
  apply List.findSome?_eq_none_iff.mpr
  intro piece _
  cases piece with
  | glyph index record numbered => exact if_neg numbered
  | info named => rfl

theorem tidy_pieces {pieces : List Piece} (start : Tidy data font)
    (slices : pieces.flatMap Piece.bytes <:+: data)
    (small : ∀ piece ∈ pieces, piece.entry.length < 65536) :
    Tidy data (pieces.foldl Piece.addTo font) := by
  apply tidy_foldl start
  intro font tidy piece member
  cases piece with
  | glyph index record numbered =>
      have part : record <:+: data :=
        (List.infix_of_mem_flatten (List.mem_map_of_mem (f := Piece.bytes) member)).trans slices
      exact tidy.store numbered part (small _ member)
  | info named => exact ⟨tidy.named, tidy.sliced⟩

end Shapes

/-! ### Bigfonts and unifonts -/

theorem BigFont.tidy_entries {data : Bytes} {font : Font} {entries : List BigFont.Entry}
    (start : Tidy data font) (small : ∀ entry ∈ entries, entry.length < 65536) :
    Tidy data (entries.foldl (BigFont.Entry.addTo data) font) := by
  apply tidy_foldl start
  intro font tidy entry member
  unfold BigFont.Entry.addTo
  split
  · exact ⟨tidy.named, tidy.sliced⟩
  · apply tidy.insert_glyph
    · exact (List.take_prefix _ _).isInfix.trans (List.drop_suffix _ _).isInfix
    · exact Nat.lt_of_le_of_lt (List.length_take_le _ _) (small entry member)

theorem BigFont.length_small {body : Bytes} {entry : BigFont.Entry}
    (member : entry ∈ BigFont.entries body) : entry.length < 65536 := by
  obtain ⟨index, -, rfl⟩ := List.mem_map.mp member
  exact Bytes.number_at_lt _ 2 2

theorem Unifont.tidy_records {data : Bytes} {font found : Font} {reader after : Reader} {count : Nat}
    (start : Tidy data font) (intact : reader.Intact) (holds : reader.data.toList = data)
    (read : Unifont.readRecords font count reader = .ok (found, after)) :
    Tidy data found ∧ found.aliases = font.aliases := by
  have loop := Unifont.record_loop_eq font count reader
  have slices := Unifont.record_loop_slices font intact count
  rw [holds] at slices
  rw [read] at loop
  rcases Unifont.record_loop_ends font count reader with ⟨-, cut⟩ | ⟨-, done⟩
  · rw [loop] at cut
    contradiction
  · rw [loop] at done
    obtain rfl := Except.ok.inj done
    constructor
    · apply tidy_foldl start
      intro font tidy glyph member
      exact tidy.insert_glyph (slices glyph member).1 (slices glyph member).2
    · apply kept_foldl Font.aliases
      intro font glyph
      rfl

/-! ### Accepted files -/

section

variable {data : Bytes} {font : Font}

theorem table_of_accepted (accepted : ofWhole data = .ok font) :
    ∃ reader after, Behind data (behindLine data) reader ∧
      readTable font.headerOf reader = .ok (font, after) := by
  obtain ⟨reader, read⟩ := read_of_accepted accepted
  rw [whole_of_read read] at accepted
  cases table : readTable font.headerOf reader with
  | error fault =>
      rw [table] at accepted
      contradiction
  | ok result =>
      obtain ⟨found, after⟩ := result
      rw [table] at accepted
      obtain rfl := Except.ok.inj accepted
      exact ⟨reader, after, behind_line_of_read read, table⟩

theorem tidy_blank (header : Header) : Tidy data header.blank := tidy_of_nothing rfl rfl

theorem shapes_of_accepted (accepted : ofWhole data = .ok font) (shapes : font.kind = .shapes) :
    Shapes.tableEnd (behindLine data) ≤ (behindLine data).length ∧ ∃ pieces : List Shapes.Piece,
      pieces.map Shapes.Piece.entry = Shapes.entries (behindLine data) ∧
      pieces.flatMap Shapes.Piece.bytes <+:
        (behindLine data).drop (Shapes.tableEnd (behindLine data)) ∧
      font = pieces.foldl Shapes.Piece.addTo font.headerOf.blank := by
  obtain ⟨reader, after, behind, read⟩ := table_of_accepted accepted
  have kind : font.headerOf.kind = .shapes := shapes
  rw [read_table_eq, kind] at read
  exact Shapes.pieces_of_file behind read

theorem tidy_shapes (accepted : ofWhole data = .ok font) (shapes : font.kind = .shapes) :
    Tidy data font ∧ font.glyphs[0]? = none := by
  obtain ⟨-, pieces, entries, placed, made⟩ := shapes_of_accepted accepted shapes
  rw [made]
  constructor
  · apply Shapes.tidy_pieces (tidy_blank _)
    · exact placed.isInfix.trans ((List.drop_suffix _ _).isInfix.trans (List.drop_suffix _ _).isInfix)
    · intro piece member
      have listed : piece.entry ∈ Shapes.entries (behindLine data) :=
        entries ▸ List.mem_map_of_mem member
      exact Shapes.length_small listed
  · rw [Shapes.glyphs_of_pieces pieces rfl, Shapes.record_for_zero]
    rfl

theorem tidy_bigfont (accepted : ofWhole data = .ok font) (bigfont : font.kind = .bigFont) :
    Tidy data font ∧ font.glyphs[0]? = none ∧ font.aliases = ∅ := by
  obtain ⟨reader, after, behind, read⟩ := table_of_accepted accepted
  have kind : font.headerOf.kind = .bigFont := bigfont
  rw [read_table_eq, kind] at read
  by_cases complete : BigFont.Complete data (behindLine data)
  · obtain ⟨other, again⟩ := BigFont.read_complete _ behind complete
    rw [again] at read
    obtain ⟨made, -⟩ := Prod.mk.inj (Except.ok.inj read)
    rw [← made]
    refine ⟨?_, ?_, ?_⟩
    · exact BigFont.tidy_entries (tidy_of_nothing rfl rfl) fun _ member => BigFont.length_small member
    · exact (BigFont.glyphs_of_entries _ rfl).trans (BigFont.program_for_zero _)
    · apply kept_foldl Font.aliases
      intro font entry
      exact congrArg Prod.fst (BigFont.unnamed_add_to font entry)
  · obtain ⟨fault, refused, -⟩ := BigFont.read_incomplete _ behind complete
    rw [refused] at read
    contradiction

theorem tidy_unifont (accepted : ofWhole data = .ok font) (unifont : font.kind = .unifont) :
    Tidy data font ∧ font.aliases = ∅ := by
  obtain ⟨reader, after, behind, read⟩ := table_of_accepted accepted
  have kind : font.headerOf.kind = .unifont := unifont
  obtain ⟨start, header⟩ := read_of_accepted accepted
  obtain ⟨heading, body, parts, -⟩ := heading_of_read header
  rw [kind] at parts
  rw [read_table_eq, kind] at read
  rw [parts, behind_line_append] at behind
  rcases Nat.lt_or_ge body.length 6 with few | counts
  · rw [Unifont.read_uncounted _ behind few] at read
    contradiction
  · obtain ⟨middle, left, again⟩ := Unifont.read_counted _ heading behind counts
    rw [again] at read
    obtain ⟨tidy, names⟩ :=
      Unifont.tidy_records (tidy_of_nothing rfl rfl) left.intact left.data read
    rw [parts]
    exact ⟨tidy, names⟩

/-- Of every accepted file: a name has letters, and only those, and stands for a glyph that is there
and is not number zero; only files of shapes have names, and only unifonts a glyph with number zero;
and every program is a part of the file, of at most 65535 bytes. In a file of shapes the records lie one
behind the other from the end of the table on, one for each entry and as long as it says, but for the
font info. A glyph has the program of its last record, whole or without the two zeros, the single zero
or the name between zeros in front of it. -/
theorem accepted_fonts_are_tidy (data : Bytes) (held : Font) :
    let answer := (load data).run held
    answer.1 = none →
      (∀ (name : Bytes) (index : Nat), answer.2.aliases[name]? = some index →
        (name ≠ [] ∧ ∀ letter ∈ name, letter ∈ Shapes.nameLetters) ∧
          index ≠ 0 ∧ ∃ program, answer.2.glyphs[index]? = some program) ∧
      (answer.2.kind ≠ .shapes → answer.2.aliases = ∅) ∧
      (answer.2.kind ≠ .unifont → answer.2.glyphs[0]? = none) ∧
      (∀ (index : Nat) (program : Bytes), answer.2.glyphs[index]? = some program →
        program <:+: data ∧ program.length ≤ 65535) ∧
      (answer.2.kind = .shapes →
        let body := behindLine data
        Shapes.tableEnd body ≤ body.length ∧ ∃ pieces : List Shapes.Piece,
          pieces.map Shapes.Piece.entry = Shapes.entries body ∧
          pieces.flatMap Shapes.Piece.bytes <+: body.drop (Shapes.tableEnd body) ∧
          ∀ (index : Nat) (program : Bytes), answer.2.glyphs[index]? = some program →
            ∃ record name?, lastOf (Shapes.Piece.recordFor index) pieces = some record ∧
              Shapes.Splits record name? program) := by
  intro answer loaded
  have accepted : ofWhole data = .ok answer.2 := whole_of_accepted (of_bytes_of_load loaded)
  have tidy : Tidy data answer.2 := by
    cases kind : answer.2.kind with
    | shapes => exact (tidy_shapes accepted kind).1
    | bigFont => exact (tidy_bigfont accepted kind).1
    | unifont => exact (tidy_unifont accepted kind).1
  refine ⟨tidy.named, ?_, ?_, ?_, ?_⟩
  · intro unnamed
    cases kind : answer.2.kind with
    | shapes => exact absurd kind unnamed
    | bigFont => exact (tidy_bigfont accepted kind).2.2
    | unifont => exact (tidy_unifont accepted kind).2
  · intro numbered
    cases kind : answer.2.kind with
    | shapes => exact (tidy_shapes accepted kind).2
    | bigFont => exact (tidy_bigfont accepted kind).2.1
    | unifont => exact absurd kind numbered
  · intro index program found
    have ⟨slice, small⟩ := tidy.sliced index program found
    exact ⟨slice, Nat.le_of_lt_succ small⟩
  · intro shapes body
    obtain ⟨whole, pieces, entries, placed, made⟩ := shapes_of_accepted accepted shapes
    refine ⟨whole, pieces, entries, placed, ?_⟩
    intro index program found
    rw [made, Shapes.glyphs_of_pieces pieces rfl] at found
    obtain ⟨record, last, rfl⟩ := Option.map_eq_some_iff.mp found
    exact ⟨record, _, last, Shapes.splits_split_name record⟩

/-- Glyph 65 has a name in front of its program. In front of glyph 66 is a single zero: what stands
behind it up to the next zero has a small letter. -/
theorem small_letter_is_no_name :
    let data : Bytes := [97, 32, 115, 104, 97, 112, 101, 115, 32, 98, 13, 10, 26,
      65, 0, 66, 0, 2, 0, 65, 0, 5, 0, 66, 0, 4, 0, 0, 65, 66, 0, 16, 0, 97, 0, 16]
    let answer := (load data).run empty
    answer.1 = none ∧ answer.2.kind = .shapes ∧
      answer.2.aliases[([65, 66] : Bytes)]? = some 65 ∧
      (∃ program, answer.2.glyphs[65]? = some program) ∧
      answer.2.glyphs[66]? = some [97, 0, 16] ∧
      ∃ pieces : List Shapes.Piece, pieces.map Shapes.Piece.entry = [⟨65, 5⟩, ⟨66, 4⟩] ∧
        ∃ record name?, lastOf (Shapes.Piece.recordFor 66) pieces = some record ∧
          Shapes.Splits record name? [97, 0, 16] := by
  intro data answer
  have loaded : answer.1 = none := by decide +kernel
  have kind : answer.2.kind = .shapes := by decide +kernel
  have name : answer.2.aliases[([65, 66] : Bytes)]? = some 65 := by decide +kernel
  have glyph : answer.2.glyphs[66]? = some [97, 0, 16] := by decide +kernel
  have table : Shapes.entries (behindLine data) = [⟨65, 5⟩, ⟨66, 4⟩] := by decide +kernel
  obtain ⟨named, -, -, -, records⟩ := accepted_fonts_are_tidy data empty loaded
  obtain ⟨-, pieces, entries, -, made⟩ := records kind
  have there := (named _ _ name).2.2
  exact ⟨loaded, kind, name, there, glyph, pieces, entries.trans table, made _ _ glyph⟩

end

end ShapeFont.Font
