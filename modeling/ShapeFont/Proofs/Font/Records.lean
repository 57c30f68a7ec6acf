import ShapeFont.Proofs.Font.Refusals

/-!
# What a record becomes

A record is what the file has for one entry of its table. Whatever bytes it has, its program is the
record without one of few beginnings, and a name is only taken off if it is one. The records of a file
that was read lie behind its table without a gap, one for each entry, and the font is what they make
of it one after the other.
-/

namespace ShapeFont.Font.Shapes

open Reader

/-- Behind a single zero these bytes are not taken for a name: they have no zero at their end, or a
byte before it that no name has. -/
def Nameless (program : Bytes) : Prop :=
  0 ∉ program ∨ ∃ before byte after, program = before ++ byte :: after ∧
    0 ∉ before ∧ byte ≠ 0 ∧ byte ∉ nameLetters

/-- The name and the program of a record. Besides the forms in which programs are written there is a
single zero that belongs to neither. -/
inductive Splits : (record : Bytes) → (name? : Option Bytes) → (program : Bytes) → Prop where
  | written (form : Form) {program : Bytes} (fits : form.Fits program) :
      Splits (form.bytes program) form.name? program
  | singleZero {program : Bytes} (nameless : Nameless program) : Splits (0 :: program) none program

theorem mem_name_letters {letter : UInt8} (named : isNameByte letter = true) :
    letter ∈ nameLetters := by
  have all : ∀ value : Fin 256, isNameByte (UInt8.ofNat value) = true →
      UInt8.ofNat value ∈ nameLetters := by decide +kernel
  have found := all ⟨letter.toNat, letter.toNat_lt⟩
  simp only [UInt8.ofNat_toNat] at found
  exact found named

theorem split_open {program : Bytes} (noZero : 0 ∉ program) :
    splitName (0 :: program) = (none, program) := by
  have kept : ∀ value ∈ program, (value != 0) = true := by
    intro value member
    exact bne_iff_ne.mpr fun zero => noZero (zero ▸ member)
  have all : program.dropWhile (· != 0) = [] := by
    rw [← List.append_nil program, List.dropWhile_append_of_pos kept, List.dropWhile_nil]
  unfold splitName
  split
  · next same => exact absurd (by rw [(List.cons.inj same).2]; exact List.mem_cons_self) noZero
  · next rest _ same =>
      obtain rfl := (List.cons.inj same).2
      rw [all]
  · next plain => exact absurd rfl (plain _)

theorem splits_candidate {first : UInt8} (noZero : first ≠ 0) {name program : Bytes}
    (solid : 0 ∉ first :: name) :
    Splits (0 :: (first :: name ++ 0 :: program))
      (splitName (0 :: (first :: name ++ 0 :: program))).1
      (splitName (0 :: (first :: name ++ 0 :: program))).2 := by
  rw [split_candidate noZero solid]
  cases accepted : (first :: name).all isNameByte with
  | true =>
      have letters : ∀ letter ∈ first :: name, letter ∈ nameLetters := fun letter member =>
        mem_name_letters (List.all_eq_true.mp accepted letter member)
      exact Splits.written (.named (first :: name)) ⟨List.cons_ne_nil _ _, letters⟩
  | false =>
      obtain ⟨byte, member, refused⟩ := List.all_eq_false.mp accepted
      obtain ⟨before, after, parts⟩ := List.append_of_mem member
      rw [parts] at solid
      apply Splits.singleZero
      right
      refine ⟨before, byte, after ++ 0 :: program, ?_, ?_, ?_, ?_⟩
      · rw [parts, List.append_assoc, List.cons_append]
      · exact fun zero => solid (List.mem_append_left _ zero)
      · rintro rfl
        exact solid (List.mem_append_right _ List.mem_cons_self)
      · exact fun letter => refused (name_letter letter).2

theorem splits_split_name (record : Bytes) :
    Splits record (splitName record).1 (splitName record).2 := by
  by_cases front : record.head? = some 0
  · obtain ⟨rest, rfl⟩ := List.head?_eq_some_iff.mp front
    by_cases zero : 0 ∈ rest
    · obtain ⟨name, program, rfl, solid⟩ := List.eq_append_cons_of_mem zero
      cases name with
      | nil => exact Splits.written .unnamed trivial
      | cons first name =>
          exact splits_candidate (fun same => solid (same ▸ List.mem_cons_self)) solid
    · rw [split_open zero]
      exact Splits.singleZero (.inl zero)
  · rw [split_bare front]
    exact Splits.written .bare front

theorem Splits.suffix {record program : Bytes} {name? : Option Bytes}
    (splits : Splits record name? program) : program <:+ record := by
  cases splits with
  | written form _ =>
      cases form with
      | bare => exact List.suffix_rfl
      | unnamed => exact ⟨[0, 0], rfl⟩
      | named name => exact ⟨0 :: (name ++ [0]), by simp [Form.bytes]⟩
  | singleZero _ => exact List.suffix_cons 0 program

theorem Splits.name {record program name : Bytes} (splits : Splits record (some name) program) :
    name ≠ [] ∧ ∀ letter ∈ name, letter ∈ nameLetters := by
  generalize named : some name = name? at splits
  cases splits with
  | written form fits =>
      cases form with
      | bare => cases named
      | unnamed => cases named
      | named other =>
          obtain rfl := Option.some.inj named
          exact fits
  | singleZero _ => cases named

/-! ### The records of a file -/

/-- What the file has for one entry of its table. -/
inductive Piece where
  | glyph (index : Nat) (record : Bytes) (numbered : index ≠ 0)
  | info (info : InfoRecord)

namespace Piece

def entry : Piece → Entry
  | glyph index record _ => { index, length := record.length }
  | info named => named.entry

def bytes : Piece → Bytes
  | glyph _ record _ => record
  | info named => named.bytes

def addTo (font : Font) : Piece → Font
  | glyph index record _ => store font index record
  | info named => named.addTo font

def recordFor (index : Nat) : Piece → Option Bytes
  | glyph other record _ => if other = index then some record else none
  | info _ => none

end Piece

section

attribute [local irreducible] Reader.uint Reader.seek Reader.take Reader.takeText

variable {data body : Bytes} {reader after : Reader} {font found : Font}

/-- The length in the entry of the font info is not used, but it is a word of two bytes. -/
theorem info_of_read {entry : Entry} (intact : reader.Intact) (info : entry.index = 0)
    (small : entry.length < 65536) (read : readRecord font entry reader = .ok (found, after)) :
    ∃ record : InfoRecord, record.entry = entry ∧ reader.rest = record.bytes ++ after.rest ∧
      after.Intact ∧ found = record.addTo font := by
  have once : font.hasMetrics = false := by
    cases twice : font.hasMetrics with
    | false => rfl
    | true =>
        rw [read_record_info font info, read_info_twice font twice] at read
        contradiction
  have behindText : (reader.takeText.2).Sound := (onward_take_text reader).sound intact.sound
  have enough : 3 ≤ reader.takeText.2.remaining := by
    apply Nat.le_of_not_lt
    intro few
    have cut := spans_metrics.short behindText few
    rw [read_record_info font info, read_info_once font once, checked_eq, read_named_eq,
      if_pos cut] at read
    contradiction
  have ended : reader.takeText.1.length < reader.remaining := by
    have inside : reader.takeText.2.cursor < reader.size := by
      have same := congrArg Array.size (onward_take_text reader).data
      unfold remaining Reader.size at enough
      unfold Reader.size
      omega
    have before := ended_of_take_text intact.sound inside
    unfold remaining
    omega
  obtain ⟨terminator, more, parts, ends⟩ := text_of_ended ended
  obtain ⟨text, -, rest⟩ := take_text_reads intact parts (clean_take_text reader) ends
  rw [text] at enough
  dsimp only at enough
  rw [← length_rest, rest] at enough
  obtain ⟨above, more, rfl⟩ := List.exists_cons_of_length_pos (by omega : 0 < more.length)
  rw [List.length_cons] at enough
  obtain ⟨below, more, rfl⟩ := List.exists_cons_of_length_pos (by omega : 0 < more.length)
  rw [List.length_cons] at enough
  obtain ⟨modes, more, rfl⟩ := List.exists_cons_of_length_pos (by omega : 0 < more.length)
  let record : InfoRecord :=
    { name := reader.takeText.1, terminator, above, below, modes, length := entry.length
      clean := clean_take_text reader, ends, length_small := small }
  have same : record.entry = entry := by rw [InfoRecord.entry, ← info]
  have ahead : reader.rest = record.bytes ++ more := by
    rw [parts]
    simp [record, InfoRecord.bytes]
  obtain ⟨other, again, still, left⟩ := read_info_reads font intact record once ahead
  rw [same, read] at again
  obtain ⟨rfl, rfl⟩ := Prod.mk.inj (Except.ok.inj again)
  exact ⟨record, same, by rw [ahead, left], still, rfl⟩

theorem piece_of_read {entry : Entry} (intact : reader.Intact) (small : entry.length < 65536)
    (read : readRecord font entry reader = .ok (found, after)) :
    ∃ piece : Piece, piece.entry = entry ∧ reader.rest = piece.bytes ++ after.rest ∧
      after.Intact ∧ found = piece.addTo font := by
  by_cases info : entry.index = 0
  · obtain ⟨record, same, parts, still, made⟩ := info_of_read intact info small read
    exact ⟨.info record, same, parts, still, made⟩
  · rw [read_record_glyph font info] at read
    obtain ⟨enough, done⟩ := (spans_take entry.length).of_checked intact read
    obtain ⟨rfl, rfl⟩ := Prod.mk.inj (Except.ok.inj done)
    have length : (reader.rest.take entry.length).length = entry.length := by
      rw [List.length_take, length_rest, Nat.min_eq_left enough]
    refine ⟨.glyph entry.index (reader.rest.take entry.length) info, ?_, ?_, ?_, rfl⟩
    · rw [Piece.entry, length]
    · rw [rest_skip]
      exact (List.take_append_drop _ _).symm
    · exact intact.skip enough

theorem pieces_of_records {entries : List Entry} (intact : reader.Intact)
    (small : ∀ entry ∈ entries, entry.length < 65536)
    (read : readRecords font entries reader = .ok (found, after)) :
    ∃ pieces : List Piece, pieces.map Piece.entry = entries ∧
      reader.rest = pieces.flatMap Piece.bytes ++ after.rest ∧
      found = pieces.foldl Piece.addTo font := by
  induction entries generalizing font reader with
  | nil =>
      obtain ⟨rfl, rfl⟩ := Prod.mk.inj (Except.ok.inj read)
      exact ⟨[], rfl, rfl, rfl⟩
  | cons entry entries ih =>
      rw [read_records_cons] at read
      cases first : readRecord font entry reader with
      | error fault =>
          rw [first] at read
          contradiction
      | ok result =>
          obtain ⟨made, middle⟩ := result
          rw [first] at read
          obtain ⟨piece, same, parts, still, rfl⟩ :=
            piece_of_read intact (small entry List.mem_cons_self) first
          obtain ⟨pieces, others, further, rfl⟩ :=
            ih still (fun later member => small later (List.mem_cons_of_mem _ member)) read
          refine ⟨piece :: pieces, ?_, ?_, rfl⟩
          · rw [List.map_cons, same, others]
          · rw [parts, further, List.flatMap_cons, List.append_assoc]

theorem length_small {entry : Entry} (member : entry ∈ entries body) : entry.length < 65536 := by
  obtain ⟨index, -, rfl⟩ := List.mem_map.mp member
  exact Bytes.number_at_lt _ 2 2

/-- The records of a file that was read lie one behind the other, from the end of the table on. -/
theorem pieces_of_file (behind : Behind data body reader) (done : read font reader = .ok (found, after)) :
    tableEnd body ≤ body.length ∧ ∃ pieces : List Piece, pieces.map Piece.entry = entries body ∧
      pieces.flatMap Piece.bytes <+: body.drop (tableEnd body) ∧
      found = pieces.foldl Piece.addTo font := by
  rcases Nat.lt_or_ge body.length (tableEnd body) with cut | whole
  · obtain ⟨fault, refused, -⟩ := read_of_cut_table font behind cut
    rw [refused] at done
    contradiction
  · obtain ⟨middle, left, read⟩ := read_of_table font behind whole
    rw [read] at done
    obtain ⟨pieces, same, parts, made⟩ :=
      pieces_of_records left.intact (fun _ member => length_small member) done
    refine ⟨whole, pieces, same, ?_, made⟩
    rw [← left.rest, parts]
    exact List.prefix_append _ _

end

end ShapeFont.Font.Shapes
