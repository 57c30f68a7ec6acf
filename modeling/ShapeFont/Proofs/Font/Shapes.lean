import ShapeFont.Proofs.Font.Loading

/-!
# Shapes are read as they were written

The entries of the table and the records stand apart, and a record says by its first bytes whether it
has a name. `Sheet` is a file as a writer makes it, with each program written in one of the three
forms. The forms are told apart whatever the program is, and the table and the records stay in step
although the length of the font info is not used.
-/

namespace ShapeFont.Font.Shapes

open Reader

def nameLetters : Bytes := Bytes.ofString "ABCDEFGHIJKLMNOPQRSTUVWXYZ0123456789 &"

/-- The ways in which a program is written into a record. -/
inductive Form where
  /-- The program alone. -/
  | bare
  /-- The program behind two zeros. -/
  | unnamed
  /-- The program behind a name between zeros. -/
  | named (name : Bytes)

namespace Form

def bytes : Form → Bytes → Bytes
  | bare, program => program
  | unnamed, program => 0 :: 0 :: program
  | named name, program => 0 :: (name ++ 0 :: program)

def name? : Form → Option Bytes
  | named name => some name
  | _ => none

/-- A program that begins with a zero cannot stand alone, and a name has to be one. -/
def Fits : Form → Bytes → Prop
  | bare, program => program.head? ≠ some 0
  | unnamed, _ => True
  | named name, _ => name ≠ [] ∧ ∀ letter ∈ name, letter ∈ nameLetters

instance (form : Form) (program : Bytes) : Decidable (form.Fits program) :=
  match form with
  | bare => inferInstanceAs (Decidable (program.head? ≠ some 0))
  | unnamed => .isTrue trivial
  | named name => inferInstanceAs (Decidable (name ≠ [] ∧ ∀ letter ∈ name, letter ∈ nameLetters))

end Form

/-- What the record of a glyph says. -/
structure GlyphRecord where
  index : Nat
  form : Form
  program : Bytes
  index_range : 1 ≤ index ∧ index < 65536
  fits : form.Fits program
  small : (form.bytes program).length < 65536

/-- What the font info says, and the length that its entry says it has. -/
structure InfoRecord where
  name : Bytes
  terminator : UInt8
  above : UInt8
  below : UInt8
  modes : UInt8
  length : Nat
  clean : ∀ value ∈ name, endsText value = false
  ends : endsText terminator = true
  length_small : length < 65536

namespace GlyphRecord

variable (record : GlyphRecord)

def bytes : Bytes := record.form.bytes record.program

def entry : Entry := { index := record.index, length := record.bytes.length }

def addTo (font : Font) (record : GlyphRecord) : Font := store font record.index record.bytes

def programFor (index : Nat) (record : GlyphRecord) : Option Bytes :=
  if record.index = index then some record.program else none

def indexFor (name : Bytes) (record : GlyphRecord) : Option Nat :=
  if record.form.name? = some name then some record.index else none

end GlyphRecord

namespace InfoRecord

variable (info : InfoRecord)

def bytes : Bytes := info.name ++ info.terminator :: [info.above, info.below, info.modes]

def entry : Entry := { index := 0, length := info.length }

def metrics : Bool × Int × Int × Int :=
  (true, info.above.toNat, info.below.toNat, info.modes.toNat)

def addTo (font : Font) (info : InfoRecord) : Font :=
  { font with
    name := info.name
    above := info.above.toNat, below := info.below.toNat, modes := info.modes.toNat
    hasMetrics := true }

end InfoRecord

def Entry.bytes (entry : Entry) : Bytes := Bytes.ofNat 2 entry.index ++ Bytes.ofNat 2 entry.length

def Entry.ofBytes (bytes : Bytes) : Entry :=
  { index := bytes.numberAt 0 2, length := bytes.numberAt 2 2 }

def entries (body : Bytes) : List Entry := table 4 Entry.ofBytes (body.numberAt 4 2) (body.drop 6)

/-- A file of shapes as a writer makes it: the records with the font info, if there is one, among
them. -/
structure Sheet where
  heading : Heading
  first : Nat
  last : Nat
  before : List GlyphRecord
  info? : Option InfoRecord
  after : List GlyphRecord
  first_small : first < 65536
  last_small : last < 65536
  few : before.length + info?.toList.length + after.length < 65536

namespace Sheet

variable (sheet : Sheet)

def entries : List Entry :=
  sheet.before.map GlyphRecord.entry ++ sheet.info?.toList.map InfoRecord.entry ++
    sheet.after.map GlyphRecord.entry

def recordBytes : Bytes :=
  sheet.before.flatMap GlyphRecord.bytes ++ sheet.info?.toList.flatMap InfoRecord.bytes ++
    sheet.after.flatMap GlyphRecord.bytes

def body : Bytes :=
  Bytes.ofNat 2 sheet.first ++ (Bytes.ofNat 2 sheet.last ++ (Bytes.ofNat 2 sheet.entries.length ++
    (sheet.entries.flatMap Entry.bytes ++ sheet.recordBytes)))

def bytes : Bytes := sheet.heading.bytes .shapes ++ sheet.body

def glyphs : List GlyphRecord := sheet.before ++ sheet.after

end Sheet

/-! ### Names are told from programs -/

theorem name_letter {letter : UInt8} (member : letter ∈ nameLetters) :
    letter ≠ 0 ∧ isNameByte letter = true := by
  have all : ∀ letter ∈ nameLetters, letter ≠ 0 ∧ isNameByte letter = true := by decide +kernel
  exact all letter member

theorem split_bare {program : Bytes} (fits : program.head? ≠ some 0) :
    splitName program = (none, program) := by
  unfold splitName
  split
  · exact absurd rfl fits
  · exact absurd rfl fits
  · rfl

theorem split_candidate {first : UInt8} (noZero : first ≠ 0) {name program : Bytes}
    (solid : 0 ∉ first :: name) :
    splitName (0 :: (first :: name ++ 0 :: program)) =
      if (first :: name).all isNameByte then (some (first :: name), program)
      else (none, first :: name ++ 0 :: program) := by
  have kept : ∀ letter ∈ first :: name, (letter != 0) = true := by
    intro letter member
    exact bne_iff_ne.mpr fun zero => solid (zero ▸ member)
  have front : (first :: name ++ 0 :: program).takeWhile (· != 0) = first :: name := by
    rw [List.takeWhile_append_of_pos kept, List.takeWhile_cons_of_neg (by simp), List.append_nil]
  have back : (first :: name ++ 0 :: program).dropWhile (· != 0) = 0 :: program := by
    rw [List.dropWhile_append_of_pos kept, List.dropWhile_cons_of_neg (by simp)]
  unfold splitName
  split
  · next same => exact absurd (List.cons.inj (List.cons.inj same).2).1 noZero
  · next rest _ same =>
      obtain rfl := (List.cons.inj same).2
      rw [front, back]
  · next plain => exact absurd rfl (plain _)

theorem split_named {name program : Bytes} (someLetter : name ≠ [])
    (letters : ∀ letter ∈ name, letter ∈ nameLetters) :
    splitName (0 :: (name ++ 0 :: program)) = (some name, program) := by
  have solid : 0 ∉ name := fun zero => (name_letter (letters 0 zero)).1 rfl
  have accepted : name.all isNameByte = true :=
    List.all_eq_true.mpr fun letter member => (name_letter (letters letter member)).2
  obtain ⟨letter, others, rfl⟩ := List.exists_cons_of_ne_nil someLetter
  have noZero : letter ≠ 0 := (name_letter (letters letter List.mem_cons_self)).1
  rw [split_candidate noZero solid, if_pos accepted]

theorem split_name_bytes {form : Form} {program : Bytes} (fits : form.Fits program) :
    splitName (form.bytes program) = (form.name?, program) := by
  cases form with
  | bare => exact split_bare fits
  | unnamed => rfl
  | named name => exact split_named fits.1 fits.2

section

attribute [local irreducible] Reader.uint Reader.seek Reader.take Reader.takeText

variable {data body more : Bytes} {reader : Reader} (font : Font)

/-! ### The table -/

theorem spans_count : Spans readCount 6 fun bytes => bytes.numberAt 4 2 := by
  have parts := (spans_uint 2).bind fun _ => (spans_uint 2).bind fun _ =>
    (spans_uint 2).bind fun count => spans_pure count
  exact parts.congr fun bytes _ => by simp [Bytes.numberAt]

theorem spans_entry : Spans readEntry 4 Entry.ofBytes := by
  have parts := (spans_uint 2).bind fun index => (spans_uint 2).bind fun length =>
    spans_pure ({ index, length } : Entry)
  exact parts.congr fun bytes _ => by simp [Entry.ofBytes, Bytes.numberAt]

theorem entry_of_bytes {entry : Entry} (indexSmall : entry.index < 65536)
    (lengthSmall : entry.length < 65536) : Entry.ofBytes entry.bytes = entry := by
  have indexFits : entry.index < Nat.pow 256 2 := indexSmall
  have lengthFits : entry.length < Nat.pow 256 2 := lengthSmall
  have index := Bytes.number_at_of_nat indexFits [] (Bytes.ofNat 2 entry.length)
  have length := Bytes.number_at_of_nat lengthFits (Bytes.ofNat 2 entry.index) []
  rw [List.append_nil, Bytes.length_of_nat] at length
  rw [Entry.ofBytes, Entry.bytes, length]
  exact congrArg (Entry.mk · entry.length) index

def tableEnd (body : Bytes) : Nat := 6 + body.numberAt 4 2 * 4

theorem read_of_table (behind : Behind data body reader) (whole : tableEnd body ≤ body.length) :
    ∃ after, Behind data (body.drop (tableEnd body)) after ∧
      read font reader = readRecords font (entries body) after := by
  unfold tableEnd at whole ⊢
  have enough : 6 ≤ reader.remaining := by
    rw [behind.remaining]
    omega
  have further := behind.intact.skip enough
  have enoughTable : body.numberAt 4 2 * 4 ≤ (reader.skip 6).remaining := by
    rw [remaining_skip, behind.remaining]
    omega
  refine ⟨_, ⟨further.skip enoughTable, ?_, behind.data⟩, ?_⟩
  · rw [rest_skip, rest_skip, behind.rest, List.drop_drop]
  · rw [read_eq, checked_of_enough spans_count behind.intact enough, behind.rest,
      Bytes.number_at_take _ (by decide),
      checked_of_enough (spans_many spans_entry _) further enoughTable, rest_skip, behind.rest,
      table_take]
    rfl

theorem table_of_cut_body {body : Bytes} {room : Nat} (inside : tableEnd body ≤ room) :
    tableEnd (body.take room) = tableEnd body ∧ entries (body.take room) = entries body := by
  unfold tableEnd at inside
  have count : Bytes.numberAt (body.take room) 4 2 = body.numberAt 4 2 :=
    Bytes.number_at_take body (by omega)
  refine ⟨by rw [tableEnd, count, tableEnd], ?_⟩
  rw [entries, count, List.drop_take, ← table_take, List.take_take, Nat.min_eq_left (by omega),
    table_take, entries]

theorem read_of_cut_table (behind : Behind data body reader) (cut : body.length < tableEnd body) :
    ∃ fault, read font reader = .error fault ∧ fault.kind = .truncatedFile := by
  rw [read_eq]
  rcases Nat.lt_or_ge reader.remaining 6 with few | enough
  · exact ⟨_, checked_of_cut spans_count behind.intact few _ _, rfl⟩
  · refine ⟨.shapesTableCut, ?_, rfl⟩
    rw [checked_of_enough spans_count behind.intact enough, behind.rest,
      Bytes.number_at_take _ (by decide)]
    rw [behind.remaining] at enough
    unfold tableEnd at cut
    apply checked_of_cut (spans_many spans_entry _) (behind.intact.skip (by rwa [behind.remaining]))
    rw [remaining_skip, behind.remaining]
    omega

/-! ### The records -/

theorem read_glyph_reads (intact : reader.Intact) (record : GlyphRecord)
    (ahead : reader.rest = record.bytes ++ more) :
    ∃ after, readRecord font record.entry reader = .ok (record.addTo font, after) ∧ after.Intact ∧
      after.rest = more := by
  have glyph : record.entry.index ≠ 0 := Nat.pos_iff_ne_zero.mp record.index_range.1
  obtain ⟨read, still, rest⟩ := (spans_take record.entry.length).reads intact ahead rfl
  refine ⟨_, ?_, still, rest⟩
  rw [read_record_glyph font glyph, checked_of_read read still]
  rfl

theorem read_named_eq (reader : Reader) : readNamed reader =
    ((reader.takeText.1, (readMetrics reader.takeText.2).1), (readMetrics reader.takeText.2).2) := rfl

theorem read_info_reads (intact : reader.Intact) (info : InfoRecord)
    (once : font.hasMetrics = false) (ahead : reader.rest = info.bytes ++ more) :
    ∃ after, readRecord font info.entry reader = .ok (info.addTo font, after) ∧ after.Intact ∧
      after.rest = more := by
  have parts : reader.rest =
      info.name ++ info.terminator :: ([info.above, info.below, info.modes] ++ more) := by
    simp [ahead, InfoRecord.bytes]
  obtain ⟨text, further, behind⟩ := take_text_reads intact parts info.clean info.ends
  obtain ⟨metrics, still, rest⟩ := spans_metrics.reads further behind rfl
  have named := read_named_eq reader
  rw [text, metrics] at named
  refine ⟨_, ?_, still, rest⟩
  rw [read_record_info font (show info.entry.index = 0 from rfl), read_info_once font once,
    checked_of_read named still]
  rfl

/-- Records that are not all there are missed, whatever they would say. -/
theorem read_glyphs_cut (intact : reader.Intact) (glyphs : List GlyphRecord)
    (cut : reader.remaining < (glyphs.flatMap GlyphRecord.bytes).length) :
    readRecords font (glyphs.map GlyphRecord.entry) reader = .error .shapesGlyphCut := by
  induction glyphs generalizing font reader with
  | nil => exact absurd cut (Nat.not_lt_zero _)
  | cons record glyphs ih =>
      have glyph : record.entry.index ≠ 0 := Nat.pos_iff_ne_zero.mp record.index_range.1
      rw [List.flatMap_cons, List.length_append] at cut
      rw [List.map_cons, read_records_cons, read_record_glyph font glyph]
      rcases Nat.lt_or_ge reader.remaining record.bytes.length with few | enough
      · rw [checked_of_cut (spans_take record.entry.length) intact few]
        rfl
      · rw [checked_of_enough (spans_take record.entry.length) intact enough]
        apply ih _ (intact.skip enough)
        rw [remaining_skip]
        omega

theorem read_glyphs_reads (intact : reader.Intact) (glyphs : List GlyphRecord)
    (further : List Entry) (ahead : reader.rest = glyphs.flatMap GlyphRecord.bytes ++ more) :
    ∃ after, readRecords font (glyphs.map GlyphRecord.entry ++ further) reader =
        readRecords (glyphs.foldl GlyphRecord.addTo font) further after ∧
      after.Intact ∧ after.rest = more := by
  induction glyphs generalizing font reader with
  | nil => exact ⟨reader, rfl, intact, ahead⟩
  | cons record glyphs ih =>
      rw [List.flatMap_cons, List.append_assoc] at ahead
      obtain ⟨middle, read, still, rest⟩ := read_glyph_reads font intact record ahead
      rw [List.map_cons, List.cons_append, read_records_cons, read]
      exact ih _ still rest

/-! ### What the records make of the font -/

theorem glyphs_store (index : Nat) (record : Bytes) (other : Nat) :
    (store font index record).glyphs[other]? =
      if index = other then some (splitName record).2 else font.glyphs[other]? := by
  rw [← get_insert_glyph]
  unfold store
  rcases splitName record with ⟨_ | name, program⟩ <;> rfl

theorem aliases_store (index : Nat) (record name : Bytes) :
    (store font index record).aliases[name]? =
      if (splitName record).1 = some name then some index else font.aliases[name]? := by
  unfold store
  rcases splitName record with ⟨_ | other, program⟩
  · rfl
  · refine Std.TreeMap.getElem?_insert.trans ?_
    by_cases same : other = name
    · simp [same]
    · simp [same]

theorem store_eq (record : GlyphRecord) : record.addTo font =
    match record.form.name? with
    | some name => { font with
        aliases := font.aliases.insert name record.index
        glyphs := font.glyphs.insert record.index record.program }
    | none => font.insertGlyph record.index record.program := by
  rw [GlyphRecord.addTo, store, GlyphRecord.bytes, split_name_bytes record.fits]
  cases record.form.name? <;> rfl

theorem glyphs_add_to (record : GlyphRecord) (index : Nat) :
    (record.addTo font).glyphs[index]? =
      (record.programFor index).elim font.glyphs[index]? some := by
  rw [GlyphRecord.addTo, glyphs_store, GlyphRecord.bytes, split_name_bytes record.fits,
    GlyphRecord.programFor]
  split <;> rfl

theorem aliases_add_to (record : GlyphRecord) (name : Bytes) :
    (record.addTo font).aliases[name]? = (record.indexFor name).elim font.aliases[name]? some := by
  rw [GlyphRecord.addTo, aliases_store, GlyphRecord.bytes, split_name_bytes record.fits,
    GlyphRecord.indexFor]
  split <;> rfl

theorem kept_glyphs (glyphs : List GlyphRecord) :
    { glyphs.foldl GlyphRecord.addTo font with glyphs := font.glyphs, aliases := font.aliases } =
      font := by
  let keep (other : Font) : Font := { other with glyphs := font.glyphs, aliases := font.aliases }
  have kept (other : Font) (record : GlyphRecord) : keep (record.addTo other) = keep other := by
    rw [GlyphRecord.addTo, kept_store]
  exact kept_foldl keep GlyphRecord.addTo kept glyphs font

theorem add_info_earlier (info : InfoRecord) (glyphs : List GlyphRecord) :
    glyphs.foldl GlyphRecord.addTo (info.addTo font) =
      info.addTo (glyphs.foldl GlyphRecord.addTo font) := by
  apply List.foldl_hom (InfoRecord.addTo · info)
  intro other record
  rw [store_eq, store_eq]
  cases record.form.name? <;> rfl

theorem read_last_glyphs (intact : reader.Intact) (glyphs : List GlyphRecord)
    (ahead : reader.rest = glyphs.flatMap GlyphRecord.bytes) :
    (readRecords font (glyphs.map GlyphRecord.entry) reader).map Prod.fst =
      .ok (glyphs.foldl GlyphRecord.addTo font) := by
  rw [← List.append_nil (glyphs.flatMap _)] at ahead
  obtain ⟨after, read, -⟩ := read_glyphs_reads font intact glyphs [] ahead
  rw [List.append_nil] at read
  rw [read]
  rfl

theorem read_with_info (intact : reader.Intact) (info? : Option InfoRecord)
    (once : font.hasMetrics = false) (glyphs : List GlyphRecord)
    (ahead : reader.rest =
      info?.toList.flatMap InfoRecord.bytes ++ glyphs.flatMap GlyphRecord.bytes) :
    (readRecords font (info?.toList.map InfoRecord.entry ++ glyphs.map GlyphRecord.entry)
      reader).map Prod.fst =
        .ok (info?.toList.foldl InfoRecord.addTo (glyphs.foldl GlyphRecord.addTo font)) := by
  cases info? with
  | none => exact read_last_glyphs font intact glyphs ahead
  | some info =>
      simp only [Option.toList_some, List.flatMap_cons, List.flatMap_nil, List.append_nil] at ahead
      obtain ⟨middle, read, still, rest⟩ := read_info_reads font intact info once ahead
      simp only [Option.toList_some, List.map_cons, List.map_nil, List.cons_append, List.nil_append,
        List.foldl_cons, List.foldl_nil]
      rw [read_records_cons, read, ← add_info_earlier]
      exact read_last_glyphs _ still glyphs rest

end

/-! ### Sheets -/

namespace Sheet

variable (sheet : Sheet)

def font : Font :=
  sheet.info?.toList.foldl InfoRecord.addTo
    (sheet.glyphs.foldl GlyphRecord.addTo (sheet.heading.header .shapes).blank)

theorem entry_of_entries :
    ∀ entry ∈ sheet.entries, entry.bytes.length = 4 ∧ Entry.ofBytes entry.bytes = entry := by
  intro entry member
  refine ⟨rfl, ?_⟩
  simp only [entries, List.mem_append, List.mem_map] at member
  rcases member with (⟨record, -, rfl⟩ | ⟨info, -, rfl⟩) | ⟨record, -, rfl⟩
  · exact entry_of_bytes record.index_range.2 record.small
  · exact entry_of_bytes (Nat.zero_lt_succ _) info.length_small
  · exact entry_of_bytes record.index_range.2 record.small

theorem count_at : sheet.body.numberAt 4 2 = sheet.entries.length := by
  have fits : sheet.entries.length < Nat.pow 256 2 := by
    simpa [entries, Nat.add_assoc] using sheet.few
  have third := Bytes.number_at_of_nat fits (Bytes.ofNat 2 sheet.first ++ Bytes.ofNat 2 sheet.last)
    (sheet.entries.flatMap Entry.bytes ++ sheet.recordBytes)
  rwa [List.append_assoc, List.length_append, Bytes.length_of_nat, Bytes.length_of_nat] at third

theorem drop_words : sheet.body.drop 6 =
    sheet.entries.flatMap Entry.bytes ++ sheet.recordBytes := by
  rw [body, ← List.append_assoc, ← List.append_assoc, List.drop_left']
  simp

theorem length_table : (sheet.entries.flatMap Entry.bytes).length = sheet.entries.length * 4 := by
  simp [List.length_flatMap, Entry.bytes, List.map_const', Nat.mul_comm]

theorem entries_body : Shapes.entries sheet.body = sheet.entries := by
  rw [Shapes.entries, count_at, drop_words, ← table_take,
    List.take_left' sheet.length_table, table_of_encoded sheet.entry_of_entries]

theorem drop_table : sheet.body.drop (tableEnd sheet.body) = sheet.recordBytes := by
  rw [tableEnd, count_at, ← List.drop_drop, drop_words, List.drop_left' sheet.length_table]

theorem table_whole : tableEnd sheet.body ≤ sheet.body.length := by
  have counted := sheet.count_at
  rw [tableEnd, counted, body, List.length_append, List.length_append, List.length_append,
    List.length_append, length_table]
  simp only [Bytes.length_of_nat]
  omega

theorem read_records {reader : Reader} (intact : reader.Intact)
    (ahead : reader.rest = sheet.recordBytes) :
    (readRecords (sheet.heading.header .shapes).blank sheet.entries reader).map Prod.fst =
      .ok sheet.font := by
  rw [recordBytes, List.append_assoc] at ahead
  obtain ⟨middle, read, still, rest⟩ := read_glyphs_reads (sheet.heading.header .shapes).blank intact
    sheet.before (sheet.info?.toList.map InfoRecord.entry ++ sheet.after.map GlyphRecord.entry) ahead
  have once : (sheet.before.foldl GlyphRecord.addTo
      (sheet.heading.header .shapes).blank).hasMetrics = false :=
    congrArg Font.hasMetrics (kept_glyphs (sheet.heading.header .shapes).blank sheet.before)
  rw [entries, List.append_assoc, read, read_with_info _ still sheet.info? once sheet.after rest, font,
    glyphs, List.foldl_append]

theorem load_sheet (small : sheet.bytes.length < 0x80000000) (held : Font) :
    (load sheet.bytes).run held = (none, sheet.font) := by
  obtain ⟨reader, behind, whole⟩ := load_heading sheet.heading .shapes sheet.body
  have loads := (of_bytes_of_small small).trans whole
  obtain ⟨after, left, read⟩ :=
    read_of_table (sheet.heading.header .shapes).blank behind sheet.table_whole
  rw [entries_body] at read
  apply load_of_ok
  exact (loads.trans (congrArg (Except.map Prod.fst) read)).trans
    (sheet.read_records left.intact (left.rest.trans sheet.drop_table))

theorem length_body :
    sheet.body.length = tableEnd sheet.body + sheet.recordBytes.length := by
  have whole := sheet.table_whole
  have records := congrArg List.length sheet.drop_table
  rw [List.length_drop] at records
  omega

/-- A sheet of glyphs with more bytes than can be counted is cut in its records. -/
theorem load_long_sheet (plain : sheet.info? = none)
    (counted : (sheet.heading.bytes .shapes).length + tableEnd sheet.body < 0x80000000)
    (long : 0x80000000 ≤ sheet.bytes.length) (held : Font) :
    (load sheet.bytes).run held = (some .shapesGlyphCut, empty) := by
  let room := 0x7FFFFFFF - (sheet.heading.bytes .shapes).length
  have seen : sheet.bytes.counted = sheet.heading.bytes .shapes ++ sheet.body.take room := by
    rw [bytes, Bytes.counted_append, Bytes.counted_of_small (by omega)]
  have inside : tableEnd sheet.body ≤ room := by omega
  have listed : sheet.entries = sheet.glyphs.map GlyphRecord.entry := by
    simp [entries, glyphs, plain]
  have written : sheet.recordBytes = sheet.glyphs.flatMap GlyphRecord.bytes := by
    simp [recordBytes, glyphs, plain]
  have parts : sheet.bytes.length = (sheet.heading.bytes .shapes).length + sheet.body.length :=
    List.length_append
  have within := sheet.length_body
  obtain ⟨tableSame, entriesSame⟩ := table_of_cut_body inside
  obtain ⟨reader, behind, loads⟩ := load_heading sheet.heading .shapes (sheet.body.take room)
  have whole : tableEnd (sheet.body.take room) ≤ (sheet.body.take room).length := by
    rw [tableSame, List.length_take]
    omega
  obtain ⟨after, left, read⟩ := read_of_table (sheet.heading.header .shapes).blank behind whole
  have missing : after.remaining < (sheet.glyphs.flatMap GlyphRecord.bytes).length := by
    rw [left.remaining, List.length_drop, tableSame, List.length_take, ← written]
    omega
  rw [entriesSame, entries_body, listed, read_glyphs_cut _ left.intact sheet.glyphs missing] at read
  apply load_of_error
  rw [of_bytes_eq, seen]
  exact loads.trans (congrArg (Except.map Prod.fst) read)

end Sheet

theorem glyphs_of_records (records : List GlyphRecord) {font : Font} {index : Nat}
    (noneBefore : font.glyphs[index]? = none) :
    (records.foldl GlyphRecord.addTo font).glyphs[index]? =
      lastOf (GlyphRecord.programFor index) records :=
  view_foldl_of_none (GlyphRecord.programFor index) (fun font => font.glyphs[index]?)
    GlyphRecord.addTo (fun font record => glyphs_add_to font record index) records noneBefore

theorem aliases_of_records (records : List GlyphRecord) {font : Font} {name : Bytes}
    (noneBefore : font.aliases[name]? = none) :
    (records.foldl GlyphRecord.addTo font).aliases[name]? =
      lastOf (GlyphRecord.indexFor name) records :=
  view_foldl_of_none (GlyphRecord.indexFor name) (fun font => font.aliases[name]?)
    GlyphRecord.addTo (fun font record => aliases_add_to font record name) records noneBefore

/-- Every sheet of which all bytes can be counted is loaded as it was written: each glyph number has
the program of its last record, each name stands for the number of the last record that carries it,
and nothing else has a program or is a name. Name and metrics of the font are those of the font
info, wherever it stands. -/
theorem shapes_are_loaded_as_written (sheet : Sheet) (small : sheet.bytes.length < 0x80000000)
    (held : Font) :
    let answer := (load sheet.bytes).run held
    answer.1 = none ∧
    (answer.2.format = sheet.heading.format ∧ answer.2.kind = .shapes ∧
      answer.2.version = sheet.heading.version) ∧
    (∀ index, answer.2.glyphs[index]? = lastOf (GlyphRecord.programFor index) sheet.glyphs) ∧
    (∀ name, answer.2.aliases[name]? = lastOf (GlyphRecord.indexFor name) sheet.glyphs) ∧
    answer.2.name = sheet.info?.elim [] InfoRecord.name ∧
    answer.2.metrics = sheet.info?.elim (false, 0, 0, 0) InfoRecord.metrics := by
  intro answer
  have answered : answer = (none, sheet.font) := sheet.load_sheet small held
  let blank := (sheet.heading.header .shapes).blank
  let filled := sheet.glyphs.foldl GlyphRecord.addTo blank
  have kept := kept_glyphs blank sheet.glyphs
  have glyphs (index : Nat) :
      filled.glyphs[index]? = lastOf (GlyphRecord.programFor index) sheet.glyphs :=
    glyphs_of_records sheet.glyphs rfl
  have aliases (name : Bytes) :
      filled.aliases[name]? = lastOf (GlyphRecord.indexFor name) sheet.glyphs :=
    aliases_of_records sheet.glyphs rfl
  have format : filled.format = sheet.heading.format := congrArg Font.format kept
  have kind : filled.kind = .shapes := congrArg Font.kind kept
  have version : filled.version = sheet.heading.version := congrArg Font.version kept
  rw [answered, Sheet.font]
  cases sheet.info? with
  | none =>
      exact ⟨rfl, ⟨format, kind, version⟩, glyphs, aliases, congrArg Font.name kept,
        congrArg Font.metrics kept⟩
  | some info => exact ⟨rfl, ⟨format, kind, version⟩, glyphs, aliases, rfl, rfl⟩

/-- Glyph 65 is written twice, first with a name. The program of glyph 66 begins with a zero, so it
cannot stand alone, and the font info lies between the records. -/
def sheetOfAllForms : Sheet where
  heading := .shortest
  first := 64
  last := 66
  before :=
    [⟨65, .named (Bytes.ofString "A B"), [48, 0], by decide, by decide +kernel, by decide +kernel⟩,
      ⟨66, .unnamed, [0, 36], by decide, trivial, by decide⟩]
  info? := some ⟨Bytes.ofString "Font", 0, 7, 2, 0, 8, by decide +kernel, rfl, by decide⟩
  after := [⟨65, .bare, [36, 0], by decide, by decide, by decide⟩]
  first_small := by decide
  last_small := by decide
  few := by decide

theorem all_forms_are_loaded :
    let answer := (load sheetOfAllForms.bytes).run empty
    sheetOfAllForms.bytes.length < 0x80000000 ∧ answer.1 = none ∧
      answer.2.glyphs[65]? = some [36, 0] ∧ answer.2.glyphs[66]? = some [0, 36] ∧
      answer.2.aliases[Bytes.ofString "A B"]? = some 65 ∧ answer.2.name = Bytes.ofString "Font" ∧
      answer.2.metrics = (true, 7, 2, 0) := by
  intro answer
  have small : sheetOfAllForms.bytes.length < 0x80000000 := by decide +kernel
  obtain ⟨accepted, -, glyphs, aliases, name, metrics⟩ :=
    shapes_are_loaded_as_written sheetOfAllForms small empty
  have named := aliases (Bytes.ofString "A B")
  exact ⟨small, accepted, glyphs 65, glyphs 66, named.trans (by decide +kernel), name, metrics⟩

def plainRecord (length : Nat) (small : length < 65536) : GlyphRecord where
  index := 1
  form := .bare
  program := List.replicate length 1
  index_range := by decide
  fits := by
    show List.head? (List.replicate length 1) ≠ some 0
    cases length <;> simp [List.replicate_succ]
  small := by
    show (List.replicate length 1).length < 65536
    rwa [List.length_replicate]

def monotonousSheet (record : GlyphRecord) (count : Nat) (few : count < 65536) : Sheet where
  heading := .shortest
  first := 1
  last := 1
  before := List.replicate count record
  info? := none
  after := []
  first_small := by decide
  last_small := by decide
  few := by simpa using few

theorem length_monotonous_sheet (record : GlyphRecord) (count : Nat) (few : count < 65536) :
    let sheet := monotonousSheet record count few
    (sheet.heading.bytes .shapes).length = 11 ∧ tableEnd sheet.body = 6 + count * 4 ∧
      sheet.bytes.length = 11 + (6 + count * 4 + count * record.bytes.length) := by
  intro sheet
  have heading : (sheet.heading.bytes .shapes).length = 11 := by
    show (Heading.shortest.bytes .shapes).length = 11
    decide +kernel
  have listed : sheet.entries.length = count := by
    simp [sheet, monotonousSheet, Sheet.entries]
  have table : tableEnd sheet.body = 6 + count * 4 := by rw [tableEnd, sheet.count_at, listed]
  have records : sheet.recordBytes.length = count * record.bytes.length := by
    simp [sheet, monotonousSheet, Sheet.recordBytes, List.length_flatMap]
  refine ⟨heading, table, ?_⟩
  rw [Sheet.bytes, List.length_append, heading, sheet.length_body, table, records]

/-- Without the bound on the whole file a sheet can be refused: forty thousand records with as many
bytes as a record can have are more than can be counted. -/
theorem long_records_are_cut :
    let sheet := monotonousSheet (plainRecord 65535 (by decide)) 40000 (by decide)
    (load sheet.bytes).run empty = (some .shapesGlyphCut, empty) := by
  intro sheet
  have each : (plainRecord 65535 (by decide)).bytes.length = 65535 := List.length_replicate
  obtain ⟨heading, table, whole⟩ :=
    length_monotonous_sheet (plainRecord 65535 (by decide)) 40000 (by decide)
  rw [each] at whole
  apply sheet.load_long_sheet rfl
  · rw [heading, table]
    decide
  · rw [whole]
    decide

end ShapeFont.Font.Shapes
