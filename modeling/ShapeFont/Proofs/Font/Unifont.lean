import ShapeFont.Proofs.Font.Loading
import ShapeFont.Proofs.Font.Truncation

/-!
# The two readings of a unifont

The font info record of a unifont begins at the sixth byte of the file, so the end of the first line is
read again, as the name of the font, and the count of the records behind it as metrics. `Sheet` is a
file as a writer makes it. `recordLoop` reads as the parser does, whatever the count says, and keeps
the records that it read.
-/

namespace ShapeFont.Font.Unifont

open Reader

/-- A glyph number and the program it is to have. -/
structure Record where
  index : Nat
  program : Bytes
  index_small : index < 65536
  program_small : program.length < 65536

namespace Record

def bytes (record : Record) : Bytes :=
  Bytes.ofNat 2 record.index ++ (Bytes.ofNat 2 record.program.length ++ record.program)

def addTo (font : Font) (record : Record) : Font := font.insertGlyph record.index record.program

def programFor (index : Nat) (record : Record) : Option Bytes :=
  if record.index = index then some record.program else none

end Record

/-- What stands behind the heading: the count, in which the font info is one, and the records. -/
def recordsBody (records : List Record) : Bytes :=
  Bytes.ofNat 4 (records.length + 1) ++ records.flatMap Record.bytes

/-- A unifont as a writer makes it. -/
structure Sheet where
  heading : Heading
  first : Record
  others : List Record
  small : (heading.bytes .unifont ++ recordsBody (first :: others)).length < Nat.pow 2 31

namespace Sheet

variable (sheet : Sheet)

def records : List Record := sheet.first :: sheet.others

def bytes : Bytes := sheet.heading.bytes .unifont ++ recordsBody sheet.records

end Sheet

/-- The loop over the records, with the records that it read before it ended. -/
def recordLoop (font : Font) :
    Nat → Reader → List (Nat × Bytes) × Except LoadFault (Font × Reader)
  | 0, reader => ([], .ok (font, reader))
  | count + 1, reader =>
      let (glyph, reader) := readGlyph reader
      if reader.shortRead then ([], .error .unifontGlyphCut)
      else
        let further := recordLoop (font.insertGlyph glyph.1 glyph.2) count reader
        (glyph :: further.1, further.2)

section

attribute [local irreducible] Reader.uint Reader.seek Reader.take Reader.takeText

variable {data body : Bytes} {reader : Reader} (font : Font)

/-! ### One record -/

def readLead (reader : Reader) : (Nat × Nat) × Reader :=
  let (index, reader) := reader.uint 2
  let (length, reader) := reader.uint 2
  ((index, length), reader)

theorem spans_lead : Spans readLead 4 fun bytes => (bytes.numberAt 0 2, bytes.numberAt 2 2) := by
  have parts := (spans_uint 2).bind fun index => (spans_uint 2).bind fun length =>
    spans_pure (index, length)
  exact parts.congr fun bytes _ => by simp [Bytes.numberAt]

theorem read_glyph_behind {index length : Nat} {middle : Reader}
    (lead : readLead reader = ((index, length), middle)) :
    readGlyph reader = ((index, (middle.take length).1), (middle.take length).2) := by
  have parts : readGlyph reader =
      (((readLead reader).1.1, ((readLead reader).2.take (readLead reader).1.2).1),
        ((readLead reader).2.take (readLead reader).1.2).2) := rfl
  rwa [lead] at parts

theorem read_glyph_of_full (intact : reader.Intact) (full : (readGlyph reader).2.shortRead = false) :
    ∃ index length, length < 65536 ∧ 4 + length ≤ reader.remaining ∧
      readGlyph reader = ((index, (reader.rest.drop 4).take length), reader.skip (4 + length)) := by
  obtain ⟨⟨⟨index, length⟩, middle⟩, lead⟩ : ∃ found, readLead reader = found := ⟨_, rfl⟩
  have onward := spans_lead.onward reader
  have programOnward := (spans_take length).onward middle
  rw [lead] at onward
  rw [read_glyph_behind lead] at full ⊢
  have enough : 4 ≤ reader.remaining := by
    refine Nat.le_of_not_lt fun few => ?_
    have missing := spans_lead.short intact.sound few
    rw [lead] at missing
    have still := programOnward.still_short missing
    rw [full] at still
    contradiction
  have skipped := spans_lead.whole intact.sound enough
  rw [lead] at skipped
  obtain ⟨words, rfl⟩ := Prod.mk.inj skipped
  have small : length < 65536 := by
    rw [(Prod.mk.inj words).2]
    exact Bytes.number_at_lt _ 2 2
  have further := intact.skip enough
  have whole : length ≤ (reader.skip 4).remaining := by
    refine Nat.le_of_not_lt fun few => ?_
    rw [(spans_take length).short further.sound few] at full
    contradiction
  refine ⟨index, length, small, ?_, ?_⟩
  · rw [remaining_skip] at whole
    omega
  · rw [(spans_take length).whole further.sound whole, skip_skip, rest_skip]
    rfl

theorem read_glyph_reads (intact : reader.Intact) (record : Record) {more : Bytes}
    (ahead : reader.rest = record.bytes ++ more) :
    ∃ after, readGlyph reader = ((record.index, record.program), after) ∧ after.Intact ∧
      after.rest = more := by
  have parts : reader.rest = (Bytes.ofNat 2 record.index ++ Bytes.ofNat 2 record.program.length) ++
      (record.program ++ more) := by simp [ahead, Record.bytes]
  obtain ⟨lead, further, behind⟩ := spans_lead.reads intact parts (by simp)
  obtain ⟨program, still, rest⟩ := (spans_take record.program.length).reads further behind rfl
  have indexFits : record.index < Nat.pow 256 2 := record.index_small
  have lengthFits : record.program.length < Nat.pow 256 2 := record.program_small
  have index : Bytes.numberAt (Bytes.ofNat 2 record.index ++ Bytes.ofNat 2 record.program.length) 0 2 =
      record.index := Bytes.number_at_of_nat indexFits [] _
  have length : Bytes.numberAt (Bytes.ofNat 2 record.index ++ Bytes.ofNat 2 record.program.length) 2 2 =
      record.program.length := by
    have second := Bytes.number_at_of_nat lengthFits (Bytes.ofNat 2 record.index) []
    rwa [List.append_nil, Bytes.length_of_nat] at second
  rw [index, length] at lead
  exact ⟨_, by rw [read_glyph_behind lead, program]; rfl, still, rest⟩

/-! ### The loop -/

theorem record_loop_cut (count : Nat) (cut : (readGlyph reader).2.shortRead = true) :
    recordLoop font (count + 1) reader = ([], .error .unifontGlyphCut) := by
  rw [recordLoop]
  exact if_pos cut

theorem record_loop_further (count : Nat) (full : (readGlyph reader).2.shortRead = false) :
    recordLoop font (count + 1) reader =
      let glyph := (readGlyph reader).1
      let further := recordLoop (font.insertGlyph glyph.1 glyph.2) count (readGlyph reader).2
      (glyph :: further.1, further.2) := by
  rw [recordLoop]
  exact if_neg (Bool.eq_false_iff.mp full)

theorem record_loop_eq (count : Nat) (reader : Reader) :
    (recordLoop font count reader).2 = readRecords font count reader := by
  induction count generalizing font reader with
  | zero => rfl
  | succ count ih =>
      rw [read_records_succ, checked_eq]
      cases found : (readGlyph reader).2.shortRead with
      | true =>
          rw [record_loop_cut font count found]
          rfl
      | false =>
          rw [record_loop_further font count found]
          exact ih _ _

theorem record_loop_paid (intact : reader.Intact) (count : Nat) :
    4 * (recordLoop font count reader).1.length ≤ reader.remaining := by
  induction count generalizing font reader with
  | zero => exact Nat.zero_le _
  | succ count ih =>
      cases found : (readGlyph reader).2.shortRead with
      | true =>
          rw [record_loop_cut font count found]
          exact Nat.zero_le _
      | false =>
          obtain ⟨index, length, -, enough, glyph⟩ := read_glyph_of_full intact found
          have later := ih (font.insertGlyph index ((reader.rest.drop 4).take length))
            (intact.skip enough)
          rw [remaining_skip] at later
          rw [record_loop_further font count found, glyph]
          dsimp only
          rw [List.length_cons]
          omega

/-- The programs that the loop reads are parts of the file. -/
theorem record_loop_slices (intact : reader.Intact) (count : Nat) :
    ∀ glyph ∈ (recordLoop font count reader).1,
      glyph.2 <:+: reader.data.toList ∧ glyph.2.length < 65536 := by
  induction count generalizing font reader with
  | zero => exact fun glyph member => absurd member List.not_mem_nil
  | succ count ih =>
      cases found : (readGlyph reader).2.shortRead with
      | true =>
          rw [record_loop_cut font count found]
          exact fun glyph member => absurd member List.not_mem_nil
      | false =>
          obtain ⟨index, length, small, enough, first⟩ := read_glyph_of_full intact found
          rw [record_loop_further font count found, first]
          intro glyph member
          rcases List.mem_cons.mp member with rfl | later
          · constructor
            · exact (List.take_prefix _ _).isInfix.trans ((List.drop_suffix _ _).isInfix.trans
                (List.drop_suffix _ _).isInfix)
            · exact Nat.lt_of_le_of_lt (List.length_take_le _ _) small
          · exact ih _ (intact.skip enough) glyph later

theorem record_loop_ends (count : Nat) (reader : Reader) :
    ((recordLoop font count reader).1.length < count ∧
      (recordLoop font count reader).2 = .error .unifontGlyphCut) ∨
    ((recordLoop font count reader).1.length = count ∧
      (recordLoop font count reader).2.map Prod.fst = .ok ((recordLoop font count reader).1.foldl
        (fun font glyph => font.insertGlyph glyph.1 glyph.2) font)) := by
  induction count generalizing font reader with
  | zero => exact .inr ⟨rfl, rfl⟩
  | succ count ih =>
      cases found : (readGlyph reader).2.shortRead with
      | true =>
          rw [record_loop_cut font count found]
          exact .inl ⟨Nat.zero_lt_succ _, rfl⟩
      | false =>
          rw [record_loop_further font count found]
          dsimp only
          rw [List.length_cons]
          rcases ih (font.insertGlyph (readGlyph reader).1.1 (readGlyph reader).1.2)
            (readGlyph reader).2 with ⟨fewer, cut⟩ | ⟨all, done⟩
          · exact .inl ⟨Nat.succ_lt_succ fewer, cut⟩
          · exact .inr ⟨congrArg Nat.succ all, done⟩

theorem read_records_reads (intact : reader.Intact) (records : List Record)
    (ahead : reader.rest = records.flatMap Record.bytes) :
    (readRecords font records.length reader).map Prod.fst =
      .ok (records.foldl Record.addTo font) := by
  induction records generalizing font reader with
  | nil => rfl
  | cons record records ih =>
      rw [List.flatMap_cons] at ahead
      obtain ⟨after, read, still, rest⟩ := read_glyph_reads intact record ahead
      rw [List.length_cons, read_records_succ, checked_of_read read still]
      exact ih _ still rest

/-! ### The font info -/

def readTail (reader : Reader) : ((Nat × Nat × Nat) × Nat × Nat) × Reader :=
  let (metrics, reader) := readMetrics reader
  let (encoding, reader) := reader.uint 1
  let (embeddable, reader) := reader.uint 1
  let (_reserved, reader) := reader.uint 1
  ((metrics, encoding, embeddable), reader)

theorem spans_count : Spans readCount 6 fun bytes => bytes.numberAt 0 4 := by
  have parts := (spans_uint 4).bind fun count => (spans_uint 2).bind fun _ => spans_pure count
  exact parts.congr fun bytes _ => by simp [Bytes.numberAt]

def tailNumbers (bytes : Bytes) : (Nat × Nat × Nat) × Nat × Nat :=
  ((bytes.numberAt 0 1, bytes.numberAt 1 1, bytes.numberAt 2 1), bytes.numberAt 3 1,
    bytes.numberAt 4 1)

theorem spans_tail : Spans readTail 6 tailNumbers := by
  have parts := spans_metrics.bind fun metrics => (spans_uint 1).bind fun encoding =>
    (spans_uint 1).bind fun embeddable => (spans_uint 1).bind fun _ =>
      spans_pure (metrics, encoding, embeddable)
  exact parts.congr fun bytes _ => by
    simp [tailNumbers, Bytes.numberAt, List.take_take, List.drop_take]

theorem tail_numbers_overlap (first second : UInt8) (body : Bytes) :
    tailNumbers ([first, second] ++ body.take 4) =
      ((first.toNat, second.toNat, body.numberAt 0 1), body.numberAt 1 1, body.numberAt 2 1) := by
  simp [tailNumbers, Bytes.numberAt, List.take_take, List.drop_take]

theorem read_named_eq (reader : Reader) : readNamed reader =
    (((reader.takeText).1, (readTail (reader.takeText).2).1), (readTail (reader.takeText).2).2) := rfl

theorem info_start_lt_line (heading : Heading) (kind : FontKind) :
    5 < (heading.line kind).length := by
  have word : 6 ≤ (Bytes.ofString kind.word).length := by cases kind <;> decide +kernel
  rw [Heading.line, List.length_append, List.length_cons, List.length_append, List.length_cons]
  omega

def withInfo (heading : Heading) (body : Bytes) : Font :=
  { font with
    name := (heading.line .unifont).drop 5
    above := heading.skipped.1.toNat, below := heading.skipped.2.toNat
    modes := body.numberAt 0 1, encoding := body.numberAt 1 1, embeddable := body.numberAt 2 1
    hasMetrics := true }

/-- The sixth byte stands in the first line, so the rest of the line is the name, the two bytes behind
it are the first metrics, and the bytes of the count the others. -/
theorem read_info_reads (heading : Heading) (intact : reader.Intact)
    (holds : reader.data.toList = heading.bytes .unifont ++ body) (counts : 4 ≤ body.length) :
    ∃ after, readInfo font (reader.seek infoStart) = .ok (withInfo font heading body, after) ∧
      Behind (heading.bytes .unifont ++ body) (body.drop 4) after := by
  have inLine := info_start_lt_line heading .unifont
  have inside : 5 ≤ reader.size := by
    rw [size_of_data holds, List.length_append, Heading.length_bytes]
    omega
  have ahead : (reader.moveTo 5).rest = (heading.line .unifont).drop 5 ++
      heading.terminator :: ([heading.skipped.1, heading.skipped.2] ++ body) := by
    show reader.data.toList.drop 5 = _
    rw [holds, Heading.bytes, List.append_assoc, List.drop_append_of_le_length (by omega)]
    rfl
  have clean : ∀ value ∈ (heading.line .unifont).drop 5, endsText value = false :=
    fun value member => heading.clean_line .unifont value (List.mem_of_mem_drop member)
  obtain ⟨text, further, rest⟩ :=
    take_text_reads (intact_move intact inside) ahead clean heading.ends
  have parts : [heading.skipped.1, heading.skipped.2] ++ body =
      ([heading.skipped.1, heading.skipped.2] ++ body.take 4) ++ body.drop 4 := by simp
  obtain ⟨tail, still, left⟩ := spans_tail.reads further (rest.trans parts) (by simp [counts])
  refine ⟨_, ?_, still, left, holds⟩
  rw [tail_numbers_overlap] at tail
  rw [read_info_eq, checked_eq, show infoStart = ((5 : Nat) : Int) from rfl, seek_of_inside inside,
    read_named_eq, text, tail, if_neg (Bool.eq_false_iff.mp still.full)]
  rfl

theorem read_counted (heading : Heading)
    (behind : Behind (heading.bytes .unifont ++ body) body reader) (counts : 6 ≤ body.length) :
    ∃ after, Behind (heading.bytes .unifont ++ body) (body.drop 4) after ∧
      read font reader = readRecords (withInfo font heading body) (body.numberAt 0 4 - 1) after := by
  have enough : 6 ≤ reader.remaining := by rwa [behind.remaining]
  obtain ⟨after, info, left⟩ :=
    read_info_reads font heading (behind.intact.skip enough) behind.data (by omega)
  refine ⟨after, left, ?_⟩
  rw [read_eq, checked_of_enough spans_count behind.intact enough, info, behind.rest,
    Bytes.number_at_take _ (by decide)]
  rfl

theorem read_uncounted (behind : Behind data body reader) (few : body.length < 6) :
    read font reader = .error .unifontCountsCut := by
  rw [read_eq]
  exact checked_of_cut spans_count behind.intact (by rwa [behind.remaining]) _ _

/-! ### What the records make of the font -/

theorem glyphs_add_to (record : Record) (index : Nat) :
    (record.addTo font).glyphs[index]? =
      (record.programFor index).elim font.glyphs[index]? some := by
  rw [Record.addTo, get_insert_glyph, Record.programFor]
  split <;> rfl

theorem glyphs_of_records (records : List Record) {index : Nat}
    (noneBefore : font.glyphs[index]? = none) :
    (records.foldl Record.addTo font).glyphs[index]? = lastOf (Record.programFor index) records :=
  view_foldl_of_none (Record.programFor index) (fun font => font.glyphs[index]?) Record.addTo
    (fun font record => glyphs_add_to font record index) records noneBefore

theorem kept_records (records : List Record) :
    { records.foldl Record.addTo font with glyphs := font.glyphs } = font :=
  kept_foldl (fun other => { other with glyphs := font.glyphs }) Record.addTo (fun _ _ => rfl)
    records font

theorem length_flat_map_bytes (records : List Record) :
    4 * records.length ≤ (records.flatMap Record.bytes).length := by
  induction records with
  | nil => exact Nat.zero_le _
  | cons record records ih =>
      rw [List.flatMap_cons, List.length_append, List.length_cons, Record.bytes, List.length_append,
        List.length_append, Bytes.length_of_nat, Bytes.length_of_nat]
      omega

end

/-! ### Sheets -/

namespace Sheet

variable (sheet : Sheet)

theorem length_small : sheet.bytes.length < 0x80000000 := sheet.small

theorem count_small : sheet.records.length + 1 < Nat.pow 256 4 := by
  have few := length_flat_map_bytes sheet.records
  have small : sheet.bytes.length < Nat.pow 2 31 := sheet.small
  rw [bytes, List.length_append, recordsBody, List.length_append] at small
  have fileLimit : Nat.pow 2 31 = 2147483648 := by decide
  have countLimit : Nat.pow 256 4 = 4294967296 := by decide
  omega

theorem count_at : (recordsBody sheet.records).numberAt 0 4 = sheet.records.length + 1 :=
  Bytes.number_at_of_nat sheet.count_small [] _

theorem drop_count : (recordsBody sheet.records).drop 4 = sheet.records.flatMap Record.bytes :=
  List.drop_left' (Bytes.length_of_nat 4 _)

theorem six_le_length : 6 ≤ (recordsBody sheet.records).length := by
  have few := length_flat_map_bytes sheet.records
  rw [recordsBody, List.length_append, Bytes.length_of_nat]
  have some : 1 ≤ sheet.records.length := Nat.succ_pos _
  omega

end Sheet

theorem count_bytes (count : Nat) (more : Bytes) :
    (Bytes.ofNat 4 count ++ more).numberAt 0 1 = count % 256 ∧
      (Bytes.ofNat 4 count ++ more).numberAt 1 1 = count / 256 % 256 ∧
      (Bytes.ofNat 4 count ++ more).numberAt 2 1 = count / 65536 % 256 := by
  refine ⟨?_, ?_, ?_⟩ <;> simp [Bytes.ofNat, Bytes.numberAt, Nat.div_div_eq_div_mul]

def Sheet.font (sheet : Sheet) : Font :=
  sheet.records.foldl Record.addTo
    (withInfo (sheet.heading.header .unifont).blank sheet.heading (recordsBody sheet.records))

theorem load_sheet (sheet : Sheet) (held : Font) :
    (load sheet.bytes).run held = (none, sheet.font) := by
  obtain ⟨reader, behind, whole⟩ := load_heading sheet.heading .unifont (recordsBody sheet.records)
  have loads := (of_bytes_of_small sheet.length_small).trans whole
  obtain ⟨after, left, read⟩ :=
    read_counted (sheet.heading.header .unifont).blank sheet.heading behind sheet.six_le_length
  have records := read_records_reads
    (withInfo (sheet.heading.header .unifont).blank sheet.heading (recordsBody sheet.records))
    left.intact sheet.records (left.rest.trans sheet.drop_count)
  apply load_of_ok
  rw [sheet.count_at, Nat.add_sub_cancel] at read
  exact loads.trans ((congrArg (Except.map Prod.fst) read).trans records)

/-- What is skipped as a length is the glyph number of the first record. -/
theorem length_word_of_sheet (sheet : Sheet) {reader : Reader}
    (behind : Behind sheet.bytes (recordsBody sheet.records) reader) :
    (reader.uint 4).1 = sheet.records.length + 1 ∧
      ((reader.uint 4).2.uint 2).1 = sheet.first.index := by
  obtain ⟨count, further, rest⟩ := (spans_uint 4).reads behind.intact behind.rest (by simp)
  have firstSmall : sheet.first.index < Nat.pow 256 2 := sheet.first.index_small
  have ahead : (reader.skip 4).rest = Bytes.ofNat 2 sheet.first.index ++
      ((Bytes.ofNat 2 sheet.first.program.length ++ sheet.first.program) ++
        sheet.others.flatMap Record.bytes) := by
    rw [rest, Sheet.records, List.flatMap_cons, Record.bytes, List.append_assoc]
  obtain ⟨index, -, -⟩ := (spans_uint 2).reads further ahead (by simp)
  rw [count, index, Bytes.little_endian_of_nat sheet.count_small,
    Bytes.little_endian_of_nat firstSmall]
  exact ⟨rfl, rfl⟩

theorem info_start_in_line {data : Bytes} {held : Font}
    (accepted : ((load data).run held).1 = none) : 5 < (firstLine data).length := by
  obtain ⟨reader, read⟩ := read_of_accepted (whole_of_accepted (of_bytes_of_load accepted))
  obtain ⟨heading, body, parts, -⟩ := heading_of_read read
  rw [parts, first_line_heading]
  exact info_start_lt_line heading _

/-- From the sixth byte on the first line of a unifont is the name of the font as well; the two bytes
behind it and the count are the metrics, and the records begin with the word that was read as a length.
Every sheet is loaded so. In every accepted unifont the sixth byte lies in the first line. Whatever the
count is, the loop reads at most a fourth as many records as the file has bytes: all that the count
promises, or fewer, and then the file is cut. -/
theorem unifont_is_read_over_its_own_line :
    (∀ (sheet : Sheet) (held : Font),
      let answer := (load sheet.bytes).run held
      let count := sheet.records.length + 1
      answer.1 = none ∧
      (answer.2.format = sheet.heading.format ∧ answer.2.kind = .unifont ∧
        answer.2.version = sheet.heading.version) ∧
      answer.2.name = (sheet.heading.line .unifont).drop 5 ∧
      (answer.2.hasMetrics = true ∧ answer.2.above = sheet.heading.skipped.1.toNat ∧
        answer.2.below = sheet.heading.skipped.2.toNat ∧ answer.2.modes = (count % 256 : Nat) ∧
        answer.2.encoding = (count / 256 % 256 : Nat) ∧
        answer.2.embeddable = (count / 65536 % 256 : Nat)) ∧
      answer.2.aliases = ∅ ∧
      (∀ index, answer.2.glyphs[index]? = lastOf (Record.programFor index) sheet.records) ∧
      ∃ reader, Header.read (Reader.ofBytes sheet.bytes) =
          .ok (sheet.heading.header .unifont, reader) ∧
        (reader.uint 4).1 = count ∧ ((reader.uint 4).2.uint 2).1 = sheet.first.index) ∧
    (∀ (data : Bytes) (held : Font),
      let answer := (load data).run held
      answer.1 = none → answer.2.kind = .unifont → infoStart < (firstLine data).length) ∧
    ∀ (heading : Heading) (body : Bytes) (held : Font),
      let data := heading.bytes .unifont ++ body
      let answer := (load data).run held
      data.length < 0x80000000 →
      (body.length < 6 ∧ answer = (some .unifontCountsCut, empty)) ∨
      (6 ≤ body.length ∧ ∃ reader,
        let font := withInfo (heading.header .unifont).blank heading body
        let count := body.numberAt 0 4 - 1
        let loop := recordLoop font count reader
        Behind data (body.drop 4) reader ∧ loop.2 = readRecords font count reader ∧
        ofBytes data = loop.2.map Prod.fst ∧ loop.1.length ≤ data.length / 4 ∧
        ((loop.1.length < count ∧ answer.1.map LoadFault.kind = some .truncatedFile ∧
            answer.2 = empty) ∨
          (loop.1.length = count ∧ answer = (none, loop.1.foldl
            (fun font glyph => font.insertGlyph glyph.1 glyph.2) font)))) := by
  refine ⟨?_, ?_, ?_⟩
  · intro sheet held answer count
    have answered : answer = (none, sheet.font) := load_sheet sheet held
    have kept := kept_records
      (withInfo (sheet.heading.header .unifont).blank sheet.heading (recordsBody sheet.records))
      sheet.records
    obtain ⟨modes, encoding, embeddable⟩ := count_bytes count (sheet.records.flatMap Record.bytes)
    obtain ⟨reader, header, behind⟩ := read_heading sheet.heading .unifont (recordsBody sheet.records)
    have seen : Reader.ofBytes sheet.bytes = start sheet.bytes := by
      rw [Reader.ofBytes, Bytes.counted_of_small sheet.length_small]
    rw [answered, seen]
    refine ⟨rfl, ⟨congrArg Font.format kept, congrArg Font.kind kept, congrArg Font.version kept⟩,
      congrArg Font.name kept, ⟨congrArg Font.hasMetrics kept, congrArg Font.above kept,
        congrArg Font.below kept, ?_, ?_, ?_⟩, congrArg Font.aliases kept, fun index => ?_,
      reader, header, length_word_of_sheet sheet behind⟩
    · exact (congrArg Font.modes kept).trans (congrArg Nat.cast modes)
    · exact (congrArg Font.encoding kept).trans (congrArg Nat.cast encoding)
    · exact (congrArg Font.embeddable kept).trans (congrArg Nat.cast embeddable)
    · exact glyphs_of_records _ sheet.records rfl
  · intro data held answer accepted _
    exact Int.ofNat_lt.mpr (info_start_in_line accepted)
  · intro heading body held data answer small
    obtain ⟨start, begun, whole⟩ := load_heading heading .unifont body
    have loads := (of_bytes_of_small small).trans whole
    rcases Nat.lt_or_ge body.length 6 with few | counts
    · have refused := read_uncounted (heading.header .unifont).blank begun few
      exact .inl ⟨few, load_of_error (loads.trans (congrArg (Except.map Prod.fst) refused)) held⟩
    · obtain ⟨reader, behind, read⟩ :=
        read_counted (heading.header .unifont).blank heading begun counts
      let font := withInfo (heading.header .unifont).blank heading body
      have loop := record_loop_eq font (body.numberAt 0 4 - 1) reader
      have loaded := loads.trans (congrArg (Except.map Prod.fst) (read.trans loop.symm))
      have paid := record_loop_paid font behind.intact (body.numberAt 0 4 - 1)
      rw [behind.remaining, List.length_drop] at paid
      have within : body.length ≤ data.length := by
        rw [List.length_append]
        exact Nat.le_add_left _ _
      have fourth : (recordLoop font (body.numberAt 0 4 - 1) reader).1.length ≤ data.length / 4 := by
        omega
      refine .inr ⟨counts, reader, behind, loop, loaded, fourth, ?_⟩
      rcases record_loop_ends font (body.numberAt 0 4 - 1) reader with
        ⟨fewer, cut⟩ | ⟨all, done⟩
      · rw [cut] at loaded
        have answered : answer = (some .unifontGlyphCut, empty) := load_of_error loaded held
        exact .inl ⟨fewer, by rw [answered]; rfl, by rw [answered]⟩
      · exact .inr ⟨all, load_of_ok (loaded.trans done) held⟩

def shortLined : Sheet where
  heading := .shortest
  first := ⟨65, [16, 0], by decide, by decide⟩
  others := []
  small := by decide +kernel

/-- The name begins within the word for the kind. -/
theorem short_line_is_read_again :
    let answer := (load shortLined.bytes).run empty
    answer.1 = none ∧ answer.2.kind = .unifont ∧ answer.2.name = Bytes.ofString "ont " ∧
      answer.2.glyphs[65]? = some [16, 0] ∧ infoStart < (firstLine shortLined.bytes).length := by
  intro answer
  obtain ⟨loads, within, -⟩ := unifont_is_read_over_its_own_line
  obtain ⟨accepted, ⟨-, unifont, -⟩, name, -, -, glyphs, -⟩ := loads shortLined empty
  exact ⟨accepted, unifont, name.trans (by decide +kernel), (glyphs 65).trans rfl,
    within shortLined.bytes empty accepted unifont⟩

end ShapeFont.Font.Unifont
