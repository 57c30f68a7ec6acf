import ShapeFont.Proofs.Font.Loading

/-!
# Which bigfonts are accepted

The entries of a bigfont say where their records lie, and nothing keeps them in order or apart. Such a
file is accepted exactly if its tables are complete and all records lie in the file; of the entries
with one number the last counts.
-/

namespace ShapeFont.Font.BigFont

open Reader

def Entry.ofBytes (bytes : Bytes) : Entry :=
  { index := bytes.numberAt 0 2, length := bytes.numberAt 2 2, offset := bytes.numberAt 4 4 }

/-- How many bytes of the file belong to an entry: three metrics if it is that of the font info. -/
def Entry.width (entry : Entry) : Nat := if entry.index = 0 then 3 else entry.length

/-- The record of an entry lies in the file. -/
def Entry.Inside (data : Bytes) (entry : Entry) : Prop := entry.offset + entry.width ≤ data.length

instance (data : Bytes) (entry : Entry) : Decidable (entry.Inside data) :=
  inferInstanceAs (Decidable (_ ≤ _))

def Entry.slice (data : Bytes) (entry : Entry) : Bytes := (data.drop entry.offset).take entry.length

/-- The entries are counted by the first word behind the heading, the ranges before them by the
third. -/
def rangesEnd (body : Bytes) : Nat := 6 + body.numberAt 4 2 * 4

def entries (body : Bytes) : List Entry :=
  table 8 Entry.ofBytes (body.numberAt 0 2) (body.drop (rangesEnd body))

/-- All tables and records of a bigfont lie in the file. -/
structure Complete (data body : Bytes) : Prop where
  counts : 6 ≤ body.length
  tables : rangesEnd body + body.numberAt 0 2 * 8 ≤ body.length
  records : ∀ entry ∈ entries body, entry.Inside data

def Entry.addTo (data : Bytes) (font : Font) (entry : Entry) : Font :=
  if entry.index = 0 then
    { font with above := data.numberAt entry.offset 1, below := data.numberAt (entry.offset + 1) 1,
                modes := data.numberAt (entry.offset + 2) 1, hasMetrics := true }
  else font.insertGlyph entry.index (entry.slice data)

section

variable {data body : Bytes} {reader : Reader} (font : Font)

theorem spans_counts : Spans readCounts 6 fun bytes => (bytes.numberAt 0 2, bytes.numberAt 4 2) := by
  have parts := (spans_uint 2).bind fun count => (spans_uint 2).bind fun _ =>
    (spans_uint 2).bind fun rangeCount => spans_pure (count, rangeCount)
  exact parts.congr fun bytes _ => by simp [Bytes.numberAt]

theorem spans_range : Spans readRange 4 fun bytes => (bytes.numberAt 0 2, bytes.numberAt 2 2) := by
  have parts := (spans_uint 2).bind fun first => (spans_uint 2).bind fun last =>
    spans_pure (first, last)
  exact parts.congr fun bytes _ => by simp [Bytes.numberAt]

theorem spans_entry : Spans readEntry 8 Entry.ofBytes := by
  have parts := (spans_uint 2).bind fun index => (spans_uint 2).bind fun length =>
    (spans_uint 4).bind fun offset => spans_pure ({ index, length, offset } : Entry)
  exact parts.congr fun bytes _ => by simp [Entry.ofBytes, Bytes.numberAt]

theorem spans_tables (counted : Nat × Nat) :
    Spans (readTables counted) (counted.2 * 4 + counted.1 * 8) fun bytes =>
      table 8 Entry.ofBytes counted.1 (bytes.drop (counted.2 * 4)) :=
  (spans_many spans_range counted.2).bind fun _ => spans_many spans_entry counted.1

theorem read_record_inside (intact : reader.Intact) (holds : reader.data.toList = data) {entry : Entry}
    (inside : entry.Inside data) : ∃ after, readRecord font entry reader =
      .ok (entry.addTo data font, after) ∧ after.Intact ∧ after.data.toList = data := by
  have size := size_of_data holds
  by_cases info : entry.index = 0
  · have three : entry.offset + 3 ≤ reader.size := by
      rwa [Entry.Inside, Entry.width, if_pos info, ← size] at inside
    refine ⟨_, ?_, (spans_metrics.placed intact three).2, holds⟩
    rw [read_record_info font info, checked_of_placed spans_metrics intact three, Entry.addTo,
      if_pos info, holds, Bytes.number_at_take _ (by decide), Bytes.number_at_take _ (by decide),
      Bytes.number_at_take _ (by decide), Bytes.number_at_drop, Bytes.number_at_drop,
      Bytes.number_at_drop]
    rfl
  · have whole : entry.offset + entry.length ≤ reader.size := by
      rwa [Entry.Inside, Entry.width, if_neg info, ← size] at inside
    have program := spans_take entry.length
    refine ⟨_, ?_, (program.placed intact whole).2, holds⟩
    rw [read_record_glyph font info, checked_of_placed program intact whole, Entry.addTo,
      if_neg info, holds]
    rfl

theorem read_record_outside (intact : reader.Intact) (holds : reader.data.toList = data)
    {entry : Entry} (outside : ¬entry.Inside data) :
    ∃ fault, readRecord font entry reader = .error fault ∧ fault.kind = .truncatedFile := by
  have size := size_of_data holds
  by_cases info : entry.index = 0
  · rw [Entry.Inside, Entry.width, if_pos info, ← size, Nat.not_le] at outside
    refine ⟨.bigFontInfoOutside, ?_, rfl⟩
    rw [read_record_info font info, checked_of_misplaced spans_metrics intact outside]
  · rw [Entry.Inside, Entry.width, if_neg info, ← size, Nat.not_le] at outside
    refine ⟨.bigFontGlyphOutside, ?_, rfl⟩
    rw [read_record_glyph font info,
      checked_of_misplaced (spans_take entry.length) intact outside]

theorem read_records_inside (intact : reader.Intact) (holds : reader.data.toList = data)
    {entries : List Entry} (inside : ∀ entry ∈ entries, entry.Inside data) :
    ∃ after, readRecords font entries reader =
      .ok (entries.foldl (Entry.addTo data) font, after) := by
  induction entries generalizing font reader with
  | nil => exact ⟨reader, rfl⟩
  | cons entry entries ih =>
      obtain ⟨after, read, still, alsoHolds⟩ :=
        read_record_inside font intact holds (inside entry List.mem_cons_self)
      rw [read_records_cons, read]
      exact ih _ still alsoHolds fun later member => inside later (List.mem_cons_of_mem _ member)

theorem read_records_outside (intact : reader.Intact) (holds : reader.data.toList = data)
    {entries : List Entry} (outside : ¬∀ entry ∈ entries, entry.Inside data) :
    ∃ fault, readRecords font entries reader = .error fault ∧ fault.kind = .truncatedFile := by
  induction entries generalizing font reader with
  | nil => exact absurd (fun _ member => absurd member List.not_mem_nil) outside
  | cons entry entries ih =>
      rw [read_records_cons]
      by_cases inside : entry.Inside data
      · obtain ⟨after, read, still, alsoHolds⟩ := read_record_inside font intact holds inside
        rw [read]
        refine ih _ still alsoHolds fun all => outside fun other member => ?_
        rcases List.mem_cons.mp member with rfl | later
        · exact inside
        · exact all other later
      · obtain ⟨fault, read, cut⟩ := read_record_outside font intact holds inside
        rw [read]
        exact ⟨fault, rfl, cut⟩

theorem read_of_tables (behind : Behind data body reader) (counts : 6 ≤ body.length)
    (tables : rangesEnd body + body.numberAt 0 2 * 8 ≤ body.length) :
    ∃ middle : Reader, middle.Intact ∧ middle.data.toList = data ∧
      read font reader = readRecords font (entries body) middle := by
  have enough : 6 ≤ reader.remaining := by rwa [behind.remaining]
  have further := behind.intact.skip enough
  unfold rangesEnd at tables
  have enoughTables : body.numberAt 4 2 * 4 + body.numberAt 0 2 * 8 ≤ (reader.skip 6).remaining := by
    rw [remaining_skip, behind.remaining]
    omega
  refine ⟨_, further.skip enoughTables, behind.data, ?_⟩
  rw [read_eq, checked_of_enough spans_counts behind.intact enough, behind.rest,
    Bytes.number_at_take _ (by decide), Bytes.number_at_take _ (by decide),
    checked_of_enough (spans_tables _) further enoughTables, rest_skip, behind.rest, List.drop_take,
    Nat.add_sub_cancel_left, List.drop_drop, table_take]
  rfl

theorem read_of_cut_tables (behind : Behind data body reader)
    (cut : ¬(6 ≤ body.length ∧ rangesEnd body + body.numberAt 0 2 * 8 ≤ body.length)) :
    ∃ fault, read font reader = .error fault ∧ fault.kind = .truncatedFile := by
  rw [read_eq]
  rcases Nat.lt_or_ge reader.remaining 6 with few | enough
  · exact ⟨_, checked_of_cut spans_counts behind.intact few _ _, rfl⟩
  · refine ⟨.bigFontTableCut, ?_, rfl⟩
    have further := behind.intact.skip enough
    rw [checked_of_enough spans_counts behind.intact enough, behind.rest,
      Bytes.number_at_take _ (by decide), Bytes.number_at_take _ (by decide)]
    rw [behind.remaining] at enough
    unfold rangesEnd at cut
    apply checked_of_cut (spans_tables _) further
    rw [remaining_skip, behind.remaining]
    omega

theorem read_complete (behind : Behind data body reader) (complete : Complete data body) :
    ∃ after, read font reader = .ok ((entries body).foldl (Entry.addTo data) font, after) := by
  obtain ⟨middle, intact, holds, read⟩ := read_of_tables font behind complete.counts complete.tables
  obtain ⟨after, records⟩ := read_records_inside font intact holds complete.records
  exact ⟨after, read.trans records⟩

theorem read_incomplete (behind : Behind data body reader) (missing : ¬Complete data body) :
    ∃ fault, read font reader = .error fault ∧ fault.kind = .truncatedFile := by
  by_cases whole : 6 ≤ body.length ∧ rangesEnd body + body.numberAt 0 2 * 8 ≤ body.length
  · obtain ⟨middle, intact, holds, read⟩ := read_of_tables font behind whole.1 whole.2
    rw [read]
    exact read_records_outside font intact holds fun records => missing ⟨whole.1, whole.2, records⟩
  · exact read_of_cut_tables font behind whole

/-! ### What the records make of the font -/

/-- What an entry gives a glyph number: its own number, unless that is zero. -/
def Entry.programFor (data : Bytes) (index : Nat) (entry : Entry) : Option Bytes :=
  if entry.index = index ∧ index ≠ 0 then some (entry.slice data) else none

def Entry.metrics (data : Bytes) (entry : Entry) : Bool × Int × Int × Int :=
  (true, data.numberAt entry.offset 1, data.numberAt (entry.offset + 1) 1,
    data.numberAt (entry.offset + 2) 1)

def Entry.info? (entry : Entry) : Option Entry := if entry.index = 0 then some entry else none

theorem glyphs_add_to (font : Font) (entry : Entry) (index : Nat) :
    (entry.addTo data font).glyphs[index]? =
      (entry.programFor data index).elim font.glyphs[index]? some := by
  unfold Entry.addTo Entry.programFor
  split
  · next info =>
      rw [if_neg (by rintro ⟨same, positive⟩; omega)]
      rfl
  · next glyph =>
      rw [get_insert_glyph]
      by_cases same : entry.index = index
      · rw [if_pos same, if_pos ⟨same, same ▸ glyph⟩]
        rfl
      · rw [if_neg same, if_neg fun both => same both.1]
        rfl

theorem metrics_add_to (font : Font) (entry : Entry) :
    (entry.addTo data font).metrics = entry.info?.elim font.metrics (Entry.metrics data) := by
  unfold Entry.addTo Entry.info?
  split <;> rfl

theorem unnamed_add_to (font : Font) (entry : Entry) :
    ((entry.addTo data font).aliases, (entry.addTo data font).name) = (font.aliases, font.name) := by
  unfold Entry.addTo
  split <;> rfl

theorem glyphs_of_entries (entries : List Entry) {font : Font} {index : Nat}
    (noneBefore : font.glyphs[index]? = none) :
    (entries.foldl (Entry.addTo data) font).glyphs[index]? =
      lastOf (Entry.programFor data index) entries :=
  view_foldl_of_none (Entry.programFor data index) (fun font => font.glyphs[index]?)
    (Entry.addTo data) (fun font entry => glyphs_add_to font entry index) entries noneBefore

theorem program_for_zero (entries : List Entry) :
    lastOf (Entry.programFor data 0) entries = none :=
  List.findSome?_eq_none_iff.mpr fun _ _ => if_neg fun both => both.2 rfl

/-- A file with the heading of a bigfont is loaded exactly if its tables and all the records that they
name lie in the file, and is refused as cut otherwise. In the font, each glyph number but zero has the
bytes of its last entry, and the metrics are those of the last entry for number zero. -/
theorem bigfont_loads_iff_complete (heading : Heading) (body : Bytes)
    (small : (heading.bytes .bigFont ++ body).length < 0x80000000) (held : Font) :
    let data := heading.bytes .bigFont ++ body
    let answer := (load data).run held
    (answer.1 = none ↔ Complete data body) ∧
    ((Complete data body ∧ answer.2.glyphs[0]? = none ∧
      (∀ index, answer.2.glyphs[index]? = lastOf (Entry.programFor data index) (entries body)) ∧
      answer.2.metrics =
        (lastOf Entry.info? (entries body)).elim (false, 0, 0, 0) (Entry.metrics data) ∧
      answer.2.aliases = ∅ ∧ answer.2.name = []) ∨
    (¬Complete data body ∧ answer.1.map LoadFault.kind = some .truncatedFile ∧
      answer.2 = empty)) := by
  intro data answer
  obtain ⟨reader, behind, whole⟩ := load_heading heading .bigFont body
  have loads := (of_bytes_of_small small).trans whole
  let start := (heading.header .bigFont).blank
  by_cases complete : Complete data body
  · obtain ⟨after, read⟩ := read_complete start behind complete
    have answered : answer = (none, (entries body).foldl (Entry.addTo data) start) :=
      load_of_ok (loads.trans (congrArg (Except.map Prod.fst) read)) held
    rw [answered]
    refine ⟨iff_of_true rfl complete, .inl ⟨complete, ?_, fun index => ?_, ?_, ?_⟩⟩
    · exact (glyphs_of_entries (entries body) rfl).trans (program_for_zero (entries body))
    · exact glyphs_of_entries (entries body) rfl
    · exact view_foldl Entry.info? metrics (Entry.addTo data) _ metrics_add_to (entries body) start
    · exact Prod.mk.inj (kept_foldl (fun font => (font.aliases, font.name)) (Entry.addTo data)
        unnamed_add_to (entries body) start)
  · obtain ⟨fault, read, cut⟩ := read_incomplete start behind complete
    have answered : answer = (some fault, empty) :=
      load_of_error (loads.trans (congrArg (Except.map Prod.fst) read)) held
    rw [answered]
    refine ⟨iff_of_false (by simp) complete, .inr ⟨complete, ?_, rfl⟩⟩
    rw [Option.map_some, cut]

/-- The record of glyph 65 lies where its entry says, right behind the table. -/
theorem bigfont_of_one_glyph :
    let body : Bytes := [1, 0, 0, 0, 0, 0, 65, 0, 2, 0, 26, 0, 0, 0, 16, 0]
    let data := Heading.shortest.bytes .bigFont ++ body
    let answer := (load data).run empty
    data.length < 0x80000000 ∧ answer.1 = none ∧ Complete data body ∧
      answer.2.glyphs[65]? = some [16, 0] ∧ answer.2.metrics = (false, 0, 0, 0) := by
  intro body data answer
  have small : data.length < 0x80000000 := by decide +kernel
  have loaded : answer.1 = none := by decide +kernel
  obtain ⟨accepted, parts⟩ := bigfont_loads_iff_complete .shortest body small empty
  have complete := accepted.mp loaded
  rcases parts with ⟨-, -, glyphs, metrics, -⟩ | ⟨incomplete, -⟩
  · exact ⟨small, loaded, complete, (glyphs 65).trans (by decide +kernel),
      metrics.trans (by decide +kernel)⟩
  · exact absurd complete incomplete

end

end ShapeFont.Font.BigFont
