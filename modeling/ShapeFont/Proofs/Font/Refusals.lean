import ShapeFont.Proofs.Font.Shapes

/-!
# What files are refused for

The first line alone decides whether a file is refused for its heading or its kind. Whatever stands
behind an accepted line, the file is read, is cut, or is a file of shapes with two font infos.
-/

namespace ShapeFont.Font

open Reader

namespace Shapes

def infoCount (font : Font) : Nat := if font.hasMetrics then 1 else 0

def infoEntries (entries : List Entry) : Nat := entries.countP fun entry => entry.index = 0

theorem info_count_of_record {font found : Font} {entry : Entry} {reader after : Reader}
    (read : readRecord font entry reader = .ok (found, after)) :
    infoCount found = infoCount font + infoEntries [entry] := by
  by_cases info : entry.index = 0
  · rw [read_record_info font info] at read
    cases twice : font.hasMetrics with
    | true =>
        rw [read_info_twice font twice] at read
        contradiction
    | false =>
        rw [read_info_once font twice, checked_eq] at read
        split at read
        · contradiction
        · obtain ⟨rfl, -⟩ := Prod.mk.inj (Except.ok.inj read)
          simp [infoCount, infoEntries, twice, info]
  · rw [read_record_glyph font info, checked_eq] at read
    split at read
    · contradiction
    · obtain ⟨rfl, -⟩ := Prod.mk.inj (Except.ok.inj read)
      rw [infoCount, kept_store]
      simp [infoCount, infoEntries, info]

theorem info_entry_of_twice {font : Font} {entry : Entry} {reader : Reader}
    (twice : readRecord font entry reader = .error .fontInfoTwice) :
    infoCount font + infoEntries [entry] = 2 := by
  by_cases info : entry.index = 0
  · rw [read_record_info font info] at twice
    cases had : font.hasMetrics with
    | true => simp [infoCount, infoEntries, had, info]
    | false =>
        rw [read_info_once font had, checked_eq] at twice
        split at twice <;> simp at twice
  · rw [read_record_glyph font info, checked_eq] at twice
    split at twice <;> simp at twice

theorem info_entries_of_twice {font : Font} {entries : List Entry} {reader : Reader}
    (twice : readRecords font entries reader = .error .fontInfoTwice) :
    2 ≤ infoCount font + infoEntries entries := by
  induction entries generalizing font reader with
  | nil => contradiction
  | cons entry entries ih =>
      have parts : infoEntries (entry :: entries) = infoEntries [entry] + infoEntries entries :=
        (congrArg infoEntries (List.singleton_append.symm)).trans List.countP_append
      rw [read_records_cons] at twice
      cases read : readRecord font entry reader with
      | error fault =>
          rw [read] at twice
          obtain rfl := Except.error.inj twice
          have second := info_entry_of_twice read
          omega
      | ok found =>
          rw [read] at twice
          have counted := info_count_of_record read
          have later := ih twice
          omega

theorem info_entries_of_file {data body : Bytes} {reader : Reader} {font : Font}
    (behind : Behind data body reader) (twice : read font reader = .error .fontInfoTwice) :
    2 ≤ infoCount font + infoEntries (entries body) := by
  rcases Nat.lt_or_ge body.length (tableEnd body) with cut | whole
  · obtain ⟨fault, read, kind⟩ := read_of_cut_table font behind cut
    rw [read] at twice
    obtain rfl := Except.error.inj twice
    exact absurd kind (by decide)
  · obtain ⟨after, -, read⟩ := read_of_table font behind whole
    exact info_entries_of_twice (read.symm.trans twice)

end Shapes

section

variable {data : Bytes}

theorem load_of_bad_line {fault : LoadFault}
    (bad : Header.ofLine (firstLine data.counted) = .error fault) (held : Font) :
    (load data).run held = (some fault, empty) := by
  apply load_of_error
  rw [of_bytes_eq, ofWhole, read_from_eq, Header.read_eq, line_of_start, bad]
  rfl

/-- What stands behind the first line and the two bytes that are skipped with it. -/
def behindLine (data : Bytes) : Bytes := data.drop ((firstLine data).length + 3)

theorem behind_line_append (heading : Heading) (kind : FontKind) (body : Bytes) :
    behindLine (heading.bytes kind ++ body) = body := by
  rw [behindLine, first_line_heading, ← Heading.length_bytes, List.drop_left]

theorem behind_line_of_read {header : Header} {reader : Reader}
    (read : Header.read (Reader.start data) = .ok (header, reader)) :
    Behind data (behindLine data) reader := by
  obtain ⟨heading, body, parts, -⟩ := heading_of_read read
  obtain ⟨other, again, behind⟩ := read_heading heading header.kind body
  rw [← parts, read] at again
  obtain ⟨-, rfl⟩ := Prod.mk.inj (Except.ok.inj again)
  rw [parts, behind_line_append]
  exact behind

theorem info_entries_of_table {header : Header} {reader : Reader}
    (behind : Behind data (behindLine data) reader) (shapes : header.kind = .shapes)
    (twice : readTable header reader = .error .fontInfoTwice) :
    2 ≤ Shapes.infoEntries (Shapes.entries (behindLine data)) := by
  have read : Shapes.read header.blank reader = .error .fontInfoTwice := by
    rwa [read_table_eq, shapes] at twice
  have counted := Shapes.info_entries_of_file behind read
  have noneBefore : Shapes.infoCount header.blank = 0 := rfl
  rwa [noneBefore, Nat.zero_add] at counted

theorem load_of_good_line {header : Header}
    (good : Header.ofLine (firstLine data.counted) = .ok header) (held : Font) :
    let answer := (load data).run held
    (answer.1 = none ∧ answer.2.headerOf = header) ∨
    answer.1.map LoadFault.kind = some .truncatedFile ∨
    (answer.1.map LoadFault.kind = some .duplicateFontInfo ∧ header.kind = .shapes ∧
      2 ≤ Shapes.infoEntries (Shapes.entries (behindLine data.counted))) := by
  intro answer
  have parts := Header.read_eq (Reader.start data.counted)
  rw [line_of_start, good] at parts
  dsimp only [Except.bind] at parts
  split at parts
  · have cut : answer = (some .headerCut, empty) := by
      apply load_of_error
      rw [of_bytes_eq, ofWhole, read_from_eq, parts]
      rfl
    rw [cut]
    exact .inr (.inl rfl)
  · have loads := (of_bytes_eq data).trans (whole_of_read parts)
    have ends := ends_table header
    cases table : readTable header (Header.readLine (Reader.start data.counted)).2 with
    | ok found =>
        rw [table] at loads
        have answered : answer = (none, found.1) := load_of_ok loads held
        rw [answered]
        exact .inl ⟨rfl, ends.kept table⟩
    | error fault =>
        rw [table] at loads
        have answered : answer = (some fault, empty) := load_of_error loads held
        rw [answered]
        rcases ends.fails table with short | ⟨shapes, rfl⟩
        · exact .inr (.inl (congrArg some short))
        · exact .inr (.inr ⟨rfl, shapes,
            info_entries_of_table (behind_line_of_read parts) shapes table⟩)

theorem kind_word_iff (word : Bytes) :
    (∃ kind : FontKind, word = Bytes.ofString kind.word) ↔
      word ∈ ["shapes", "bigfont", "unifont"].map Bytes.ofString := by
  constructor
  · rintro ⟨kind, rfl⟩
    cases kind <;> simp [FontKind.word]
  · intro member
    simp only [List.map_cons, List.map_nil, List.mem_cons, List.not_mem_nil, or_false] at member
    rcases member with rfl | rfl | rfl
    · exact ⟨.shapes, rfl⟩
    · exact ⟨.bigFont, rfl⟩
    · exact ⟨.unifont, rfl⟩

theorem refusal_of_bad_line {fault : LoadFault}
    (bad : Header.ofLine (firstLine data.counted) = .error fault) (held : Font) :
    ((load data).run held).1.map LoadFault.kind = some fault.kind := by
  rw [load_of_bad_line bad]
  rfl

theorem outcome_of_tokens {format version : Bytes} {kind : FontKind}
    (text : Utf8.IsText (firstLine data.counted))
    (tokens : Tokens (firstLine data.counted) format (Bytes.ofString kind.word) version)
    (held : Font) :
    let seen := data.counted
    let line := firstLine seen
    let answer := (load data).run held
    let refusal := answer.1.map LoadFault.kind
    (refusal = none ∧
      Tokens line answer.2.format (Bytes.ofString answer.2.kind.word) answer.2.version) ∨
    refusal = some .truncatedFile ∨
    (refusal = some .duplicateFontInfo ∧
      (∃ format version, Tokens line format (Bytes.ofString "shapes") version) ∧
      2 ≤ (Shapes.entries (seen.drop (line.length + 3))).countP fun entry => entry.index = 0) := by
  intro seen line answer refusal
  rcases load_of_good_line (Header.of_line_known text tokens) held with
    ⟨accepted, header⟩ | cut | ⟨twice, rfl, infos⟩
  · obtain ⟨rfl, rfl, rfl⟩ := Header.mk.inj header
    exact .inl ⟨congrArg (Option.map LoadFault.kind) accepted, tokens⟩
  · exact .inr (.inl cut)
  · exact .inr (.inr ⟨twice, ⟨format, version, tokens⟩, infos⟩)

/-- A file is refused for its heading exactly if its first line is not text or has not two spaces,
and for its kind exactly if the line is right so far and the word between the spaces is none of the
three, as far as the file can be seen. Any other file is accepted, with the three words of its first
line, or is cut, or is a file of shapes whose table has two font infos. -/
theorem refused_by_the_first_line (data : Bytes) (held : Font) :
    let seen := data.counted
    let line := firstLine seen
    let answer := (load data).run held
    let refusal := answer.1.map LoadFault.kind
    (refusal = some .invalidHeader ↔ ¬Utf8.IsText line ∨ line.count 32 ≠ 2) ∧
    (refusal = some .unknownVariant ↔ Utf8.IsText line ∧
      ∃ format word version, Tokens line format word version ∧
        word ∉ ["shapes", "bigfont", "unifont"].map Bytes.ofString) ∧
    (refusal = some .invalidHeader ∨ refusal = some .unknownVariant ∨
      (refusal = none ∧
        Tokens line answer.2.format (Bytes.ofString answer.2.kind.word) answer.2.version) ∨
      refusal = some .truncatedFile ∨
      (refusal = some .duplicateFontInfo ∧
        (∃ format version, Tokens line format (Bytes.ofString "shapes") version) ∧
        2 ≤ (Shapes.entries (seen.drop (line.length + 3))).countP fun entry => entry.index = 0)) := by
  intro seen line answer refusal
  by_cases text : Utf8.IsText line
  · by_cases two : line.count 32 = 2
    · have right : ¬(¬Utf8.IsText line ∨ line.count 32 ≠ 2) := by
        rintro (broken | other)
        · exact broken text
        · exact other two
      obtain ⟨format, word, version, tokens⟩ := exists_tokens two
      by_cases known : ∃ kind : FontKind, word = Bytes.ofString kind.word
      · obtain ⟨kind, rfl⟩ := known
        have noOther : ¬∃ format word version, Tokens line format word version ∧
            word ∉ ["shapes", "bigfont", "unifont"].map Bytes.ofString := by
          rintro ⟨_, other, _, alsoTokens, unknown⟩
          rw [← (tokens.same_word alsoTokens)] at unknown
          exact unknown ((kind_word_iff _).mp ⟨kind, rfl⟩)
        have outcome : (refusal = none ∧ _) ∨ refusal = some .truncatedFile ∨
            (refusal = some .duplicateFontInfo ∧ _) := outcome_of_tokens text tokens held
        have noRefusal :
            refusal ≠ some .invalidHeader ∧ refusal ≠ some .unknownVariant := by
          rcases outcome with ⟨found, -⟩ | found | ⟨found, -⟩ <;> rw [found] <;> decide
        exact ⟨iff_of_false noRefusal.1 right,
          iff_of_false noRefusal.2 fun unknown => noOther unknown.2,
          .inr (.inr outcome)⟩
      · have bad : Header.ofLine line = .error .unknownVariant :=
          Header.of_line_unknown text tokens fun kind same => known ⟨kind, same⟩
        have refused : refusal = some .unknownVariant := refusal_of_bad_line bad held
        rw [refused]
        exact ⟨iff_of_false (by simp) right, iff_of_true rfl ⟨text, format, word, version, tokens,
          fun member => known ((kind_word_iff word).mpr member)⟩, .inr (.inl rfl)⟩
    · have refused : refusal = some .invalidHeader :=
        refusal_of_bad_line (Header.of_line_not_three text two) held
      rw [refused]
      refine ⟨iff_of_true rfl (.inr two), iff_of_false (by simp) ?_, .inl rfl⟩
      rintro ⟨-, _, _, _, tokens, -⟩
      exact two tokens.count
  · have refused : refusal = some .invalidHeader :=
      refusal_of_bad_line (Header.of_line_broken text) held
    rw [refused]
    exact ⟨iff_of_true rfl (.inl text), iff_of_false (by simp) fun right => text right.1, .inl rfl⟩

end

end ShapeFont.Font
