import ShapeFont.Proofs.Font.Parsers
import ShapeFont.Proofs.Reader.Widths
import ShapeFont.Proofs.Text.Sequences

/-!
# The first line

A line is accepted if it is text, has exactly two spaces and names a kind of font between them; which
fault it is refused for follows from the first of these that fails. A file whose heading is read begins
with the bytes of a `Heading`, and every such file is read behind them.
-/

namespace ShapeFont

namespace Utf8

theorem well_formed_append_of_stop {stop : UInt8} (stops : ¬IsContinuation stop) (text more : Bytes) :
    wellFormed (text ++ stop :: more) = (wellFormed text && wellFormed (stop :: more)) := by
  have parts : decode (text ++ stop :: more) = decode text ++ decode (stop :: more) :=
    decode_from_append_of_stop stops (Nat.zero_le _) more
  rw [wellFormed, parts, List.all_append]
  rfl

theorem is_text_append_space (text more : Bytes) :
    IsText (text ++ 32 :: more) ↔ IsText text ∧ IsText more := by
  have stops : ¬IsContinuation 32 := by decide
  have behind : wellFormed (32 :: more) = wellFormed more := by
    rw [wellFormed, decode_cons]
    rfl
  rw [← well_formed_iff, well_formed_append_of_stop stops, behind, Bool.and_eq_true, well_formed_iff,
    well_formed_iff]

end Utf8

theorem FontKind.of_word_eq_some_iff {word : Bytes} {kind : FontKind} :
    FontKind.ofWord? word = some kind ↔ word = Bytes.ofString kind.word := by
  constructor
  · intro found
    have named := List.find?_some found
    exact eq_of_beq named
  · rintro rfl
    cases kind <;> decide +kernel

namespace Font

open Reader

/-- The bytes before the first end of text, or all if there is none. -/
def firstLine (data : Bytes) : Bytes := data.takeWhile fun value => !endsText value

/-- What may stand before, between and behind the two spaces of a first line. -/
structure IsToken (token : Bytes) : Prop where
  text : Utf8.IsText token
  solid : 32 ∉ token
  clean : ∀ value ∈ token, endsText value = false

/-- The words of a line that has two spaces. -/
structure Tokens (line format word version : Bytes) : Prop where
  line : line = format ++ 32 :: (word ++ 32 :: version)
  format : 32 ∉ format
  word : 32 ∉ word
  version : 32 ∉ version

section

variable {line format word version : Bytes}

theorem Tokens.split (tokens : Tokens line format word version) :
    line.splitOn 32 = [format, word, version] := by
  rw [tokens.line, List.splitOn_append_cons_self_of_not_mem tokens.format,
    List.splitOn_append_cons_self_of_not_mem tokens.word, List.splitOn_eq_singleton tokens.version]

theorem Tokens.same_word {other laterWord last : Bytes} (tokens : Tokens line format word version)
    (others : Tokens line other laterWord last) : word = laterWord := by
  have parts := tokens.split.symm.trans others.split
  exact (List.cons.inj (List.cons.inj parts).2).1

theorem Tokens.count (tokens : Tokens line format word version) : line.count 32 = 2 := by
  rw [tokens.line, List.count_append, List.count_cons_self, List.count_append, List.count_cons_self,
    List.count_eq_zero.mpr tokens.format, List.count_eq_zero.mpr tokens.word,
    List.count_eq_zero.mpr tokens.version]

theorem exists_tokens (two : line.count 32 = 2) :
    ∃ format word version, Tokens line format word version := by
  have first : 32 ∈ line := List.count_pos_iff.mp (by omega)
  obtain ⟨format, behind, parts, noEarlier⟩ := List.eq_append_cons_of_mem first
  have one : behind.count 32 = 1 := by
    rw [parts, List.count_append, List.count_cons_self, List.count_eq_zero.mpr noEarlier] at two
    omega
  have second : 32 ∈ behind := List.count_pos_iff.mp (by omega)
  obtain ⟨word, version, further, noBetween⟩ := List.eq_append_cons_of_mem second
  have none : version.count 32 = 0 := by
    rw [further, List.count_append, List.count_cons_self, List.count_eq_zero.mpr noBetween] at one
    omega
  exact ⟨format, word, version, by rw [parts, further], noEarlier, noBetween,
    List.count_eq_zero.mp none⟩

theorem length_split (line : Bytes) : (line.splitOn 32).length = line.count 32 + 1 := by
  induction line with
  | nil => rfl
  | cons byte line ih =>
      rw [List.splitOn_cons_eq_if_modifyHead, List.count_cons]
      split
      · rw [List.length_cons, ih]
      · rw [List.length_modifyHead, ih]

namespace Header

theorem of_line_broken (broken : ¬Utf8.IsText line) : ofLine line = .error .headerNotText := by
  rw [ofLine, if_neg fun formed => broken ((Utf8.well_formed_iff line).mp formed)]

theorem of_line_not_three (text : Utf8.IsText line) (spaces : line.count 32 ≠ 2) :
    ofLine line = .error .headerNotThreeParts := by
  rw [ofLine, if_pos ((Utf8.well_formed_iff line).mpr text)]
  split
  · next parts =>
      have three := length_split line
      rw [parts] at three
      exact absurd (Nat.succ.inj three).symm spaces
  · rfl

theorem of_line_unknown (text : Utf8.IsText line) (tokens : Tokens line format word version)
    (unknown : ∀ kind : FontKind, word ≠ Bytes.ofString kind.word) :
    ofLine line = .error .unknownVariant := by
  have none : FontKind.ofWord? word = none := by
    cases found : FontKind.ofWord? word with
    | none => rfl
    | some kind => exact absurd (FontKind.of_word_eq_some_iff.mp found) (unknown kind)
  rw [ofLine, if_pos ((Utf8.well_formed_iff line).mpr text), tokens.split]
  dsimp only
  rw [none]

theorem of_line_known {kind : FontKind} (text : Utf8.IsText line)
    (tokens : Tokens line format (Bytes.ofString kind.word) version) :
    ofLine line = .ok { format, kind, version } := by
  rw [ofLine, if_pos ((Utf8.well_formed_iff line).mpr text), tokens.split]
  dsimp only
  rw [FontKind.of_word_eq_some_iff.mpr rfl]

theorem tokens_of_line {header : Header} (made : ofLine line = .ok header) :
    Utf8.IsText line ∧
      Tokens line header.format (Bytes.ofString header.kind.word) header.version := by
  by_cases text : Utf8.IsText line
  · by_cases two : line.count 32 = 2
    · obtain ⟨format, word, version, tokens⟩ := exists_tokens two
      by_cases known : ∃ kind : FontKind, word = Bytes.ofString kind.word
      · obtain ⟨kind, rfl⟩ := known
        rw [of_line_known text tokens] at made
        obtain rfl := Except.ok.inj made
        exact ⟨text, tokens⟩
      · rw [of_line_unknown text tokens fun kind same => known ⟨kind, same⟩] at made
        contradiction
    · rw [of_line_not_three text two] at made
      contradiction
  · rw [of_line_broken text] at made
    contradiction

end Header

end

/-! ### Headings -/

/-- How a font file begins: its first line but for the kind, the byte that ends the line, and the two
bytes behind it. -/
structure Heading where
  format : Bytes
  version : Bytes
  terminator : UInt8
  skipped : UInt8 × UInt8
  format_token : IsToken format
  version_token : IsToken version
  ends : endsText terminator = true

namespace Heading

variable (heading : Heading) (kind : FontKind)

def line : Bytes := heading.format ++ 32 :: (Bytes.ofString kind.word ++ 32 :: heading.version)

def bytes : Bytes :=
  heading.line kind ++ [heading.terminator, heading.skipped.1, heading.skipped.2]

def header : Header := { format := heading.format, kind, version := heading.version }

theorem token_of_ascii {bytes : Bytes}
    (ascii : ∀ value ∈ bytes, value.toNat < 0x80 ∧ value ≠ 32 ∧ endsText value = false) :
    IsToken bytes :=
  ⟨Utf8.is_text_of_ascii fun value member => (ascii value member).1,
    fun member => (ascii 32 member).2.1 rfl, fun value member => (ascii value member).2.2⟩

theorem word_token : IsToken (Bytes.ofString kind.word) := by
  apply token_of_ascii
  cases kind <;> decide +kernel

theorem text_line : Utf8.IsText (heading.line kind) :=
  (Utf8.is_text_append_space _ _).mpr ⟨heading.format_token.text,
    (Utf8.is_text_append_space _ _).mpr ⟨(word_token kind).text, heading.version_token.text⟩⟩

theorem clean_line : ∀ value ∈ heading.line kind, endsText value = false := by
  intro value member
  simp only [line, List.mem_append, List.mem_cons] at member
  rcases member with early | rfl | middle | rfl | late
  · exact heading.format_token.clean value early
  · rfl
  · exact (word_token kind).clean value middle
  · rfl
  · exact heading.version_token.clean value late

theorem tokens : Tokens (heading.line kind) heading.format (Bytes.ofString kind.word)
    heading.version :=
  ⟨rfl, heading.format_token.solid, (word_token kind).solid, heading.version_token.solid⟩

theorem length_bytes : (heading.bytes kind).length = (heading.line kind).length + 3 := by
  rw [bytes, List.length_append]
  rfl

def shortest : Heading :=
  ⟨[], [], 13, (10, 26), token_of_ascii (by simp), token_of_ascii (by simp), rfl⟩

end Heading

/-- Nothing was short, and the bytes of `body` are what is left of `data`. -/
structure Behind (data body : Bytes) (reader : Reader) : Prop where
  intact : reader.Intact
  rest : reader.rest = body
  data : reader.data.toList = data

theorem Behind.remaining {data body : Bytes} {reader : Reader} (behind : Behind data body reader) :
    reader.remaining = body.length := by rw [← length_rest, behind.rest]

theorem spans_skipped : Spans (fun reader => reader.take 2) 2 id := spans_take 2

theorem read_line_reads {reader : Reader} (intact : reader.Intact) {line body : Bytes}
    {terminator first second : UInt8}
    (ahead : reader.rest = line ++ terminator :: ([first, second] ++ body))
    (clean : ∀ value ∈ line, endsText value = false) (ends : endsText terminator = true) :
    ∃ behind, Header.readLine reader = (line, behind) ∧
      Behind reader.data.toList body behind := by
  obtain ⟨text, intact, rest⟩ := take_text_reads intact ahead clean ends
  obtain ⟨two, still, further⟩ := spans_skipped.reads intact rest (by rfl)
  refine ⟨(reader.skip (line.length + 1)).skip 2, ?_, still, further, rfl⟩
  unfold Header.readLine
  rw [text]
  dsimp only
  rw [two]

theorem read_heading (heading : Heading) (kind : FontKind) (body : Bytes) :
    ∃ reader, Header.read (Reader.start (heading.bytes kind ++ body)) =
        .ok (heading.header kind, reader) ∧
      Behind (heading.bytes kind ++ body) body reader := by
  have start := intact_start (heading.bytes kind ++ body)
  have ahead : (Reader.start (heading.bytes kind ++ body)).rest =
      heading.line kind ++ heading.terminator :: ([heading.skipped.1, heading.skipped.2] ++ body) := by
    show heading.bytes kind ++ body = _
    simp [Heading.bytes]
  obtain ⟨behind, line, left⟩ := read_line_reads start ahead (heading.clean_line kind) heading.ends
  refine ⟨behind, ?_, left⟩
  rw [Header.read_eq, line, Header.of_line_known (heading.text_line kind) (heading.tokens kind)]
  dsimp only [Except.bind]
  rw [left.intact.full]
  rfl

theorem first_line_append {line more : Bytes} {terminator : UInt8}
    (clean : ∀ value ∈ line, endsText value = false) (ends : endsText terminator = true) :
    firstLine (line ++ terminator :: more) = line := by
  rw [firstLine, List.takeWhile_append_of_pos fun value member => by simp [clean value member],
    List.takeWhile_cons_of_neg (by simp [ends]), List.append_nil]

theorem first_line_heading (heading : Heading) (kind : FontKind) (body : Bytes) :
    firstLine (heading.bytes kind ++ body) = heading.line kind := by
  rw [Heading.bytes, List.append_assoc]
  exact first_line_append (heading.clean_line kind) heading.ends

theorem line_of_start (data : Bytes) :
    (Header.readLine (Reader.start data)).1 = firstLine data := rfl

theorem clean_first_line (data : Bytes) : ∀ value ∈ firstLine data, endsText value = false :=
  clean_take_text (Reader.start data)

theorem first_line_of_full {data : Bytes}
    (full : (Header.readLine (Reader.start data)).2.shortRead = false) :
    ∃ terminator first second body,
      data = firstLine data ++ terminator :: first :: second :: body ∧ endsText terminator = true := by
  have start := intact_start data
  have ended : (Reader.start data).takeText.1.length < (Reader.start data).remaining := by
    have needs := needs_byte_take (by decide : 0 < 2) (Reader.start data).takeText.2 full
    have inside := ended_of_take_text start.sound needs
    rwa [show (Reader.start data).cursor = 0 from rfl, Nat.zero_add] at inside
  obtain ⟨terminator, more, parts, ends⟩ := text_of_ended ended
  obtain ⟨line, intact, rest⟩ := take_text_reads start parts (clean_take_text _) ends
  rcases Nat.lt_or_ge more.length 2 with few | enough
  · have short := spans_skipped.short intact.sound (by rwa [← length_rest, rest])
    unfold Header.readLine at full
    rw [line] at full
    exact absurd full (by dsimp only; rw [short]; simp)
  · obtain ⟨first, one, rfl⟩ := List.exists_cons_of_length_pos (by omega : 0 < more.length)
    rw [List.length_cons] at enough
    obtain ⟨second, body, rfl⟩ := List.exists_cons_of_length_pos (by omega : 0 < one.length)
    exact ⟨terminator, first, second, body, parts, ends⟩

theorem heading_of_read {data : Bytes} {header : Header} {reader : Reader}
    (done : Header.read (Reader.start data) = .ok (header, reader)) :
    ∃ heading : Heading, ∃ body, data = heading.bytes header.kind ++ body ∧
      header = heading.header header.kind := by
  obtain ⟨made, full, -⟩ := Header.ok_of_read done
  obtain ⟨terminator, first, second, body, parts, ends⟩ := first_line_of_full full
  rw [line_of_start] at made
  obtain ⟨text, tokens⟩ := Header.tokens_of_line made
  have clean := clean_first_line data
  rw [tokens.line] at clean text parts
  rw [Utf8.is_text_append_space, Utf8.is_text_append_space] at text
  have format : IsToken header.format :=
    ⟨text.1, tokens.format, fun value member => clean value (by simp [member])⟩
  have version : IsToken header.version :=
    ⟨text.2.2, tokens.version, fun value member => clean value (by simp [member])⟩
  refine ⟨⟨header.format, header.version, terminator, (first, second), format, version, ends⟩,
    body, ?_, rfl⟩
  simpa [Heading.bytes, Heading.line] using parts

end Font

end ShapeFont
