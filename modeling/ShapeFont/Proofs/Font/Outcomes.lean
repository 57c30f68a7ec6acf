import ShapeFont.Proofs.Font.Header

/-!
# What parsers end with

Behind the heading no parser touches the header of the font, and each has its own faults: those of a
cut file everywhere, and a second font info in files of shapes. `Ends` says this of one parser, and
parsers one after the other keep it.
-/

namespace ShapeFont.Font

open Reader

def headerOf (font : Font) : Header :=
  { format := font.format, kind := font.kind, version := font.version }

def Header.blank (header : Header) : Font :=
  { format := header.format, kind := header.kind, version := header.version }

/-- A parser that leaves the header of the font as it is and knows only these faults. -/
structure Ends (allowed : LoadFault → Prop) (font : Font)
    (parse : Reader → Except LoadFault (Font × Reader)) : Prop where
  kept : ∀ {reader : Reader} {found : Font} {after : Reader},
    parse reader = .ok (found, after) → found.headerOf = font.headerOf
  fails : ∀ {reader : Reader} {fault : LoadFault}, parse reader = .error fault → allowed fault

section

variable {allowed : LoadFault → Prop} {font : Font}

theorem Ends.imp {known : LoadFault → Prop} {parse : Reader → Except LoadFault (Font × Reader)}
    (ends : Ends allowed font parse) (more : ∀ fault, allowed fault → known fault) :
    Ends known font parse :=
  ⟨ends.kept, fun failed => more _ (ends.fails failed)⟩

theorem ends_ok {found : Font} (same : found.headerOf = font.headerOf) :
    Ends allowed font fun reader => .ok (found, reader) where
  kept := by
    rintro reader _ after ⟨⟩
    exact same
  fails := by rintro reader fault ⟨⟩

theorem ends_error {fault : LoadFault} (known : allowed fault) :
    Ends allowed font fun _ => .error fault where
  kept := by rintro reader found after ⟨⟩
  fails := by
    rintro reader _ ⟨⟩
    exact known

theorem ends_checked {Value : Type} {read : Reader → Value × Reader} {fault : LoadFault}
    {next : Value → Reader → Except LoadFault (Font × Reader)} (known : allowed fault)
    (back : ∀ value, Ends allowed font (next value)) : Ends allowed font (checked read fault next) where
  kept := by
    intro reader found after done
    rw [checked_eq] at done
    split at done
    · contradiction
    · exact (back _).kept done
  fails := by
    intro reader found failed
    rw [checked_eq] at failed
    split at failed
    · obtain rfl := Except.error.inj failed
      exact known
    · exact (back _).fails failed

theorem Ends.bind {parse : Reader → Except LoadFault (Font × Reader)}
    {next : Font → Reader → Except LoadFault (Font × Reader)} (front : Ends allowed font parse)
    (back : ∀ found, Ends allowed found (next found)) :
    Ends allowed font fun reader => (parse reader).bind fun found => next found.1 found.2 where
  kept := by
    intro reader result after done
    cases begun : parse reader with
    | error fault => simp [begun, Except.bind] at done
    | ok found =>
        rw [begun] at done
        exact ((back _).kept done).trans (front.kept begun)
  fails := by
    intro reader fault failed
    cases begun : parse reader with
    | error found =>
        rw [begun] at failed
        obtain rfl := Except.error.inj failed
        exact front.fails begun
    | ok found =>
        rw [begun] at failed
        exact (back _).fails failed

theorem Ends.of_same_header {other : Font} {parse : Reader → Except LoadFault (Font × Reader)}
    (ends : Ends allowed other parse) (same : other.headerOf = font.headerOf) :
    Ends allowed font parse :=
  ⟨fun done => (ends.kept done).trans same, ends.fails⟩

theorem ends_each {Item : Type} {item : Font → Item → Reader → Except LoadFault (Font × Reader)}
    {items : Font → List Item → Reader → Except LoadFault (Font × Reader)}
    (front : ∀ font next, Ends allowed font (item font next))
    (done : ∀ font reader, items font [] reader = .ok (font, reader))
    (further : ∀ font next rest reader, items font (next :: rest) reader =
      (item font next reader).bind fun found => items found.1 rest found.2)
    (font : Font) (table : List Item) : Ends allowed font (items font table) := by
  induction table generalizing font with
  | nil =>
      rw [funext (done font)]
      exact ends_ok rfl
  | cons next rest ih =>
      rw [funext (further font next rest)]
      exact (front font next).bind ih

end

def OfShortFile (fault : LoadFault) : Prop := fault.kind = .truncatedFile

def OfShapes (fault : LoadFault) : Prop := OfShortFile fault ∨ fault = .fontInfoTwice

namespace BigFont

theorem ends_record (font : Font) (entry : Entry) : Ends OfShortFile font (readRecord font entry) := by
  by_cases info : entry.index = 0
  · rw [read_record_info font info]
    exact ends_checked rfl fun _ => ends_ok rfl
  · rw [read_record_glyph font info]
    exact ends_checked rfl fun _ => ends_ok rfl

theorem ends_read (font : Font) : Ends OfShortFile font (read font) := by
  rw [read_eq]
  exact ends_checked rfl fun _ => ends_checked rfl fun entries =>
    ends_each ends_record (fun _ _ => rfl) read_records_cons font entries

end BigFont

namespace Shapes

theorem kept_store (font : Font) (index : Nat) (record : Bytes) :
    store font index record = { font with
      glyphs := (store font index record).glyphs
      aliases := (store font index record).aliases } := by
  unfold store
  split
  split <;> rfl

theorem header_store (font : Font) (index : Nat) (record : Bytes) :
    (store font index record).headerOf = font.headerOf := by
  rw [kept_store]
  rfl

theorem ends_record (font : Font) (entry : Entry) : Ends OfShapes font (readRecord font entry) := by
  by_cases info : entry.index = 0
  · rw [read_record_info font info]
    cases twice : font.hasMetrics with
    | true =>
        rw [read_info_twice font twice]
        exact ends_error (.inr rfl)
    | false =>
        rw [read_info_once font twice]
        exact ends_checked (.inl rfl) fun _ => ends_ok rfl
  · rw [read_record_glyph font info]
    exact ends_checked (.inl rfl) fun _ => ends_ok (header_store font entry.index _)

theorem ends_read (font : Font) : Ends OfShapes font (read font) := by
  rw [read_eq]
  exact ends_checked (.inl rfl) fun _ => ends_checked (.inl rfl) fun entries =>
    ends_each ends_record (fun _ _ => rfl) read_records_cons font entries

end Shapes

namespace Unifont

theorem ends_records (font : Font) (count : Nat) :
    Ends OfShortFile font (readRecords font count) := by
  induction count generalizing font with
  | zero => exact ends_ok rfl
  | succ count ih =>
      rw [read_records_succ]
      exact ends_checked rfl fun found => (ih (font.insertGlyph found.1 found.2)).of_same_header rfl

theorem ends_info (font : Font) :
    Ends OfShortFile font fun reader => readInfo font (reader.seek infoStart) := by
  rw [funext (read_info_eq font)]
  exact ends_checked rfl fun _ => ends_ok rfl

theorem ends_read (font : Font) : Ends OfShortFile font (read font) := by
  have behind (count : Nat) := (ends_info font).bind fun found => ends_records found (count - 1)
  rw [read_eq]
  exact ends_checked rfl behind

end Unifont

def BehindHeading (kind : FontKind) (fault : LoadFault) : Prop :=
  OfShortFile fault ∨ (kind = .shapes ∧ fault = .fontInfoTwice)

theorem ends_table (header : Header) :
    Ends (BehindHeading header.kind) header.blank (readTable header) := by
  obtain ⟨format, kind, version⟩ := header
  cases kind with
  | shapes => exact (Shapes.ends_read _).imp fun _ => Or.imp_right fun twice => ⟨rfl, twice⟩
  | bigFont => exact (BigFont.ends_read _).imp fun _ => .inl
  | unifont => exact (Unifont.ends_read _).imp fun _ => .inl

theorem whole_of_read {data : Bytes} {header : Header} {reader : Reader}
    (read : Header.read (Reader.start data) = .ok (header, reader)) :
    ofWhole data = (readTable header reader).map Prod.fst := by
  rw [ofWhole, read_from_eq, read]
  rfl

theorem read_of_accepted {data : Bytes} {font : Font} (accepted : ofWhole data = .ok font) :
    ∃ reader, Header.read (Reader.start data) = .ok (font.headerOf, reader) := by
  cases read : Header.read (Reader.start data) with
  | error fault =>
      rw [ofWhole, read_from_eq, read] at accepted
      contradiction
  | ok found =>
      obtain ⟨header, reader⟩ := found
      rw [whole_of_read read] at accepted
      cases table : readTable header reader with
      | error fault =>
          rw [table] at accepted
          contradiction
      | ok result =>
          rw [table] at accepted
          obtain rfl := Except.ok.inj accepted
          exact ⟨reader, by rw [(ends_table header).kept table]; rfl⟩

theorem of_bytes_of_load {data : Bytes} {held : Font} (accepted : ((load data).run held).1 = none) :
    ofBytes data = .ok ((load data).run held).2 := by
  cases read : ofBytes data with
  | error fault =>
      rw [load_of_error read] at accepted
      contradiction
  | ok font => rw [load_of_ok read]

end ShapeFont.Font
