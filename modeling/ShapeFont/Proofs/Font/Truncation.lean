import ShapeFont.Proofs.Font.Parsers

/-!
# Files that end too early

All parsers of font files are steady. A file that is cut inside what was read of it is therefore
refused as cut, and what lies behind that has no part in the font.
-/

namespace ShapeFont

namespace Font

open Reader

section

-- Readings are compared as they stand. Unfolded, each doubles the term behind it.
attribute [local irreducible] Reader.uint Reader.seek Reader.take Reader.takeText Reader.many

theorem local_metrics : Local readMetrics :=
  (local_uint 1).bind fun above => (local_uint 1).bind fun below =>
    (local_uint 1).bind fun modes => local_pure (above, below, modes)

theorem needs_byte_metrics : NeedsByte readMetrics :=
  (needs_byte_uint 0).bind fun above => (local_uint 1).bind fun below =>
    (local_uint 1).bind fun modes => local_pure (above, below, modes)

namespace BigFont

theorem local_entry : Local readEntry :=
  (local_uint 2).bind fun index => (local_uint 2).bind fun length =>
    (local_uint 4).bind fun offset => local_pure ({ index, length, offset } : Entry)

theorem local_range : Local readRange :=
  (local_uint 2).bind fun first => (local_uint 2).bind fun last => local_pure (first, last)

theorem local_counts : Local readCounts :=
  (local_uint 2).bind fun count => (local_uint 2).bind fun _ =>
    (local_uint 2).bind fun rangeCount => local_pure (count, rangeCount)

theorem local_tables (counted : Nat × Nat) : Local (readTables counted) :=
  (local_many local_range counted.2).bind fun _ => local_many local_entry counted.1

theorem steady_record (font : Font) (entry : Entry) : Steady (readRecord font entry) := by
  by_cases info : entry.index = 0
  · rw [read_record_info font info]
    exact steady_checked ((local_seek entry.offset).bind fun _ => local_metrics) rfl
      fun _ => steady_ok _
  · rw [read_record_glyph font info]
    exact steady_checked ((local_seek entry.offset).bind fun _ => local_take entry.length) rfl
      fun _ => steady_ok _

theorem steady_records (font : Font) (entries : List Entry) :
    Steady (readRecords font entries) :=
  steady_each steady_record (fun _ _ => rfl) read_records_cons font entries

theorem steady_read (font : Font) : Steady (read font) := by
  rw [read_eq]
  exact steady_checked local_counts rfl fun counted =>
    steady_checked (local_tables counted) rfl fun entries => steady_records font entries

end BigFont

namespace Shapes

theorem local_entry : Local readEntry :=
  (local_uint 2).bind fun index => (local_uint 2).bind fun length =>
    local_pure ({ index, length } : Entry)

theorem local_count : Local readCount :=
  (local_uint 2).bind fun _ => (local_uint 2).bind fun _ => local_uint 2

theorem local_named : Local readNamed := by
  have behind (name : Bytes) := local_metrics.bind fun metrics => local_pure (name, metrics)
  exact local_text behind fun _ reader full => needs_byte_metrics reader full

theorem steady_info (font : Font) : Steady (readInfo font) := by
  cases twice : font.hasMetrics with
  | true =>
      rw [read_info_twice font twice]
      exact steady_error _
  | false =>
      rw [read_info_once font twice]
      exact steady_checked local_named rfl fun _ => steady_ok _

theorem steady_record (font : Font) (entry : Entry) : Steady (readRecord font entry) := by
  by_cases info : entry.index = 0
  · rw [read_record_info font info]
    exact steady_info font
  · rw [read_record_glyph font info]
    exact steady_checked (local_take entry.length) rfl fun _ => steady_ok _

theorem steady_records (font : Font) (entries : List Entry) :
    Steady (readRecords font entries) :=
  steady_each steady_record (fun _ _ => rfl) read_records_cons font entries

theorem steady_read (font : Font) : Steady (read font) := by
  rw [read_eq]
  exact steady_checked local_count rfl fun count =>
    steady_checked (local_many local_entry count) rfl fun entries => steady_records font entries

end Shapes

namespace Unifont

theorem local_count : Local readCount :=
  (local_uint 4).bind fun count => (local_uint 2).bind fun _ => local_pure count

theorem local_glyph : Local readGlyph :=
  (local_uint 2).bind fun index => (local_uint 2).bind fun length =>
    (local_take length).bind fun program => local_pure (index, program)

theorem local_named : Local readNamed := by
  have modes (name : Bytes) (metrics : Nat × Nat × Nat) :=
    (local_uint 1).bind fun encoding => (local_uint 1).bind fun embeddable =>
      (local_uint 1).bind fun _ => local_pure (name, metrics, encoding, embeddable)
  have behind (name : Bytes) := local_metrics.bind (modes name)
  exact local_text behind fun name => needs_byte_metrics.bind (modes name)

theorem steady_records (font : Font) (count : Nat) : Steady (readRecords font count) := by
  induction count generalizing font with
  | zero => exact steady_ok font
  | succ count ih =>
      rw [read_records_succ]
      exact steady_checked local_glyph rfl fun found => ih (font.insertGlyph found.1 found.2)

theorem steady_info (font : Font) :
    Steady fun reader => readInfo font (reader.seek infoStart) := by
  rw [funext (read_info_eq font)]
  exact steady_checked ((local_seek infoStart).bind fun _ => local_named) rfl
    fun _ => steady_ok _

theorem steady_read (font : Font) : Steady (read font) := by
  rw [read_eq]
  exact steady_checked local_count rfl fun count =>
    (steady_info font).bind fun font => steady_records font (count - 1)

end Unifont

namespace Header

theorem words_of_longer_from (ends : UInt8 → Bool) (line more word : Bytes) :
    (line.splitOnPPrepend ends word).dropLast <+: (line ++ more).splitOnPPrepend ends word := by
  induction line generalizing word with
  | nil => simp
  | cons byte line ih =>
      rw [List.cons_append]
      cases stop : ends byte with
      | true =>
          rw [List.splitOnPPrepend_cons_pos stop, List.splitOnPPrepend_cons_pos stop,
            List.splitOnP_eq_splitOnPPrepend,
            List.dropLast_cons_of_ne_nil (List.splitOnPPrepend_ne_nil ends line [])]
          exact List.cons_prefix_cons.mpr ⟨rfl, ih []⟩
      | false =>
          rw [List.splitOnPPrepend_cons_neg stop, List.splitOnPPrepend_cons_neg stop]
          exact ih (byte :: word)

theorem words_of_longer (line more : Bytes) :
    (line.splitOn 32).dropLast <+: (line ++ more).splitOn 32 :=
  words_of_longer_from (· == 32) line more []

/-- A first line may go on where its file was cut, but then an unknown word is in the middle of it
and stays. -/
theorem of_line_fails {line : Bytes} {fault : LoadFault} (failed : ofLine line = .error fault)
    (more : Bytes) : fault.kind = .invalidHeader ∨ ∃ later, ofLine (line ++ more) = .error later := by
  unfold ofLine at failed
  split at failed
  · split at failed
    · next format word version words =>
        split at failed
        · simp at failed
        · next unknown =>
            right
            have same := words_of_longer line more
            rw [words] at same
            obtain ⟨rest, longer⟩ := same
            unfold ofLine
            rw [← longer]
            split
            · split
              · next there =>
                  obtain ⟨-, there⟩ := List.cons.inj there
                  obtain ⟨rfl, -⟩ := List.cons.inj there
                  rw [unknown]
                  exact ⟨_, rfl⟩
              · exact ⟨_, rfl⟩
            · exact ⟨_, rfl⟩
    · obtain rfl := Except.error.inj failed
      exact .inl rfl
  · obtain rfl := Except.error.inj failed
    exact .inl rfl

theorem take_text_longer {reader : Reader} {other : Array UInt8} (sound : reader.Sound)
    (longer : reader.data.toList <+: other.toList) :
    ∃ more, (reader.on other).takeText.1 = reader.takeText.1 ++ more := by
  obtain ⟨behind, parts⟩ := longer
  have inside : reader.cursor ≤ reader.data.toList.length := by
    rw [Array.length_toList]
    exact Nat.le_trans sound.cursor sound.reach
  have rest : (reader.on other).rest = reader.rest ++ behind := by
    show other.toList.drop reader.cursor = _
    rw [← parts, List.drop_append_of_le_length inside]
    rfl
  simp only [takeText, rest, List.takeWhile_append]
  split
  · next whole =>
      refine ⟨behind.takeWhile fun value => !endsText value, ?_⟩
      rw [List.IsPrefix.eq_of_length (List.takeWhile_prefix _) whole]
  · exact ⟨[], (List.append_nil _).symm⟩

theorem local_line : Local readLine := by
  have behind (line : Bytes) := (local_take 2).bind fun _ => local_pure line
  exact local_text behind fun _ reader full => needs_byte_take (by decide : 0 < 2) reader full

theorem steady_read : Steady read where
  onward := by
    intro reader after header done
    obtain ⟨-, -, rfl⟩ := ok_of_read done
    exact local_line.onward reader
  full := by
    intro reader after header done _
    obtain ⟨-, full, rfl⟩ := ok_of_read done
    exact full
  same := by
    intro reader after header other sound done full shares
    obtain ⟨made, -, rfl⟩ := ok_of_read done
    rw [read_eq, local_line.same sound full shares]
    dsimp only
    rw [made]
    dsimp only [Except.bind]
    rw [short_read_on, full]
    rfl
  fails := by
    intro reader fault other sound _ failed longer
    rw [read_eq] at failed ⊢
    cases made : ofLine (readLine reader).1 with
    | error found =>
        rw [made] at failed
        obtain rfl := Except.error.inj failed
        obtain ⟨more, text⟩ := take_text_longer sound longer
        rcases of_line_fails made more with invalid | ⟨later, again⟩
        · exact .inl (.inr invalid)
        · refine .inr ⟨later, ?_⟩
          have line : (readLine (reader.on other)).1 = (readLine reader).1 ++ more := text
          rw [line, again]
          rfl
    | ok header =>
        rw [made] at failed
        dsimp only [Except.bind] at failed
        split at failed
        · obtain rfl := Except.error.inj failed
          exact .inl (.inl rfl)
        · simp at failed

end Header

theorem steady_table (header : Header) : Steady (readTable header) := by
  obtain ⟨format, kind, version⟩ := header
  cases kind with
  | shapes => exact Shapes.steady_read _
  | bigFont => exact BigFont.steady_read _
  | unifont => exact Unifont.steady_read _

theorem steady_read_from : Steady readFrom := Header.steady_read.bind steady_table

theorem read_of_shares {data other : Bytes} {font : Font} {reader : Reader}
    (accepted : readFrom (Reader.start data) = .ok (font, reader))
    (shares : Shares reader.reach data.toArray other.toArray) :
    readFrom (Reader.start other) = .ok (font, reader.on other.toArray) :=
  steady_read_from.same (sound_start data) accepted (steady_read_from.full accepted rfl) shares

theorem reach_le_length {data : Bytes} {font : Font} {reader : Reader}
    (accepted : readFrom (Reader.start data) = .ok (font, reader)) :
    reader.reach ≤ data.length := by
  have moved := steady_read_from.onward accepted
  have inside := (moved.sound (sound_start data)).reach
  rwa [size, moved.data] at inside

theorem read_longer {data longer : Bytes} {font : Font} {reader : Reader}
    (accepted : readFrom (Reader.start data) = .ok (font, reader)) (begins : data <+: longer) :
    readFrom (Reader.start longer) = .ok (font, reader.on longer.toArray) :=
  read_of_shares accepted (.of_longer (reach_le_length accepted) begins)

theorem whole_of_accepted {data : Bytes} {font : Font} (accepted : ofBytes data = .ok font) :
    ofWhole data = .ok font := by
  rw [of_bytes_eq, ofWhole] at accepted
  cases read : readFrom (Reader.start data.counted) with
  | error fault =>
      rw [read] at accepted
      contradiction
  | ok found =>
      rw [read] at accepted
      rw [ofWhole, read_longer read data.counted_prefix]
      exact accepted

/-- A file that is read is read as the same font from every file that has its bytes up to where the
reading reached: from its beginnings that are long enough, and with any bytes behind it. A beginning
that is shorter is refused for missing bytes, and no font is left. -/
theorem cut_file_is_refused (data : Bytes) (font : Font) (reader : Reader)
    (accepted : readFrom (Reader.ofBytes data) = .ok (font, reader)) :
    (∀ front, front <+: data → reader.reach ≤ front.length → ∀ held : Font,
      (load front).run held = (none, font)) ∧
    (∀ front, front <+: data → front.length < reader.reach → ∃ fault : LoadFault,
      (fault.kind = .truncatedFile ∨ fault.kind = .invalidHeader) ∧ ∀ held : Font,
        (load front).run held = (some fault, empty)) ∧
    ∀ more, ∀ held : Font, (load (data ++ more)).run held = (none, font) := by
  refine ⟨?_, ?_, ?_⟩
  · intro front longer enough
    have inside : reader.reach ≤ (Bytes.counted front).length := by
      have whole := reach_le_length accepted
      rw [Bytes.counted, List.length_take] at whole ⊢
      omega
    have shares : Shares reader.reach (Bytes.counted front).toArray data.counted.toArray :=
      .of_longer inside (Bytes.counted_of_prefix longer)
    apply load_of_ok
    rw [of_bytes_eq, ofWhole, read_of_shares accepted (shares.symm inside)]
    rfl
  · intro front longer cut
    have seen := Bytes.counted_of_prefix longer
    cases read : readFrom (Reader.start (Bytes.counted front)) with
    | ok found =>
        -- The whole file would be read up to the same place, which lies behind the cut.
        have inside := Nat.le_trans (reach_le_length read) (Bytes.counted_prefix front).length_le
        have again := read_longer read seen
        obtain ⟨-, rfl⟩ := Prod.mk.inj (Except.ok.inj (accepted.symm.trans again))
        exact absurd inside (Nat.not_le.mpr cut)
    | error fault =>
        have refused : ofBytes front = .error fault := by rw [of_bytes_eq, ofWhole, read]; rfl
        rcases steady_read_from.fails (sound_start (Bytes.counted front)) rfl read seen with
          missing | ⟨later, again⟩
        · exact ⟨fault, missing, load_of_error refused⟩
        · exact absurd (accepted.symm.trans again) (by simp)
  · intro more
    apply load_of_ok
    rw [of_bytes_eq, ofWhole, read_longer accepted (Bytes.counted_of_prefix (List.prefix_append data more))]
    rfl

/-- The record of glyph 65 has four bytes, and one more byte lies behind it in the file. -/
theorem shapes_file_is_cut_in_record :
    let data : Bytes := [97, 32, 115, 104, 97, 112, 101, 115, 32, 98, 13, 10, 26,
      65, 0, 65, 0, 1, 0, 65, 0, 4, 0, 0, 0, 16, 0, 7]
    ∃ font reader, readFrom (Reader.ofBytes data) = .ok (font, reader) ∧
      font.glyph? 65 = some [16, 0] ∧ (load (data.take 27)).run font = (none, font) ∧
      ∃ fault : LoadFault, (fault.kind = .truncatedFile ∨ fault.kind = .invalidHeader) ∧
        (load (data.take 26)).run font = (some fault, empty) := by
  intro data
  have seen : (readFrom (Reader.ofBytes data)).toOption.map (fun found =>
      (found.2.reach, found.1.glyph? 65)) = some (27, some [16, 0]) := by decide +kernel
  cases read : readFrom (Reader.ofBytes data) with
  | error fault => simp [read, Except.toOption] at seen
  | ok found =>
      obtain ⟨font, reader⟩ := found
      rw [read] at seen
      obtain ⟨reach, glyph⟩ := Prod.mk.inj (Option.some.inj seen)
      obtain ⟨whole, cut, -⟩ := cut_file_is_refused data font reader read
      refine ⟨font, reader, rfl, glyph, ?_, ?_⟩
      · exact whole _ (List.take_prefix 27 data) (by rw [reach]; decide) font
      · obtain ⟨fault, missing, left⟩ := cut _ (List.take_prefix 26 data) (by rw [reach]; decide)
        exact ⟨fault, missing, left font⟩

end

end Font

end ShapeFont
