import ShapeFont.Proofs.Reader.Parsing

/-!
# Readings of known width

Most readings take a number of bytes that is known before them. Such a reading rests on these bytes
alone where they are there, and is short where they are not: `Spans` says both, and readings one after
the other span the sum of their widths. A text ends where its end stands, so it has a law of its own.
-/

namespace ShapeFont

namespace Bytes

/-- The bytes of a number, least significant first. Of a number that needs more than `width` of them
the upper ones are left out. -/
def ofNat : (width number : Nat) → Bytes
  | 0, _ => []
  | width + 1, number => number.toUInt8 :: ofNat width (number / 256)

def numberAt (bytes : Bytes) (position width : Nat) : Nat :=
  littleEndian ((bytes.drop position).take width)

@[simp] theorem length_of_nat (width number : Nat) : (ofNat width number).length = width := by
  induction width generalizing number with
  | zero => rfl
  | succ width ih => rw [ofNat, List.length_cons, ih]

theorem little_endian_of_nat {width number : Nat} (fits : number < Nat.pow 256 width) :
    littleEndian (ofNat width number) = number := by
  induction width generalizing number with
  | zero =>
      have none : number = 0 := Nat.lt_one_iff.mp fits
      rw [none]
      rfl
  | succ width ih =>
      have upper : number / 256 < Nat.pow 256 width := Nat.div_lt_of_lt_mul (by rwa [Nat.mul_comm])
      have low : number.toUInt8.toNat = number % 256 := UInt8.toNat_ofNat'
      rw [ofNat, little_endian_cons, ih upper, low]
      omega

theorem little_endian_lt (bytes : Bytes) : littleEndian bytes < Nat.pow 256 bytes.length := by
  induction bytes with
  | nil => exact Nat.one_pos
  | cons byte rest ih =>
      have low := byte.toNat_lt
      show byte.toNat + 256 * littleEndian rest < Nat.pow 256 rest.length * 256
      omega

theorem number_at_lt (bytes : Bytes) (position width : Nat) :
    numberAt bytes position width < Nat.pow 256 width :=
  Nat.lt_of_lt_of_le (little_endian_lt _)
    (Nat.pow_le_pow_right (by decide) (List.length_take_le width _))

theorem number_at_of_nat {width number : Nat} (fits : number < Nat.pow 256 width)
    (front more : Bytes) :
    numberAt (front ++ (ofNat width number ++ more)) front.length width = number := by
  rw [numberAt, List.drop_left, List.take_left' (length_of_nat width number),
    little_endian_of_nat fits]

theorem number_at_take (bytes : Bytes) {position width count : Nat}
    (within : position + width ≤ count) :
    numberAt (bytes.take count) position width = numberAt bytes position width := by
  rw [numberAt, List.drop_take, List.take_take, Nat.min_eq_left (by omega), numberAt]

theorem number_at_drop (bytes : Bytes) (start position width : Nat) :
    numberAt (bytes.drop start) position width = numberAt bytes (start + position) width := by
  rw [numberAt, List.drop_drop, numberAt]

end Bytes

namespace Reader

theorem Onward.still_short {before after : Reader} (onward : Onward before after)
    (missing : before.shortRead = true) : after.shortRead = true := by
  cases full : after.shortRead with
  | true => rfl
  | false => rw [onward.full full] at missing; contradiction

/-- Nothing was short so far, and the cursor is in the file. -/
structure Intact (reader : Reader) : Prop where
  sound : reader.Sound
  full : reader.shortRead = false

theorem intact_start (data : Bytes) : (start data).Intact := ⟨sound_start data, rfl⟩

theorem Intact.inside {reader : Reader} (intact : reader.Intact) : reader.cursor ≤ reader.size :=
  Nat.le_trans intact.sound.cursor intact.sound.reach

def skip (reader : Reader) (count : Nat) : Reader := reader.moveTo (reader.cursor + count)

section

variable {reader : Reader} {count more : Nat}

theorem rest_skip (reader : Reader) (count : Nat) :
    (reader.skip count).rest = reader.rest.drop count := by
  rw [rest, rest, List.drop_drop]
  rfl

theorem remaining_skip (reader : Reader) (count : Nat) :
    (reader.skip count).remaining = reader.remaining - count := Nat.sub_add_eq _ _ _

theorem length_rest (reader : Reader) : reader.rest.length = reader.remaining := by
  rw [rest, List.length_drop, Array.length_toList]
  rfl

theorem size_of_data {data : Bytes} (holds : reader.data.toList = data) :
    reader.size = data.length := by
  rw [← holds, Array.length_toList, Reader.size]

theorem Intact.skip (intact : reader.Intact) (enough : count ≤ reader.remaining) :
    (reader.skip count).Intact := by
  have inside := intact.inside
  have moved : Onward reader (reader.skip count) :=
    Onward.move fun _ => by unfold remaining at enough; omega
  exact ⟨moved.sound intact.sound, intact.full⟩

theorem skip_zero (sound : reader.Sound) : reader.skip 0 = reader := by
  have reached : max reader.reach reader.cursor = reader.reach := Nat.max_eq_left sound.cursor
  unfold Reader.skip moveTo
  rw [Nat.add_zero, reached]

theorem skip_skip (reader : Reader) (count more : Nat) :
    (reader.skip count).skip more = reader.skip (count + more) := by
  have further : max (max reader.reach (reader.cursor + count)) (reader.cursor + count + more) =
      max reader.reach (reader.cursor + (count + more)) := by omega
  unfold Reader.skip moveTo
  dsimp only
  rw [further, Nat.add_assoc]

end

/-- A reading of `width` bytes: where they are ahead it takes them and yields what `decode` makes of
them, and where they are not it is short. -/
structure Spans {Value : Type} (read : Reader → Value × Reader) (width : Nat)
    (decode : Bytes → Value) : Prop where
  onward : ∀ reader, Onward reader (read reader).2
  whole : ∀ {reader : Reader}, reader.Sound → width ≤ reader.remaining →
    read reader = (decode (reader.rest.take width), reader.skip width)
  short : ∀ {reader : Reader}, reader.Sound → reader.remaining < width →
    (read reader).2.shortRead = true

section

variable {Value Result : Type} {read : Reader → Value × Reader} {width : Nat}
  {decode : Bytes → Value} {reader : Reader}

theorem Spans.reads (spans : Spans read width decode) (intact : reader.Intact) {front more : Bytes}
    (ahead : reader.rest = front ++ more) (exactWidth : front.length = width) :
    read reader = (decode front, reader.skip width) ∧ (reader.skip width).Intact ∧
      (reader.skip width).rest = more := by
  have enough : width ≤ reader.remaining := by
    rw [← length_rest, ahead, List.length_append]
    omega
  refine ⟨?_, intact.skip enough, ?_⟩
  · rw [spans.whole intact.sound enough, ahead, List.take_left' exactWidth]
  · rw [rest_skip, ahead, List.drop_left' exactWidth]

theorem spans_pure (value : Value) : Spans (fun reader => (value, reader)) 0 fun _ => value where
  onward := Onward.refl
  whole := fun sound _ => by rw [skip_zero sound]
  short := fun _ less => absurd less (Nat.not_lt_zero _)

theorem Spans.bind {next : Value → Reader → Result × Reader} {further : Nat}
    {decodeNext : Value → Bytes → Result} (front : Spans read width decode)
    (back : ∀ value, Spans (next value) further (decodeNext value)) :
    Spans (fun reader => match read reader with
      | (value, middle) => next value middle) (width + further)
      fun bytes => decodeNext (decode (bytes.take width)) (bytes.drop width) where
  onward := fun reader => (front.onward reader).trans ((back _).onward _)
  whole := by
    intro reader sound enough
    have enoughFront : width ≤ reader.remaining := by omega
    have ahead := front.whole sound enoughFront
    have soundMiddle := (front.onward reader).sound sound
    rw [ahead] at soundMiddle ⊢
    have enoughBack : further ≤ (reader.skip width).remaining := by
      rw [remaining_skip]
      omega
    dsimp only
    rw [(back _).whole soundMiddle enoughBack, skip_skip, rest_skip, List.take_take,
      Nat.min_eq_left (Nat.le_add_right _ _), List.drop_take, Nat.add_sub_cancel_left]
  short := by
    intro reader sound cut
    by_cases enoughFront : width ≤ reader.remaining
    · have ahead := front.whole sound enoughFront
      have soundMiddle := (front.onward reader).sound sound
      rw [ahead] at soundMiddle ⊢
      exact (back _).short soundMiddle (by rw [remaining_skip]; omega)
    · -- The front was short already, and no reading behind it takes that back.
      exact ((back _).onward _).still_short (front.short sound (Nat.lt_of_not_le enoughFront))

theorem Spans.congr {other : Bytes → Value} (spans : Spans read width decode)
    (same : ∀ bytes : Bytes, bytes.length = width → decode bytes = other bytes) :
    Spans read width other where
  onward := spans.onward
  whole := by
    intro reader sound enough
    rw [spans.whole sound enough, same]
    rw [List.length_take, length_rest, Nat.min_eq_left enough]
  short := spans.short

theorem spans_byte : Spans byte 1 fun bytes => bytes.headD 0 where
  onward := local_byte.onward
  whole := by
    intro reader _ enough
    have inside : reader.cursor < reader.data.size := by
      unfold remaining at enough
      have := Nat.lt_of_sub_pos enough
      exact this
    have there : reader.data[reader.cursor]? = some reader.data[reader.cursor] :=
      Array.getElem?_eq_getElem inside
    have ahead : reader.rest =
        reader.data[reader.cursor] :: reader.data.toList.drop (reader.cursor + 1) := by
      rw [rest, List.drop_eq_getElem_cons (by simpa using inside), Array.getElem_toList]
    rw [byte, there, ahead]
    rfl
  short := by
    intro reader _ cut
    have behind : reader.data.size ≤ reader.cursor := by
      unfold remaining at cut
      exact Nat.sub_eq_zero_iff_le.mp (Nat.lt_one_iff.mp cut)
    rw [byte, Array.getElem?_eq_none behind]
    rfl

theorem spans_uint (width : Nat) : Spans (uint · width) width Bytes.littleEndian := by
  induction width with
  | zero => exact (spans_pure 0).congr fun bytes none => by rw [List.eq_nil_of_length_eq_zero none]; rfl
  | succ width ih =>
      have sum : 1 + (width + 0) = width + 1 := Nat.add_comm _ _
      have parts := spans_byte.bind fun low =>
        ih.bind fun high => spans_pure (low.toNat + 256 * high)
      rw [sum] at parts
      refine parts.congr fun bytes length => ?_
      cases bytes with
      | nil => simp at length
      | cons low rest =>
          have whole : rest.take width = rest :=
            List.take_of_length_le (Nat.le_of_eq (Nat.succ_inj.mp length))
          rw [List.take_succ_cons, List.take_zero, List.drop_succ_cons, List.drop_zero, whole]
          rfl

theorem spans_take (count : Nat) : Spans (take · count) count id where
  onward := (local_take count).onward
  whole := by
    intro reader sound enough
    exact take_of_enough (by rwa [Int.toNat_natCast]) (Nat.le_trans sound.cursor sound.reach)
  short := by
    intro reader _ cut
    cases full : (reader.take count).2.shortRead with
    | true => rfl
    | false =>
        have enough := enough_of_take full
        rw [Int.toNat_natCast] at enough
        omega

def table (width : Nat) (decode : Bytes → Value) (count : Nat) (bytes : Bytes) : List Value :=
  (List.range count).map fun index => decode ((bytes.drop (index * width)).take width)

theorem table_succ (width : Nat) (decode : Bytes → Value) (count : Nat) (bytes : Bytes) :
    table width decode (count + 1) bytes =
      decode (bytes.take width) :: table width decode count (bytes.drop width) := by
  rw [table, List.range_succ_eq_map, List.map_cons, List.map_map, Nat.zero_mul, List.drop_zero, table]
  congr 1
  apply List.map_congr_left
  intro index _
  rw [Function.comp, List.drop_drop, Nat.succ_mul, Nat.add_comm]

theorem table_take (width : Nat) (decode : Bytes → Value) (count : Nat) (bytes : Bytes) :
    table width decode count (bytes.take (count * width)) = table width decode count bytes := by
  apply List.map_congr_left
  intro index member
  have within : (index + 1) * width ≤ count * width :=
    Nat.mul_le_mul_right width (List.mem_range.mp member)
  rw [Nat.succ_mul] at within
  rw [List.drop_take, List.take_take, Nat.min_eq_left (by omega)]

theorem table_of_encoded {encode : Value → Bytes} {items : List Value}
    (inverse : ∀ item ∈ items, (encode item).length = width ∧ decode (encode item) = item) :
    table width decode items.length (items.flatMap encode) = items := by
  induction items with
  | nil => rfl
  | cons item items ih =>
      obtain ⟨length, same⟩ := inverse item List.mem_cons_self
      rw [List.length_cons, table_succ, List.flatMap_cons, List.take_left' length,
        List.drop_left' length, same,
        ih fun later member => inverse later (List.mem_cons_of_mem _ member)]

theorem spans_collect (item : Spans read width decode) (count : Nat) (done : Array Value) :
    Spans (fun reader => collect read count done reader) (count * width)
      fun bytes => done ++ (table width decode count bytes).toArray := by
  induction count generalizing done with
  | zero =>
      rw [Nat.zero_mul]
      exact (spans_pure done).congr fun _ _ => by simp [table]
  | succ count ih =>
      have sum : width + count * width = (count + 1) * width := by rw [Nat.succ_mul, Nat.add_comm]
      have parts := item.bind fun value => ih (done.push value)
      rw [sum] at parts
      refine parts.congr fun bytes _ => ?_
      rw [table_succ]
      simp

theorem spans_many (item : Spans read width decode) (count : Nat) :
    Spans (fun reader => reader.many read count) (count * width) (table width decode count) := by
  have parts := (spans_collect item count #[]).bind fun items => spans_pure items.toList
  refine parts.congr fun bytes _ => ?_
  rw [table_take]
  simp

/-! ### Texts, places and checks -/

theorem take_text_reads (intact : reader.Intact) {text more : Bytes} {terminator : UInt8}
    (ahead : reader.rest = text ++ terminator :: more)
    (clean : ∀ value ∈ text, endsText value = false) (ends : endsText terminator = true) :
    reader.takeText = (text, reader.skip (text.length + 1)) ∧
      (reader.skip (text.length + 1)).Intact ∧ (reader.skip (text.length + 1)).rest = more := by
  have cut : (reader.rest.takeWhile fun value => !endsText value) = text := by
    rw [ahead, List.takeWhile_append_of_pos fun value member => by simp [clean value member],
      List.takeWhile_cons_of_neg (by simp [ends]), List.append_nil]
  have enough : text.length + 1 ≤ reader.remaining := by
    rw [← length_rest, ahead, List.length_append, List.length_cons]
    omega
  have ended : reader.cursor + text.length < reader.size := by
    unfold remaining at enough
    omega
  refine ⟨?_, intact.skip enough, ?_⟩
  · unfold takeText
    rw [cut]
    dsimp only
    rw [if_pos ended]
    rfl
  · have parts : reader.rest = (text ++ [terminator]) ++ more := by simp [ahead]
    rw [rest_skip, parts, List.drop_left' (by simp)]

theorem clean_take_text (reader : Reader) :
    ∀ value ∈ reader.takeText.1, endsText value = false := by
  intro value member
  have kept := List.all_eq_true.mp (List.all_takeWhile (p := fun value => !endsText value)) value member
  simpa using kept

theorem text_of_ended (ended : reader.takeText.1.length < reader.remaining) :
    ∃ terminator more, reader.rest = reader.takeText.1 ++ terminator :: more ∧
      endsText terminator = true := by
  have parts : reader.takeText.1 ++ (reader.rest.dropWhile fun value => !endsText value) =
      reader.rest := List.takeWhile_append_dropWhile
  have moreLeft : (reader.rest.dropWhile fun value => !endsText value) ≠ [] := by
    intro none
    rw [none, List.append_nil] at parts
    rw [parts, length_rest] at ended
    exact Nat.lt_irrefl _ ended
  have ends := List.head_dropWhile_not (fun value => !endsText value) moreLeft
  obtain ⟨terminator, more, behind⟩ := List.exists_cons_of_ne_nil moreLeft
  rw [behind] at parts
  exact ⟨terminator, more, parts.symm, by simpa [behind] using ends⟩

theorem seek_of_inside {position : Nat} (inside : position ≤ reader.size) :
    reader.seek position = reader.moveTo position := by
  have within : ¬((position : Int) < 0 ∨ (reader.size : Int) < position) := by omega
  rw [seek, if_neg within]
  rfl

theorem intact_move (intact : reader.Intact) {position : Nat} (inside : position ≤ reader.size) :
    (reader.moveTo position).Intact :=
  ⟨(Onward.move fun _ => inside).sound intact.sound, intact.full⟩

theorem Spans.placed (spans : Spans read width decode) (intact : reader.Intact) {position : Nat}
    (inside : position + width ≤ reader.size) :
    read (reader.seek position) =
        (decode ((reader.data.toList.drop position).take width),
          (reader.moveTo position).skip width) ∧
      ((reader.moveTo position).skip width).Intact := by
  have begun := intact_move intact (Nat.le_trans (Nat.le_add_right position width) inside)
  have enough : width ≤ (reader.moveTo position).remaining := Nat.le_sub_of_add_le' inside
  refine ⟨?_, begun.skip enough⟩
  rw [seek_of_inside (by omega), spans.whole begun.sound enough]
  rfl

theorem Spans.misplaced (spans : Spans read width decode) (intact : reader.Intact) {position : Nat}
    (outside : reader.size < position + width) :
    (read (reader.seek position)).2.shortRead = true := by
  by_cases inside : position ≤ reader.size
  · rw [seek_of_inside inside]
    refine spans.short (intact_move intact inside).sound ?_
    show reader.size - position < width
    omega
  · have missed : (reader.seek position).shortRead = true := by
      rw [seek, if_pos (by omega)]
      rfl
    exact (spans.onward _).still_short missed

theorem checked_of_read {value : Value} {after : Reader} (found : read reader = (value, after))
    (still : after.Intact) (fault : LoadFault)
    (next : Value → Reader → Except LoadFault (Result × Reader)) :
    checked read fault next reader = next value after := by
  rw [checked_eq, found, if_neg (Bool.eq_false_iff.mp still.full)]

theorem checked_of_enough (spans : Spans read width decode) (intact : reader.Intact)
    (enough : width ≤ reader.remaining) (fault : LoadFault)
    (next : Value → Reader → Except LoadFault (Result × Reader)) :
    checked read fault next reader = next (decode (reader.rest.take width)) (reader.skip width) :=
  checked_of_read (spans.whole intact.sound enough) (intact.skip enough) fault next

theorem checked_of_placed (spans : Spans read width decode) (intact : reader.Intact)
    {position : Nat} (inside : position + width ≤ reader.size) (fault : LoadFault)
    (next : Value → Reader → Except LoadFault (Result × Reader)) :
    checked (fun reader => read (reader.seek position)) fault next reader =
      next (decode ((reader.data.toList.drop position).take width))
        ((reader.moveTo position).skip width) :=
  checked_of_read (spans.placed intact inside).1 (spans.placed intact inside).2 fault next

theorem checked_of_misplaced (spans : Spans read width decode) (intact : reader.Intact)
    {position : Nat} (outside : reader.size < position + width) (fault : LoadFault)
    (next : Value → Reader → Except LoadFault (Result × Reader)) :
    checked (fun reader => read (reader.seek position)) fault next reader = .error fault := by
  rw [checked_eq, if_pos (spans.misplaced intact outside)]

theorem Spans.of_checked (spans : Spans read width decode) (intact : reader.Intact)
    {fault : LoadFault} {next : Value → Reader → Except LoadFault (Result × Reader)}
    {result : Result × Reader} (done : checked read fault next reader = .ok result) :
    width ≤ reader.remaining ∧
      next (decode (reader.rest.take width)) (reader.skip width) = .ok result := by
  rcases Nat.lt_or_ge reader.remaining width with few | enough
  · rw [checked_eq, if_pos (spans.short intact.sound few)] at done
    contradiction
  · exact ⟨enough, (checked_of_enough spans intact enough fault next).symm.trans done⟩

theorem checked_of_cut (spans : Spans read width decode) (intact : reader.Intact)
    (cut : reader.remaining < width) (fault : LoadFault)
    (next : Value → Reader → Except LoadFault (Result × Reader)) :
    checked read fault next reader = .error fault := by
  rw [checked_eq, if_pos (spans.short intact.sound cut)]

end

end Reader

end ShapeFont
