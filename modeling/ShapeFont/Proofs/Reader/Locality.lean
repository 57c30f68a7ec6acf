import ShapeFont.Bytes.Reader

/-!
# What a reading depends on

A reading that was not short depends on the bytes up to its reach and on no others: in every file
that begins with the same bytes it yields the same and ends at the same place. `Local` says so of
one reading, and readings one after the other are local together. A text may end with its file
without being short, so it is local only together with a byte that is read behind it.
-/

namespace ShapeFont

/-- Two files begin with the same `count` bytes. -/
structure Shares (count : Nat) (data other : Array UInt8) : Prop where
  enough : count ≤ other.size
  same : data.toList.take count = other.toList.take count

namespace Shares

variable {count fewer index : Nat} {data other : Array UInt8}

theorem of_longer (bound : count ≤ data.size) (longer : data.toList <+: other.toList) :
    Shares count data other := by
  obtain ⟨more, parts⟩ := longer
  have sizes : data.size + more.length = other.size := by simpa using congrArg List.length parts
  refine ⟨by omega, ?_⟩
  rw [← parts, List.take_append_of_le_length (by rw [Array.length_toList]; exact bound)]

theorem symm (shares : Shares count data other) (bound : count ≤ data.size) :
    Shares count other data := ⟨bound, shares.same.symm⟩

theorem of_le (shares : Shares count data other) (less : fewer ≤ count) :
    Shares fewer data other where
  enough := Nat.le_trans less shares.enough
  same := by
    have front := congrArg (List.take fewer) shares.same
    rwa [List.take_take, List.take_take, Nat.min_eq_left less] at front

theorem get_eq (shares : Shares count data other) (inside : index < count) :
    other[index]? = data[index]? := by
  have front := congrArg (·[index]?) shares.same
  simp only [List.getElem?_take_of_lt inside, Array.getElem?_toList] at front
  exact front.symm

theorem drop_eq (shares : Shares count data other) (start : Nat) :
    (other.toList.drop start).take (count - start) =
      (data.toList.drop start).take (count - start) := by
  rw [← List.drop_take, ← List.drop_take, shares.same]

end Shares

namespace Reader

def on (reader : Reader) (other : Array UInt8) : Reader := { reader with data := other }

theorem short_read_on (reader : Reader) (other : Array UInt8) :
    (reader.on other).shortRead = reader.shortRead := rfl

/-- The cursor has never been outside the file. -/
structure Sound (reader : Reader) : Prop where
  cursor : reader.cursor ≤ reader.reach
  reach : reader.reach ≤ reader.size

theorem sound_start (data : Bytes) : (start data).Sound := ⟨Nat.le_refl 0, Nat.zero_le _⟩

/-- What reading never undoes. -/
structure Onward (before after : Reader) : Prop where
  data : after.data = before.data
  sound : before.Sound → after.Sound
  reach : before.reach ≤ after.reach
  full : after.shortRead = false → before.shortRead = false

namespace Onward

theorem refl (reader : Reader) : Onward reader reader := ⟨rfl, id, Nat.le_refl _, id⟩

theorem trans {before middle after : Reader} (first : Onward before middle)
    (second : Onward middle after) : Onward before after where
  data := second.data.trans first.data
  sound := second.sound ∘ first.sound
  reach := Nat.le_trans first.reach second.reach
  full := first.full ∘ second.full

theorem move {reader : Reader} {position : Nat} (inside : reader.Sound → position ≤ reader.size) :
    Onward reader (reader.moveTo position) where
  data := rfl
  sound := fun sound => ⟨Nat.le_max_right _ _, Nat.max_le.mpr ⟨sound.reach, inside sound⟩⟩
  reach := Nat.le_max_left _ _
  full := id

theorem short (reader : Reader) : Onward reader reader.markShort :=
  ⟨rfl, fun sound => ⟨sound.cursor, sound.reach⟩, Nat.le_refl _, fun full => by simp [markShort] at full⟩

end Onward

/-- A reading whose outcome, unless it was short, rests on the bytes up to its reach. -/
structure Local {Value : Type} (read : Reader → Value × Reader) : Prop where
  onward : ∀ reader, Onward reader (read reader).2
  same : ∀ {reader : Reader} {other : Array UInt8}, reader.Sound →
    (read reader).2.shortRead = false → Shares (read reader).2.reach reader.data other →
    read (reader.on other) = ((read reader).1, (read reader).2.on other)

def NeedsByte {Value : Type} (read : Reader → Value × Reader) : Prop :=
  ∀ reader, (read reader).2.shortRead = false → reader.cursor < reader.size

section

variable {Value Result : Type}

theorem local_pure (value : Value) : Local fun reader => (value, reader) where
  onward := Onward.refl
  same := fun _ _ _ => rfl

namespace Local

variable {first : Reader → Value × Reader} {next : Value → Reader → Result × Reader}

theorem bind (front : Local first) (back : ∀ value, Local (next value)) :
    Local fun reader => match first reader with
      | (value, middle) => next value middle where
  onward := fun reader => (front.onward reader).trans ((back _).onward _)
  same := by
    intro reader other sound full shares
    have begun := front.onward reader
    have ended := (back (first reader).1).onward (first reader).2
    have head := front.same sound (ended.full full) (shares.of_le ended.reach)
    rw [head]
    exact (back _).same (begun.sound sound) full (by rwa [begun.data])

end Local

theorem NeedsByte.bind {first : Reader → Value × Reader} {next : Value → Reader → Result × Reader}
    (needs : NeedsByte first) (back : ∀ value, Local (next value)) :
    NeedsByte fun reader => match first reader with
      | (value, middle) => next value middle :=
  fun reader full => needs reader (((back _).onward _).full full)

theorem local_byte : Local byte where
  onward := by
    intro reader
    unfold byte
    split
    · next value found =>
        refine Onward.move fun _ => ?_
        obtain ⟨inside, -⟩ := Array.getElem?_eq_some_iff.mp found
        exact inside
    · exact Onward.short reader
  same := by
    intro reader other sound full shares
    cases found : reader.data[reader.cursor]? with
    | none => simp [byte, found, markShort] at full
    | some value =>
        have inside : reader.cursor < (byte reader).2.reach := by
          simp only [byte, found, moveTo]
          omega
        have there : other[reader.cursor]? = some value := (shares.get_eq inside).trans found
        simp only [byte, on, found, there]
        rfl

theorem needs_byte_byte : NeedsByte byte := by
  intro reader full
  cases found : reader.data[reader.cursor]? with
  | none => simp [byte, found, markShort] at full
  | some value =>
      obtain ⟨inside, -⟩ := Array.getElem?_eq_some_iff.mp found
      exact inside

theorem local_uint (width : Nat) : Local (uint · width) := by
  induction width with
  | zero => exact local_pure 0
  | succ width ih =>
      exact local_byte.bind fun low => ih.bind fun high => local_pure (low.toNat + 256 * high)

theorem needs_byte_uint (width : Nat) : NeedsByte (uint · (width + 1)) :=
  needs_byte_byte.bind fun low =>
    (local_uint width).bind fun high => local_pure (low.toNat + 256 * high)

theorem local_seek (position : Int) : Local fun reader => ((), reader.seek position) where
  onward := by
    intro reader
    dsimp only
    unfold seek
    split
    · exact (Onward.move fun _ => Nat.le_refl _).trans (Onward.short _)
    · next inside =>
        refine Onward.move fun _ => ?_
        omega
  same := by
    intro reader other sound full shares
    by_cases outside : position < 0 ∨ (reader.size : Int) < position
    · simp [seek, if_pos outside, markShort] at full
    · have reached : position.toNat ≤ (reader.seek position).reach := by
        rw [seek, if_neg outside]
        exact Nat.le_max_right _ _
      have enough := Nat.le_trans reached shares.enough
      have within : ¬(position < 0 ∨ ((reader.on other).size : Int) < position) := by
        show ¬(position < 0 ∨ (other.size : Int) < position)
        omega
      simp only [seek, if_neg outside, if_neg within]
      rfl

theorem take_of_enough {reader : Reader} {count : Int} (enough : count.toNat ≤ reader.remaining)
    (inside : reader.cursor ≤ reader.size) :
    reader.take count =
      (reader.rest.take count.toNat, reader.moveTo (reader.cursor + count.toNat)) := by
  have whole : reader.cursor + count.toNat ≤ reader.size := by
    unfold remaining at enough
    omega
  have bounds : 0 ≤ (reader.cursor : Int) ∧ 0 ≤ (count.toNat : Int) ∧
      (reader.cursor : Int) + count.toNat ≤ reader.size := by omega
  unfold take
  simp only [Nat.min_eq_left enough, Nat.lt_irrefl, if_false]
  unfold slice
  rw [if_pos bounds, Array.toList_extract, List.extract_eq_take_drop]
  have width : ((reader.cursor : Int) + count.toNat).toNat - (reader.cursor : Int).toNat =
      count.toNat := by omega
  rw [width]
  rfl

theorem enough_of_take {reader : Reader} {count : Int}
    (full : (reader.take count).2.shortRead = false) : count.toNat ≤ reader.remaining := by
  unfold take at full
  dsimp only at full
  split at full
  · simp [markShort] at full
  · omega

theorem local_take (count : Int) : Local (take · count) where
  onward := by
    intro reader
    have moved : Onward reader
        (reader.moveTo (reader.cursor + min count.toNat reader.remaining)) := by
      refine Onward.move fun sound => ?_
      have inside := Nat.le_trans sound.cursor sound.reach
      unfold remaining
      omega
    unfold take
    dsimp only
    split
    · exact moved.trans (Onward.short _)
    · exact moved
  same := by
    intro reader other sound full shares
    have enough := enough_of_take full
    have inside := Nat.le_trans sound.cursor sound.reach
    rw [take_of_enough enough inside] at shares ⊢
    have reached : reader.cursor + count.toNat ≤ other.size :=
      Nat.le_trans (Nat.le_max_right _ _) shares.enough
    have there : count.toNat ≤ (reader.on other).remaining := by
      show _ ≤ other.size - reader.cursor
      omega
    rw [take_of_enough there (by show reader.cursor ≤ other.size; omega)]
    have bytes := (shares.of_le (Nat.le_max_right _ _)).drop_eq reader.cursor
    rw [Nat.add_sub_cancel_left] at bytes
    exact Prod.ext bytes rfl

theorem needs_byte_take {count : Nat} (someWanted : 0 < count) : NeedsByte (take · count) := by
  intro reader full
  have enough := enough_of_take full
  unfold remaining at enough
  omega

theorem take_while_eq_of_take {bytes other : Bytes} {count : Nat} {keep : UInt8 → Bool}
    (same : other.take count = bytes.take count) (short : (bytes.takeWhile keep).length < count) :
    other.takeWhile keep = bytes.takeWhile keep := by
  have cut : (other.takeWhile keep).take count = bytes.takeWhile keep := by
    rw [List.take_takeWhile, same, ← List.take_takeWhile, List.take_of_length_le (Nat.le_of_lt short)]
  have countCut := congrArg List.length cut
  rw [List.length_take] at countCut
  rwa [List.take_of_length_le (by omega)] at cut

theorem length_text_le (reader : Reader) :
    (reader.rest.takeWhile fun value => !endsText value).length ≤ reader.remaining := by
  have bound := (List.takeWhile_sublist (l := reader.rest) fun value => !endsText value).length_le
  rwa [rest, List.length_drop, Array.length_toList] at bound

theorem onward_take_text (reader : Reader) : Onward reader reader.takeText.2 := by
  have bound := length_text_le reader
  unfold remaining at bound
  refine Onward.move fun sound => ?_
  have inside := Nat.le_trans sound.cursor sound.reach
  split <;> omega

theorem ended_of_take_text {reader : Reader} (sound : reader.Sound)
    (behind : reader.takeText.2.cursor < reader.size) :
    reader.cursor + reader.takeText.1.length < reader.size := by
  have bound := length_text_le reader
  have inside := Nat.le_trans sound.cursor sound.reach
  simp only [takeText, moveTo] at behind ⊢
  split at behind
  · assumption
  · omega

theorem take_text_of_ended {reader : Reader}
    (ended : reader.cursor + reader.takeText.1.length < reader.size) :
    reader.takeText.2 = reader.moveTo (reader.cursor + reader.takeText.1.length + 1) := by
  simp only [takeText] at ended ⊢
  rw [if_pos ended]

theorem take_text_same {reader : Reader} {other : Array UInt8}
    (ended : reader.cursor + reader.takeText.1.length < reader.size)
    (shares : Shares reader.takeText.2.reach reader.data other) :
    (reader.on other).takeText = (reader.takeText.1, reader.takeText.2.on other) := by
  have moved := take_text_of_ended ended
  rw [moved] at shares
  have front := shares.of_le (Nat.le_max_right _ _)
  have bytes := front.drop_eq reader.cursor
  -- The byte that ends the text is within reach too, so the other text ends at it.
  have text : (reader.on other).takeText.1 = reader.takeText.1 :=
    take_while_eq_of_take bytes (by show reader.takeText.1.length < _; omega)
  have there : reader.cursor + (reader.on other).takeText.1.length < (reader.on other).size := by
    rw [text]
    exact front.enough
  refine Prod.ext text ?_
  rw [take_text_of_ended there, moved, text]
  rfl

theorem local_text {next : Bytes → Reader → Result × Reader} (back : ∀ text, Local (next text))
    (needs : ∀ text, NeedsByte (next text)) :
    Local fun reader => match reader.takeText with
      | (text, behind) => next text behind where
  onward := fun reader => (onward_take_text reader).trans ((back _).onward _)
  same := by
    intro reader other sound full shares
    have begun := onward_take_text reader
    have ended := (back reader.takeText.1).onward reader.takeText.2
    have behind : reader.takeText.2.cursor < reader.size := by
      have byteThere := needs reader.takeText.1 reader.takeText.2 full
      rwa [size, begun.data] at byteThere
    rw [take_text_same (ended_of_take_text sound behind) (shares.of_le ended.reach)]
    exact (back _).same (begun.sound sound) full (by rwa [begun.data])

theorem local_collect {read : Reader → Value × Reader} (item : Local read) (count : Nat)
    (done : Array Value) : Local fun reader => collect read count done reader := by
  induction count generalizing done with
  | zero => exact local_pure done
  | succ count ih => exact item.bind fun value => ih (done.push value)

theorem local_many {read : Reader → Value × Reader} (item : Local read) (count : Nat) :
    Local fun reader => reader.many read count :=
  (local_collect item count #[]).bind fun items => local_pure items.toList

end

end Reader

end ShapeFont
