import ShapeFont.Glyph.Instruction
import ShapeFont.Proofs.Stream.Unread

/-!
# How instructions are encoded

An instruction is an opcode and its operands. `operandWidth?` says how many bytes the operands take
and `decode` what instruction they make; both look at bytes alone, in no frames. `fetch` reads
exactly that many bytes and makes exactly that instruction (`fetch_of_unread`).
-/

namespace ShapeFont.Instruction

open CodeStream

def within (width : Nat) (ahead : Bytes) : Option Nat :=
  if width ≤ ahead.length then some width else none

/-- The width of a subshape number. A zero in a bigfont stands in front of six more bytes. -/
def keyWidth? : FontKind → Bytes → Option Nat
  | .shapes, ahead => within 1 ahead
  | .unifont, ahead => within 2 ahead
  | .bigFont, ahead => if ahead.head? = some 0 then within 7 ahead else within 1 ahead

/-- The width of a list of legs with the pair of zeros at its end. A leg has a third byte when it is
bulged, the pair of zeros never has. -/
def listWidth? : (bulged : Bool) → Bytes → Option Nat
  | false, dx :: dy :: ahead =>
      if dx = 0 ∧ dy = 0 then some 2 else (listWidth? false ahead).map (2 + ·)
  | true, dx :: dy :: _ :: ahead =>
      if dx = 0 ∧ dy = 0 then some 2 else (listWidth? true ahead).map (3 + ·)
  | true, [dx, dy] => if dx = 0 ∧ dy = 0 then some 2 else none
  | _, _ => none

/-- How many of the bytes ahead are operands of the opcode; none where the operands run out. -/
def operandWidth? (kind : FontKind) (opcode : Nat) (ahead : Bytes) : Option Nat :=
  match opcode with
  | 3 | 4 => within 1 ahead
  | 7 => keyWidth? kind ahead
  | 8 | 10 => within 2 ahead
  | 9 => listWidth? false ahead
  | 11 => within 5 ahead
  | 12 => within 3 ahead
  | 13 => listWidth? true ahead
  | _ => some 0

def keyCode : FontKind → Bytes → Nat
  | .bigFont, 0 :: low :: high :: _ => Bytes.littleEndian [low, high]
  | _, key => Bytes.littleEndian key

def legs : (bulged : Bool) → Bytes → List Leg
  | false, dx :: dy :: ahead =>
      if dx = 0 ∧ dy = 0 then [] else .straight (signed8 dx) (signed8 dy) :: legs false ahead
  | true, dx :: dy :: height :: ahead =>
      if dx = 0 ∧ dy = 0 then []
      else .bulge (signed8 dx) (signed8 dy) (signed8 height) :: legs true ahead
  | _, _ => []

def decode (kind : FontKind) (opcode : Nat) (operands : Bytes) : Instruction :=
  if 16 ≤ opcode then .vector (opcode / 16) (opcode % 16)
  else match opcode, operands with
    | 0, _ => .endOfShape
    | 1, _ => .setPen true
    | 2, _ => .setPen false
    | 3, [factor] => .divideScale factor.toNat
    | 4, [factor] => .multiplyScale factor.toNat
    | 5, _ => .savePosition
    | 6, _ => .restorePosition
    | 7, key => .subshape (keyCode kind key)
    | 8, [dx, dy] => .travel [.straight (signed8 dx) (signed8 dy)]
    | 9, list => .travel (legs false list)
    | 10, [radius, sweep] => .arc (.ofOperands none radius.toNat sweep)
    | 11, [startOffset, endOffset, high, low, sweep] =>
        .arc (.ofOperands (startOffset.toNat, endOffset.toNat) (256 * high.toNat + low.toNat) sweep)
    | 12, [dx, dy, height] => .travel [.bulge (signed8 dx) (signed8 dy) (signed8 height)]
    | 13, list => .travel (legs true list)
    | 14, _ => .verticalOnly
    | _, _ => .unassigned

def factorFault? (opcode : Nat) (ahead : Bytes) : Option GlyphFault :=
  match opcode, ahead with
  | 3, 0 :: _ => some .divideByZero
  | 4, 0 :: _ => some .multiplyByZero
  | _, _ => none

def cutFault (opcode : Nat) : GlyphFault := if opcode = 7 then .subshapeKeyCut else .operandCut

def cutLegs (opcode : Nat) (ahead : Bytes) : List Leg :=
  match opcode with
  | 9 => legs false ahead
  | 13 => legs true ahead
  | _ => []

/-- The stream behind an instruction: the end of a shape takes the rest of its program along. -/
def behind (opcode : Nat) (rest : CodeStream) : CodeStream :=
  if opcode = 0 then rest.discardThroughZero else rest

theorem read_key_eq (kind : FontKind) (stream : CodeStream) :
    readKey? kind stream = (keyWidth? kind stream.unread).map fun width =>
      (keyCode kind (stream.unread.take width), stream.advance width) := by
  rcases front : stream.unread with _ | ⟨low, ahead⟩
  · cases kind <;> simp [readKey?, next_eq stream, front, keyWidth?, within]
  cases kind with
  | shapes => simp [readKey?, next_eq stream, front, keyWidth?, within, keyCode]
  | unifont =>
      rcases ahead with _ | ⟨high, ahead⟩ <;>
        simp [readKey?, next_eq stream, next_advance, front, keyWidth?, within, keyCode]
  | bigFont =>
      by_cases escape : low = 0
      · subst escape
        rcases ahead with _ | ⟨b1, _ | ⟨b2, _ | ⟨b3, _ | ⟨b4, _ | ⟨b5, _ | ⟨b6, ahead⟩⟩⟩⟩⟩⟩ <;>
          simp [readKey?, next_eq stream, next_advance, front, keyWidth?, within, keyCode]
      · simp [readKey?, next_eq stream, front, keyWidth?, within, keyCode, escape]

theorem read_listed_straight (stream : CodeStream) :
    readListed? false stream = match stream.unread with
      | dx :: dy :: _ =>
          if dx = 0 ∧ dy = 0 then some (none, stream.advance 2)
          else some (some (.straight (signed8 dx) (signed8 dy)), stream.advance 2)
      | _ => none := by
  rcases front : stream.unread with _ | ⟨dx, _ | ⟨dy, ahead⟩⟩
  · simp [readListed?, next_eq stream, front]
  · simp [readListed?, next_eq stream, next_advance, front]
  · by_cases stop : dx = 0 ∧ dy = 0 <;>
      simp [readListed?, next_eq stream, next_advance, front, stop]

theorem read_listed_bulged (stream : CodeStream) :
    readListed? true stream = match stream.unread with
      | dx :: dy :: ahead =>
          if dx = 0 ∧ dy = 0 then some (none, stream.advance 2)
          else (ahead.head?).map fun height =>
            (some (.bulge (signed8 dx) (signed8 dy) (signed8 height)), stream.advance 3)
      | _ => none := by
  rcases front : stream.unread with _ | ⟨dx, _ | ⟨dy, ahead⟩⟩
  · simp [readListed?, next_eq stream, front]
  · simp [readListed?, next_eq stream, next_advance, front]
  · by_cases stop : dx = 0 ∧ dy = 0
    · simp [readListed?, next_eq stream, next_advance, front, stop]
    · rcases ahead with _ | ⟨height, ahead⟩ <;>
        simp [readListed?, next_eq stream, next_advance, front, stop]

theorem read_list_unfold (bulged : Bool) (done : Array Leg) (stream : CodeStream) :
    readList bulged done stream = match readListed? bulged stream with
      | none => (done.toList, none)
      | some (none, rest) => (done.toList, some rest)
      | some (some leg, rest) => readList bulged (done.push leg) rest := by
  rw [readList]
  split <;> simp_all

theorem read_list_eq (bulged : Bool) (done : Array Leg) (stream : CodeStream) :
    readList bulged done stream =
      (done.toList ++ legs bulged stream.unread,
        (listWidth? bulged stream.unread).map stream.advance) := by
  -- The width meets the members in the order in which they are read, so the induction is along it.
  generalize front : stream.unread = bytes
  rw [read_list_unfold]
  fun_induction listWidth? bulged bytes generalizing done stream with
  | case1 dx dy ahead stop =>
      rw [read_listed_straight, front]
      simp [legs, stop]
  | case2 dx dy ahead more ih =>
      have rest : (stream.advance 2).unread = ahead := by rw [unread_advance, front]; rfl
      rw [read_listed_straight, front]
      simp only [if_neg more]
      rw [read_list_unfold, ih _ _ rest, funext (advance_advance stream 2)]
      simp [legs, more, Function.comp_def]
  | case3 dx dy height ahead stop =>
      rw [read_listed_bulged, front]
      simp [legs, stop]
  | case4 dx dy height ahead more ih =>
      have rest : (stream.advance 3).unread = ahead := by rw [unread_advance, front]; rfl
      rw [read_listed_bulged, front]
      simp only [if_neg more, List.head?_cons, Option.map_some]
      rw [read_list_unfold, ih _ _ rest, funext (advance_advance stream 3)]
      simp [legs, more, Function.comp_def]
  | case5 dx dy stop =>
      rw [read_listed_bulged, front]
      simp [legs, stop]
  | case6 dx dy more =>
      rw [read_listed_bulged, front]
      simp [legs, more]
  | case7 bytes bulged notPair notTriple notTwo =>
      rcases bytes with _ | ⟨dx, _ | ⟨dy, ahead⟩⟩
      · cases bulged <;>
          simp [read_listed_straight, read_listed_bulged, front, legs]
      · cases bulged <;>
          simp [read_listed_straight, read_listed_bulged, front, legs]
      · cases bulged with
        | false => exact absurd rfl (notPair dx dy ahead rfl)
        | true =>
            rcases ahead with _ | ⟨height, ahead⟩
            · exact absurd rfl (notTwo dx dy rfl)
            · exact absurd rfl (notTriple dx dy height ahead rfl)

theorem within_eq_some_iff {width found : Nat} {ahead : Bytes} :
    within width ahead = some found ↔ width ≤ ahead.length ∧ width = found := by
  simp [within]

theorem list_width_le {bulged : Bool} {ahead : Bytes} {width : Nat}
    (found : listWidth? bulged ahead = some width) : width ≤ ahead.length := by
  fun_induction listWidth? bulged ahead generalizing width with
  | case1 dx dy ahead stop =>
      obtain rfl := by simpa using found
      simp
  | case2 dx dy ahead more ih =>
      obtain ⟨rest, later, rfl⟩ := Option.map_eq_some_iff.mp found
      have bound := ih later
      simp only [List.length_cons]
      omega
  | case3 dx dy height ahead stop =>
      obtain rfl := by simpa using found
      simp
  | case4 dx dy height ahead more ih =>
      obtain ⟨rest, later, rfl⟩ := Option.map_eq_some_iff.mp found
      have bound := ih later
      simp only [List.length_cons]
      omega
  | case5 dx dy stop =>
      obtain rfl := by simpa using found
      simp
  | case6 => simp at found
  | case7 => simp at found

theorem legs_take {bulged : Bool} {ahead : Bytes} {width : Nat}
    (found : listWidth? bulged ahead = some width) :
    legs bulged (ahead.take width) = legs bulged ahead := by
  fun_induction listWidth? bulged ahead generalizing width with
  | case1 dx dy ahead stop =>
      obtain rfl := by simpa using found
      simp [legs, stop]
  | case2 dx dy ahead more ih =>
      obtain ⟨rest, later, rfl⟩ := Option.map_eq_some_iff.mp found
      rw [Nat.add_comm]
      simp [legs, more, ih later]
  | case3 dx dy height ahead stop =>
      obtain rfl := by simpa using found
      simp [legs, stop]
  | case4 dx dy height ahead more ih =>
      obtain ⟨rest, later, rfl⟩ := Option.map_eq_some_iff.mp found
      rw [Nat.add_comm]
      simp [legs, more, ih later]
  | case5 dx dy stop =>
      obtain rfl := by simpa using found
      rfl
  | case6 => simp at found
  | case7 => simp at found

theorem key_width_le {kind : FontKind} {ahead : Bytes} {width : Nat}
    (found : keyWidth? kind ahead = some width) : width ≤ ahead.length := by
  cases kind with
  | shapes =>
      obtain ⟨bound, rfl⟩ := within_eq_some_iff.mp found
      exact bound
  | unifont =>
      obtain ⟨bound, rfl⟩ := within_eq_some_iff.mp found
      exact bound
  | bigFont =>
      simp only [keyWidth?] at found
      split at found
      · obtain ⟨bound, rfl⟩ := within_eq_some_iff.mp found
        exact bound
      · obtain ⟨bound, rfl⟩ := within_eq_some_iff.mp found
        exact bound

theorem operand_width_le {kind : FontKind} {opcode width : Nat} {ahead : Bytes}
    (found : operandWidth? kind opcode ahead = some width) : width ≤ ahead.length := by
  unfold operandWidth? at found
  split at found
  case h_3 => exact key_width_le found
  case h_6 => exact list_width_le found
  case h_9 => exact list_width_le found
  case h_10 =>
    obtain rfl := by simpa using found
    exact Nat.zero_le _
  all_goals
    obtain ⟨bound, rfl⟩ := within_eq_some_iff.mp found
    exact bound

theorem length_legs_le (bulged : Bool) (ahead : Bytes) :
    (legs bulged ahead).length ≤ ahead.length := by
  fun_induction legs bulged ahead with
  | case1 => exact Nat.zero_le _
  | case2 dx dy ahead more ih =>
      simp only [List.length_cons]
      omega
  | case3 => exact Nat.zero_le _
  | case4 dx dy height ahead more ih =>
      simp only [List.length_cons]
      omega
  | case5 => exact Nat.zero_le _

/-- What reading the operands of an opcode gives: their width decides whether they are all there,
and the instruction is made of exactly these bytes. -/
theorem read_operands_eq (kind : FontKind) {opcode : Nat} (named : 0 < opcode ∧ opcode < 16)
    (stream : CodeStream) :
    readOperands kind opcode stream =
      match operandWidth? kind opcode stream.unread with
      | none => .faulty (cutLegs opcode stream.unread) (cutFault opcode)
      | some width =>
          match factorFault? opcode stream.unread with
          | some fault => .faulty [] fault
          | none =>
              .ready (decode kind opcode (stream.unread.take width)) (stream.advance width) := by
  obtain ⟨low, high⟩ := named
  match opcode with
  | 1 | 2 | 5 | 6 | 14 | 15 => rfl
  | 3 | 4 =>
      rcases front : stream.unread with _ | ⟨factor, ahead⟩
      · simp [readOperands, Fetch.ofFactor, next_eq stream, front, operandWidth?, within, cutLegs,
          cutFault]
      · by_cases zero : factor = 0 <;>
          simp [readOperands, Fetch.ofFactor, next_eq stream, front, operandWidth?, within,
            factorFault?, decode, zero]
  | 7 =>
      simp only [readOperands, read_key_eq, operandWidth?]
      cases keyWidth? kind stream.unread <;> rfl
  | 8 =>
      rcases front : stream.unread with _ | ⟨dx, _ | ⟨dy, ahead⟩⟩ <;>
        simp [readOperands, readStraight?, Fetch.ofRead, next_eq stream, next_advance, front,
          operandWidth?, within, cutLegs, cutFault, factorFault?, decode]
  | 9 =>
      simp only [readOperands, read_list_eq, operandWidth?]
      cases width : listWidth? false stream.unread with
      | none => simp [Fetch.ofList, cutLegs, cutFault]
      | some width => simp [Fetch.ofList, factorFault?, decode, legs_take ‹_›]
  | 10 =>
      rcases front : stream.unread with _ | ⟨radius, _ | ⟨sweep, ahead⟩⟩ <;>
        simp [readOperands, readOctantArc?, Fetch.ofRead, next_eq stream, next_advance, front,
          operandWidth?, within, cutLegs, cutFault, factorFault?, decode]
  | 11 =>
      rcases front : stream.unread with
        _ | ⟨startOffset, _ | ⟨endOffset, _ | ⟨high, _ | ⟨low, _ | ⟨sweep, ahead⟩⟩⟩⟩⟩ <;>
        simp [readOperands, readFractionalArc?, Fetch.ofRead, next_eq stream, next_advance, front,
          operandWidth?, within, cutLegs, cutFault, factorFault?, decode]
  | 12 =>
      rcases front : stream.unread with _ | ⟨dx, _ | ⟨dy, _ | ⟨height, ahead⟩⟩⟩ <;>
        simp [readOperands, readBulge?, Fetch.ofRead, next_eq stream, next_advance, front,
          operandWidth?, within, cutLegs, cutFault, factorFault?, decode]
  | 13 =>
      simp only [readOperands, read_list_eq, operandWidth?]
      cases width : listWidth? true stream.unread with
      | none => simp [Fetch.ofList, cutLegs, cutFault]
      | some width => simp [Fetch.ofList, factorFault?, decode, legs_take ‹_›]
  | 0 => exact absurd low (Nat.lt_irrefl 0)
  | other + 16 => omega

theorem cut_fault_kind (opcode : Nat) : (cutFault opcode).kind = .emptyStream := by
  unfold cutFault
  split <;> rfl

theorem factor_fault_eq_some_iff {opcode : Nat} {ahead : Bytes} {fault : GlyphFault} :
    factorFault? opcode ahead = some fault ↔ ahead.head? = some 0 ∧
      (opcode = 3 ∧ fault = .divideByZero ∨ opcode = 4 ∧ fault = .multiplyByZero) := by
  constructor
  · intro zero
    unfold factorFault? at zero
    split at zero
    · exact ⟨rfl, .inl ⟨rfl, (Option.some.inj zero).symm⟩⟩
    · exact ⟨rfl, .inr ⟨rfl, (Option.some.inj zero).symm⟩⟩
    · simp at zero
  · rintro ⟨front, which⟩
    obtain ⟨rest, rfl⟩ := List.head?_eq_some_iff.mp front
    rcases which with ⟨rfl, rfl⟩ | ⟨rfl, rfl⟩ <;> rfl

theorem operand_width_factor {kind : FontKind} {opcode : Nat} {ahead : Bytes}
    (factor : opcode = 3 ∨ opcode = 4) (front : ahead.head? = some 0) :
    operandWidth? kind opcode ahead = some 1 := by
  obtain ⟨rest, rfl⟩ := List.head?_eq_some_iff.mp front
  rcases factor with rfl | rfl <;> simp [operandWidth?, within]

theorem calls_behind (opcode : Nat) (rest : CodeStream) : (behind opcode rest).calls = rest.calls := by
  unfold behind
  split
  · exact calls_discard_through_zero rest
  · rfl

theorem decode_subshape {kind : FontKind} {opcode code : Nat} {operands : Bytes}
    (made : decode kind opcode operands = .subshape code) : opcode = 7 := by
  unfold decode at made
  split at made
  · simp at made
  · split at made <;> simp at made
    rfl

theorem operand_width_vector {kind : FontKind} {opcode : Nat} (vector : 16 ≤ opcode)
    (ahead : Bytes) : operandWidth? kind opcode ahead = some 0 := by
  obtain ⟨beyond, rfl⟩ := Nat.exists_eq_add_of_le vector
  rw [Nat.add_comm]
  rfl

theorem factor_fault_vector {opcode : Nat} (vector : 16 ≤ opcode) (operands : Bytes) :
    factorFault? opcode operands = none := by
  obtain ⟨beyond, rfl⟩ := Nat.exists_eq_add_of_le vector
  rw [Nat.add_comm]
  rfl

theorem fetch_of_unread {kind : FontKind} {stream : CodeStream} {byte : UInt8} {ahead : Bytes}
    (front : stream.unread = byte :: ahead) :
    fetch kind stream =
      match operandWidth? kind byte.toNat ahead with
      | none => .faulty (cutLegs byte.toNat ahead) (cutFault byte.toNat)
      | some width =>
          match factorFault? byte.toNat ahead with
          | some fault => .faulty [] fault
          | none => .ready (decode kind byte.toNat (ahead.take width))
              (behind byte.toNat (stream.advance (1 + width))) := by
  have rest : (stream.advance 1).unread = ahead := by rw [unread_advance, front]; rfl
  unfold fetch
  rw [next_of_unread front]
  dsimp only
  generalize byte.toNat = opcode
  by_cases vector : 16 ≤ opcode
  · have plain : opcode ≠ 0 := by omega
    simp [vector, operand_width_vector, factor_fault_vector, decode, behind, plain]
  · by_cases ended : opcode = 0
    · subst ended
      rfl
    · simp only [if_neg vector]
      rw [read_operands_eq kind ⟨by omega, by omega⟩, rest]
      simp only [advance_advance, behind, if_neg ended]

end ShapeFont.Instruction
