import ShapeFont.Fault
import ShapeFont.Font
import ShapeFont.Glyph.CodeStream

/-!
# Glyph instructions

`fetch` reads one instruction with all its operands, whether or not the instruction will be carried
out. A byte from 16 on is a vector: its length in the high four bits, its direction in the low ones.
Smaller bytes are opcodes. Operands may lie in different frames of the stream.
-/

namespace ShapeFont

/-- One leg of a displacement, in design units. The height of a bulge is in 127ths of half its
chord, to the right of the direction of travel. -/
inductive Leg where
  | straight (dx dy : Int)
  | bulge (dx dy height : Int)
  deriving Repr, DecidableEq

/-- An arc by its radius in design units and its angles in octants. -/
structure ArcSpec where
  radius : Nat
  start : Int
  span : Nat
  /-- What is added to the angles at which the arc starts and ends, in 256ths of an octant. -/
  offsets : Option (Nat × Nat)
  deriving Repr, DecidableEq

/-- The last operand byte of an arc: the start octant in bits four to six, negated when the top bit
is set, and the span in the low three bits, where zero stands for a full turn. -/
def ArcSpec.ofOperands (offsets : Option (Nat × Nat)) (radius : Nat) (sweep : UInt8) : ArcSpec :=
  let octants := sweep.toNat / 16 % 8
  let span := sweep.toNat % 8
  { radius, offsets
    start := if 128 ≤ sweep.toNat then -(octants : Int) else octants
    span := if span = 0 then 8 else span }

inductive Instruction where
  | vector (length direction : Nat)
  | endOfShape
  | setPen (down : Bool)
  | divideScale (factor : Nat)
  | multiplyScale (factor : Nat)
  | savePosition
  | restorePosition
  | subshape (code : Nat)
  /-- One displacement, or a list of them that ended with a pair of zeros. -/
  | travel (legs : List Leg)
  | arc (spec : ArcSpec)
  /-- Skips the next instruction when a font with both modes is set horizontally. -/
  | verticalOnly
  | unassigned
  deriving Repr, DecidableEq

/-- What reading the next instruction gives. -/
inductive Fetch where
  /-- No byte is left. -/
  | finished
  /-- An operand is missing or not allowed. The legs were complete before that. -/
  | faulty (legs : List Leg) (fault : GlyphFault)
  | ready (instruction : Instruction) (rest : CodeStream)
  deriving Repr, DecidableEq

namespace Instruction

open CodeStream

/-- The number of a subshape. A bigfont writes numbers from 1 to 255 in one byte; a zero byte is
followed by a number of two bytes and four bytes of placement that have no effect. -/
def readKey? (kind : FontKind) (stream : CodeStream) : Option (Nat × CodeStream) := do
  let (low, stream) ← stream.next?
  match kind with
  | .shapes => return (low.toNat, stream)
  | .unifont =>
      let (high, stream) ← stream.next?
      return (low.toNat + 256 * high.toNat, stream)
  | .bigFont =>
      if low ≠ 0 then return (low.toNat, stream)
      let (low, stream) ← stream.next?
      let (high, stream) ← stream.next?
      let (_originX, stream) ← stream.next?
      let (_originY, stream) ← stream.next?
      let (_width, stream) ← stream.next?
      let (_height, stream) ← stream.next?
      return (low.toNat + 256 * high.toNat, stream)

def readStraight? (stream : CodeStream) : Option (Leg × CodeStream) := do
  let (dx, stream) ← stream.next?
  let (dy, stream) ← stream.next?
  return (.straight (signed8 dx) (signed8 dy), stream)

def readBulge? (stream : CodeStream) : Option (Leg × CodeStream) := do
  let (dx, stream) ← stream.next?
  let (dy, stream) ← stream.next?
  let (height, stream) ← stream.next?
  return (.bulge (signed8 dx) (signed8 dy) (signed8 height), stream)

/-- One member of a list of legs, or the pair of zeros at its end, which has no height. -/
def readListed? (bulged : Bool) (stream : CodeStream) : Option (Option Leg × CodeStream) := do
  let (dx, stream) ← stream.next?
  let (dy, stream) ← stream.next?
  if dx = 0 ∧ dy = 0 then return (none, stream)
  if bulged then
    let (height, stream) ← stream.next?
    return (some (.bulge (signed8 dx) (signed8 dy) (signed8 height)), stream)
  else return (some (.straight (signed8 dx) (signed8 dy)), stream)

theorem follows_of_read_key {kind : FontKind} {stream rest : CodeStream} {code : Nat}
    (read : readKey? kind stream = some (code, rest)) : rest.Follows stream := by
  simp only [readKey?, Option.bind_eq_bind, Option.bind_eq_some_iff] at read
  obtain ⟨⟨low, afterLow⟩, first, read⟩ := read
  have start := follows_of_next first
  cases kind with
  | shapes =>
      obtain ⟨-, rfl⟩ := by simpa using read
      exact start
  | unifont =>
      simp only [Option.bind_eq_some_iff] at read
      obtain ⟨⟨high, afterHigh⟩, second, read⟩ := read
      obtain ⟨-, rfl⟩ := by simpa using read
      exact (follows_of_next second).trans start
  | bigFont =>
      simp only at read
      split at read
      · obtain ⟨-, rfl⟩ := by simpa using read
        exact start
      · simp only [Option.bind_eq_some_iff] at read
        obtain ⟨_, r1, _, r2, _, r3, _, r4, _, r5, _, r6, read⟩ := read
        obtain ⟨-, rfl⟩ := by simpa using read
        exact (follows_of_next r6).trans <| (follows_of_next r5).trans <|
          (follows_of_next r4).trans <| (follows_of_next r3).trans <|
          (follows_of_next r2).trans <| (follows_of_next r1).trans start

theorem follows_of_read_straight {stream rest : CodeStream} {leg : Leg}
    (read : readStraight? stream = some (leg, rest)) : rest.Follows stream := by
  simp only [readStraight?, Option.bind_eq_bind, Option.bind_eq_some_iff] at read
  obtain ⟨_, first, _, second, read⟩ := read
  obtain ⟨-, rfl⟩ := by simpa using read
  exact (follows_of_next second).trans (follows_of_next first)

theorem follows_of_read_bulge {stream rest : CodeStream} {leg : Leg}
    (read : readBulge? stream = some (leg, rest)) : rest.Follows stream := by
  simp only [readBulge?, Option.bind_eq_bind, Option.bind_eq_some_iff] at read
  obtain ⟨_, first, _, second, _, third, read⟩ := read
  obtain ⟨-, rfl⟩ := by simpa using read
  exact (follows_of_next third).trans ((follows_of_next second).trans (follows_of_next first))

theorem follows_of_read_listed {bulged : Bool} {stream rest : CodeStream} {leg : Option Leg}
    (read : readListed? bulged stream = some (leg, rest)) : rest.Follows stream := by
  simp only [readListed?, Option.bind_eq_bind, Option.bind_eq_some_iff] at read
  obtain ⟨_, first, _, second, read⟩ := read
  have pair := (follows_of_next second).trans (follows_of_next first)
  split at read
  · obtain ⟨-, rfl⟩ := by simpa using read
    exact pair
  · split at read
    · simp only [Option.bind_eq_some_iff] at read
      obtain ⟨_, third, read⟩ := read
      obtain ⟨-, rfl⟩ := by simpa using read
      exact (follows_of_next third).trans pair
    · obtain ⟨-, rfl⟩ := by simpa using read
      exact pair

/-- The members of a list of legs behind those in `done`, and the stream behind its end. Where the
stream ends first there is no rest. -/
def readList (bulged : Bool) (done : Array Leg) (stream : CodeStream) :
    List Leg × Option CodeStream :=
  match _member : readListed? bulged stream with
  | none => (done.toList, none)
  | some (none, rest) => (done.toList, some rest)
  | some (some leg, rest) => readList bulged (done.push leg) rest
termination_by stream.unread.length
decreasing_by exact (follows_of_read_listed _member).shorter

end Instruction

namespace Fetch

/-- The instruction made of what was read, or the fault of the cut that prevented it. -/
def ofRead {Item : Type} (cut : GlyphFault) (make : Item → Instruction) :
    Option (Item × CodeStream) → Fetch
  | some (item, rest) => ready (make item) rest
  | none => faulty [] cut

/-- The legs of a list that was cut are complete, so they are still drawn. -/
def ofList : List Leg × Option CodeStream → Fetch
  | (legs, some rest) => ready (.travel legs) rest
  | (legs, none) => faulty legs .operandCut

/-- A factor of zero is a fault even where the instruction would be skipped. -/
def ofFactor (make : Nat → Instruction) (zeroFault : GlyphFault) :
    Option (UInt8 × CodeStream) → Fetch
  | none => faulty [] .operandCut
  | some (factor, rest) =>
      if factor = 0 then faulty [] zeroFault else ready (make factor.toNat) rest

end Fetch

namespace Instruction

open CodeStream

def readOctantArc? (stream : CodeStream) : Option (ArcSpec × CodeStream) := do
  let (radius, stream) ← stream.next?
  let (sweep, stream) ← stream.next?
  return (ArcSpec.ofOperands none radius.toNat sweep, stream)

def readFractionalArc? (stream : CodeStream) : Option (ArcSpec × CodeStream) := do
  let (startOffset, stream) ← stream.next?
  let (endOffset, stream) ← stream.next?
  let (high, stream) ← stream.next?
  let (low, stream) ← stream.next?
  let (sweep, stream) ← stream.next?
  let radius := 256 * high.toNat + low.toNat
  let offsets := (startOffset.toNat, endOffset.toNat)
  return (ArcSpec.ofOperands offsets radius sweep, stream)

/-- Reads the operands of an opcode from the stream behind it. The end of a shape takes the rest of
its own program with it. -/
def readOperands (kind : FontKind) (opcode : Nat) (stream : CodeStream) : Fetch :=
  match opcode with
  | 0 => .ready .endOfShape stream.discardThroughZero
  | 1 => .ready (.setPen true) stream
  | 2 => .ready (.setPen false) stream
  | 3 => .ofFactor .divideScale .divideByZero stream.next?
  | 4 => .ofFactor .multiplyScale .multiplyByZero stream.next?
  | 5 => .ready .savePosition stream
  | 6 => .ready .restorePosition stream
  | 7 => .ofRead .subshapeKeyCut .subshape (readKey? kind stream)
  | 8 => .ofRead .operandCut (fun leg => .travel [leg]) (readStraight? stream)
  | 9 => .ofList (readList false #[] stream)
  | 10 => .ofRead .operandCut .arc (readOctantArc? stream)
  | 11 => .ofRead .operandCut .arc (readFractionalArc? stream)
  | 12 => .ofRead .operandCut (fun leg => .travel [leg]) (readBulge? stream)
  | 13 => .ofList (readList true #[] stream)
  | 14 => .ready .verticalOnly stream
  | _ => .ready .unassigned stream

def fetch (kind : FontKind) (stream : CodeStream) : Fetch :=
  match stream.next? with
  | none => .finished
  | some (byte, rest) =>
      if 16 ≤ byte.toNat then .ready (.vector (byte.toNat / 16) (byte.toNat % 16)) rest
      else readOperands kind byte.toNat rest

theorem follows_of_read_list {bulged : Bool} {done : Array Leg} {stream rest : CodeStream}
    (read : (readList bulged done stream).2 = some rest) : rest.Follows stream := by
  fun_induction readList bulged done stream with
  | case1 => simp at read
  | case2 done stream behind member =>
      obtain rfl : behind = rest := by simpa using read
      exact follows_of_read_listed member
  | case3 done stream leg behind member ih =>
      exact (ih read).trans (follows_of_read_listed member)

theorem follows_of_fetch_read {Item : Type} {cut : GlyphFault} {make : Item → Instruction}
    {read : Option (Item × CodeStream)} {stream rest : CodeStream} {instruction : Instruction}
    (behind : ∀ item found, read = some (item, found) → found.Follows stream)
    (ready : Fetch.ofRead cut make read = .ready instruction rest) : rest.Follows stream := by
  unfold Fetch.ofRead at ready
  split at ready
  · obtain ⟨-, rfl⟩ := by simpa using ready
    exact behind _ _ rfl
  · simp at ready

theorem follows_of_fetch_list {result : List Leg × Option CodeStream} {stream rest : CodeStream}
    {instruction : Instruction}
    (behind : ∀ found, result.2 = some found → found.Follows stream)
    (ready : Fetch.ofList result = .ready instruction rest) : rest.Follows stream := by
  unfold Fetch.ofList at ready
  split at ready
  · obtain ⟨-, rfl⟩ := by simpa using ready
    exact behind _ rfl
  · simp at ready

theorem follows_of_fetch_factor {make : Nat → Instruction} {fault : GlyphFault}
    {stream rest : CodeStream} {instruction : Instruction}
    (ready : Fetch.ofFactor make fault stream.next? = .ready instruction rest) :
    rest.Follows stream := by
  unfold Fetch.ofFactor at ready
  split at ready
  · simp at ready
  · next read =>
      split at ready
      · simp at ready
      · obtain ⟨-, rfl⟩ := by simpa using ready
        exact follows_of_next read

theorem follows_of_read_octant_arc {stream rest : CodeStream} {spec : ArcSpec}
    (read : readOctantArc? stream = some (spec, rest)) : rest.Follows stream := by
  simp only [readOctantArc?, Option.bind_eq_bind, Option.bind_eq_some_iff] at read
  obtain ⟨_, first, _, second, read⟩ := read
  obtain ⟨-, rfl⟩ := by simpa using read
  exact (follows_of_next second).trans (follows_of_next first)

theorem follows_of_read_fractional_arc {stream rest : CodeStream} {spec : ArcSpec}
    (read : readFractionalArc? stream = some (spec, rest)) : rest.Follows stream := by
  simp only [readFractionalArc?, Option.bind_eq_bind, Option.bind_eq_some_iff] at read
  obtain ⟨_, r1, _, r2, _, r3, _, r4, _, r5, read⟩ := read
  obtain ⟨-, rfl⟩ := by simpa using read
  exact (follows_of_next r5).trans <| (follows_of_next r4).trans <|
    (follows_of_next r3).trans <| (follows_of_next r2).trans (follows_of_next r1)

theorem read_operands_behind {kind : FontKind} {opcode : Nat} {stream rest : CodeStream}
    {instruction : Instruction}
    (ready : readOperands kind opcode stream = .ready instruction rest) :
    rest.calls = stream.calls ∧ rest.unread.length ≤ stream.unread.length := by
  have weaken : rest.Follows stream →
      rest.calls = stream.calls ∧ rest.unread.length ≤ stream.unread.length :=
    fun follows => ⟨follows.calls, Nat.le_of_lt follows.shorter⟩
  unfold readOperands at ready
  split at ready
  · obtain ⟨-, rfl⟩ := by simpa using ready
    exact ⟨calls_discard_through_zero stream, length_discard_through_zero_le stream⟩
  case h_4 => exact weaken (follows_of_fetch_factor ready)
  case h_5 => exact weaken (follows_of_fetch_factor ready)
  case h_8 => exact weaken (follows_of_fetch_read (fun _ _ => follows_of_read_key) ready)
  case h_9 => exact weaken (follows_of_fetch_read (fun _ _ => follows_of_read_straight) ready)
  case h_10 => exact weaken (follows_of_fetch_list (fun _ => follows_of_read_list) ready)
  case h_11 => exact weaken (follows_of_fetch_read (fun _ _ => follows_of_read_octant_arc) ready)
  case h_12 => exact weaken (follows_of_fetch_read (fun _ _ => follows_of_read_fractional_arc) ready)
  case h_13 => exact weaken (follows_of_fetch_read (fun _ _ => follows_of_read_bulge) ready)
  case h_14 => exact weaken (follows_of_fetch_list (fun _ => follows_of_read_list) ready)
  all_goals
    obtain ⟨-, rfl⟩ := by simpa using ready
    exact ⟨rfl, Nat.le_refl _⟩

theorem follows_of_fetch {kind : FontKind} {stream rest : CodeStream} {instruction : Instruction}
    (ready : fetch kind stream = .ready instruction rest) : rest.Follows stream := by
  unfold fetch at ready
  split at ready
  · simp at ready
  · next byte behind read =>
      have first := follows_of_next read
      split at ready
      · obtain ⟨-, rfl⟩ := by simpa using ready
        exact first
      · obtain ⟨calls, shorter⟩ := read_operands_behind ready
        exact ⟨calls.trans first.calls, Nat.lt_of_le_of_lt shorter first.shorter⟩

end Instruction

end ShapeFont
