import ShapeFont.Proofs.Instruction.Encoding

/-!
# Instructions end by themselves

The operands of an instruction tell by their own bytes where they end. So an instruction that is
spelled out in full at the front of a stream is read whatever follows it, and whatever is read was
spelled out in full.
-/

namespace ShapeFont.Instruction

open CodeStream

/-- `byte` and `operands` are an instruction in full, and one that may be carried out. -/
structure Spells (kind : FontKind) (byte : UInt8) (operands : Bytes) : Prop where
  width : operandWidth? kind byte.toNat operands = some operands.length
  allowed : factorFault? byte.toNat operands = none

theorem within_append {width found : Nat} {ahead : Bytes} (fits : within width ahead = some found)
    (more : Bytes) : within width (ahead.take found ++ more) = some found := by
  obtain ⟨bound, rfl⟩ := within_eq_some_iff.mp fits
  rw [within_eq_some_iff, List.length_append, List.length_take_of_le bound]
  exact ⟨Nat.le_add_right width _, rfl⟩

theorem key_width_append {kind : FontKind} {ahead : Bytes} {width : Nat}
    (found : keyWidth? kind ahead = some width) (more : Bytes) :
    keyWidth? kind (ahead.take width ++ more) = some width := by
  cases kind with
  | shapes => exact within_append found more
  | unifont => exact within_append found more
  | bigFont =>
      rcases ahead with _ | ⟨low, rest⟩
      · simp [keyWidth?, within] at found
      -- the first byte, which tells the long form, is among those taken
      have kept : width ≠ 0 := by
        rintro rfl
        simp only [keyWidth?] at found
        split at found <;> simp [within] at found
      have head : ((low :: rest).take width ++ more).head? = (low :: rest).head? := by
        obtain ⟨shorter, rfl⟩ := Nat.exists_eq_succ_of_ne_zero kept
        rfl
      simp only [keyWidth?] at found ⊢
      by_cases long : (low :: rest).head? = some 0
      · rw [if_pos long] at found
        rw [if_pos (head.trans long)]
        exact within_append found more
      · rw [if_neg long] at found
        rw [if_neg (by rwa [head])]
        exact within_append found more

theorem list_width_append {bulged : Bool} {ahead : Bytes} {width : Nat}
    (found : listWidth? bulged ahead = some width) (more : Bytes) :
    listWidth? bulged (ahead.take width ++ more) = some width := by
  fun_induction listWidth? bulged ahead generalizing width with
  | case1 dx dy ahead stop =>
      obtain rfl := by simpa using found
      simp [listWidth?, stop]
  | case2 dx dy ahead unfinished ih =>
      obtain ⟨rest, later, rfl⟩ := Option.map_eq_some_iff.mp found
      rw [Nat.add_comm]
      simp [listWidth?, unfinished, ih later, Nat.add_comm]
  | case3 dx dy height ahead stop =>
      obtain rfl := by simpa using found
      cases more <;> simp [listWidth?, stop]
  | case4 dx dy height ahead unfinished ih =>
      obtain ⟨rest, later, rfl⟩ := Option.map_eq_some_iff.mp found
      rw [Nat.add_comm]
      simp [listWidth?, unfinished, ih later, Nat.add_comm]
  | case5 dx dy stop =>
      obtain rfl := by simpa using found
      cases more <;> simp [listWidth?, stop]
  | case6 => simp at found
  | case7 => simp at found

theorem operand_width_append {kind : FontKind} {opcode width : Nat} {ahead : Bytes}
    (found : operandWidth? kind opcode ahead = some width) (more : Bytes) :
    operandWidth? kind opcode (ahead.take width ++ more) = some width := by
  unfold operandWidth? at found ⊢
  split at found
  case h_3 => exact key_width_append found more
  case h_6 => exact list_width_append found more
  case h_9 => exact list_width_append found more
  case h_10 => exact found
  all_goals exact within_append found more

theorem factor_fault_append {kind : FontKind} {opcode : Nat} {operands : Bytes}
    (whole : operandWidth? kind opcode operands = some operands.length) (more : Bytes) :
    factorFault? opcode (operands ++ more) = factorFault? opcode operands := by
  cases operands with
  | cons first rest =>
      apply Option.ext
      intro fault
      rw [factor_fault_eq_some_iff, factor_fault_eq_some_iff, List.cons_append, List.head?_cons,
        List.head?_cons]
  | nil =>
      by_cases factor : opcode = 3 ∨ opcode = 4
      · rcases factor with rfl | rfl <;> simp [operandWidth?, within] at whole
      · have unused (ahead : Bytes) : factorFault? opcode ahead = none := by
          apply Option.eq_none_iff_forall_not_mem.mpr
          intro fault zero
          obtain ⟨-, ⟨three, -⟩ | ⟨four, -⟩⟩ := factor_fault_eq_some_iff.mp zero
          · exact factor (.inl three)
          · exact factor (.inr four)
        rw [unused, unused]

theorem fetch_of_spells {kind : FontKind} {stream : CodeStream} {byte : UInt8}
    {operands more : Bytes} (spells : Spells kind byte operands)
    (front : stream.unread = byte :: (operands ++ more)) :
    fetch kind stream = .ready (decode kind byte.toNat operands)
      (behind byte.toNat (stream.advance (1 + operands.length))) := by
  have width := operand_width_append spells.width more
  rw [List.take_length] at width
  rw [fetch_of_unread front, width]
  dsimp only
  rw [factor_fault_append spells.width, spells.allowed, List.take_left]

theorem spells_of_fetch {kind : FontKind} {stream middle : CodeStream} {instruction : Instruction}
    (read : fetch kind stream = .ready instruction middle) :
    ∃ byte operands more, Spells kind byte operands ∧
      stream.unread = byte :: (operands ++ more) ∧ instruction = decode kind byte.toNat operands ∧
      middle = behind byte.toNat (stream.advance (1 + operands.length)) := by
  cases front : stream.unread with
  | nil => simp [fetch, next_eq_none_iff.mpr front] at read
  | cons byte ahead =>
      rw [fetch_of_unread front] at read
      cases found : operandWidth? kind byte.toNat ahead with
      | none => simp [found] at read
      | some width =>
          have count := List.length_take_of_le (operand_width_le found)
          have whole : operandWidth? kind byte.toNat (ahead.take width) =
              some (ahead.take width).length := by
            have alone := operand_width_append found []
            rw [List.append_nil] at alone
            exact alone.trans (congrArg some count.symm)
          have factor := factor_fault_append whole (ahead.drop width)
          rw [List.take_append_drop] at factor
          rw [found, factor] at read
          dsimp only at read
          cases zero : factorFault? byte.toNat (ahead.take width) with
          | some fault => simp [zero] at read
          | none =>
              rw [zero] at read
              obtain ⟨rfl, rfl⟩ := Fetch.ready.inj read
              refine ⟨byte, ahead.take width, ahead.drop width, ⟨whole, zero⟩, ?_, rfl, ?_⟩
              · rw [List.take_append_drop]
              · rw [count]

theorem fetch_eq_finished_iff {kind : FontKind} {stream : CodeStream} :
    fetch kind stream = .finished ↔ stream.unread = [] := by
  cases front : stream.unread with
  | nil => simp [fetch, next_eq_none_iff.mpr front]
  | cons byte ahead =>
      rw [fetch_of_unread front]
      cases operandWidth? kind byte.toNat ahead with
      | none => simp
      | some width => cases factorFault? byte.toNat ahead <;> simp

/-- A fault in the operands depends on the bytes alone, in whatever frames they lie. -/
theorem fetch_faulty_of_unread {kind : FontKind} {stream other : CodeStream} {legs : List Leg}
    {fault : GlyphFault} (read : fetch kind stream = .faulty legs fault)
    (same : other.unread = stream.unread) : fetch kind other = .faulty legs fault := by
  cases front : stream.unread with
  | nil => simp [fetch_eq_finished_iff.mpr front] at read
  | cons byte ahead =>
      rw [fetch_of_unread (same.trans front)]
      rw [fetch_of_unread front] at read
      cases found : operandWidth? kind byte.toNat ahead with
      | none => simpa [found] using read
      | some width =>
          rw [found] at read
          dsimp only at read ⊢
          cases zero : factorFault? byte.toNat ahead with
          | none => simp [zero] at read
          | some found => simpa [zero] using read

inductive WritesKey : FontKind → Nat → Bytes → Prop
  | shapes (low : UInt8) : WritesKey .shapes low.toNat [low]
  | unifont (low high : UInt8) : WritesKey .unifont (low.toNat + 256 * high.toNat) [low, high]
  | short (low : UInt8) (nonzero : low ≠ 0) : WritesKey .bigFont low.toNat [low]
  | long (low high originX originY width height : UInt8) :
      WritesKey .bigFont (low.toNat + 256 * high.toNat)
        [0, low, high, originX, originY, width, height]

theorem spells_subshape {kind : FontKind} {code : Nat} {key : Bytes}
    (writes : WritesKey kind code key) :
    Spells kind 7 key ∧ decode kind 7 key = .subshape code := by
  cases writes with
  | shapes low => exact ⟨⟨rfl, rfl⟩, by simp [decode, keyCode]⟩
  | unifont low high => exact ⟨⟨rfl, rfl⟩, by simp [decode, keyCode]⟩
  | short low nonzero =>
      refine ⟨⟨?_, rfl⟩, ?_⟩
      · simp [operandWidth?, keyWidth?, within, nonzero]
      · simp [decode, keyCode]
  | long low high originX originY width height =>
      exact ⟨⟨rfl, rfl⟩, by simp [decode, keyCode]⟩

end ShapeFont.Instruction
