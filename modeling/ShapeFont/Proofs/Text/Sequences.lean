import ShapeFont.Text.Utf8

/-!
# Sequences of bytes and code points

Decoding finds a sequence exactly where the canonical bytes of a code point stand, so the well-formed
texts are the concatenations of such bytes. No sequence goes across a byte that continues none.
-/

namespace ShapeFont

namespace Utf8

variable {byte : UInt8} {rest : Bytes}

/-- The canonical bytes of some code points, one after the other. U+FFFD itself may be among them. -/
def IsText (text : Bytes) : Prop :=
  ∃ codes : List Nat, (∀ code ∈ codes, IsScalar code) ∧ text = codes.flatMap encode

theorem is_text_nil : IsText [] := ⟨[], by simp, rfl⟩

theorem IsText.append {text more : Bytes} (front : IsText text) (back : IsText more) :
    IsText (text ++ more) := by
  obtain ⟨codes, scalar, rfl⟩ := front
  obtain ⟨further, alsoScalar, rfl⟩ := back
  refine ⟨codes ++ further, ?_, List.flatMap_append.symm⟩
  intro code member
  rcases List.mem_append.mp member with early | late
  · exact scalar code early
  · exact alsoScalar code late

theorem is_text_encode {code : Nat} (scalar : IsScalar code) : IsText (encode code) :=
  ⟨[code], by simpa using scalar, by simp⟩

theorem is_text_of_ascii {text : Bytes} (ascii : ∀ byte ∈ text, byte.toNat < 0x80) : IsText text := by
  induction text with
  | nil => exact is_text_nil
  | cons byte text ih =>
      have low := ascii byte List.mem_cons_self
      have single : encode byte.toNat = [byte] := by
        rw [encode, if_pos low, Nat.toUInt8, UInt8.ofNat_toNat]
      have front : IsText [byte] := by
        rw [← single]
        exact is_text_encode (.inl (by omega))
      exact front.append (ih fun later member => ascii later (List.mem_cons_of_mem _ member))

theorem extend_append_of_stop {stop : UInt8} (stops : ¬IsContinuation stop) (following value : Nat)
    (rest more : Bytes) :
    extend? following value (rest ++ stop :: more) = extend? following value rest := by
  induction following generalizing value rest with
  | zero => rfl
  | succ following ih =>
      cases rest with
      | nil => simp [extend?, stops]
      | cons byte rest =>
          rw [List.cons_append, extend?, extend?]
          split
          · exact ih _ rest
          · rfl

theorem following_le_of_extend {following value code : Nat}
    (found : extend? following value rest = some code) : following ≤ rest.length := by
  induction following generalizing value rest with
  | zero => exact Nat.zero_le _
  | succ following ih =>
      cases rest with
      | nil => simp [extend?] at found
      | cons byte rest =>
          rw [extend?] at found
          split at found
          · exact Nat.succ_le_succ (ih found)
          · simp at found

theorem lead_ascii_or_longer {lead : Lead} (announced : lead? byte = some lead) :
    lead = ⟨0, byte.toNat, 0⟩ ∨ 0x80 ≤ lead.least := by
  unfold lead? at announced
  grind

theorem lead_eq_some_iff {lead : Lead} : lead? byte = some lead ↔
    (byte.toNat < 0x80 ∧ lead = ⟨0, byte.toNat, 0⟩) ∨
    (0xC0 ≤ byte.toNat ∧ byte.toNat < 0xE0 ∧ lead = ⟨1, byte.toNat - 0xC0, 0x80⟩) ∨
    (0xE0 ≤ byte.toNat ∧ byte.toNat < 0xF0 ∧ lead = ⟨2, byte.toNat - 0xE0, 0x800⟩) ∨
    (0xF0 ≤ byte.toNat ∧ byte.toNat < 0xF8 ∧ lead = ⟨3, byte.toNat - 0xF0, 0x10000⟩) := by
  unfold lead?
  grind

theorem extend_succ_iff {following value code : Nat} :
    extend? (following + 1) value rest = some code ↔ ∃ byte more, rest = byte :: more ∧
      IsContinuation byte ∧ extend? following (value * 64 + (byte.toNat - 0x80)) more = some code := by
  cases rest with
  | nil => simp [extend?]
  | cons byte more =>
      rw [extend?]
      split
      · next continues =>
          refine ⟨fun found => ⟨byte, more, rfl, continues, found⟩, ?_⟩
          rintro ⟨_, _, ⟨⟩, _, found⟩
          exact found
      · next stops =>
          refine ⟨fun found => by simp at found, ?_⟩
          rintro ⟨_, _, ⟨⟩, continues, _⟩
          exact absurd continues stops

/-- A sequence is one byte more than its lead announces, and its code point is a scalar not under the
least one that takes so many. -/
theorem sequence_iff_lead {head : Decoded} : sequence? byte rest = some head ↔
    ∃ lead, lead? byte = some lead ∧ extend? lead.following lead.payload rest = some head.code ∧
      lead.least ≤ head.code ∧ IsScalar head.code ∧ head.width = lead.following + 1 := by
  obtain ⟨code, width⟩ := head
  unfold sequence?
  cases announced : lead? byte with
  | none => simp
  | some lead =>
      cases extended : extend? lead.following lead.payload rest with
      | none => simp [extended]
      | some found =>
          simp only [Option.bind_eq_bind, Option.bind_some, Option.some.injEq, exists_eq_left',
            extended]
          grind

theorem to_nat_to_byte {number : Nat} (fits : number < 0x100) : number.toUInt8.toNat = number := by
  rw [Nat.toUInt8, UInt8.toNat_ofNat', Nat.mod_eq_of_lt fits]

theorem to_byte_eq (byte : UInt8) {number : Nat} (same : number = byte.toNat) :
    number.toUInt8 = byte := by
  rw [same, Nat.toUInt8, UInt8.ofNat_toNat]

theorem extend_continuation {payload : Nat} (small : payload < 64) (following value : Nat)
    (rest : Bytes) :
    extend? (following + 1) value ((0x80 + payload).toUInt8 :: rest) =
      extend? following (value * 64 + payload) rest := by
  have same := to_nat_to_byte (by omega : 0x80 + payload < 0x100)
  have continues : IsContinuation (0x80 + payload).toUInt8 := by
    unfold IsContinuation
    omega
  rw [extend?, if_pos continues, same, Nat.add_sub_cancel_left]

theorem encode_two {code : Nat} (low : 0x80 ≤ code) (high : code < 0x800) :
    encode code = [(0xC0 + code / 64).toUInt8, (0x80 + code % 64).toUInt8] := by
  rw [encode, if_neg (by omega), if_pos high]

theorem encode_three {code : Nat} (low : 0x800 ≤ code) (high : code < 0x10000) :
    encode code = [(0xE0 + code / 4096).toUInt8, (0x80 + code / 64 % 64).toUInt8,
      (0x80 + code % 64).toUInt8] := by
  rw [encode, if_neg (by omega), if_neg (by omega), if_pos high]

theorem encode_four {code : Nat} (low : 0x10000 ≤ code) :
    encode code = [(0xF0 + code / 262144).toUInt8, (0x80 + code / 4096 % 64).toUInt8,
      (0x80 + code / 64 % 64).toUInt8, (0x80 + code % 64).toUInt8] := by
  rw [encode, if_neg (by omega), if_neg (by omega), if_neg (by omega)]

theorem encode_of_sequence {head : Decoded} (found : sequence? byte rest = some head) :
    encode head.code <+: byte :: rest ∧ (encode head.code).length = head.width := by
  obtain ⟨lead, announced, extended, least, scalar, width⟩ := sequence_iff_lead.mp found
  rw [width]
  unfold IsScalar at scalar
  rcases lead_eq_some_iff.mp announced with ⟨low, rfl⟩ | ⟨fromTwo, toTwo, rfl⟩ |
    ⟨fromThree, toThree, rfl⟩ | ⟨fromFour, toFour, rfl⟩ <;> dsimp only at extended least
  · have same : byte.toNat = head.code := Option.some.inj extended
    have bytes : encode head.code = [byte] := by
      rw [encode, if_pos (by omega), to_byte_eq byte same.symm]
    rw [bytes]
    exact ⟨⟨rest, rfl⟩, rfl⟩
  · obtain ⟨second, more, rfl, ⟨_, _⟩, last⟩ := extend_succ_iff.mp extended
    have same := Option.some.inj last
    have bytes : encode head.code = [byte, second] := by
      rw [encode_two least (by omega), to_byte_eq byte (by omega),
        to_byte_eq second (by omega)]
    rw [bytes]
    exact ⟨⟨more, rfl⟩, rfl⟩
  · obtain ⟨second, more, rfl, ⟨_, _⟩, further⟩ := extend_succ_iff.mp extended
    obtain ⟨third, more, rfl, ⟨_, _⟩, last⟩ := extend_succ_iff.mp further
    have same := Option.some.inj last
    have bytes : encode head.code = [byte, second, third] := by
      rw [encode_three least (by omega), to_byte_eq byte (by omega),
        to_byte_eq second (by omega), to_byte_eq third (by omega)]
    rw [bytes]
    exact ⟨⟨more, rfl⟩, rfl⟩
  · obtain ⟨second, more, rfl, ⟨_, _⟩, further⟩ := extend_succ_iff.mp extended
    obtain ⟨third, more, rfl, ⟨_, _⟩, further⟩ := extend_succ_iff.mp further
    obtain ⟨fourth, more, rfl, ⟨_, _⟩, last⟩ := extend_succ_iff.mp further
    have same := Option.some.inj last
    have bytes : encode head.code = [byte, second, third, fourth] := by
      rw [encode_four least, to_byte_eq byte (by omega),
        to_byte_eq second (by omega), to_byte_eq third (by omega),
        to_byte_eq fourth (by omega)]
    rw [bytes]
    exact ⟨⟨more, rfl⟩, rfl⟩

theorem lead_of_encode {code : Nat} (scalar : IsScalar code) (ahead : encode code <+: byte :: rest) :
    ∃ lead, lead? byte = some lead ∧ extend? lead.following lead.payload rest = some code ∧
      lead.least ≤ code ∧ (encode code).length = lead.following + 1 := by
  obtain ⟨more, parts⟩ := ahead
  unfold IsScalar at scalar
  by_cases one : code < 0x80
  · rw [encode, if_pos one] at parts ⊢
    obtain ⟨rfl, rfl⟩ := List.cons.inj parts
    have value := to_nat_to_byte (by omega : code < 0x100)
    refine ⟨_, lead_eq_some_iff.mpr (.inl ⟨by omega, rfl⟩), ?_, Nat.zero_le _, rfl⟩
    rw [extend?, value]
  by_cases two : code < 0x800
  · rw [encode_two (by omega) two] at parts ⊢
    obtain ⟨rfl, rfl⟩ := List.cons.inj parts
    have value := to_nat_to_byte (by omega : 0xC0 + code / 64 < 0x100)
    refine ⟨_, lead_eq_some_iff.mpr (.inr (.inl ⟨by omega, by omega, rfl⟩)), ?_,
      by dsimp only; omega, rfl⟩
    dsimp only [List.append_eq, List.cons_append, List.nil_append]
    rw [extend_continuation (by omega), extend?, value]
    congr 1
    omega
  by_cases three : code < 0x10000
  · rw [encode_three (by omega) three] at parts ⊢
    obtain ⟨rfl, rfl⟩ := List.cons.inj parts
    have value := to_nat_to_byte (by omega : 0xE0 + code / 4096 < 0x100)
    refine ⟨_, lead_eq_some_iff.mpr (.inr (.inr (.inl ⟨by omega, by omega, rfl⟩))), ?_,
      by dsimp only; omega, rfl⟩
    dsimp only [List.append_eq, List.cons_append, List.nil_append]
    rw [extend_continuation (by omega), extend_continuation (by omega), extend?, value]
    congr 1
    omega
  · rw [encode_four (by omega)] at parts ⊢
    obtain ⟨rfl, rfl⟩ := List.cons.inj parts
    have value := to_nat_to_byte (by omega : 0xF0 + code / 262144 < 0x100)
    refine ⟨_, lead_eq_some_iff.mpr (.inr (.inr (.inr ⟨by omega, by omega, rfl⟩))), ?_,
      by dsimp only; omega, rfl⟩
    dsimp only [List.append_eq, List.cons_append, List.nil_append]
    rw [extend_continuation (by omega), extend_continuation (by omega),
      extend_continuation (by omega), extend?, value]
    congr 1
    omega

theorem sequence_of_encode {code : Nat} (scalar : IsScalar code)
    (ahead : encode code <+: byte :: rest) :
    sequence? byte rest = some ⟨code, (encode code).length⟩ := by
  obtain ⟨lead, announced, extended, least, width⟩ := lead_of_encode scalar ahead
  exact sequence_iff_lead.mpr ⟨lead, announced, extended, least, scalar, width⟩

theorem width_decode_head_le (byte : UInt8) (rest : Bytes) :
    (decodeHead byte rest).width - 1 ≤ rest.length := by
  unfold decodeHead
  cases found : sequence? byte rest with
  | none => exact Nat.zero_le _
  | some head =>
      obtain ⟨lead, -, extended, -, -, width⟩ := sequence_iff_lead.mp found
      rw [Option.getD_some, width]
      exact following_le_of_extend extended

theorem decode_head_append_of_stop {stop : UInt8} (stops : ¬IsContinuation stop) (byte : UInt8)
    (rest more : Bytes) : decodeHead byte (rest ++ stop :: more) = decodeHead byte rest := by
  simp only [decodeHead, sequence?, extend_append_of_stop stops]

/-- A byte that continues no sequence parts a text: what stands before it is decoded as if it stood
alone, and so is the rest. -/
theorem decode_from_append_of_stop {stop : UInt8} (stops : ¬IsContinuation stop) {skip : Nat}
    {text : Bytes} (inside : skip ≤ text.length) (more : Bytes) :
    decodeFrom skip (text ++ stop :: more) = decodeFrom skip text ++ decode (stop :: more) := by
  induction text generalizing skip with
  | nil =>
      obtain rfl := Nat.le_zero.mp inside
      rfl
  | cons byte rest ih =>
      cases skip with
      | zero =>
          rw [List.cons_append, decodeFrom, decodeFrom, decode_head_append_of_stop stops,
            ih (width_decode_head_le byte rest)]
          rfl
      | succ skip => exact ih (Nat.le_of_succ_le_succ inside)

theorem replaced_iff : (decodeHead byte rest).replaced = true ↔ sequence? byte rest = none := by
  cases found : sequence? byte rest with
  | none => simp [decodeHead, found, Decoded.replaced]
  | some head =>
      -- U+FFFD itself takes three bytes, so no sequence is taken for a replaced byte.
      have width : (encode replacement).length = 3 := rfl
      have wide := (encode_of_sequence found).2
      simp only [decodeHead, found, Option.getD_some, Decoded.replaced, reduceCtorEq, iff_false,
        Bool.and_eq_true, beq_iff_eq, not_and]
      intro code
      rw [code] at wide
      omega

theorem encode_cons (code : Nat) : ∃ byte more, encode code = byte :: more := by
  apply List.exists_cons_of_ne_nil
  grind [encode]

theorem well_formed_of_replaced (replaced : (decodeHead byte rest).replaced = true) :
    wellFormed (byte :: rest) = false := by
  rw [wellFormed, decode_cons, List.all_cons, replaced]
  rfl

theorem well_formed_of_sequence {head : Decoded} (found : sequence? byte rest = some head) :
    wellFormed (byte :: rest) = wellFormed ((byte :: rest).drop (encode head.code).length) := by
  have kept : (decodeHead byte rest).replaced = false := by
    rw [Bool.eq_false_iff, ne_eq, replaced_iff, found]
    simp
  obtain ⟨first, more, bytes⟩ := encode_cons head.code
  have width : head.width = more.length + 1 := by
    rw [← (encode_of_sequence found).2, bytes]
    rfl
  rw [wellFormed, decode_cons, List.all_cons, kept, bytes, List.length_cons, List.drop_succ_cons,
    decodeHead, found, Option.getD_some, width]
  rfl

theorem well_formed_iff (text : Bytes) : wellFormed text = true ↔ IsText text := by
  induction size : text.length using Nat.strongRecOn generalizing text with
  | ind size ih =>
      subst size
      cases text with
      | nil => exact iff_of_true rfl is_text_nil
      | cons byte rest =>
          constructor
          · intro formed
            cases found : sequence? byte rest with
            | none =>
                rw [well_formed_of_replaced (replaced_iff.mpr found)] at formed
                contradiction
            | some head =>
                obtain ⟨lead, -, -, -, scalar, -⟩ := sequence_iff_lead.mp found
                obtain ⟨more, parts⟩ := (encode_of_sequence found).1
                obtain ⟨first, behind, bytes⟩ := encode_cons head.code
                rw [well_formed_of_sequence found, ← parts, List.drop_left] at formed
                have shorter : more.length < (byte :: rest).length := by
                  rw [← parts, bytes, List.length_append, List.length_cons]
                  omega
                rw [← parts]
                exact (is_text_encode scalar).append ((ih _ shorter more rfl).mp formed)
          · rintro ⟨codes, scalar, parts⟩
            cases codes with
            | nil => simp at parts
            | cons code codes =>
                obtain ⟨first, behind, bytes⟩ := encode_cons code
                rw [List.flatMap_cons] at parts
                have ahead : encode code <+: byte :: rest := ⟨_, parts.symm⟩
                have found := sequence_of_encode (scalar code List.mem_cons_self) ahead
                have shorter : (codes.flatMap encode).length < (byte :: rest).length := by
                  rw [parts, bytes, List.length_append, List.length_cons]
                  omega
                rw [well_formed_of_sequence found, parts, List.drop_left]
                exact (ih _ shorter _ rfl).mpr
                  ⟨codes, fun later member => scalar later (List.mem_cons_of_mem _ member), rfl⟩

end Utf8

end ShapeFont
