import ShapeFont.Proofs.Text.Sequences

/-!
# Exact decoding

A code point is found exactly where its canonical bytes stand. At every other place the decoder gives
U+FFFD for a single byte. So text that was encoded is decoded to what it was, and a text may be cut
wherever no continuation byte follows.
-/

namespace ShapeFont.Utf8

variable {byte : UInt8} {rest : Bytes}

def codeAt (text : Bytes) (place : Nat) (inside : place < text.length) : Nat × Nat :=
  let head := decodeHead text[place] (text.drop (place + 1))
  (head.code, place + head.width)

theorem decode_head_of_encode {code : Nat} (scalar : IsScalar code)
    (ahead : encode code <+: byte :: rest) :
    decodeHead byte rest = ⟨code, (encode code).length⟩ := by
  rw [decodeHead, sequence_of_encode scalar ahead, Option.getD_some]

theorem decode_head_cases (byte : UInt8) (rest : Bytes) :
    (∃ code, IsScalar code ∧ encode code <+: byte :: rest ∧
      decodeHead byte rest = ⟨code, (encode code).length⟩) ∨
    ((∀ code, IsScalar code → ¬encode code <+: byte :: rest) ∧
      decodeHead byte rest = ⟨replacement, 1⟩) := by
  cases found : sequence? byte rest with
  | none =>
      right
      constructor
      · intro code scalar ahead
        rw [sequence_of_encode scalar ahead] at found
        cases found
      · rw [decodeHead, found]
        rfl
  | some head =>
      left
      rcases sequence_iff_lead.mp found with ⟨_, _, _, _, scalar, _⟩
      have ahead := (encode_of_sequence found).1
      exact ⟨head.code, scalar, ahead, decode_head_of_encode scalar ahead⟩

/-- A literal U+FFFD takes three bytes, so that it is not taken for a replaced one. -/
theorem decode_head_eq_iff {code : Nat} (scalar : IsScalar code) :
    decodeHead byte rest = ⟨code, (encode code).length⟩ ↔ encode code <+: byte :: rest := by
  constructor
  · intro decoded
    rcases decode_head_cases byte rest with ⟨other, _, ahead, found⟩ | ⟨_, replaced⟩
    · rw [found, Decoded.mk.injEq] at decoded
      rwa [← decoded.1]
    · rw [replaced, Decoded.mk.injEq] at decoded
      have width : (encode replacement).length = 3 := rfl
      rw [← decoded.1, width] at decoded
      omega
  · exact decode_head_of_encode scalar

theorem scalar_decode_head (byte : UInt8) (rest : Bytes) :
    IsScalar (decodeHead byte rest).code := by
  rcases decode_head_cases byte rest with ⟨code, scalar, _, found⟩ | ⟨_, replaced⟩
  · rw [found]
    exact scalar
  · rw [replaced]
    decide

theorem encode_decode_head (wide : 1 < (decodeHead byte rest).width) :
    encode (decodeHead byte rest).code = (byte :: rest).take (decodeHead byte rest).width := by
  rcases decode_head_cases byte rest with ⟨code, _, ahead, found⟩ | ⟨_, replaced⟩
  · rw [found]
    exact List.prefix_iff_eq_take.mp ahead
  · rw [replaced] at wide
    exact absurd wide (Nat.lt_irrefl 1)

theorem width_decode_head_pos (byte : UInt8) (rest : Bytes) :
    0 < (decodeHead byte rest).width := by
  rcases decode_head_cases byte rest with ⟨code, _, _, found⟩ | ⟨_, replaced⟩
  · rcases encode_cons code with ⟨first, more, bytes⟩
    rw [found, bytes]
    exact Nat.zero_lt_succ _
  · rw [replaced]
    exact Nat.zero_lt_one

theorem decode_encode_append {code : Nat} (scalar : IsScalar code) (more : Bytes) :
    decode (encode code ++ more) = ⟨code, (encode code).length⟩ :: decode more := by
  rcases encode_cons code with ⟨first, behind, bytes⟩
  have ahead : encode code <+: first :: (behind ++ more) := ⟨more, by rw [bytes, List.cons_append]⟩
  have width : (encode code).length - 1 = behind.length := by rw [bytes, List.length_cons]; rfl
  rw [bytes, List.cons_append, decode_cons, decode_head_of_encode scalar ahead]
  dsimp only
  rw [width, List.drop_left, bytes]

theorem codes_flat_map_encode {list : List Nat} (scalar : ∀ code ∈ list, IsScalar code) :
    codes (list.flatMap encode) = list := by
  induction list with
  | nil => rfl
  | cons code list ih =>
      have first := scalar code List.mem_cons_self
      have others := ih fun later member => scalar later (List.mem_cons_of_mem code member)
      unfold codes at others ⊢
      rw [List.flatMap_cons, decode_encode_append first, List.map_cons, others]

theorem decode_append {more : Bytes} (parted : ∀ stop ∈ more.head?, ¬IsContinuation stop)
    (text : Bytes) : decode (text ++ more) = decode text ++ decode more := by
  cases more with
  | nil => rw [List.append_nil, decode_nil, List.append_nil]
  | cons stop more =>
      exact decode_from_append_of_stop (parted stop rfl) (Nat.zero_le text.length) more

theorem codes_of_code_at (text : Bytes) (place : Nat) (inside : place < text.length) :
    codes (text.drop place) =
      (codeAt text place inside).1 :: codes (text.drop (codeAt text place inside).2) := by
  have positive := width_decode_head_pos text[place] (text.drop (place + 1))
  rw [List.drop_eq_getElem_cons inside, codes, decode_cons, List.map_cons, List.drop_drop]
  unfold codeAt
  dsimp only
  have behind : place + 1 + ((decodeHead text[place] (text.drop (place + 1))).width - 1) =
      place + (decodeHead text[place] (text.drop (place + 1))).width := by omega
  rw [behind]
  rfl

/-- At any place of any text the decoder gives a code point and goes on behind its canonical bytes
exactly if these stand there, and otherwise U+FFFD for one byte. It gives scalar values only, always
moves on and stays in the text. Encoded code points are decoded to themselves, more than one byte is
what its code point is encoded as, and a text may be cut in front of any byte that continues none. -/
theorem decoding_is_exact (text : Bytes) :
    (∀ (place : Nat) (inside : place < text.length),
      let code := (codeAt text place inside).1
      let behind := (codeAt text place inside).2
      (∀ scalar, IsScalar scalar →
        (code = scalar ∧ behind = place + (encode scalar).length ↔
          encode scalar <+: text.drop place)) ∧
      ((∀ scalar, IsScalar scalar → ¬encode scalar <+: text.drop place) →
        code = replacement ∧ behind = place + 1) ∧
      IsScalar code ∧ place < behind ∧ behind ≤ text.length ∧
      (place + 1 < behind → encode code = (text.drop place).take (behind - place)) ∧
      codes (text.drop place) = code :: codes (text.drop behind)) ∧
    (∀ list : List Nat, (∀ code ∈ list, IsScalar code) → codes (list.flatMap encode) = list) ∧
    (∀ more : Bytes, (∀ stop ∈ more.head?, ¬IsContinuation stop) →
      decode (text ++ more) = decode text ++ decode more) := by
  refine ⟨?_, fun list => codes_flat_map_encode, fun more parted => decode_append parted text⟩
  intro place inside code behind
  let rest := text.drop (place + 1)
  have ahead : text.drop place = text[place] :: rest := List.drop_eq_getElem_cons inside
  have positive : 0 < (decodeHead text[place] rest).width := width_decode_head_pos _ _
  have within : (decodeHead text[place] rest).width - 1 ≤ rest.length := width_decode_head_le _ _
  have left : rest.length = text.length - (place + 1) := List.length_drop
  refine ⟨?_, ?_, scalar_decode_head _ _, Nat.lt_add_of_pos_right positive, ?_, ?_,
    codes_of_code_at text place inside⟩
  · intro scalar proper
    rw [ahead, ← decode_head_eq_iff proper, Decoded.mk.injEq]
    exact and_congr_right fun _ => Nat.add_left_cancel_iff
  · intro nowhere
    rw [ahead] at nowhere
    rcases decode_head_cases text[place] rest with ⟨found, scalar, here, _⟩ | ⟨_, replaced⟩
    · exact absurd here (nowhere found scalar)
    · have step : behind = place + (decodeHead text[place] rest).width := rfl
      rw [replaced] at step
      exact ⟨congrArg Decoded.code replaced, step⟩
  · show place + (decodeHead text[place] rest).width ≤ text.length
    omega
  · intro wide
    have taken : behind - place = (decodeHead text[place] rest).width := Nat.add_sub_cancel_left ..
    rw [ahead, taken]
    exact encode_decode_head (Nat.add_lt_add_iff_left.mp wide)

/-- An overlong slash, a surrogate, a sequence that the end cuts, and a euro sign. -/
example : decode [0xC0, 0xAF, 0xED, 0xA0, 0x80, 0xE2, 0x82, 0xAC, 0xE2, 0x82] =
    [⟨replacement, 1⟩, ⟨replacement, 1⟩, ⟨replacement, 1⟩, ⟨replacement, 1⟩, ⟨replacement, 1⟩,
      ⟨0x20AC, 3⟩, ⟨replacement, 1⟩, ⟨replacement, 1⟩] := by
  decide

end ShapeFont.Utf8
