import ShapeFont.Bytes

/-!
# UTF-8

Decoding reads one code point at a time. Where no canonical sequence starts (a stray or truncated
continuation, an overlong form, a surrogate, a value above U+10FFFF) it yields U+FFFD for a single
byte and goes on behind it. `encode` is the canonical form that decoding accepts.
-/

namespace ShapeFont.Utf8

/-- U+FFFD stands for a byte that begins no sequence. -/
def replacement : Nat := 0xFFFD

/-- Code points that have an encoding: all up to U+10FFFF but the surrogates. -/
def IsScalar (code : Nat) : Prop := code < 0xD800 ∨ (0xDFFF < code ∧ code ≤ 0x10FFFF)

instance (code : Nat) : Decidable (IsScalar code) := by unfold IsScalar; infer_instance

def IsContinuation (byte : UInt8) : Prop := 0x80 ≤ byte.toNat ∧ byte.toNat < 0xC0

instance (byte : UInt8) : Decidable (IsContinuation byte) := by
  unfold IsContinuation; infer_instance

/-- The canonical bytes of a code point, shortest form. -/
def encode (code : Nat) : Bytes :=
  if code < 0x80 then [code.toUInt8]
  else if code < 0x800 then [(0xC0 + code / 64).toUInt8, (0x80 + code % 64).toUInt8]
  else if code < 0x10000 then
    [(0xE0 + code / 4096).toUInt8, (0x80 + code / 64 % 64).toUInt8, (0x80 + code % 64).toUInt8]
  else
    [(0xF0 + code / 262144).toUInt8, (0x80 + code / 4096 % 64).toUInt8,
      (0x80 + code / 64 % 64).toUInt8, (0x80 + code % 64).toUInt8]

/-- What a lead byte announces: how many continuation bytes follow, its own payload bits, and the
least code point that needs this many bytes. -/
structure Lead where
  following : Nat
  payload : Nat
  least : Nat
  deriving Repr, DecidableEq

/-- Continuation bytes and bytes from 0xF8 on lead no sequence. -/
def lead? (byte : UInt8) : Option Lead :=
  let value := byte.toNat
  if value < 0x80 then some ⟨0, value, 0⟩
  else if value < 0xC0 then none
  else if value < 0xE0 then some ⟨1, value - 0xC0, 0x80⟩
  else if value < 0xF0 then some ⟨2, value - 0xE0, 0x800⟩
  else if value < 0xF8 then some ⟨3, value - 0xF0, 0x10000⟩
  else none

def extend? : (following value : Nat) → Bytes → Option Nat
  | 0, value, _ => some value
  | _ + 1, _, [] => none
  | following + 1, value, byte :: rest =>
      if IsContinuation byte then extend? following (value * 64 + (byte.toNat - 0x80)) rest
      else none

structure Decoded where
  code : Nat
  width : Nat
  deriving Repr, DecidableEq

/-- The canonical sequence that begins with `byte` and goes on in `rest`, if there is one. -/
def sequence? (byte : UInt8) (rest : Bytes) : Option Decoded := do
  let head ← lead? byte
  let code ← extend? head.following head.payload rest
  if head.least ≤ code ∧ IsScalar code then some ⟨code, head.following + 1⟩ else none

def decodeHead (byte : UInt8) (rest : Bytes) : Decoded :=
  (sequence? byte rest).getD ⟨replacement, 1⟩

/-- The code points of a text with their widths, leaving out its first `skip` bytes, which belong
to a code point already read. -/
def decodeFrom : (skip : Nat) → Bytes → List Decoded
  | _, [] => []
  | skip + 1, _ :: rest => decodeFrom skip rest
  | 0, byte :: rest =>
      let head := decodeHead byte rest
      head :: decodeFrom (head.width - 1) rest

def decode (text : Bytes) : List Decoded := decodeFrom 0 text

@[simp] theorem decode_nil : decode [] = [] := rfl

theorem decode_from_eq_drop (skip : Nat) (text : Bytes) :
    decodeFrom skip text = decode (text.drop skip) := by
  induction text generalizing skip with
  | nil => simp [decodeFrom]
  | cons byte rest ih =>
      cases skip with
      | zero => rfl
      | succ skip => simpa [decodeFrom] using ih skip

theorem decode_cons (byte : UInt8) (rest : Bytes) :
    decode (byte :: rest) =
      decodeHead byte rest :: decode (rest.drop ((decodeHead byte rest).width - 1)) := by
  rw [← decode_from_eq_drop]
  rfl

def codes (text : Bytes) : List Nat := (decode text).map Decoded.code

/-- A literal U+FFFD is three bytes wide, so width one tells a replaced byte from it. -/
def Decoded.replaced (head : Decoded) : Bool := head.code == replacement && head.width == 1

def wellFormed (text : Bytes) : Bool := (decode text).all fun head => !head.replaced

end ShapeFont.Utf8
