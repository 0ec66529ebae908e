import PolyGenSupport.Wire.Writer

/-!
# `BinaryReader`

Each `read_*` is a `Reader`.  `read_optional` and `read_vector` take the reader of the inner type
as an argument, as the code's `ReadFunc` parameter does; `read_optional_string` is
`read_optional` at `read_string`.

Reading back what the writer wrote is stated once, as `Decodes r bytes a`: followed by anything,
`bytes` reads as `a` and leaves what follows, and every proper prefix of `bytes` throws
`check_read`'s end-of-stream error.  `Decodes` is closed under sequencing (`Decodes.bind`), so a
reader built from the primitives decodes a concatenation of their encodings; each `read_*` gets
one `decodes_*` lemma against the matching `write_*`.
-/

namespace PolyGenSupport
namespace Wire

/-- `read_u8` .. `read_u64`: `width` bytes through `check_read`, then `le_to_native`, the
identity on the little-endian host. -/
def readUInt (width : Nat) : Reader (BitVec (8 * width)) := do
  let bytes ← readRaw width
  return BitVec.ofNat (8 * width) (leValue bytes)

/-- `read_u8`. -/
def readU8 : Reader (BitVec 8) := readUInt 1
/-- `read_u16`. -/
def readU16 : Reader (BitVec 16) := readUInt 2
/-- `read_u32`. -/
def readU32 : Reader (BitVec 32) := readUInt 4
/-- `read_u64`. -/
def readU64 : Reader (BitVec 64) := readUInt 8

/-- `read_i8`: `static_cast<int8_t>` of `read_u8` keeps the bits. -/
def readI8 : Reader (BitVec 8) := readU8
/-- `read_i16`. -/
def readI16 : Reader (BitVec 16) := readU16
/-- `read_i32`. -/
def readI32 : Reader (BitVec 32) := readU32
/-- `read_i64`. -/
def readI64 : Reader (BitVec 64) := readU64

/-- `read_f32`: the bits of `read_u32`, `memcpy`d into a float. -/
def readF32 : Reader (BitVec 32) := readU32
/-- `read_f64`. -/
def readF64 : Reader (BitVec 64) := readU64

/-- `read_bool`: any nonzero byte is `true`. -/
def readBool : Reader Bool := do
  let value ← readU8
  return value != 0

/-- `read_string`: a `u32` length, then that many bytes through `check_read`; a zero length
returns the empty string without reading further. -/
def readString : Reader (List UInt8) := do
  let len ← readU32
  if len.toNat = 0 then return [] else readRaw len.toNat

/-- `read_optional`: a presence byte; zero is absent, anything else is followed by a value. -/
def readOptional {α : Type} (readFunc : Reader α) : Reader (Option α) := do
  let hasValue ← readU8
  if hasValue = 0 then return none
  else
    let value ← readFunc
    return some value

/-- `read_optional_string`: the body of `read_optional` with `read_string` inlined. -/
def readOptionalString : Reader (Option (List UInt8)) := readOptional readString

/-- The loop of `read_vector`: `count` calls of `read_func`, each pushed back in turn. -/
def readItems {α : Type} (readFunc : Reader α) : Nat → Reader (List α)
  | 0 => return []
  | count + 1 => do
    let item ← readFunc
    let items ← readItems readFunc count
    return item :: items

/-- `read_vector`: a `u32` count, then that many elements. -/
def readVector {α : Type} (readFunc : Reader α) : Reader (List α) := do
  let count ← readU32
  readItems readFunc count.toNat

/-- `read_bytes`: a `u32` length, then that many bytes, read through `check_read` only when the
length is positive. -/
def readBytes : Reader (List UInt8) := do
  let len ← readU32
  if 0 < len.toNat then readRaw len.toNat else return []

/-- `read_enum`: the `int32_t` discriminant. -/
def readEnum : Reader (BitVec 32) := readI32

/-! ## Reading back what was written -/

/-- `r` reads exactly `bytes` as `a`: followed by anything it returns `a` and leaves what
follows, and on every proper prefix of `bytes` it throws the end-of-stream error. -/
structure Decodes {α : Type} (r : Reader α) (bytes : List UInt8) (a : α) : Prop where
  run_append : ∀ rest, r.run (bytes ++ rest) = .ok (a, rest)
  run_truncated : ∀ p q, p ++ q = bytes → q ≠ [] → r.run p = .error endOfStream

namespace Decodes

variable {α β : Type}

theorem pure (a : α) : Decodes (pure a : Reader α) [] a where
  run_append _ := rfl
  run_truncated _ _ h hq := absurd (List.append_eq_nil.mp h).2 hq

theorem readRaw (bytes : List UInt8) : Decodes (readRaw bytes.length) bytes bytes where
  run_append := readRaw_append bytes
  run_truncated p q h hq := by
    subst h
    have : q.length ≠ 0 := by simpa using hq
    exact readRaw_eq_error.mpr ⟨by simp; omega, rfl⟩

/-- Decoding is closed under sequencing: the second reader starts where the first stopped. -/
theorem bind {x : Reader α} {f : α → Reader β} {e₁ e₂ : List UInt8} {a : α} {b : β}
    (hx : Decodes x e₁ a) (hf : Decodes (f a) e₂ b) : Decodes (x >>= f) (e₁ ++ e₂) b where
  run_append rest := by
    rw [List.append_assoc, run_bind_of_ok (hx.run_append _), hf.run_append]
  run_truncated p q h hq := by
    rcases List.append_eq_append_iff.mp h with ⟨c, rfl, rfl⟩ | ⟨c, rfl, rfl⟩
    · -- the cut falls inside the first encoding, or at its end
      by_cases hc : c = []
      · subst hc
        rw [List.append_nil] at hx
        rw [← List.append_nil p, run_bind_of_ok (hx.run_append [])]
        exact hf.run_truncated [] e₂ rfl (by simpa using hq)
      · exact run_bind_of_error (hx.run_truncated p c rfl hc)
    · -- the cut falls inside the second encoding
      rw [run_bind_of_ok (hx.run_append c)]
      exact hf.run_truncated c q rfl hq

theorem bind_pure {x : Reader α} {g : α → β} {e : List UInt8} {a : α} (hx : Decodes x e a) :
    Decodes (do let v ← x; return g v) e (g a) := by
  have h := hx.bind (f := fun v => Pure.pure (g v)) (Decodes.pure (g a))
  rwa [List.append_nil] at h

end Decodes

theorem bitVec_ofNat_leValue_writeUInt (width : Nat) (value : BitVec (8 * width)) :
    BitVec.ofNat (8 * width) (leValue (writeUInt width value)) = value := by
  have hlt : value.toNat < 256 ^ width := by
    simpa [Nat.pow_mul] using value.isLt
  apply BitVec.eq_of_toNat_eq
  simp [writeUInt, leValue_leBytes, BitVec.toNat_ofNat, Nat.mod_eq_of_lt hlt,
    Nat.mod_eq_of_lt value.isLt]

theorem decodes_readUInt (width : Nat) (value : BitVec (8 * width)) :
    Decodes (readUInt width) (writeUInt width value) value := by
  have h := (Decodes.readRaw (writeUInt width value)).bind_pure
    (g := fun bytes => BitVec.ofNat (8 * width) (leValue bytes))
  rwa [writeUInt_length, bitVec_ofNat_leValue_writeUInt] at h

theorem decodes_readBool (value : Bool) : Decodes readBool (writeBool value) value := by
  have h := (decodes_readUInt 1 (if value then 1 else 0)).bind_pure (g := fun v => v != 0)
  cases value <;> exact h

/-- A string shorter than `2 ^ 32` bytes reads back as itself. -/
theorem decodes_readString {value : List UInt8} (hlen : value.length < 2 ^ 32) :
    Decodes readString (writeString value) value := by
  rw [writeString, writeSized_eq]
  refine (decodes_readUInt 4 _).bind ?_
  have hlen' : (BitVec.ofNat 32 value.length).toNat = value.length := by
    rw [BitVec.toNat_ofNat, Nat.mod_eq_of_lt hlen]
  simp only [hlen']
  rcases value with _ | ⟨b, value⟩
  · exact Decodes.pure _
  · exact Decodes.readRaw _

/-- A blob shorter than `2 ^ 32` bytes reads back as itself. -/
theorem decodes_readBytes {value : List UInt8} (hlen : value.length < 2 ^ 32) :
    Decodes readBytes (writeBytes value) value := by
  rw [writeBytes, writeSized_eq]
  refine (decodes_readUInt 4 _).bind ?_
  have hlen' : (BitVec.ofNat 32 value.length).toNat = value.length := by
    rw [BitVec.toNat_ofNat, Nat.mod_eq_of_lt hlen]
  simp only [hlen']
  rcases value with _ | ⟨b, value⟩
  · exact Decodes.pure _
  · rw [if_pos (by simp)]
    exact Decodes.readRaw _

theorem decodes_readOptional {α : Type} {readFunc : Reader α} {writeFunc : α → List UInt8}
    {value : Option α} (hf : ∀ x ∈ value, Decodes readFunc (writeFunc x) x) :
    Decodes (readOptional readFunc) (writeOptional writeFunc value) value := by
  cases value with
  | none => simpa using (decodes_readUInt 1 0).bind (Decodes.pure none)
  | some x =>
    refine (decodes_readUInt 1 1).bind ?_
    simpa using (hf x rfl).bind_pure (g := some)

theorem decodes_readItems {α : Type} {readFunc : Reader α} {writeFunc : α → List UInt8}
    {items : List α} (hf : ∀ x ∈ items, Decodes readFunc (writeFunc x) x) :
    Decodes (readItems readFunc items.length) (items.flatMap writeFunc) items := by
  induction items with
  | nil => exact Decodes.pure []
  | cons x items ih =>
    have hx := hf x (List.mem_cons_self x items)
    have hs := ih fun y hy => hf y (List.mem_cons_of_mem x hy)
    simpa [readItems] using hx.bind hs.bind_pure

/-- A sequence of fewer than `2 ^ 32` elements, each of which reads back as itself, reads back
as itself. -/
theorem decodes_readVector {α : Type} {readFunc : Reader α} {writeFunc : α → List UInt8}
    {items : List α} (hlen : items.length < 2 ^ 32)
    (hf : ∀ x ∈ items, Decodes readFunc (writeFunc x) x) :
    Decodes (readVector readFunc) (writeVector writeFunc items) items := by
  refine (decodes_readUInt 4 _).bind ?_
  have hlen' : (BitVec.ofNat 32 items.length).toNat = items.length := by
    rw [BitVec.toNat_ofNat, Nat.mod_eq_of_lt hlen]
  simpa only [hlen'] using decodes_readItems hf

end Wire
end PolyGenSupport
