import PolyGenSupport.Wire.Bytes

/-!
# `BinaryWriter`

A `BinaryWriter` only ever appends to its stream, so each `write_*` is modelled by the bytes it
appends and a sequence of writes by the concatenation of theirs.  The generic writers
`write_optional` and `write_vector` take the writer of the inner type as an argument, as the
code's `WriteFunc` parameter does.

Fixed-width integers are `BitVec`s.  A signed type and the unsigned type of the same width have
the same bits, which is all `static_cast` between them keeps, and a float is its IEEE bit
pattern, which is all `memcpy` moves; so `i32`, `f32` and an enum's `int32_t` discriminant are
all `BitVec 32`.
-/

namespace PolyGenSupport
namespace Wire

/-- `write_u8` .. `write_u64`: `native_to_le`, the identity on the little-endian host, then the
value's `width` bytes copied out of memory. -/
def writeUInt (width : Nat) (value : BitVec (8 * width)) : List UInt8 :=
  leBytes width value.toNat

/-- `write_u8`. -/
def writeU8 (value : BitVec 8) : List UInt8 := writeUInt 1 value
/-- `write_u16`. -/
def writeU16 (value : BitVec 16) : List UInt8 := writeUInt 2 value
/-- `write_u32`. -/
def writeU32 (value : BitVec 32) : List UInt8 := writeUInt 4 value
/-- `write_u64`. -/
def writeU64 (value : BitVec 64) : List UInt8 := writeUInt 8 value

/-- `write_i8`: `static_cast<uint8_t>` keeps the bits. -/
def writeI8 (value : BitVec 8) : List UInt8 := writeU8 value
/-- `write_i16`. -/
def writeI16 (value : BitVec 16) : List UInt8 := writeU16 value
/-- `write_i32`. -/
def writeI32 (value : BitVec 32) : List UInt8 := writeU32 value
/-- `write_i64`. -/
def writeI64 (value : BitVec 64) : List UInt8 := writeU64 value

/-- `write_f32`: the float's bits `memcpy`d into a `uint32_t`. -/
def writeF32 (value : BitVec 32) : List UInt8 := writeU32 value
/-- `write_f64`. -/
def writeF64 (value : BitVec 64) : List UInt8 := writeU64 value

/-- `write_bool`: one byte, `1` or `0`. -/
def writeBool (value : Bool) : List UInt8 := writeU8 (if value then 1 else 0)

/-- The shared body of `write_string` and `write_bytes`: the size `static_cast` to `uint32_t`,
then the payload when it is not empty. -/
def writeSized (value : List UInt8) : List UInt8 :=
  writeU32 (BitVec.ofNat 32 value.length) ++ (if value.isEmpty then [] else value)

/-- `write_string`: a `std::string` is its bytes. -/
def writeString (value : List UInt8) : List UInt8 := writeSized value
/-- `write_bytes`. -/
def writeBytes (value : List UInt8) : List UInt8 := writeSized value

/-- `write_optional`: a presence byte, then the value when there is one. -/
def writeOptional {α : Type} (writeFunc : α → List UInt8) : Option α → List UInt8
  | some value => writeU8 1 ++ writeFunc value
  | none => writeU8 0

/-- `write_optional_string`: the body of `write_optional` with `write_string` inlined. -/
def writeOptionalString : Option (List UInt8) → List UInt8 := writeOptional writeString

/-- `write_vector`: the element count `static_cast` to `uint32_t`, then every element in
order. -/
def writeVector {α : Type} (writeFunc : α → List UInt8) (items : List α) : List UInt8 :=
  writeU32 (BitVec.ofNat 32 items.length) ++ items.flatMap writeFunc

/-- `write_enum`: the discriminant `static_cast` to `int32_t`. -/
def writeEnum (value : BitVec 32) : List UInt8 := writeI32 value

@[simp] theorem writeUInt_length (width : Nat) (value : BitVec (8 * width)) :
    (writeUInt width value).length = width := leBytes_length _ _

theorem writeSized_eq (value : List UInt8) :
    writeSized value = writeU32 (BitVec.ofNat 32 value.length) ++ value := by
  cases value <;> rfl

@[simp] theorem writeOptional_none {α : Type} (writeFunc : α → List UInt8) :
    writeOptional writeFunc none = writeU8 0 := rfl

@[simp] theorem writeOptional_some {α : Type} (writeFunc : α → List UInt8) (value : α) :
    writeOptional writeFunc (some value) = writeU8 1 ++ writeFunc value := rfl

/-- The count in front of a sequence is its length modulo `2 ^ 32`: the cast wraps. -/
theorem writeVector_count {α : Type} (writeFunc : α → List UInt8) (items : List α) :
    writeVector writeFunc items =
      leBytes 4 (items.length % 2 ^ 32) ++ items.flatMap writeFunc := by
  simp [writeVector, writeU32, writeUInt, BitVec.toNat_ofNat]

/-- The length in front of a string or a blob is its size modulo `2 ^ 32`. -/
theorem writeSized_eq_mod (value : List UInt8) :
    writeSized value = leBytes 4 (value.length % 2 ^ 32) ++ value := by
  simp [writeSized_eq, writeU32, writeUInt, BitVec.toNat_ofNat]

end Wire
end PolyGenSupport
