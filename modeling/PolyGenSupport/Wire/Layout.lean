import PolyGenSupport.Wire.Schema
import Mathlib.Data.List.OfFn

/-!
# The cross-language reference layout

The wire format is shared with the C# and Rust bindings, so the bytes themselves are the
contract, not only the round trip: a self-consistent layout with the wrong byte order, a
different `true` byte or a presence flag after its payload would read back just as well.
`referenceLayout` writes the table of the specification down directly, independently of the
writer: a `k`-byte field is the list of its `k` base-256 digits, a signed integer is first taken
modulo `2 ^ (8 k)`, a float is its IEEE bit pattern, and composite values are concatenations.
`WireType.write_eq_referenceLayout` says that `BinaryWriter`, through the generated `write_X`,
emits exactly these bytes.
-/

namespace PolyGenSupport
namespace Wire

/-- A little-endian `width`-byte field holding `n`: byte `i` is the `i`-th base-256 digit. -/
def littleEndian (width n : Nat) : List UInt8 :=
  List.ofFn fun i : Fin width => UInt8.ofNat (n / 256 ^ i.val % 256)

/-- The two's complement representation of `i` in `bits` bits. -/
def twosComplement (bits : Nat) (i : Int) : Nat := (i % (2 ^ bits : Nat)).toNat

mutual

/-- The specification's layout table: `u8`/`i8` one byte; wider integers little-endian two's
complement; floats their little-endian IEEE bits; `bool` the byte `0x00` or `0x01`; strings and
blobs a 4-byte little-endian length then the raw bytes; an optional `0x00`, or `0x01` then the
value; a sequence a 4-byte little-endian count then the elements in order; an enum the `i32`
encoding of its discriminant; a record its fields in declared order. -/
def referenceLayout : (t : WireType) → t.Val → List UInt8
  | .u8, value => littleEndian 1 value.toNat
  | .u16, value => littleEndian 2 value.toNat
  | .u32, value => littleEndian 4 value.toNat
  | .u64, value => littleEndian 8 value.toNat
  | .i8, value => littleEndian 1 (twosComplement 8 value.toInt)
  | .i16, value => littleEndian 2 (twosComplement 16 value.toInt)
  | .i32, value => littleEndian 4 (twosComplement 32 value.toInt)
  | .i64, value => littleEndian 8 (twosComplement 64 value.toInt)
  | .f32, bits => littleEndian 4 bits.toNat
  | .f64, bits => littleEndian 8 bits.toNat
  | .bool, (value : Bool) => [if value then 0x01 else 0x00]
  | .string, (value : List UInt8) => littleEndian 4 value.length ++ value
  | .bytes, (value : List UInt8) => littleEndian 4 value.length ++ value
  | .enum, value => littleEndian 4 (twosComplement 32 value.toInt)
  | .optional inner, value => match value with
    | none => [0x00]
    | some x => 0x01 :: referenceLayout inner x
  | .sequence element, items =>
      littleEndian 4 items.length ++ (items.map (referenceLayout element)).flatten
  | .record fields, values => referenceFields fields values

/-- The reference layout of a record's fields, in declared order. -/
def referenceFields : (fields : List WireType) → WireType.Fields fields → List UInt8
  | [], _ => []
  | t :: ts, (value, values) => referenceLayout t value ++ referenceFields ts values

end

/-- The writer's recursive digits are the table's digits. -/
theorem leBytes_eq_littleEndian (width n : Nat) : leBytes width n = littleEndian width n := by
  induction width generalizing n with
  | zero => rfl
  | succ width ih =>
    rw [leBytes, ih, littleEndian, littleEndian, List.ofFn_succ]
    congr 1
    · simp
    · congr 1
      funext i
      rw [Fin.val_succ, Nat.pow_succ', Nat.div_div_eq_div_mul]

/-- Two's complement of a bit vector's signed value gives back its bits. -/
theorem twosComplement_toInt {bits : Nat} (x : BitVec bits) :
    twosComplement bits x.toInt = x.toNat := by
  have hlt := x.isLt
  rw [twosComplement, BitVec.toInt_eq_toNat_cond]
  split
  · rw [Int.emod_eq_of_lt (by omega) (by exact_mod_cast hlt)]
    simp
  · rw [Int.emod_sub_cancel, Int.emod_eq_of_lt (by omega) (by exact_mod_cast hlt)]
    simp

theorem writeUInt_eq_littleEndian (width : Nat) (value : BitVec (8 * width)) :
    writeUInt width value = littleEndian width value.toNat :=
  leBytes_eq_littleEndian _ _

theorem writeSized_eq_littleEndian {value : List UInt8} (hlen : value.length < 2 ^ 32) :
    writeSized value = littleEndian 4 value.length ++ value := by
  rw [writeSized_eq_mod, Nat.mod_eq_of_lt hlen, leBytes_eq_littleEndian]

mutual

/-- `BinaryWriter`, through the generated `write_X`, emits exactly the reference layout, for every
wire type and every value whose strings, blobs and sequences have fewer than `2 ^ 32`
elements. -/
theorem WireType.write_eq_referenceLayout : (t : WireType) → (value : t.Val) → t.fits value →
    t.write value = referenceLayout t value
  | .u8, value, _ => writeUInt_eq_littleEndian 1 value
  | .u16, value, _ => writeUInt_eq_littleEndian 2 value
  | .u32, value, _ => writeUInt_eq_littleEndian 4 value
  | .u64, value, _ => writeUInt_eq_littleEndian 8 value
  | .i8, value, _ => (writeUInt_eq_littleEndian 1 value).trans
      (congrArg _ (twosComplement_toInt value).symm)
  | .i16, value, _ => (writeUInt_eq_littleEndian 2 value).trans
      (congrArg _ (twosComplement_toInt value).symm)
  | .i32, value, _ => (writeUInt_eq_littleEndian 4 value).trans
      (congrArg _ (twosComplement_toInt value).symm)
  | .i64, value, _ => (writeUInt_eq_littleEndian 8 value).trans
      (congrArg _ (twosComplement_toInt value).symm)
  | .enum, value, _ => (writeUInt_eq_littleEndian 4 value).trans
      (congrArg _ (twosComplement_toInt value).symm)
  | .f32, value, _ => writeUInt_eq_littleEndian 4 value
  | .f64, value, _ => writeUInt_eq_littleEndian 8 value
  | .bool, value, _ => by cases value <;> rfl
  | .string, _, h => writeSized_eq_littleEndian (by simpa [WireType.fits] using h)
  | .bytes, _, h => writeSized_eq_littleEndian (by simpa [WireType.fits] using h)
  | .optional inner, value, h => by
      cases value with
      | none => rfl
      | some x =>
        have hx : inner.fits x := by simpa [WireType.fits] using h
        simp only [WireType.write, writeOptional_some, referenceLayout,
          WireType.write_eq_referenceLayout inner x hx]
        rfl
  | .sequence element, items, h => by
      simp only [WireType.fits, Bool.and_eq_true, decide_eq_true_eq, List.all_eq_true] at h
      have hmap : items.flatMap element.write = (items.map (referenceLayout element)).flatten :=
        by
          rw [List.flatMap, List.map_congr_left fun x hx =>
            WireType.write_eq_referenceLayout element x (h.2 x hx)]
      simp only [WireType.write, writeVector, referenceLayout, hmap]
      rw [writeU32, writeUInt_eq_littleEndian, BitVec.toNat_ofNat, Nat.mod_eq_of_lt h.1]
  | .record fields, values, h => WireType.writeFields_eq_referenceFields fields values h

theorem WireType.writeFields_eq_referenceFields : (fields : List WireType) →
    (values : WireType.Fields fields) → WireType.fitsFields fields values →
    WireType.writeFields fields values = referenceFields fields values
  | [], _, _ => rfl
  | t :: ts, (value, values), h => by
      simp only [WireType.fitsFields, Bool.and_eq_true] at h
      simp only [WireType.writeFields, referenceFields,
        WireType.write_eq_referenceLayout t value h.1,
        WireType.writeFields_eq_referenceFields ts values h.2]

end

/-- A record of an `i16` and a sequence of one optional enum. -/
theorem write_eq_referenceLayout_record :
    let t := WireType.record [.i16, .sequence (.optional .enum)]
    let value : t.Val := ((-2 : BitVec 16), [some (5 : BitVec 32)], ())
    t.fits value ∧ t.write value = referenceLayout t value ∧
      referenceLayout t value =
        [0xFE, 0xFF, 0x01, 0x00, 0x00, 0x00, 0x01, 0x05, 0x00, 0x00, 0x00] :=
  ⟨by decide, WireType.write_eq_referenceLayout _ _ (by decide), by decide⟩

end Wire
end PolyGenSupport
