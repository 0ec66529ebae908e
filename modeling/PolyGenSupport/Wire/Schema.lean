import PolyGenSupport.Wire.Reader

/-!
# Wire types and the generated codecs

A schema field has one of the wire types below.  Generated code writes a value of a record type
with `write_X`, which calls the `BinaryWriter` once per field in declared order, and reads it
with `read_X`, which calls the `BinaryReader` in the same order; an optional or a sequence field
passes the inner type's own writer or reader to `write_optional`/`read_optional` or
`write_vector`/`read_vector`.  `WireType.write` and `WireType.read` are that pattern, for every
type the grammar builds: records may nest inside sequences and optionals to any depth.

`write_optional_string` and `read_optional_string`, which spell out the optional pattern around
`write_string` and `read_string`, are the codecs of `optional string` (`writeOptionalString_eq`,
`readOptionalString_eq`), so what is proved of every wire type holds of them.

`WireType.Val t` is the type of the values of `t`.  An enum is its `int32_t` discriminant.

`WireType.fits` says that every string, blob and sequence inside a value has fewer than `2 ^ 32`
elements, the largest size a `u32` prefix can state.
-/

namespace PolyGenSupport
namespace Wire

/-- The wire types of a schema field. -/
inductive WireType where
  | u8 | u16 | u32 | u64
  | i8 | i16 | i32 | i64
  | f32 | f64
  | bool
  | string
  | bytes
  | enum
  | optional (inner : WireType)
  | sequence (element : WireType)
  | record (fields : List WireType)

mutual

/-- The values of a wire type. -/
def WireType.Val : WireType → Type
  | .u8 | .i8 => BitVec 8
  | .u16 | .i16 => BitVec 16
  | .u32 | .i32 | .f32 | .enum => BitVec 32
  | .u64 | .i64 | .f64 => BitVec 64
  | .bool => Bool
  | .string | .bytes => List UInt8
  | .optional inner => Option inner.Val
  | .sequence element => List element.Val
  | .record fields => WireType.Fields fields

/-- The values of a record: one value per field, in declared order. -/
def WireType.Fields : List WireType → Type
  | [] => Unit
  | t :: ts => t.Val × WireType.Fields ts

end

mutual

/-- Generated `write_X`: the `BinaryWriter` call for each field's type, fields in order. -/
def WireType.write : (t : WireType) → t.Val → List UInt8
  | .u8, value => writeU8 value
  | .u16, value => writeU16 value
  | .u32, value => writeU32 value
  | .u64, value => writeU64 value
  | .i8, value => writeI8 value
  | .i16, value => writeI16 value
  | .i32, value => writeI32 value
  | .i64, value => writeI64 value
  | .f32, value => writeF32 value
  | .f64, value => writeF64 value
  | .bool, value => writeBool value
  | .string, value => writeString value
  | .bytes, value => writeBytes value
  | .enum, value => writeEnum value
  | .optional inner, value => writeOptional inner.write value
  | .sequence element, items => writeVector element.write items
  | .record fields, value => WireType.writeFields fields value

/-- The fields of a record written one after another. -/
def WireType.writeFields : (fields : List WireType) → WireType.Fields fields → List UInt8
  | [], _ => []
  | t :: ts, (value, values) => t.write value ++ WireType.writeFields ts values

end

mutual

/-- Generated `read_X`: the `BinaryReader` call for each field's type, fields in order. -/
def WireType.read : (t : WireType) → Reader t.Val
  | .u8 => readU8
  | .u16 => readU16
  | .u32 => readU32
  | .u64 => readU64
  | .i8 => readI8
  | .i16 => readI16
  | .i32 => readI32
  | .i64 => readI64
  | .f32 => readF32
  | .f64 => readF64
  | .bool => readBool
  | .string => readString
  | .bytes => readBytes
  | .enum => readEnum
  | .optional inner => readOptional inner.read
  | .sequence element => readVector element.read
  | .record fields => WireType.readFields fields

/-- The fields of a record read one after another. -/
def WireType.readFields : (fields : List WireType) → Reader (WireType.Fields fields)
  | [] => (return () : Reader Unit)
  | t :: ts => (do
      let value ← t.read
      let values ← WireType.readFields ts
      return (value, values) : Reader (t.Val × WireType.Fields ts))

end

/-- `write_optional_string` is the writer of an `optional string` field. -/
theorem writeOptionalString_eq : writeOptionalString = (WireType.optional .string).write := rfl

/-- `read_optional_string` is the reader of an `optional string` field. -/
theorem readOptionalString_eq : readOptionalString = (WireType.optional .string).read := rfl

mutual

/-- Every string, blob and sequence in the value has fewer than `2 ^ 32` elements. -/
def WireType.fits : (t : WireType) → t.Val → Bool
  | .string, value => value.length < 2 ^ 32
  | .bytes, value => value.length < 2 ^ 32
  | .optional inner, value => value.all inner.fits
  | .sequence element, items => items.length < 2 ^ 32 && items.all element.fits
  | .record fields, value => WireType.fitsFields fields value
  | .u8, _ | .u16, _ | .u32, _ | .u64, _ | .i8, _ | .i16, _ | .i32, _ | .i64, _
  | .f32, _ | .f64, _ | .bool, _ | .enum, _ => true

/-- Every field of the record fits. -/
def WireType.fitsFields : (fields : List WireType) → WireType.Fields fields → Bool
  | [], _ => true
  | t :: ts, (value, values) => t.fits value && WireType.fitsFields ts values

end

example : (WireType.record [.u16, .optional .bool, .sequence .u8]).write
    ((0x0102 : BitVec 16), some true, [(7 : BitVec 8)], ()) =
      [0x02, 0x01, 0x01, 0x01, 0x01, 0x00, 0x00, 0x00, 0x07] := by
  decide

mutual

/-- The generated reader decodes exactly what the generated writer wrote, for every type and
every value that fits. -/
theorem WireType.decodes_read : (t : WireType) → (value : t.Val) → t.fits value →
    Decodes t.read (t.write value) value
  | .u8, value, _ => decodes_readUInt 1 value
  | .u16, value, _ => decodes_readUInt 2 value
  | .u32, value, _ => decodes_readUInt 4 value
  | .u64, value, _ => decodes_readUInt 8 value
  | .i8, value, _ => decodes_readUInt 1 value
  | .i16, value, _ => decodes_readUInt 2 value
  | .i32, value, _ => decodes_readUInt 4 value
  | .i64, value, _ => decodes_readUInt 8 value
  | .f32, value, _ => decodes_readUInt 4 value
  | .f64, value, _ => decodes_readUInt 8 value
  | .enum, value, _ => decodes_readUInt 4 value
  | .bool, value, _ => decodes_readBool value
  | .string, _, h => decodes_readString (by simpa [WireType.fits] using h)
  | .bytes, _, h => decodes_readBytes (by simpa [WireType.fits] using h)
  | .optional inner, value, h => decodes_readOptional fun x hx =>
      WireType.decodes_read inner x (by cases hx; simpa [WireType.fits] using h)
  | .sequence element, items, h => by
      simp only [WireType.fits, Bool.and_eq_true, decide_eq_true_eq, List.all_eq_true] at h
      exact decodes_readVector h.1 fun x hx => WireType.decodes_read element x (h.2 x hx)
  | .record fields, value, h => WireType.decodes_readFields fields value h

theorem WireType.decodes_readFields : (fields : List WireType) → (values : WireType.Fields fields) →
    WireType.fitsFields fields values →
    Decodes (WireType.readFields fields) (WireType.writeFields fields values) values
  | [], (), _ => Decodes.pure ()
  | t :: ts, (value, values), h => by
      simp only [WireType.fitsFields, Bool.and_eq_true] at h
      exact (WireType.decodes_read t value h.1).bind
        (WireType.decodes_readFields ts values h.2).bind_pure

end

end Wire
end PolyGenSupport
