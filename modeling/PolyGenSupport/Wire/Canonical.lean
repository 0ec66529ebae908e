import PolyGenSupport.Wire.Schema
import Mathlib.Data.List.Forall2

/-!
# What the reader accepts

`WireType.decodes_read` runs the reader on writer output.  This module runs it on arbitrary bytes.
Whenever `read_X` returns a value, it consumed a prefix of its input that is the writer's
encoding of that value, except that a byte the reader took as a `bool` or as an optional's
presence flag may hold any nonzero byte where the writer puts `1`.  No length, count, enum,
integer or float field is accepted in another form, and the reader never consumes more or fewer
bytes than the value re-encodes to.

`Consumes r R` is the inverse reading of `Decodes`: every successful run of `r` consumed a prefix
related by `R` to the value it returned.  Each `read_*` gets one `consumes_*` lemma, and
`WireType.consumes_read` assembles them over the type grammar.
-/

namespace PolyGenSupport
namespace Wire

/-- Every successful run of `r` consumed a prefix of its input related by `R` to its result. -/
def Consumes {α : Type} (r : Reader α) (R : α → List UInt8 → Prop) : Prop :=
  ∀ s a rest, r.run s = .ok (a, rest) → ∃ p, s = p ++ rest ∧ R a p

theorem Consumes.imp {α : Type} {r : Reader α} {R S : α → List UInt8 → Prop}
    (h : Consumes r R) (himp : ∀ a p, R a p → S a p) : Consumes r S := fun s a rest hr =>
  let ⟨p, hs, hR⟩ := h s a rest hr
  ⟨p, hs, himp a p hR⟩

/-- `bytes` splits into one piece per element of `items`, in order, each related by `R` to its
element. -/
def Pieces {α : Type} (R : α → List UInt8 → Prop) : List α → List UInt8 → Prop
  | [], bytes => bytes = []
  | x :: xs, bytes => ∃ p₁ p₂, bytes = p₁ ++ p₂ ∧ R x p₁ ∧ Pieces R xs p₂

theorem Pieces.imp {α : Type} {R S : α → List UInt8 → Prop} (h : ∀ a p, R a p → S a p) :
    ∀ {items : List α} {bytes : List UInt8}, Pieces R items bytes → Pieces S items bytes
  | [], _, hp => hp
  | _ :: _, _, ⟨p₁, p₂, hb, hr, hs⟩ => ⟨p₁, p₂, hb, h _ _ hr, Pieces.imp h hs⟩

theorem Pieces.forall {α : Type} {R : α → List UInt8 → Prop} {Q : α → Prop}
    (h : ∀ a p, R a p → Q a) :
    ∀ {items : List α} {bytes : List UInt8}, Pieces R items bytes → ∀ x ∈ items, Q x
  | [], _, _, _, hx => absurd hx (List.not_mem_nil _)
  | _ :: _, _, ⟨_, _, _, hr, hs⟩, _, hx => by
    rcases List.mem_cons.mp hx with rfl | hx
    · exact h _ _ hr
    · exact Pieces.forall h hs _ hx

theorem writeU8_eq_singleton (x : BitVec 8) : writeUInt 1 x = [UInt8.ofNat x.toNat] := by
  show [UInt8.ofNat (x.toNat % 256)] = _
  rw [Nat.mod_eq_of_lt x.isLt]

theorem uint8_ofNat_eq_zero_iff (x : BitVec 8) : UInt8.ofNat x.toNat = 0 ↔ x = 0 := by
  constructor
  · intro h0
    have := congrArg UInt8.toNat h0
    rw [uint8_toNat_ofNat, Nat.mod_eq_of_lt x.isLt] at this
    exact BitVec.eq_of_toNat_eq (by simpa using this)
  · rintro rfl
    rfl

section Readers

theorem consumes_readUInt (width : Nat) :
    Consumes (readUInt width) fun value p => p = writeUInt width value := by
  intro s value rest h
  obtain ⟨bytes, s', hraw, hpure⟩ := run_bind_eq_ok.mp h
  obtain ⟨hlen, rfl⟩ := readRaw_eq_ok.mp hraw
  cases hpure
  refine ⟨bytes, rfl, ?_⟩
  have hlt : leValue bytes < 2 ^ (8 * width) := by
    simpa [Nat.pow_mul, hlen] using leValue_lt bytes
  show bytes = leBytes width _
  rw [ BitVec.toNat_ofNat, Nat.mod_eq_of_lt hlt, ← hlen, leBytes_leValue]

theorem consumes_readBool :
    Consumes readBool fun value p => ∃ b : UInt8, p = [b] ∧ (value = true ↔ b ≠ 0) := by
  intro s value rest h
  obtain ⟨x, s', hx, hpure⟩ := run_bind_eq_ok.mp h
  obtain ⟨p, rfl, rfl⟩ := consumes_readUInt 1 s x s' hx
  cases hpure
  refine ⟨_, rfl, UInt8.ofNat x.toNat, writeU8_eq_singleton x, ?_⟩
  simp only [bne_iff_ne, ne_eq, uint8_ofNat_eq_zero_iff]

theorem consumes_readString :
    Consumes readString fun value p => p = writeString value ∧ value.length < 2 ^ 32 := by
  intro s value rest h
  obtain ⟨len, s', hlen, hbody⟩ := run_bind_eq_ok.mp h
  obtain ⟨p, rfl, rfl⟩ := consumes_readUInt 4 s len s' hlen
  have hlt : len.toNat < 2 ^ 32 := len.isLt
  split at hbody
  · next h0 =>
    cases hbody
    refine ⟨writeUInt 4 len, by simp, ?_, by simp⟩
    rw [writeString, writeSized_eq, List.append_nil]
    congr
    exact BitVec.eq_of_toNat_eq (by simp [h0])
  · obtain ⟨hl, rfl⟩ := readRaw_eq_ok.mp hbody
    refine ⟨writeUInt 4 len ++ value, by simp, ?_, by omega⟩
    rw [writeString, writeSized_eq, hl]
    congr
    exact BitVec.eq_of_toNat_eq (by simp [Nat.mod_eq_of_lt hlt])

theorem consumes_readBytes :
    Consumes readBytes fun value p => p = writeBytes value ∧ value.length < 2 ^ 32 := by
  intro s value rest h
  obtain ⟨len, s', hlen, hbody⟩ := run_bind_eq_ok.mp h
  obtain ⟨p, rfl, rfl⟩ := consumes_readUInt 4 s len s' hlen
  have hlt : len.toNat < 2 ^ 32 := len.isLt
  split at hbody
  · obtain ⟨hl, rfl⟩ := readRaw_eq_ok.mp hbody
    refine ⟨writeUInt 4 len ++ value, by simp, ?_, by omega⟩
    rw [writeBytes, writeSized_eq, hl]
    congr
    exact BitVec.eq_of_toNat_eq (by simp [Nat.mod_eq_of_lt hlt])
  · next h0 =>
    cases hbody
    refine ⟨writeUInt 4 len, by simp, ?_, by simp⟩
    rw [writeBytes, writeSized_eq, List.append_nil]
    congr
    exact BitVec.eq_of_toNat_eq (by simp at h0; simp [h0])

theorem consumes_readOptional {α : Type} {readFunc : Reader α} {R : α → List UInt8 → Prop}
    (hf : Consumes readFunc R) :
    Consumes (readOptional readFunc) fun value p => match value with
      | none => p = [0]
      | some x => ∃ b q, p = b :: q ∧ b ≠ 0 ∧ R x q := by
  intro s value rest h
  obtain ⟨flag, s', hflag, hbody⟩ := run_bind_eq_ok.mp h
  obtain ⟨p, rfl, rfl⟩ := consumes_readUInt 1 s flag s' hflag
  split at hbody
  · next h0 =>
    cases hbody
    exact ⟨writeUInt 1 flag, by simp, by subst h0; rfl⟩
  · next h0 =>
    obtain ⟨x, s'', hx, hpure⟩ := run_bind_eq_ok.mp hbody
    cases hpure
    obtain ⟨q, rfl, hq⟩ := hf _ _ _ hx
    exact ⟨writeUInt 1 flag ++ q, by simp, UInt8.ofNat flag.toNat, q,
      by rw [writeU8_eq_singleton]; rfl, fun h => h0 ((uint8_ofNat_eq_zero_iff flag).mp h), hq⟩

theorem consumes_readItems {α : Type} {readFunc : Reader α} {R : α → List UInt8 → Prop}
    (hf : Consumes readFunc R) :
    ∀ count, Consumes (readItems readFunc count) fun items p =>
      items.length = count ∧ Pieces R items p
  | 0, s, items, rest, h => by
    cases h
    exact ⟨[], rfl, rfl, rfl⟩
  | count + 1, s, items, rest, h => by
    obtain ⟨x, s', hx, hrest⟩ := run_bind_eq_ok.mp h
    obtain ⟨xs, s'', hxs, hpure⟩ := run_bind_eq_ok.mp hrest
    cases hpure
    obtain ⟨p₁, rfl, hp₁⟩ := hf _ _ _ hx
    obtain ⟨p₂, rfl, hlen, hp₂⟩ := consumes_readItems hf count _ _ _ hxs
    exact ⟨p₁ ++ p₂, by simp, by simp [hlen], p₁, p₂, rfl, hp₁, hp₂⟩

theorem consumes_readVector {α : Type} {readFunc : Reader α} {R : α → List UInt8 → Prop}
    (hf : Consumes readFunc R) :
    Consumes (readVector readFunc) fun items p => items.length < 2 ^ 32 ∧
      ∃ body, p = writeU32 (BitVec.ofNat 32 items.length) ++ body ∧ Pieces R items body := by
  intro s items rest h
  obtain ⟨count, s', hcount, hitems⟩ := run_bind_eq_ok.mp h
  obtain ⟨p, rfl, rfl⟩ := consumes_readUInt 4 s count s' hcount
  obtain ⟨body, rfl, hlen, hbody⟩ := consumes_readItems hf _ _ _ _ hitems
  have hlt : count.toNat < 2 ^ 32 := count.isLt
  refine ⟨writeUInt 4 count ++ body, by simp, by omega, body, ?_, hbody⟩
  rw [hlen, writeU32]
  congr
  exact BitVec.eq_of_toNat_eq (by simp [Nat.mod_eq_of_lt hlt])

end Readers

/-! ## Encodings up to flag bytes -/

mutual

/-- `encoded` is the writer's encoding of `value`, except that each byte the reader takes as a
`bool` or as a presence flag may be any nonzero byte where the writer puts `1`. -/
def WireType.FlagVariant : (t : WireType) → t.Val → List UInt8 → Prop
  | .bool, (value : Bool), encoded => ∃ b : UInt8, encoded = [b] ∧ (value = true ↔ b ≠ 0)
  | .optional inner, value, encoded => match value with
    | none => encoded = [0]
    | some x => ∃ b q, encoded = b :: q ∧ b ≠ 0 ∧ inner.FlagVariant x q
  | .sequence element, items, encoded =>
      ∃ body, encoded = writeU32 (BitVec.ofNat 32 items.length) ++ body ∧
        Pieces element.FlagVariant items body
  | .record fields, values, encoded => WireType.FlagVariantFields fields values encoded
  | .u8, value, encoded => encoded = WireType.write .u8 value
  | .u16, value, encoded => encoded = WireType.write .u16 value
  | .u32, value, encoded => encoded = WireType.write .u32 value
  | .u64, value, encoded => encoded = WireType.write .u64 value
  | .i8, value, encoded => encoded = WireType.write .i8 value
  | .i16, value, encoded => encoded = WireType.write .i16 value
  | .i32, value, encoded => encoded = WireType.write .i32 value
  | .i64, value, encoded => encoded = WireType.write .i64 value
  | .f32, value, encoded => encoded = WireType.write .f32 value
  | .f64, value, encoded => encoded = WireType.write .f64 value
  | .string, value, encoded => encoded = WireType.write .string value
  | .bytes, value, encoded => encoded = WireType.write .bytes value
  | .enum, value, encoded => encoded = WireType.write .enum value

/-- The fields of a record, each a flag variant of its encoding, one after another. -/
def WireType.FlagVariantFields : (fields : List WireType) → WireType.Fields fields →
    List UInt8 → Prop
  | [], _, encoded => encoded = []
  | t :: ts, (value, values), encoded => ∃ p₁ p₂, encoded = p₁ ++ p₂ ∧ t.FlagVariant value p₁ ∧
      WireType.FlagVariantFields ts values p₂

end

/-- A byte the reader accepted against the byte the writer emits there: the same byte, or a
nonzero byte where the writer puts `1`. -/
def FlagByte (read written : UInt8) : Prop := read = written ∨ (written = 1 ∧ read ≠ 0)

theorem forall₂_flagByte_refl (bytes : List UInt8) : List.Forall₂ FlagByte bytes bytes :=
  List.forall₂_same.mpr fun _ _ => .inl rfl

theorem Pieces.forall₂_flatMap {α : Type} {R : α → List UInt8 → Prop} {f : α → List UInt8}
    (h : ∀ a p, R a p → List.Forall₂ FlagByte p (f a)) :
    ∀ {items : List α} {body : List UInt8}, Pieces R items body →
      List.Forall₂ FlagByte body (items.flatMap f)
  | [], _, hp => by rw [hp]; exact .nil
  | _ :: _, _, ⟨_, _, hb, hr, hs⟩ => by
    rw [hb, List.flatMap_cons]
    exact List.rel_append (h _ _ hr) (Pieces.forall₂_flatMap h hs)

mutual

/-- Whatever the generated reader accepts is a flag variant of the value it returns, and that
value fits. -/
theorem WireType.consumes_read : (t : WireType) →
    Consumes t.read fun value p => t.FlagVariant value p ∧ t.fits value
  | .u8 => (consumes_readUInt 1).imp fun _ _ h => ⟨h, rfl⟩
  | .u16 => (consumes_readUInt 2).imp fun _ _ h => ⟨h, rfl⟩
  | .u32 => (consumes_readUInt 4).imp fun _ _ h => ⟨h, rfl⟩
  | .u64 => (consumes_readUInt 8).imp fun _ _ h => ⟨h, rfl⟩
  | .i8 => (consumes_readUInt 1).imp fun _ _ h => ⟨h, rfl⟩
  | .i16 => (consumes_readUInt 2).imp fun _ _ h => ⟨h, rfl⟩
  | .i32 => (consumes_readUInt 4).imp fun _ _ h => ⟨h, rfl⟩
  | .i64 => (consumes_readUInt 8).imp fun _ _ h => ⟨h, rfl⟩
  | .f32 => (consumes_readUInt 4).imp fun _ _ h => ⟨h, rfl⟩
  | .f64 => (consumes_readUInt 8).imp fun _ _ h => ⟨h, rfl⟩
  | .enum => (consumes_readUInt 4).imp fun _ _ h => ⟨h, rfl⟩
  | .bool => consumes_readBool.imp fun _ _ h => ⟨h, rfl⟩
  | .string => consumes_readString.imp fun _ _ h => ⟨h.1, by simpa [WireType.fits] using h.2⟩
  | .bytes => consumes_readBytes.imp fun _ _ h => ⟨h.1, by simpa [WireType.fits] using h.2⟩
  | .optional inner => (consumes_readOptional (WireType.consumes_read inner)).imp
      fun value p h => match value, h with
        | none, h => ⟨h, rfl⟩
        | some _, ⟨b, q, hp, hb, hq, hfits⟩ => ⟨⟨b, q, hp, hb, hq⟩, by simpa [WireType.fits]⟩
  | .sequence element => (consumes_readVector (WireType.consumes_read element)).imp
      fun items _ ⟨hlen, body, hp, hbody⟩ => by
        refine ⟨⟨body, hp, hbody.imp fun _ _ h => h.1⟩, ?_⟩
        simp only [WireType.fits, Bool.and_eq_true, decide_eq_true_eq, List.all_eq_true]
        exact ⟨hlen, Pieces.forall (fun _ _ h => h.2) hbody⟩
  | .record fields => WireType.consumes_readFields fields

theorem WireType.consumes_readFields : (fields : List WireType) →
    Consumes (WireType.readFields fields) fun values p =>
      WireType.FlagVariantFields fields values p ∧ WireType.fitsFields fields values
  | [], _, _, _, h => by
    cases h
    exact ⟨[], rfl, rfl, rfl⟩
  | t :: ts, s, (value, values), rest, h => by
    obtain ⟨x, s', hx, hrest⟩ := run_bind_eq_ok.mp h
    obtain ⟨xs, s'', hxs, hpure⟩ := run_bind_eq_ok.mp hrest
    cases hpure
    obtain ⟨p₁, rfl, hv₁, hf₁⟩ := WireType.consumes_read t _ _ _ hx
    obtain ⟨p₂, rfl, hv₂, hf₂⟩ := WireType.consumes_readFields ts _ _ _ hxs
    refine ⟨p₁ ++ p₂, by simp, ⟨p₁, p₂, rfl, hv₁, hv₂⟩, ?_⟩
    simp [WireType.fitsFields, hf₁, hf₂]

end

mutual

/-- A flag variant has the length of the encoding, and differs from it only where the encoding
has `1` and the variant a nonzero byte. -/
theorem WireType.FlagVariant.forall₂ : (t : WireType) → (value : t.Val) → (p : List UInt8) →
    t.FlagVariant value p → List.Forall₂ FlagByte p (t.write value)
  | .u8, _, _, h | .u16, _, _, h | .u32, _, _, h | .u64, _, _, h | .i8, _, _, h
  | .i16, _, _, h | .i32, _, _, h | .i64, _, _, h | .f32, _, _, h | .f64, _, _, h
  | .string, _, _, h | .bytes, _, _, h | .enum, _, _, h => h ▸ forall₂_flagByte_refl _
  | .bool, value, _, ⟨b, hp, hb⟩ => by
      subst hp
      cases value with
      | false => exact .cons (.inl (by simpa using hb)) .nil
      | true => exact .cons (.inr ⟨rfl, hb.mp rfl⟩) .nil
  | .optional inner, none, _, h => h ▸ forall₂_flagByte_refl _
  | .optional inner, some x, _, ⟨b, q, hp, hb, hq⟩ => by
      subst hp
      exact .cons (.inr ⟨rfl, hb⟩) (WireType.FlagVariant.forall₂ inner x q hq)
  | .sequence element, items, _, ⟨body, hp, hbody⟩ => by
      subst hp
      exact List.rel_append (forall₂_flagByte_refl _)
        (hbody.forall₂_flatMap fun x p h => WireType.FlagVariant.forall₂ element x p h)
  | .record fields, values, p, h => WireType.FlagVariantFields.forall₂ fields values p h

theorem WireType.FlagVariantFields.forall₂ : (fields : List WireType) →
    (values : WireType.Fields fields) → (p : List UInt8) →
    WireType.FlagVariantFields fields values p →
    List.Forall₂ FlagByte p (WireType.writeFields fields values)
  | [], _, _, h => h ▸ .nil
  | t :: ts, (value, values), _, ⟨p₁, p₂, hp, h₁, h₂⟩ => by
      subst hp
      exact List.rel_append (WireType.FlagVariant.forall₂ t value p₁ h₁)
        (WireType.FlagVariantFields.forall₂ ts values p₂ h₂)

end

/-- Whenever the generated reader returns a value from arbitrary input, the input is a prefix
`p` followed by what was left; `p` is the writer's encoding of the value up to flag bytes: it has
the same length, and differs from it only at bytes read as a `bool` or a presence flag, where `p`
holds a nonzero byte and the encoding `1`.  Decoding the re-encoding followed by the same rest
gives the value and the rest again. -/
theorem WireType.write_read_up_to_flags (t : WireType) (input rest : List UInt8) (value : t.Val)
    (h : t.read.run input = .ok (value, rest)) :
    ∃ p, input = p ++ rest ∧ t.FlagVariant value p ∧
      List.Forall₂ (fun read written => read = written ∨ (written = 1 ∧ read ≠ 0)) p
        (t.write value) ∧
      t.read.run (t.write value ++ rest) = .ok (value, rest) := by
  obtain ⟨p, rfl, hvar, hfits⟩ := t.consumes_read _ _ _ h
  exact ⟨p, rfl, hvar, WireType.FlagVariant.forall₂ t value p hvar,
    (t.decodes_read value hfits).run_append rest⟩

/-- A `bool` stored as `0x07` and a presence flag stored as `0x05`: the reader accepts both and
the writer normalises them to `0x01`. -/
theorem write_read_up_to_flags_record :
    let t := WireType.record [.bool, .optional .u8]
    let value : t.Val := (true, some (0x2A : BitVec 8), ())
    t.read.run [0x07, 0x05, 0x2A, 0xEE] = .ok (value, [0xEE]) ∧ t.write value = [0x01, 0x01, 0x2A] ∧
      ∃ p, [0x07, 0x05, 0x2A, 0xEE] = p ++ [0xEE] ∧ t.FlagVariant value p ∧
        List.Forall₂ (fun read written => read = written ∨ (written = 1 ∧ read ≠ 0)) p
          (t.write value) ∧
        t.read.run (t.write value ++ [0xEE]) = .ok (value, [0xEE]) :=
  ⟨rfl, rfl, WireType.write_read_up_to_flags _ _ _ _ rfl⟩

end Wire
end PolyGenSupport
