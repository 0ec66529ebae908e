import PolyGenSupport.Wire.Schema

/-!
# Round trips and truncation

`WireType.decodes_read` packs two facts about every wire type: the reader returns what the writer
wrote and stops exactly at its end, and the reader throws on every proper prefix of it.  This
module states them as they are used, and then looks at the one place where the writer does not
check the size it is given.

Encodings are self-delimiting: bytes that start with one value's encoding start with no other
value's (`WireType.write_append_inj`), so records written one after another need no framing.

`write_string`, `write_bytes` and `write_vector` put `static_cast<uint32_t>(size)` in front of
the full payload.  From `2 ^ 32` elements on, the prefix is the size modulo `2 ^ 32`: the reader
returns the first `size % 2 ^ 32` elements and leaves the rest of the payload in front of
whatever follows (`readString_writeString`, `readBytes_writeBytes`, `readVector_writeVector`).
`sized_prefix_wraps` puts the three together: a value reads back whole exactly when its size is
below `2 ^ 32`.  A string of `2 ^ 32` bytes reads back as the empty string, alone and as the one
element of a sequence (`readVector_readString_singleton`), and its bytes are left for the next
read.
-/

namespace PolyGenSupport
namespace Wire

/-- Decoding a value's encoding followed by any bytes returns the value and leaves exactly those
bytes, for every wire type and every value whose strings, blobs and sequences fit a `u32`. -/
theorem WireType.read_write_roundtrip (t : WireType) (value : t.Val) (hfits : t.fits value)
    (rest : List UInt8) : t.read.run (t.write value ++ rest) = .ok (value, rest) :=
  (t.decodes_read value hfits).run_append rest

/-- A record with a nested optional string and a sequence of optional records, followed by one
more byte. -/
theorem read_write_roundtrip_nested :
    let t := WireType.record
      [.i64, .optional .string, .sequence (.optional (.record [.bool, .f32]))]
    let value : t.Val := ((-1 : BitVec 64), some [0x68, 0x69],
      [some (true, (0x3FC00000 : BitVec 32), ()), none], ())
    t.fits value ∧ t.read.run (t.write value ++ [0xFF]) = .ok (value, [0xFF]) :=
  ⟨by decide, WireType.read_write_roundtrip _ _ (by decide) _⟩

/-- Every proper prefix of an encoding, the empty one included, makes the reader throw
`check_read`'s end-of-stream error: no read returns a value from a cut-short encoding. -/
theorem WireType.read_truncated (t : WireType) (value : t.Val) (hfits : t.fits value)
    (p : List UInt8) (hpre : p <+: t.write value) (hproper : p.length < (t.write value).length) :
    t.read.run p = .error endOfStream := by
  obtain ⟨q, hq⟩ := hpre
  refine (t.decodes_read value hfits).run_truncated p q hq ?_
  rintro rfl
  simp [← hq] at hproper

/-- Cutting the last byte off a sequence of two strings. -/
theorem read_truncated_sequence :
    let t := WireType.sequence .string
    let value : t.Val := [[0x61], [0x62, 0x63]]
    t.fits value ∧ (t.write value).dropLast <+: t.write value ∧
      (t.write value).dropLast.length < (t.write value).length ∧
      t.read.run (t.write value).dropLast = .error endOfStream :=
  ⟨by decide, List.dropLast_prefix _, by decide,
    WireType.read_truncated _ _ (by decide) _ (List.dropLast_prefix _) (by decide)⟩

/-! ## Encodings one after another -/

/-- Encodings are self-delimiting: for values that fit, bytes that start with the encoding of one
value start with the encoding of no other, so values written one after another split back in one
way only, with nothing between them.  So the writer is injective, and no value's encoding is a
proper prefix of another's. -/
theorem WireType.write_append_inj (t : WireType) {value value' : t.Val} (hfits : t.fits value)
    (hfits' : t.fits value') {rest rest' : List UInt8}
    (h : t.write value ++ rest = t.write value' ++ rest') : value = value' ∧ rest = rest' := by
  have hread := (t.decodes_read value hfits).run_append rest
  rw [h, (t.decodes_read value' hfits').run_append rest', Except.ok.injEq, Prod.mk.injEq] at hread
  exact ⟨hread.1.symm, hread.2.symm⟩

/-- The string `a` followed by the byte `b`. -/
theorem write_append_inj_string :
    ([0x61] : WireType.string.Val) = [0x61] ∧ ([0x62] : List UInt8) = [0x62] :=
  WireType.write_append_inj .string (by decide) (by decide) rfl

/-! ## Sizes from `2 ^ 32` on -/

/-- The loop of `read_vector` run for `count` elements over a sequence of at least that many
encoded elements. -/
theorem readItems_flatMap {α : Type} {readFunc : Reader α} {writeFunc : α → List UInt8}
    {items : List α} (hf : ∀ x ∈ items, Decodes readFunc (writeFunc x) x) (rest : List UInt8) :
    ∀ count ≤ items.length, (readItems readFunc count).run (items.flatMap writeFunc ++ rest) =
      .ok (items.take count, (items.drop count).flatMap writeFunc ++ rest) := by
  induction items with
  | nil =>
    intro count h
    obtain rfl : count = 0 := by simpa using h
    rfl
  | cons x items ih =>
    intro count hcount
    cases count with
    | zero => rfl
    | succ count =>
      have hx := (hf x (List.mem_cons_self x items)).run_append
        (items.flatMap writeFunc ++ rest)
      have hs := ih (fun y hy => hf y (List.mem_cons_of_mem x hy)) count
        (by simpa using hcount)
      simp only [readItems, List.flatMap_cons, List.append_assoc]
      rw [run_bind_of_ok hx, run_bind_of_ok hs]
      rfl

theorem readString_writeString (value rest : List UInt8) :
    readString.run (writeString value ++ rest) =
      .ok (value.take (value.length % 2 ^ 32), value.drop (value.length % 2 ^ 32) ++ rest) := by
  rw [writeString, writeSized_eq, List.append_assoc, readString, readU32, writeU32,
    run_bind_of_ok ((decodes_readUInt 4 _).run_append _)]
  simp only [BitVec.toNat_ofNat]
  split
  · next h => simp only [h, List.take_zero, List.drop_zero]; rfl
  · exact readRaw_append_of_le (Nat.mod_le _ _) rest

theorem readBytes_writeBytes (value rest : List UInt8) :
    readBytes.run (writeBytes value ++ rest) =
      .ok (value.take (value.length % 2 ^ 32), value.drop (value.length % 2 ^ 32) ++ rest) := by
  rw [writeBytes, writeSized_eq, List.append_assoc, readBytes, readU32, writeU32,
    run_bind_of_ok ((decodes_readUInt 4 _).run_append _)]
  simp only [BitVec.toNat_ofNat]
  split
  · exact readRaw_append_of_le (Nat.mod_le _ _) rest
  · next h => simp only [Nat.eq_zero_of_not_pos h, List.take_zero, List.drop_zero]; rfl

theorem readVector_writeVector {α : Type} {readFunc : Reader α} {writeFunc : α → List UInt8}
    {items : List α} (hf : ∀ x ∈ items, Decodes readFunc (writeFunc x) x) (rest : List UInt8) :
    (readVector readFunc).run (writeVector writeFunc items ++ rest) =
      .ok (items.take (items.length % 2 ^ 32),
        (items.drop (items.length % 2 ^ 32)).flatMap writeFunc ++ rest) := by
  rw [writeVector, List.append_assoc, readVector, readU32, writeU32,
    run_bind_of_ok ((decodes_readUInt 4 _).run_append _)]
  simpa only [BitVec.toNat_ofNat] using
    readItems_flatMap hf rest _ (Nat.mod_le _ _)

/-- A sequence of one string: the count `1` is right, and the string reads back as its first
`size % 2 ^ 32` bytes, with the rest of its bytes left in front of what follows. -/
theorem readVector_readString_singleton (value rest : List UInt8) :
    (readVector readString).run (writeVector writeString [value] ++ rest) =
      .ok ([value.take (value.length % 2 ^ 32)], value.drop (value.length % 2 ^ 32) ++ rest) := by
  rw [writeVector, List.append_assoc, readVector, readU32, writeU32,
    run_bind_of_ok ((decodes_readUInt 4 _).run_append _)]
  simp only [BitVec.toNat_ofNat, List.length_singleton, List.flatMap_singleton, readItems]
  rw [run_bind_of_ok (readString_writeString value rest)]
  rfl

/-- Reading back the first `count % 2 ^ 32` elements gives everything exactly when the count is
below `2 ^ 32`. -/
theorem take_mod_eq_self_iff {α : Type} (items : List α) :
    items.take (items.length % 2 ^ 32) = items ↔ items.length < 2 ^ 32 := by
  simp only [List.take_eq_self_iff, Nat.reducePow]
  omega

/-- A read that returns the first `size % 2 ^ 32` elements returns the whole value and leaves
exactly `rest` iff the size is below `2 ^ 32`. -/
theorem ok_take_mod_eq_iff {α : Type} (items : List α) (leftover : List α → List UInt8)
    (hnil : leftover [] = []) (rest : List UInt8) :
    (.ok (items.take (items.length % 2 ^ 32), leftover (items.drop (items.length % 2 ^ 32)) ++
      rest) : Except String (List α × List UInt8)) = .ok (items, rest) ↔
      items.length < 2 ^ 32 := by
  simp only [Except.ok.injEq, Prod.mk.injEq, take_mod_eq_self_iff]
  refine ⟨And.left, fun h => ⟨h, ?_⟩⟩
  rw [Nat.mod_eq_of_lt h, List.drop_length, hnil, List.nil_append]

/-- The prefix of a string, a blob or a sequence is its size modulo `2 ^ 32`, whatever the size,
and the full payload follows it.  Decoding the output followed by `rest` returns the first
`size % 2 ^ 32` elements and leaves the remainder of the payload followed by `rest`; so it returns
the whole value and leaves exactly `rest` if and only if the size is below `2 ^ 32`.  For a
sequence, the decoding part asks that its elements fit, so that each element reads back as it
was written. -/
theorem sized_prefix_wraps (string blob : List UInt8) (t : WireType) (items : List t.Val)
    (rest : List UInt8) :
    (writeString string = leBytes 4 (string.length % 2 ^ 32) ++ string ∧
      readString.run (writeString string ++ rest) = .ok (string.take (string.length % 2 ^ 32),
        string.drop (string.length % 2 ^ 32) ++ rest) ∧
      (readString.run (writeString string ++ rest) = .ok (string, rest) ↔
        string.length < 2 ^ 32)) ∧
    (writeBytes blob = leBytes 4 (blob.length % 2 ^ 32) ++ blob ∧
      readBytes.run (writeBytes blob ++ rest) = .ok (blob.take (blob.length % 2 ^ 32),
        blob.drop (blob.length % 2 ^ 32) ++ rest) ∧
      (readBytes.run (writeBytes blob ++ rest) = .ok (blob, rest) ↔ blob.length < 2 ^ 32)) ∧
    (writeVector t.write items = leBytes 4 (items.length % 2 ^ 32) ++ items.flatMap t.write ∧
      ((∀ x ∈ items, t.fits x) →
        (readVector t.read).run (writeVector t.write items ++ rest) =
          .ok (items.take (items.length % 2 ^ 32),
            (items.drop (items.length % 2 ^ 32)).flatMap t.write ++ rest) ∧
        ((readVector t.read).run (writeVector t.write items ++ rest) = .ok (items, rest) ↔
          items.length < 2 ^ 32))) := by
  have hstring := readString_writeString string rest
  have hblob := readBytes_writeBytes blob rest
  refine ⟨⟨writeSized_eq_mod _, hstring, ?_⟩, ⟨writeSized_eq_mod _, hblob, ?_⟩,
    ⟨writeVector_count _ _, fun hitems => ?_⟩⟩
  · rw [hstring]
    exact ok_take_mod_eq_iff string id rfl rest
  · rw [hblob]
    exact ok_take_mod_eq_iff blob id rfl rest
  · have hvec := readVector_writeVector (fun x hx => t.decodes_read x (hitems x hx)) rest
    rw [hvec]
    exact ⟨rfl, ok_take_mod_eq_iff items (·.flatMap t.write) rfl rest⟩

/-- A string of `2 ^ 32` bytes is written behind the prefix `0`: it reads back as the empty string
and leaves all of its bytes unread, alone and as the one element of a sequence, whose count `1`
is right. -/
theorem sized_prefix_wraps_two_pow_32 :
    writeString (List.replicate (2 ^ 32) 0) = leBytes 4 0 ++ List.replicate (2 ^ 32) 0 ∧
      readString.run (writeString (List.replicate (2 ^ 32) 0)) =
        .ok ([], List.replicate (2 ^ 32) 0) ∧
      readString.run (writeString (List.replicate (2 ^ 32) 0)) ≠
        .ok (List.replicate (2 ^ 32) 0, []) ∧
      (readVector readString).run (writeVector writeString [List.replicate (2 ^ 32) 0]) =
        .ok ([[]], List.replicate (2 ^ 32) 0) := by
  have hlen : (List.replicate (2 ^ 32) (0 : UInt8)).length % 2 ^ 32 = 0 := by
    rw [List.length_replicate, Nat.mod_self]
  have h := (sized_prefix_wraps (List.replicate (2 ^ 32) 0) [] .string [] []).1
  have hvec := readVector_readString_singleton (List.replicate (2 ^ 32) 0) []
  rw [hlen, List.take_zero, List.drop_zero, List.append_nil (List.replicate _ _),
    List.append_nil (writeString _)] at h
  rw [hlen, List.take_zero, List.drop_zero, List.append_nil (List.replicate _ _),
    List.append_nil (writeVector _ _)] at hvec
  refine ⟨h.1, h.2.1, fun heq => ?_, hvec⟩
  have hlt := h.2.2.mp heq
  rw [List.length_replicate] at hlt
  exact lt_irrefl _ hlt

end Wire
end PolyGenSupport
