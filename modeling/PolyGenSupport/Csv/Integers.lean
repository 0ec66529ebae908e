import PolyGenSupport.Csv.Reader

/-!
# The integer parse helpers of `CsvReader`

The leading integer literal of a text, in the words it is usually given (`LeadingLiteral`):
optional white space, an optional sign, then decimal digits, as many as there are.  It is the
subject sequence `strtol` and its kin read (`integerSubject_literal`,
`leadingLiteral_of_integerSubject`).

`parse_i32` and `parse_i64` return the integer that literal denotes, or throw when there is
none or it is outside their range (`parseSigned_denotes`).  `parse_u32` and `parse_u64` do not.
`strtoul` and `strtoull` accept a minus sign and negate in their unsigned type, and `parse_u32`
narrows the 64-bit `unsigned long` with `static_cast`, so both return the literal modulo
`2 ^ 32` or `2 ^ 64`, and throw only past a magnitude of `2 ^ 64` (`parseUnsigned_wraps`).
-/

namespace PolyGenSupport
namespace Csv

open Json (StdException isspace isdigit ascii isspace_eq_false_of_isdigit)
open Json.Library (optionalSign optionalSign_cases digitsValue)
open Library

/-- The leading integer literal of `s` denotes `n`: `s` is white space, an optional sign, one
or more decimal digits and a rest that does not start with a digit, and `n` is the digits'
value, negated after a minus. -/
def LeadingLiteral (s : List UInt8) (n : Int) : Prop :=
  ∃ space sign digits rest, s = space ++ sign ++ digits ++ rest ∧
    (∀ c ∈ space, isspace c = true) ∧
    (sign = [] ∨ sign = ['+'.toUInt8] ∨ sign = ['-'.toUInt8]) ∧
    digits ≠ [] ∧ (∀ c ∈ digits, isdigit c = true) ∧ (∀ c ∈ rest.head?, isdigit c = false) ∧
    n = if sign = ['-'.toUInt8] then -(digitsValue digits : Int) else digitsValue digits

/-! ## The literal is `strtol`'s subject sequence -/

theorem signedValue_decide (p : Prop) [Decidable p] (magnitude : Nat) :
    signedValue (decide p) magnitude = if p then -(magnitude : Int) else magnitude := by
  by_cases hp : p <;> simp [signedValue, hp]

theorem natAbs_signedValue (negative : Bool) (magnitude : Nat) :
    (signedValue negative magnitude).natAbs = magnitude := by
  cases negative <;> simp [signedValue]

/-- `strtol` reads the literal: past the white space, the sign and then the digits. -/
theorem integerSubject_literal {space sign digits rest : List UInt8}
    (hspace : ∀ c ∈ space, isspace c = true)
    (hsign : sign = [] ∨ sign = ['+'.toUInt8] ∨ sign = ['-'.toUInt8]) (hdigits : digits ≠ [])
    (hdigit : ∀ c ∈ digits, isdigit c = true)
    (hrest : ∀ c ∈ rest.head?, isdigit c = false) :
    integerSubject (space ++ sign ++ digits ++ rest) =
      some (decide (sign = ['-'.toUInt8]), digitsValue digits) := by
  obtain ⟨d, ds, rfl⟩ := List.exists_cons_of_ne_nil hdigits
  have hd := hdigit d (List.mem_cons_self _ _)
  have hd' : d ≠ '-'.toUInt8 ∧ d ≠ '+'.toUInt8 := by
    constructor <;> rintro rfl <;> exact absurd hd (by decide)
  have hsigned : (sign ++ (d :: ds) ++ rest).dropWhile isspace = sign ++ (d :: ds) ++ rest ∧
      optionalSign (sign ++ (d :: ds) ++ rest) =
        (decide (sign = ['-'.toUInt8]), d :: ds ++ rest) := by
    rcases hsign with rfl | rfl | rfl
    · simp [List.dropWhile_cons, isspace_eq_false_of_isdigit hd, optionalSign, hd']
    · exact ⟨rfl, rfl⟩
    · exact ⟨rfl, rfl⟩
  have htake : (d :: ds ++ rest).takeWhile isdigit = d :: ds := by
    rw [List.takeWhile_append_of_pos hdigit]
    cases rest with
    | nil => simp
    | cons c rest => simp [List.takeWhile_cons, hrest c rfl]
  simp only [integerSubject, List.append_assoc] at hsigned ⊢
  rw [List.dropWhile_append_of_pos hspace, hsigned.1, hsigned.2]
  simp only [htake, List.cons_ne_nil, ↓reduceIte]

/-- A literal is what `strtol` reads. -/
theorem integerSubject_of_leadingLiteral {s : List UInt8} {n : Int} (h : LeadingLiteral s n) :
    ∃ negative magnitude, integerSubject s = some (negative, magnitude) ∧
      signedValue negative magnitude = n := by
  obtain ⟨space, sign, digits, rest, rfl, hspace, hsign, hdigits, hdigit, hrest, rfl⟩ := h
  exact ⟨_, _, integerSubject_literal hspace hsign hdigits hdigit hrest, signedValue_decide _ _⟩

/-- What `strtol` reads is a literal. -/
theorem leadingLiteral_of_integerSubject {s : List UInt8} {negative : Bool} {magnitude : Nat}
    (h : integerSubject s = some (negative, magnitude)) :
    LeadingLiteral s (signedValue negative magnitude) := by
  simp only [integerSubject] at h
  obtain ⟨sign, hsign, hsplit, hnegative⟩ := optionalSign_cases (s.dropWhile isspace)
  generalize optionalSign (s.dropWhile isspace) = read at h hsplit hnegative
  obtain ⟨negative', after⟩ := read
  dsimp only at h hsplit hnegative
  split_ifs at h with hdigits
  obtain ⟨rfl, rfl⟩ := Prod.mk.inj (Option.some.inj h)
  refine ⟨s.takeWhile isspace, sign, after.takeWhile isdigit, after.dropWhile isdigit, ?_,
    fun c hc => List.mem_takeWhile_imp hc, hsign, hdigits, fun c hc => List.mem_takeWhile_imp hc,
    fun c hc => ?_, by rw [hnegative, signedValue_decide]⟩
  · simp only [List.append_assoc, List.takeWhile_append_dropWhile, ← hsplit]
  · have hnot := List.head?_dropWhile_not isdigit after
    rwa [Option.mem_def.mp hc] at hnot

/-! ## Two's complement at 32 and 64 bits -/

/-- `static_cast<uint32_t>` of a 64-bit value keeps it modulo `2 ^ 32`. -/
theorem truncate_ofInt (n : Int) : BitVec.truncate 32 (BitVec.ofInt 64 n) = BitVec.ofInt 32 n := by
  apply BitVec.eq_of_toNat_eq
  simp only [BitVec.truncate_eq_setWidth, BitVec.toNat_setWidth, BitVec.toNat_ofInt]
  omega

/-- An integer in the range of a `w`-bit signed type is what its bits denote. -/
theorem toInt_ofInt_of_lt {w : Nat} {n : Int} (hw : 0 < w) (hlo : -2 ^ (w - 1) ≤ n)
    (hhi : n < 2 ^ (w - 1)) : (BitVec.ofInt w n).toInt = n := by
  have hm : ((2 ^ w : Nat) : Int) = 2 * 2 ^ (w - 1) := by
    rw [Int.natCast_pow, ← pow_succ', Nat.sub_add_cancel hw]
    rfl
  rw [BitVec.toInt_ofInt, Int.bmod_def, hm]
  rcases Int.le_or_lt 0 n with hn | hn
  · rw [Int.emod_eq_of_lt hn (by omega), if_pos (by omega)]
  · have hmod : n % (2 * 2 ^ (w - 1)) = n + 2 * 2 ^ (w - 1) := by
      rw [← Int.add_emod_self, Int.emod_eq_of_lt (by omega) (by omega)]
    rw [hmod, if_neg (by omega)]
    omega

/-! ## The parse helpers -/

/-- The body the parse helpers share is the conversion on every non-empty field. -/
theorem parseWith_of_ne_nil {w : Nat} (convert : List UInt8 → Except StdException (BitVec w))
    {s : List UInt8} (hs : s ≠ []) : parseWith convert s = convert s := by
  simp [parseWith, hs]

/-- `parse_u32` is `parse_u64` narrowed to 32 bits: with a 64-bit `long`, `std::stoul` and
`std::stoull` are the same conversion. -/
theorem parseU32_eq_truncate (s : List UInt8) :
    parseU32 s = BitVec.truncate 32 <$> parseU64 s := by
  unfold parseU32 parseU64 parseWith
  split_ifs <;> rfl

/-- `parse_i32` and `parse_i64` never return a number other than the one the text denotes:
what they return is the leading literal, within their range. -/
theorem parseSigned_denotes {s : List UInt8} (hs : s ≠ []) :
    (∀ x, parseI32 s = .ok x → ∃ n, LeadingLiteral s n ∧ -2 ^ 31 ≤ n ∧ n < 2 ^ 31 ∧ x.toInt = n) ∧
      ∀ x, parseI64 s = .ok x →
        ∃ n, LeadingLiteral s n ∧ -2 ^ 63 ≤ n ∧ n < 2 ^ 63 ∧ x.toInt = n := by
  rw [parseI32, parseI64, parseWith_of_ne_nil _ hs, parseWith_of_ne_nil _ hs]
  cases hsubject : integerSubject s with
  | none =>
    simp only [stoi, stoll, strtoSigned_of_subject_none 64 hsubject]
    exact ⟨fun _ h => (nomatch h), fun _ h => (nomatch h)⟩
  | some subject =>
    obtain ⟨negative, magnitude⟩ := subject
    have hliteral := leadingLiteral_of_integerSubject hsubject
    rw [stoi_of_subject hsubject, stoll_of_subject hsubject]
    constructor <;> intro x hx <;> dsimp only at hx <;> split_ifs at hx with hrange
    all_goals
      obtain rfl := Except.ok.inj hx
      exact ⟨_, hliteral, hrange.1, hrange.2, toInt_ofInt_of_lt (by decide) hrange.1 hrange.2⟩

/-- `parse_i32` on ` -42x`: the literal `-42`. -/
theorem parseSigned_denotes_minus_42 :
    ∃ n, LeadingLiteral (ascii " -42x") n ∧ -2 ^ 31 ≤ n ∧ n < 2 ^ 31 ∧
      (BitVec.ofInt 32 (-42)).toInt = n :=
  (parseSigned_denotes (by decide)).1 _ rfl

/-- `parse_u32` and `parse_u64` return the leading literal modulo `2 ^ 32` and `2 ^ 64`, and
throw only when its magnitude is `2 ^ 64` or more: a negative literal, and for `parse_u32` one
of `2 ^ 32` or more, is wrapped and not thrown. -/
theorem parseUnsigned_wraps {s : List UInt8} {n : Int} (hs : LeadingLiteral s n) :
    parseU32 s = (if n.natAbs < 2 ^ 64 then .ok (BitVec.ofInt 32 n) else .error .outOfRange) ∧
      parseU64 s = (if n.natAbs < 2 ^ 64 then .ok (BitVec.ofInt 64 n) else .error .outOfRange) := by
  obtain ⟨negative, magnitude, hsubject, rfl⟩ := integerSubject_of_leadingLiteral hs
  have hne : s ≠ [] := by
    rintro rfl
    cases hsubject
  have h64 : parseU64 s = (if magnitude < 2 ^ 64 then
      .ok (BitVec.ofInt 64 (signedValue negative magnitude)) else .error .outOfRange) := by
    rw [parseU64, parseWith_of_ne_nil _ hne, stoull, strtoUnsigned_of_subject 64 hsubject]
  rw [natAbs_signedValue, parseU32_eq_truncate, h64]
  refine ⟨?_, rfl⟩
  split_ifs
  · rw [← truncate_ofInt]
    rfl
  · rfl

/-- `-1` and `4294967296` are outside `uint32_t`, and `-1` outside `uint64_t`: `parse_u32`
returns `4294967295` and `0` for them, and `parse_u64` returns `2 ^ 64 - 1` for `-1`. -/
theorem parseUnsigned_wraps_out_of_range :
    parseU32 (ascii "-1") = .ok (BitVec.ofNat 32 4294967295) ∧
      parseU64 (ascii "-1") = .ok (BitVec.ofNat 64 18446744073709551615) ∧
      parseU32 (ascii "4294967296") = .ok 0 := by
  have hminus := parseUnsigned_wraps (s := ascii "-1") (n := -1)
    ⟨[], ['-'.toUInt8], ['1'.toUInt8], [], rfl, by decide, .inr (.inr rfl), by decide, by decide,
      by decide, by decide⟩
  have hbig := parseUnsigned_wraps (s := ascii "4294967296") (n := 4294967296)
    ⟨[], [], ascii "4294967296", [], rfl, by decide, .inl rfl, by decide, by decide, by decide,
      by decide⟩
  obtain ⟨hminus32, hminus64⟩ := hminus
  rw [if_pos (by decide)] at hminus32 hminus64 hbig
  exact ⟨hminus32.trans (congrArg _ (by decide)), hminus64.trans (congrArg _ (by decide)),
    hbig.1.trans (congrArg _ (by decide))⟩

end Csv
end PolyGenSupport
