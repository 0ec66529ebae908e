import PolyGenSupport.Json.Parser

/-!
# `std::stod`

`std::stod(s)` calls `strtod` and turns its two failures into exceptions: no conversion at all
throws `std::invalid_argument`, and `errno == ERANGE` throws `std::out_of_range`.  It is library
code, not code of this repository, so the parser takes it as a parameter; this module gives the
library's, as glibc implements `strtod` on x86-64.

`strtod` skips white space, reads an optional sign, and then the longest prefix of the text that
has one of the forms of the C standard (`strtodSubject`):

* a decimal constant: digits with at most one `.` among them (at least one digit), and an
  optional exponent part `e` or `E`, a sign and digits (`decimalSubject`);
* a hexadecimal constant: `0x` or `0X`, hexadecimal digits with at most one `.` among them (at
  least one digit), and an optional binary exponent part `p` or `P`, a sign and decimal digits
  (`hexadecimalSubject`); `0x` with no digit after it is the decimal constant `0`;
* `INF` or `INFINITY`, and `NAN` or `NAN(...)`, in any case.

A finite constant is rounded to the nearest `double`, ties to even (`roundToDouble`).  It sets
`ERANGE` when it rounds past the largest finite `double` (`overflows`), and when it underflows
(`underflows`): it is nonzero, tiny and inexact, where glibc on x86-64 takes a magnitude to be
tiny when, rounded to 53 significant bits with an unbounded exponent, it is below the least
normal `double` `2 ^ -1022`.  So `1e-400` and `5e-324` throw `std::out_of_range`.  An infinity is
read without `ERANGE`.  A NaN reads as the default quiet NaN with the sign in front of it; glibc
also puts a number written between the parentheses of `NAN(...)` into the payload bits, an
implementation-defined reading that the model leaves out.
-/

namespace PolyGenSupport
namespace Json
namespace Library

/-- A decimal floating constant: `(-1) ^ negative * significand * 10 ^ exponent`. -/
structure Decimal where
  negative : Bool
  significand : Nat
  exponent : Int
deriving DecidableEq, Repr

/-- A hexadecimal floating constant: `(-1) ^ negative * significand * 2 ^ exponent`. -/
structure Binary where
  negative : Bool
  significand : Nat
  exponent : Int
deriving DecidableEq, Repr

/-- What `strtod` reads at the start of a text. -/
inductive Subject where
  | decimal (d : Decimal)
  | hexadecimal (b : Binary)
  | infinity (negative : Bool)
  | nan (negative : Bool)
deriving DecidableEq, Repr

/-- `std::tolower` in the "C" locale. -/
def tolower (c : UInt8) : UInt8 := if 0x41 ≤ c ∧ c ≤ 0x5A then c + 0x20 else c

/-- `std::isxdigit` in the "C" locale. -/
def isxdigit (c : UInt8) : Bool := isdigit c || (0x61 ≤ tolower c && tolower c ≤ 0x66)

/-- The value of a hexadecimal digit. -/
def xdigitValue (c : UInt8) : Nat := if isdigit c then c.toNat - 0x30 else (tolower c).toNat - 0x57

/-- The number a sequence of decimal digits denotes. -/
def digitsValue (digits : List UInt8) : Nat :=
  digits.foldl (fun n c => 10 * n + (c.toNat - 0x30)) 0

/-- The number a sequence of hexadecimal digits denotes. -/
def xdigitsValue (digits : List UInt8) : Nat :=
  digits.foldl (fun n c => 16 * n + xdigitValue c) 0

/-- An optional `+` or `-`: whether it was a minus, and the text after it. -/
def optionalSign : List UInt8 → Bool × List UInt8
  | c :: rest =>
    if c = '-'.toUInt8 then (true, rest)
    else if c = '+'.toUInt8 then (false, rest)
    else (false, c :: rest)
  | [] => (false, [])

/-- What `optionalSign` reads is a sign, if any, in front of what it leaves. -/
theorem optionalSign_cases (t : List UInt8) :
    ∃ sign, (sign = [] ∨ sign = ['+'.toUInt8] ∨ sign = ['-'.toUInt8]) ∧
      t = sign ++ (optionalSign t).2 ∧ (optionalSign t).1 = decide (sign = ['-'.toUInt8]) := by
  cases t with
  | nil => exact ⟨[], .inl rfl, rfl, rfl⟩
  | cons c t =>
    by_cases hminus : c = '-'.toUInt8
    · subst hminus
      exact ⟨['-'.toUInt8], .inr (.inr rfl), rfl, rfl⟩
    by_cases hplus : c = '+'.toUInt8
    · subst hplus
      exact ⟨['+'.toUInt8], .inr (.inl rfl), rfl, rfl⟩
    · exact ⟨[], .inl rfl, by simp [optionalSign, hminus, hplus], by
        simp [optionalSign, hminus, hplus]⟩

/-- An exponent part: the letter, in either case, an optional sign and at least one decimal
digit; `0` when the text does not start with one. -/
def exponentPart (letter : UInt8) : List UInt8 → Int
  | c :: rest =>
    let digits := (optionalSign rest).2.takeWhile isdigit
    if tolower c = letter ∧ digits ≠ [] then
      if (optionalSign rest).1 then -(digitsValue digits : Int) else digitsValue digits
    else 0
  | [] => 0

/-- Digits with at most one `.` among them, as `strtod` scans the significand of a constant. -/
structure Mantissa where
  /-- The digits before the `.`. -/
  intDigits : List UInt8
  /-- The digits after the `.`. -/
  fracDigits : List UInt8
  /-- The text after them. -/
  rest : List UInt8

/-- The digits, by `isDigit`, at the start of `s`, with at most one `.` among them. -/
def mantissa (isDigit : UInt8 → Bool) (s : List UInt8) : Mantissa :=
  match s.dropWhile isDigit with
  | c :: rest =>
    if c = '.'.toUInt8 then ⟨s.takeWhile isDigit, rest.takeWhile isDigit, rest.dropWhile isDigit⟩
    else ⟨s.takeWhile isDigit, [], c :: rest⟩
  | [] => ⟨s.takeWhile isDigit, [], []⟩

/-- The decimal constant at the start of `s`, the text after the sign, or `none` when there is
no digit. -/
def decimalSubject (negative : Bool) (s : List UInt8) : Option Decimal :=
  let m := mantissa isdigit s
  if m.intDigits = [] ∧ m.fracDigits = [] then none
  else some ⟨negative, digitsValue (m.intDigits ++ m.fracDigits),
    exponentPart 'e'.toUInt8 m.rest - m.fracDigits.length⟩

/-- The hexadecimal constant at the start of `s`, the text after the sign, or `none` when `s`
does not start with `0x` or `0X` followed by a hexadecimal digit, or a `.` and one. -/
def hexadecimalSubject (negative : Bool) : List UInt8 → Option Binary
  | c :: x :: s =>
    let m := mantissa isxdigit s
    if c = '0'.toUInt8 ∧ tolower x = 'x'.toUInt8 ∧ ¬(m.intDigits = [] ∧ m.fracDigits = []) then
      some ⟨negative, xdigitsValue (m.intDigits ++ m.fracDigits),
        exponentPart 'p'.toUInt8 m.rest - 4 * m.fracDigits.length⟩
    else none
  | _ => none

/-- Whether `s` starts with `word`, in any case. -/
def startsWithIgnoringCase (word s : List UInt8) : Bool := word.isPrefixOf (s.map tolower)

/-- What `strtod` reads at the start of `s`, or `none` when it can perform no conversion. -/
def strtodSubject (s : List UInt8) : Option Subject :=
  let (negative, s) := optionalSign (s.dropWhile isspace)
  match hexadecimalSubject negative s with
  | some b => some (.hexadecimal b)
  | none =>
    if startsWithIgnoringCase (ascii "inf") s then some (.infinity negative)
    else if startsWithIgnoringCase (ascii "nan") s then some (.nan negative)
    else (decimalSubject negative s).map .decimal

example : strtodSubject (ascii " -0x1.8p1") = some (.hexadecimal ⟨true, 24, -3⟩) := by decide
example : strtodSubject (ascii "0x") = some (.decimal ⟨false, 0, 0⟩) := by decide
example : strtodSubject (ascii "Infinity") = some (.infinity false) := by decide
example : strtodSubject (ascii "-nan(1)") = some (.nan true) := by decide

/-- A decimal digit is its own lower case, and none of the letters that start the other
forms. -/
theorem tolower_of_isdigit {c : UInt8} (h : isdigit c = true) :
    tolower c = c ∧ c ≠ 'x'.toUInt8 ∧ c ≠ 'i'.toUInt8 ∧ c ≠ 'n'.toUInt8 := by
  simp only [isdigit, Bool.and_eq_true, decide_eq_true_eq, UInt8.le_def, BitVec.le_def] at h
  simp only [tolower, UInt8.le_def, BitVec.le_def]
  refine ⟨if_neg ?_, ?_, ?_, ?_⟩
  · simp only [not_and, not_le]
    intro h1
    simp at h h1 ⊢
    omega
  all_goals rintro rfl; exact absurd h (by decide)

/-- The bytes of a number token are no white space, and no form but the decimal one starts with
them. -/
theorem numberChar_not_form {c : UInt8} (h : numberChar c = true) :
    isspace c = false ∧ tolower c ≠ 'x'.toUInt8 ∧ tolower c ≠ 'i'.toUInt8 ∧
      tolower c ≠ 'n'.toUInt8 := by
  simp only [numberChar, Bool.or_eq_true, decide_eq_true_eq] at h
  rcases h with ((((hdigit | rfl) | rfl) | rfl) | rfl) | rfl
  · obtain ⟨hlower, hx, hi, hn⟩ := tolower_of_isdigit hdigit
    rw [hlower]
    exact ⟨isspace_eq_false_of_isdigit hdigit, hx, hi, hn⟩
  all_goals decide

/-- A word starts a text only at a byte of its first letter. -/
theorem startsWithIgnoringCase_cons {c : UInt8} {w s : List UInt8}
    (h : startsWithIgnoringCase (c :: w) s = true) : ∃ d rest, s = d :: rest ∧ tolower d = c := by
  cases s with
  | nil => simp [startsWithIgnoringCase, List.isPrefixOf] at h
  | cons d rest =>
    simp only [startsWithIgnoringCase, List.map_cons, List.isPrefixOf, Bool.and_eq_true,
      beq_iff_eq] at h
    exact ⟨d, rest, rfl, h.1.symm⟩

/-- On a token of number bytes, `strtod` reads the decimal constant after the sign. -/
theorem strtodSubject_of_numberChars {s : List UInt8} (hs : ∀ c ∈ s, numberChar c = true) :
    strtodSubject s = (decimalSubject (optionalSign s).1 (optionalSign s).2).map .decimal := by
  have hsuffix : ∀ c ∈ (optionalSign s).2, numberChar c = true := by
    obtain ⟨sign, -, hsplit, -⟩ := optionalSign_cases s
    intro c hc
    rw [hsplit] at hs
    exact hs c (List.mem_append_right sign hc)
  have hspace : s.dropWhile isspace = s := by
    cases s with
    | nil => rfl
    | cons c rest => simp [List.dropWhile_cons, (numberChar_not_form (hs c (by simp))).1]
  have hhex : hexadecimalSubject (optionalSign s).1 (optionalSign s).2 = none := by
    match (optionalSign s).2, hsuffix with
    | [], _ => rfl
    | [_], _ => rfl
    | c :: x :: t, hx =>
      have hx := (numberChar_not_form (hx x (by simp))).2.1
      simp [hexadecimalSubject, hx]
  have hword : ∀ c w, c = 'i'.toUInt8 ∨ c = 'n'.toUInt8 →
      startsWithIgnoringCase (c :: w) (optionalSign s).2 = false := by
    intro c w hc
    cases h : startsWithIgnoringCase (c :: w) (optionalSign s).2 with
    | false => rfl
    | true =>
      obtain ⟨d, rest, hd, rfl⟩ := startsWithIgnoringCase_cons h
      have hform := numberChar_not_form (hsuffix d (by simp [hd]))
      rcases hc with hc | hc
      exacts [absurd hc hform.2.2.1, absurd hc hform.2.2.2]
  have hinf : ascii "inf" = 'i'.toUInt8 :: ascii "nf" := rfl
  have hnan : ascii "nan" = 'n'.toUInt8 :: ascii "an" := rfl
  simp only [strtodSubject, hspace, hhex, hinf, hnan, hword _ _ (.inl rfl), hword _ _ (.inr rfl)]
  rfl

theorem intDigits_mantissa (isDigit : UInt8 → Bool) (s : List UInt8) :
    (mantissa isDigit s).intDigits = s.takeWhile isDigit := by
  unfold mantissa
  split
  · split <;> rfl
  · rfl

/-- At a byte that is no digit, the scan has no integer digits: after a `.` it reads the
fraction digits, and otherwise nothing. -/
theorem mantissa_of_not {isDigit : UInt8 → Bool} {d : UInt8} (hd : isDigit d = false)
    (r : List UInt8) :
    mantissa isDigit (d :: r) = if d = '.'.toUInt8 then ⟨[], r.takeWhile isDigit, r.dropWhile isDigit⟩
      else ⟨[], [], d :: r⟩ := by
  simp [mantissa, List.dropWhile_cons, List.takeWhile_cons, hd]

/-- The decimal form has no digit exactly when the text starts neither with a digit nor with a
`.` and a digit. -/
theorem decimalSubject_eq_none_iff (negative : Bool) (s : List UInt8) :
    decimalSubject negative s = none ↔
      (∀ d ∈ s.head?, isdigit d = false) ∧ ∀ d r, s = '.'.toUInt8 :: d :: r → isdigit d = false := by
  have hnone : decimalSubject negative s = none ↔
      (mantissa isdigit s).intDigits = [] ∧ (mantissa isdigit s).fracDigits = [] := by
    simp only [decimalSubject]
    split_ifs with h <;> simp [h]
  rw [hnone]
  match s with
  | [] => simp [mantissa]
  | d :: r =>
    cases hd : isdigit d
    · rw [mantissa_of_not hd]
      by_cases hdot : d = '.'.toUInt8
      · subst hdot
        cases r with
        | nil => simp [hd]
        | cons e r => cases he : isdigit e <;> simp [hd, he, List.takeWhile_cons]
      · simp [hdot, hd]
    · simp [intDigits_mantissa, hd, List.takeWhile_cons]

/-- The magnitude of a decimal constant as a fraction `(numerator, denominator)`. -/
def Decimal.fraction (d : Decimal) : Nat × Nat :=
  if 0 ≤ d.exponent then (d.significand * 10 ^ d.exponent.toNat, 1)
  else (d.significand, 10 ^ (-d.exponent).toNat)

/-- The magnitude of a hexadecimal constant as a fraction `(numerator, denominator)`. -/
def Binary.fraction (b : Binary) : Nat × Nat :=
  if 0 ≤ b.exponent then (b.significand * 2 ^ b.exponent.toNat, 1)
  else (b.significand, 2 ^ (-b.exponent).toNat)

/-- The magnitude `num / den` is at least the largest finite `double` plus half its spacing,
`2 ^ 1024 - 2 ^ 970`, so it rounds to infinity: `ERANGE`. -/
def overflows (num den : Nat) : Bool := (2 ^ 1024 - 2 ^ 970) * den ≤ num

/-- The magnitude `num / den` underflows: it is nonzero; it is below `2 ^ -1022 - 2 ^ -1076`, the
least magnitude that rounds to 53 significant bits at `2 ^ -1022` or more (tiny after rounding);
and it is no multiple of the least subnormal `2 ^ -1074` (inexact).  `ERANGE`. -/
def underflows (num den : Nat) : Bool :=
  0 < num && num * 2 ^ 1076 < (2 ^ 54 - 1) * den && num * 2 ^ 1074 % den ≠ 0

/-- `num / den` rounded to an integer, ties to even. -/
def roundHalfEven (num den : Nat) : Nat :=
  if den < 2 * (num % den) ∨ (2 * (num % den) = den ∧ num / den % 2 = 1) then num / den + 1
  else num / den

/-- `num / den ≥ 2 ^ k`. -/
def atLeastPow2 (num den : Nat) (k : Int) : Bool :=
  if 0 ≤ k then den * 2 ^ k.toNat ≤ num else den ≤ num * 2 ^ (-k).toNat

/-- The bits of the `double` nearest to `(-1) ^ negative * num / den`, ties to even, for a
magnitude below the overflow threshold.  With `k` the binary exponent of the magnitude, the
magnitude is rounded to a multiple `s * 2 ^ q` of `2 ^ q`, `q = max (k - 52) (-1074)`; then its
bits are `(q + 1074) * 2 ^ 52 + s`, for normal and subnormal results alike, a carry of `s` to
`2 ^ 53` included. -/
def roundToDouble (negative : Bool) (num den : Nat) : BitVec 64 :=
  let sign : Nat := if negative then 2 ^ 63 else 0
  if num = 0 then BitVec.ofNat 64 sign
  else
    let k₀ : Int := (Nat.log2 num : Int) - Nat.log2 den
    let k := if atLeastPow2 num den k₀ then k₀ else k₀ - 1
    let q := max (k - 52) (-1074)
    let s := if 0 ≤ q then roundHalfEven num (den * 2 ^ q.toNat)
      else roundHalfEven (num * 2 ^ (-q).toNat) den
    BitVec.ofNat 64 (sign + (q + 1074).toNat * 2 ^ 52 + s)

/-- The `double` nearest to a decimal constant. -/
def Decimal.toDouble (d : Decimal) : BitVec 64 := roundToDouble d.negative d.fraction.1 d.fraction.2

/-- The bits of an infinity. -/
def infinityBits (negative : Bool) : BitVec 64 :=
  BitVec.ofNat 64 ((if negative then 2 ^ 63 else 0) + 0x7FF0000000000000)

/-- The bits of the default quiet NaN. -/
def nanBits (negative : Bool) : BitVec 64 :=
  BitVec.ofNat 64 ((if negative then 2 ^ 63 else 0) + 0x7FF8000000000000)

/-- The conversion of a finite constant of magnitude `num / den`: `ERANGE` on overflow and on
underflow, else the nearest `double`. -/
def convertFinite (negative : Bool) (num den : Nat) : Except StdException (BitVec 64) :=
  if overflows num den || underflows num den then .error .outOfRange
  else .ok (roundToDouble negative num den)

/-- `std::stod`. -/
def stod (s : List UInt8) : Except StdException (BitVec 64) :=
  match strtodSubject s with
  | none => .error .invalidArgument
  | some (.decimal d) => convertFinite d.negative d.fraction.1 d.fraction.2
  | some (.hexadecimal b) => convertFinite b.negative b.fraction.1 b.fraction.2
  | some (.infinity negative) => .ok (infinityBits negative)
  | some (.nan negative) => .ok (nanBits negative)

set_option exponentiation.threshold 1100 in
example : stod (ascii "1e-400") = .error .outOfRange := rfl
set_option exponentiation.threshold 1100 in
example : stod (ascii "5e-324") = .error .outOfRange := rfl
example : stod (ascii "-inf") = .ok (infinityBits true) := rfl

/-- `std::stod` throws `std::invalid_argument` exactly when `strtod` performs no conversion; when
it does, the result is a `double` or `std::out_of_range`. -/
theorem stod_eq_invalidArgument_iff (s : List UInt8) :
    stod s = .error .invalidArgument ↔ strtodSubject s = none := by
  have hfinite : ∀ negative num den, convertFinite negative num den ≠ .error .invalidArgument := by
    intro negative num den
    unfold convertFinite
    split <;> simp
  cases h : strtodSubject s with
  | none => simp [stod, h]
  | some x => cases x <;> simp [stod, h, hfinite]

end Library
end Json
end PolyGenSupport
