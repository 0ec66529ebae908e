import PolyGenSupport.Json.Stod
import Mathlib.Algebra.Group.Int
import Mathlib.Data.BitVec

/-!
# `std::stoi`, `std::stoll`, `std::stoul` and `std::stoull`

Each calls the C function of its type (`strtol`, `strtoll`, `strtoul`, `strtoull`) in base 10
and turns its two failures into exceptions, as `std::stod` does: no conversion throws
`std::invalid_argument`, and `errno == ERANGE` throws `std::out_of_range`.  `std::stoi` has no C
function of its own: it calls `strtol` and also throws `std::out_of_range` when the `long` is
outside `int`.  `long` and `long long` are 64 bits wide (LP64).

The C functions read white space, an optional sign and the longest run of decimal digits.  The
signed ones report `ERANGE` when the value is outside their type.  The unsigned ones report it
only when the magnitude is outside theirs; a minus sign then negates the value in the unsigned
type, so `strtoul("-1")` is `ULONG_MAX` with no error.
-/

namespace PolyGenSupport
namespace Csv
namespace Library

open Json (StdException isspace isdigit)
open Json.Library (optionalSign digitsValue)

/-- The subject sequence `strtol` and its kin read in base 10: after white space, an optional
sign and at least one digit.  Whether the sign was a minus, and the value of the digits; `none`
when there is no digit, and no conversion. -/
def integerSubject (s : List UInt8) : Option (Bool × Nat) :=
  let (negative, rest) := optionalSign (s.dropWhile isspace)
  let digits := rest.takeWhile isdigit
  if digits = [] then none else some (negative, digitsValue digits)

/-- The integer a sign and a magnitude denote. -/
def signedValue (negative : Bool) (magnitude : Nat) : Int :=
  if negative then -magnitude else magnitude

/-- `strtol` or `strtoll` for a `w`-bit type, with `std::sto*`'s exceptions for its failures. -/
def strtoSigned (w : Nat) (s : List UInt8) : Except StdException Int :=
  match integerSubject s with
  | none => .error .invalidArgument
  | some (negative, magnitude) =>
    let n := signedValue negative magnitude
    if -2 ^ (w - 1) ≤ n ∧ n < 2 ^ (w - 1) then .ok n else .error .outOfRange

/-- `strtoul` or `strtoull` for a `w`-bit type, with `std::sto*`'s exceptions for its failures:
a magnitude past the type is `ERANGE`, and a minus sign negates modulo `2 ^ w`. -/
def strtoUnsigned (w : Nat) (s : List UInt8) : Except StdException (BitVec w) :=
  match integerSubject s with
  | none => .error .invalidArgument
  | some (negative, magnitude) =>
    if magnitude < 2 ^ w then
      .ok (if negative then -BitVec.ofNat w magnitude else BitVec.ofNat w magnitude)
    else .error .outOfRange

/-- `std::stoi`: `strtol`, then the range of `int`. -/
def stoi (s : List UInt8) : Except StdException (BitVec 32) := do
  let n ← strtoSigned 64 s
  if -2 ^ 31 ≤ n ∧ n < 2 ^ 31 then pure (BitVec.ofInt 32 n) else throw .outOfRange

/-- `std::stoll`. -/
def stoll (s : List UInt8) : Except StdException (BitVec 64) :=
  BitVec.ofInt 64 <$> strtoSigned 64 s

/-- `std::stoul`. -/
def stoul (s : List UInt8) : Except StdException (BitVec 64) := strtoUnsigned 64 s

/-- `std::stoull`. -/
def stoull (s : List UInt8) : Except StdException (BitVec 64) := strtoUnsigned 64 s

/-! ## Each conversion at a subject sequence -/

section Subject

variable {s : List UInt8} {negative : Bool} {magnitude : Nat}

/-- The negation `strtoul` applies in its unsigned type is that of the integer modulo `2 ^ w`. -/
theorem ofInt_signedValue (w : Nat) (negative : Bool) (magnitude : Nat) :
    BitVec.ofInt w (signedValue negative magnitude) =
      if negative then -BitVec.ofNat w magnitude else BitVec.ofNat w magnitude := by
  cases negative
  · simp [signedValue]
  · refine eq_neg_of_add_eq_zero_left ?_
    rw [← BitVec.ofInt_natCast, ← BitVec.ofInt_add]
    simp [signedValue]

theorem strtoSigned_of_subject (w : Nat) (h : integerSubject s = some (negative, magnitude)) :
    strtoSigned w s =
      let n := signedValue negative magnitude
      if -2 ^ (w - 1) ≤ n ∧ n < 2 ^ (w - 1) then .ok n else .error .outOfRange := by
  simp [strtoSigned, h]

theorem strtoUnsigned_of_subject (w : Nat) (h : integerSubject s = some (negative, magnitude)) :
    strtoUnsigned w s = if magnitude < 2 ^ w then
      .ok (BitVec.ofInt w (signedValue negative magnitude)) else .error .outOfRange := by
  simp [strtoUnsigned, h, ofInt_signedValue]

/-- `std::stoi` throws `std::out_of_range` exactly outside `int`: `strtol`'s own check, on the
wider `long`, never decides. -/
theorem stoi_of_subject (h : integerSubject s = some (negative, magnitude)) :
    stoi s =
      let n := signedValue negative magnitude
      if -2 ^ 31 ≤ n ∧ n < 2 ^ 31 then .ok (BitVec.ofInt 32 n) else .error .outOfRange := by
  simp only [stoi, strtoSigned_of_subject 64 h]
  by_cases hint :
      -2 ^ 31 ≤ signedValue negative magnitude ∧ signedValue negative magnitude < 2 ^ 31
  · have hlong : -2 ^ (64 - 1) ≤ signedValue negative magnitude ∧
        signedValue negative magnitude < 2 ^ (64 - 1) := by omega
    rw [if_pos hlong, if_pos hint]
    exact if_pos hint
  · rw [if_neg hint]
    by_cases hlong : -2 ^ (64 - 1) ≤ signedValue negative magnitude ∧
        signedValue negative magnitude < 2 ^ (64 - 1)
    · rw [if_pos hlong]
      exact if_neg hint
    · rw [if_neg hlong]
      rfl

theorem stoll_of_subject (h : integerSubject s = some (negative, magnitude)) :
    stoll s =
      let n := signedValue negative magnitude
      if -2 ^ 63 ≤ n ∧ n < 2 ^ 63 then .ok (BitVec.ofInt 64 n) else .error .outOfRange := by
  simp only [stoll, strtoSigned_of_subject 64 h]
  split_ifs <;> rfl

/-- With no digit every conversion throws `std::invalid_argument`. -/
theorem strtoSigned_of_subject_none (w : Nat) (h : integerSubject s = none) :
    strtoSigned w s = .error .invalidArgument := by
  simp [strtoSigned, h]

theorem strtoUnsigned_of_subject_none (w : Nat) (h : integerSubject s = none) :
    strtoUnsigned w s = .error .invalidArgument := by
  simp [strtoUnsigned, h]

end Subject

end Library
end Csv
end PolyGenSupport
