import PolyGenSupport.Json.Value

/-!
# `JsonParser`

The parser's state is the text and a cursor `pos`.  Every read of the text is guarded by
`pos < json.size()`, and `substr` is only called below that bound, so a cursor is modelled by
what is left of the text from it on; `parse_string` may step `pos` one past the end, which
leaves nothing, as `List.drop` does.  Each function returns its value with the text that is left.

`std::isspace` and `std::isdigit` are those of the "C" locale.  `std::stod` is a parameter: the
parser is modelled, and its theorems hold, for every conversion function that returns a
`double` or throws; `Json.Library.stod` is the one of the C++ library.

`parse_value`, `parse_array` and `parse_object` call each other, and the loops of the last two
need not end (`Json.Termination`).  So every one of these calls, and every turn of either loop,
spends one unit of `fuel`, and a call with none left is `Outcome.outOfFuel`.  More fuel never
changes a call that returned or threw (`parseValue_le_of_le`).
-/

namespace PolyGenSupport
namespace Json

/-- `std::isspace` in the "C" locale: space, `\t`, `\n`, `\v`, `\f` and `\r`. -/
def isspace (c : UInt8) : Bool := c = 0x20 || (0x09 ≤ c && c ≤ 0x0D)

/-- `std::isdigit`. -/
def isdigit (c : UInt8) : Bool := 0x30 ≤ c && c ≤ 0x39

/-- `skip_whitespace`. -/
def skipWhitespace (json : List UInt8) : List UInt8 := json.dropWhile isspace

/-- The byte `parse_string`'s `switch` appends for the escape sequence `\c`. -/
def unescape (c : UInt8) : UInt8 :=
  if c = '"'.toUInt8 then '"'.toUInt8
  else if c = '\\'.toUInt8 then '\\'.toUInt8
  else if c = 'n'.toUInt8 then '\n'.toUInt8
  else if c = 'r'.toUInt8 then '\r'.toUInt8
  else if c = 't'.toUInt8 then '\t'.toUInt8
  else c

/-- The loop of `parse_string`: the bytes it appends to `result`, and the text from the closing
quote on, or nothing when the text ends first.  A backslash escapes the next byte when there is
one. -/
def stringLoop : List UInt8 → List UInt8 × List UInt8
  | [] => ([], [])
  | c :: rest =>
    if c = '"'.toUInt8 then ([], c :: rest)
    else if c = '\\'.toUInt8 then
      match rest with
      | e :: rest => ((stringLoop rest).1.cons (unescape e), (stringLoop rest).2)
      | [] => ([c], [])
    else ((stringLoop rest).1.cons c, (stringLoop rest).2)

theorem stringLoop_quote (rest : List UInt8) :
    stringLoop ('"'.toUInt8 :: rest) = ([], '"'.toUInt8 :: rest) := by
  unfold stringLoop
  simp

theorem stringLoop_escape (e : UInt8) (rest : List UInt8) :
    stringLoop ('\\'.toUInt8 :: e :: rest) =
      ((stringLoop rest).1.cons (unescape e), (stringLoop rest).2) := rfl

theorem stringLoop_plain {c : UInt8} (hquote : c ≠ '"'.toUInt8) (hbackslash : c ≠ '\\'.toUInt8)
    (rest : List UInt8) :
    stringLoop (c :: rest) = ((stringLoop rest).1.cons c, (stringLoop rest).2) := by
  rw [stringLoop.eq_def]
  simp [hquote, hbackslash]

/-- `parse_string`: skip the opening quote, run the loop, skip the closing quote if there is
one. -/
def parseString (json : List UInt8) : JsonValue × List UInt8 :=
  (.string (stringLoop (json.drop 1)).1, (stringLoop (json.drop 1)).2.drop 1)

/-- The bytes the scan of `parse_number` accepts. -/
def numberChar (c : UInt8) : Bool :=
  isdigit c || c = '.'.toUInt8 || c = 'e'.toUInt8 || c = 'E'.toUInt8 || c = '+'.toUInt8 ||
    c = '-'.toUInt8

theorem skipWhitespace_cons_of_not_space {c : UInt8} (hc : isspace c = false)
    (rest : List UInt8) : skipWhitespace (c :: rest) = c :: rest := by
  simp [skipWhitespace, List.dropWhile_cons, hc]

theorem skipWhitespace_append_of_space {w : List UInt8} (hw : ∀ c ∈ w, isspace c = true)
    (json : List UInt8) : skipWhitespace (w ++ json) = skipWhitespace json := by
  simp [skipWhitespace, List.dropWhile_append_of_pos hw]

theorem isspace_eq_false_of_isdigit {c : UInt8} (h : isdigit c = true) : isspace c = false := by
  simp [isdigit, isspace, UInt8.le_def, BitVec.le_def] at *
  refine ⟨?_, fun _ => by omega⟩
  rintro rfl
  simp at h

/-- `parse_bool`: `true` or `false`, else a null value and the cursor where it was. -/
def parseBool (json : List UInt8) : JsonValue × List UInt8 :=
  if json.take 4 = ascii "true" then (.bool true, json.drop 4)
  else if json.take 5 = ascii "false" then (.bool false, json.drop 5)
  else (.null, json)

/-- `parse_null`: a null value, past `null` if the text has it. -/
def parseNull (json : List UInt8) : JsonValue × List UInt8 :=
  if json.take 4 = ascii "null" then (.null, json.drop 4) else (.null, json)

/-- The `if (pos < json.size() && json[pos] == ':') ++pos;` of `parse_object`. -/
def skipColon : List UInt8 → List UInt8
  | c :: rest => if c = ':'.toUInt8 then rest else c :: rest
  | [] => []

section Parser

variable (stod : List UInt8 → Except StdException (BitVec 64))

/-- `parse_number`: an optional `-`, then every byte the scan accepts; the token is handed to
`std::stod`. -/
def parseNumber (json : List UInt8) : Outcome (JsonValue × List UInt8) :=
  let sign := if json.head? = some '-'.toUInt8 then json.take 1 else []
  let afterSign := json.drop sign.length
  (fun value => (JsonValue.number value, afterSign.dropWhile numberChar)) <$>
    Outcome.ofExcept (stod (sign ++ afterSign.takeWhile numberChar))

/-- The optional `-` is also a byte the scan accepts, so the token is the longest prefix of
bytes the scan accepts. -/
theorem parseNumber_eq (json : List UInt8) :
    parseNumber stod json = (fun value => (JsonValue.number value, json.dropWhile numberChar)) <$>
      Outcome.ofExcept (stod (json.takeWhile numberChar)) := by
  match json with
  | [] => rfl
  | c :: rest =>
    by_cases hc : c = '-'.toUInt8
    · subst hc
      rfl
    · simp [parseNumber, hc]

mutual

/-- `parse_value`: skip white space, then dispatch on the next byte; a null value at the end of
the text or at a byte no branch takes. -/
def parseValue : Nat → List UInt8 → Outcome (JsonValue × List UInt8)
  | 0, _ => .outOfFuel
  | fuel + 1, json =>
    match skipWhitespace json with
    | [] => .ok (.null, [])
    | c :: rest =>
      if c = '"'.toUInt8 then .ok (parseString (c :: rest))
      else if c = '{'.toUInt8 then parseObject fuel (c :: rest)
      else if c = '['.toUInt8 then parseArray fuel (c :: rest)
      else if c = 't'.toUInt8 ∨ c = 'f'.toUInt8 then .ok (parseBool (c :: rest))
      else if c = 'n'.toUInt8 then .ok (parseNull (c :: rest))
      else if c = '-'.toUInt8 ∨ isdigit c = true then parseNumber stod (c :: rest)
      else .ok (.null, c :: rest)

/-- `parse_array`: skip the `[` and white space; `]` closes an empty array, anything else starts
the element loop. -/
def parseArray : Nat → List UInt8 → Outcome (JsonValue × List UInt8)
  | 0, _ => .outOfFuel
  | fuel + 1, json =>
    match skipWhitespace (json.drop 1) with
    | c :: rest => if c = ']'.toUInt8 then .ok (.array [], rest) else arrayLoop fuel [] (c :: rest)
    | [] => arrayLoop fuel [] []

/-- The `while (pos < json.size())` loop of `parse_array`, with the elements pushed so far: parse
an element and skip white space; `,` continues, `]` breaks, and anything else goes round again
without moving the cursor. -/
def arrayLoop : Nat → List JsonValue → List UInt8 → Outcome (JsonValue × List UInt8)
  | 0, _, _ => .outOfFuel
  | _ + 1, arr, [] => .ok (.array arr, [])
  | fuel + 1, arr, c :: rest =>
    parseValue fuel (c :: rest) >>= fun (value, json) =>
      match skipWhitespace json with
      | c :: rest =>
        if c = ','.toUInt8 then arrayLoop fuel (arr ++ [value]) rest
        else if c = ']'.toUInt8 then .ok (.array (arr ++ [value]), rest)
        else arrayLoop fuel (arr ++ [value]) (c :: rest)
      | [] => arrayLoop fuel (arr ++ [value]) []

/-- `parse_object`: skip the `{` and white space; `}` closes an empty object, anything else
starts the member loop. -/
def parseObject : Nat → List UInt8 → Outcome (JsonValue × List UInt8)
  | 0, _ => .outOfFuel
  | fuel + 1, json =>
    match skipWhitespace (json.drop 1) with
    | c :: rest =>
      if c = '}'.toUInt8 then .ok (.object JsonObject.empty, rest)
      else objectLoop fuel .empty (c :: rest)
    | [] => objectLoop fuel .empty []

/-- The loop of `parse_object`, with the map built so far: a key by `parse_string` (which skips
one byte, quote or not), an optional `:`, a value, then `,` continues, `}` breaks, and anything
else goes round again. -/
def objectLoop : Nat → JsonObject → List UInt8 → Outcome (JsonValue × List UInt8)
  | 0, _, _ => .outOfFuel
  | _ + 1, obj, [] => .ok (.object obj, [])
  | fuel + 1, obj, c :: rest =>
    let key := parseString (skipWhitespace (c :: rest))
    parseValue fuel (skipColon (skipWhitespace key.2)) >>= fun (value, json) =>
      let obj := JsonObject.assign key.1.asString value obj
      match skipWhitespace json with
      | c :: rest =>
        if c = ','.toUInt8 then objectLoop fuel obj rest
        else if c = '}'.toUInt8 then .ok (.object obj, rest)
        else objectLoop fuel obj (c :: rest)
      | [] => objectLoop fuel obj []

end

/-- `JsonParser::parse`: the value at the start of the text. -/
def parse (fuel : Nat) (json : List UInt8) : Outcome JsonValue :=
  Prod.fst <$> parseValue stod fuel json

/-- `parse_value` starts by skipping white space, so white space in front changes nothing. -/
theorem parseValue_append_space {w : List UInt8} (hw : ∀ c ∈ w, isspace c = true)
    (fuel : Nat) (json : List UInt8) :
    parseValue stod (fuel + 1) (w ++ json) = parseValue stod (fuel + 1) json := by
  simp only [parseValue, skipWhitespace_append_of_space hw]

theorem parseValue_quote (fuel : Nat) (rest : List UInt8) :
    parseValue stod (fuel + 1) ('"'.toUInt8 :: rest) = .ok (parseString ('"'.toUInt8 :: rest)) :=
  rfl

theorem parseValue_lbracket (fuel : Nat) (rest : List UInt8) :
    parseValue stod (fuel + 1) ('['.toUInt8 :: rest) = parseArray stod fuel ('['.toUInt8 :: rest) :=
  rfl

theorem parseValue_lbrace (fuel : Nat) (rest : List UInt8) :
    parseValue stod (fuel + 1) ('{'.toUInt8 :: rest) =
      parseObject stod fuel ('{'.toUInt8 :: rest) := rfl

/-- `parse_array` skips its first byte and white space; then `]` closes an empty array and
anything else starts the element loop there. -/
theorem parseArray_open (b : UInt8) {w : List UInt8} (hw : ∀ c ∈ w, isspace c = true)
    {c : UInt8} (hc : isspace c = false) (fuel : Nat) (rest : List UInt8) :
    parseArray stod (fuel + 1) (b :: (w ++ c :: rest)) =
      if c = ']'.toUInt8 then .ok (.array [], rest) else arrayLoop stod fuel [] (c :: rest) := by
  simp only [parseArray, List.drop_one, List.tail_cons, skipWhitespace_append_of_space hw,
    skipWhitespace_cons_of_not_space hc]

/-- `parse_object` skips its first byte and white space; then `}` closes an empty object and
anything else starts the member loop there. -/
theorem parseObject_open (b : UInt8) {w : List UInt8} (hw : ∀ c ∈ w, isspace c = true)
    {c : UInt8} (hc : isspace c = false) (fuel : Nat) (rest : List UInt8) :
    parseObject stod (fuel + 1) (b :: (w ++ c :: rest)) =
      if c = '}'.toUInt8 then .ok (.object [], rest)
      else objectLoop stod fuel .empty (c :: rest) := by
  simp only [parseObject, List.drop_one, List.tail_cons, skipWhitespace_append_of_space hw,
    skipWhitespace_cons_of_not_space hc, JsonObject.entries_empty]

/-- `parse_value` hands a `-` or a digit to `parse_number`. -/
theorem parseValue_number {c : UInt8} (hc : c = '-'.toUInt8 ∨ isdigit c = true)
    (rest : List UInt8) (fuel : Nat) :
    parseValue stod (fuel + 1) (c :: rest) = parseNumber stod (c :: rest) := by
  rcases hc with rfl | hdigit
  · rfl
  · have hne : ∀ d, isdigit d = false → c ≠ d := by
      rintro d hd rfl
      simp [hd] at hdigit
    simp [parseValue, skipWhitespace_cons_of_not_space (isspace_eq_false_of_isdigit hdigit),
      hne '"'.toUInt8 rfl, hne '{'.toUInt8 rfl, hne '['.toUInt8 rfl, hne 't'.toUInt8 rfl,
      hne 'f'.toUInt8 rfl, hne 'n'.toUInt8 rfl, hdigit]

end Parser

end Json
end PolyGenSupport
