import PolyGenSupport.Json.Value

/-!
# JSON texts

What a JSON text denotes, written from the grammar of RFC 8259 and not from the parser.  A
`JsonTree` is a JSON value as a text writes it: a number keeps its token, since the value the
parser stores for it is whatever `std::stod` makes of exactly that token.

* `JsonTree.Text J t`: `t` is `J` written without surrounding white space, with any JSON white
  space between tokens and the string escapes `\"`, `\\`, `\/`, `\n`, `\r`, `\t` only.
* `JsonTree.Denotes J text`: `text` is a JSON text for `J`, `ws value ws`.
* `JsonTree.toValue stod J`: the `JsonValue` of `J`, each number `stod` of its token, an
  object the `std::map` its members make; the first exception `stod` throws, in text order,
  if it throws one.
-/

namespace PolyGenSupport
namespace Json

/-- A JSON value, a number by its token. -/
inductive JsonTree where
  | null
  | bool (value : Bool)
  | number (token : List UInt8)
  | string (value : List UInt8)
  | array (items : List JsonTree)
  | object (members : List (List UInt8 × JsonTree))

/-- JSON white space: space, tab, line feed, carriage return. -/
def IsWs (w : List UInt8) : Prop := ∀ c ∈ w, c = 0x20 ∨ c = 0x09 ∨ c = 0x0A ∨ c = 0x0D

/-- A decimal digit. -/
def IsDigit (c : UInt8) : Prop := '0'.toUInt8 ≤ c ∧ c ≤ '9'.toUInt8

/-- `1*DIGIT`. -/
def Digits (ds : List UInt8) : Prop := ds ≠ [] ∧ ∀ c ∈ ds, IsDigit c

instance (w : List UInt8) : Decidable (IsWs w) := inferInstanceAs (Decidable (∀ c ∈ w, _))

instance (c : UInt8) : Decidable (IsDigit c) := inferInstanceAs (Decidable (_ ∧ _))

instance (ds : List UInt8) : Decidable (Digits ds) := inferInstanceAs (Decidable (_ ∧ _))

/-- `number = [ minus ] int [ frac ] [ exp ]`, with `int = zero / ( digit1-9 *DIGIT )`,
`frac = decimal-point 1*DIGIT` and `exp = e [ minus / plus ] 1*DIGIT`. -/
def NumberToken (token : List UInt8) : Prop :=
  ∃ sign int frac exp, token = sign ++ int ++ frac ++ exp ∧
    (sign = [] ∨ sign = ['-'.toUInt8]) ∧
    (int = ['0'.toUInt8] ∨ ∃ d ds, int = d :: ds ∧ '1'.toUInt8 ≤ d ∧ d ≤ '9'.toUInt8 ∧
      ∀ c ∈ ds, IsDigit c) ∧
    (frac = [] ∨ ∃ ds, frac = '.'.toUInt8 :: ds ∧ Digits ds) ∧
    (exp = [] ∨ ∃ e s ds, exp = e :: s ++ ds ∧ (e = 'e'.toUInt8 ∨ e = 'E'.toUInt8) ∧
      (s = [] ∨ s = ['+'.toUInt8] ∨ s = ['-'.toUInt8]) ∧ Digits ds)

/-- The escapes a text may use, each with the byte it stands for. -/
def escapes : List (UInt8 × UInt8) :=
  [('"'.toUInt8, '"'.toUInt8), ('\\'.toUInt8, '\\'.toUInt8), ('/'.toUInt8, '/'.toUInt8),
    ('\n'.toUInt8, 'n'.toUInt8), ('\r'.toUInt8, 'r'.toUInt8), ('\t'.toUInt8, 't'.toUInt8)]

/-- How one byte of a string is written between the quotes: as itself unless it is a control
byte, a quote or a backslash; or by an escape. -/
inductive CharText : UInt8 → List UInt8 → Prop
  | plain {c : UInt8} : 0x20 ≤ c → c ≠ '"'.toUInt8 → c ≠ '\\'.toUInt8 → CharText c [c]
  | escape {c e : UInt8} : (c, e) ∈ escapes → CharText c ['\\'.toUInt8, e]

/-- `e` is the string `s` written between its quotes. -/
def StringText (s e : List UInt8) : Prop :=
  ∃ pieces, List.Forall₂ CharText s pieces ∧ e = pieces.flatten

mutual

/-- `t` is `J` written as a JSON value, without white space around it. -/
def JsonTree.Text : JsonTree → List UInt8 → Prop
  | .null, t => t = ascii "null"
  | .bool true, t => t = ascii "true"
  | .bool false, t => t = ascii "false"
  | .number token, t => NumberToken token ∧ t = token
  | .string s, t => ∃ e, StringText s e ∧ t = '"'.toUInt8 :: e ++ ['"'.toUInt8]
  | .array [], t => ∃ w, IsWs w ∧ t = '['.toUInt8 :: w ++ [']'.toUInt8]
  | .array (v :: vs), t => ∃ e, JsonTree.ElementsText (v :: vs) e ∧
      t = '['.toUInt8 :: e ++ [']'.toUInt8]
  | .object [], t => ∃ w, IsWs w ∧ t = '{'.toUInt8 :: w ++ ['}'.toUInt8]
  | .object (m :: ms), t => ∃ e, JsonTree.MembersText (m :: ms) e ∧
      t = '{'.toUInt8 :: e ++ ['}'.toUInt8]

/-- The text between the brackets of a non-empty array: its elements, each with white space
around it, separated by commas. -/
def JsonTree.ElementsText : List JsonTree → List UInt8 → Prop
  | [], _ => False
  | v :: vs, e => ∃ w₁ t w₂ more, IsWs w₁ ∧ v.Text t ∧ IsWs w₂ ∧ e = w₁ ++ t ++ w₂ ++ more ∧
      (vs = [] ∧ more = [] ∨ ∃ e', more = ','.toUInt8 :: e' ∧ JsonTree.ElementsText vs e')

/-- The text between the braces of a non-empty object: its members `key : value`, with white
space around each token, separated by commas. -/
def JsonTree.MembersText : List (List UInt8 × JsonTree) → List UInt8 → Prop
  | [], _ => False
  | (k, v) :: ms, e => ∃ w₁ ek w₂ w₃ t w₄ more, IsWs w₁ ∧ StringText k ek ∧ IsWs w₂ ∧ IsWs w₃ ∧
      v.Text t ∧ IsWs w₄ ∧
      e = w₁ ++ '"'.toUInt8 :: ek ++ '"'.toUInt8 :: w₂ ++ ':'.toUInt8 :: w₃ ++ t ++ w₄ ++ more ∧
      (ms = [] ∧ more = [] ∨ ∃ e', more = ','.toUInt8 :: e' ∧ JsonTree.MembersText ms e')

end

/-- `text` is a JSON text for `J`: `ws value ws`. -/
def JsonTree.Denotes (J : JsonTree) (text : List UInt8) : Prop :=
  ∃ w₁ t w₂, IsWs w₁ ∧ J.Text t ∧ IsWs w₂ ∧ text = w₁ ++ t ++ w₂

section ToValue

variable (stod : List UInt8 → Except StdException (BitVec 64))

mutual

/-- The `JsonValue` of `J`. -/
def JsonTree.toValue : JsonTree → Except StdException JsonValue
  | .null => pure .null
  | .bool b => pure (.bool b)
  | .number token => .number <$> stod token
  | .string s => pure (.string s)
  | .array items => .array <$> JsonTree.itemsToValue items
  | .object members => (fun ms => .object (JsonObject.ofList ms)) <$>
      JsonTree.membersToValue members

/-- The values of an array's elements, in order. -/
def JsonTree.itemsToValue : List JsonTree → Except StdException (List JsonValue)
  | [] => pure []
  | v :: vs => do
    let x ← v.toValue
    let xs ← JsonTree.itemsToValue vs
    pure (x :: xs)

/-- The members of an object with their values, in order. -/
def JsonTree.membersToValue :
    List (List UInt8 × JsonTree) → Except StdException (List (List UInt8 × JsonValue))
  | [] => pure []
  | (k, v) :: ms => do
    let x ← v.toValue
    let xs ← JsonTree.membersToValue ms
    pure ((k, x) :: xs)

end

/-- The values of `v :: vs`, into `g`: the value of `v`, and then those of `vs` after it. -/
theorem JsonTree.itemsToValue_cons_bind {β : Type} (v : JsonTree) (vs : List JsonTree)
    (g : List JsonValue → β) {k : JsonValue → Outcome β}
    (hk : ∀ x, k x = (fun xs => g (x :: xs)) <$> Outcome.ofExcept (JsonTree.itemsToValue stod vs)) :
    (Outcome.ofExcept (v.toValue stod) >>= k) =
      g <$> Outcome.ofExcept (JsonTree.itemsToValue stod (v :: vs)) := by
  rw [JsonTree.itemsToValue]
  cases v.toValue stod with
  | error e => rfl
  | ok x =>
    rw [Outcome.ofExcept_ok, Outcome.ok_bind, hk]
    cases JsonTree.itemsToValue stod vs <;> rfl

/-- The members of `(key, v) :: ms` with their values, into `g`: the value of `v`, and then the
members of `ms` after it. -/
theorem JsonTree.membersToValue_cons_bind {β : Type} (key : List UInt8) (v : JsonTree)
    (ms : List (List UInt8 × JsonTree)) (g : List (List UInt8 × JsonValue) → β)
    {k : JsonValue → Outcome β}
    (hk : ∀ x, k x =
      (fun xs => g ((key, x) :: xs)) <$> Outcome.ofExcept (JsonTree.membersToValue stod ms)) :
    (Outcome.ofExcept (v.toValue stod) >>= k) =
      g <$> Outcome.ofExcept (JsonTree.membersToValue stod ((key, v) :: ms)) := by
  rw [JsonTree.membersToValue]
  cases v.toValue stod with
  | error e => rfl
  | ok x =>
    rw [Outcome.ofExcept_ok, Outcome.ok_bind, hk]
    cases JsonTree.membersToValue stod ms <;> rfl

end ToValue

end Json
end PolyGenSupport
