import PolyGenSupport.Json.Grammar
import PolyGenSupport.Json.Stod

/-!
# `JsonParser::parse` recognises JSON texts

For every JSON text of a value `J`, `parse` comes to `J.toValue stod`: the `JsonValue` of `J`
when `std::stod` accepts every number token, else the first exception it throws.  Twice the length of the text is enough fuel.

The proof reads the grammar one production at a time.  Each parser function gets one lemma on
the piece of text it reads (`stringLoop_text`, `parseNumber_token`, the literals), and the three
recursive ones are proved together by recursion on the tree: `JsonTree.parseValue_text` for a
value with white space in front, `JsonTree.arrayLoop_text` for the elements of an array and
`JsonTree.objectLoop_text` for the members of an object.

The library's `std::stod` throws `std::out_of_range` on a number token whose value overflows a
`double`, so `parse` throws on the JSON text `1e999` (`parse_overflowing_number`).
-/

namespace PolyGenSupport
namespace Json

theorem isspace_of_isWs {w : List UInt8} (hw : IsWs w) : ∀ c ∈ w, isspace c = true := by
  intro c hc
  rcases hw c hc with rfl | rfl | rfl | rfl <;> rfl

/-- What may follow a value: nothing, or a byte that does not continue a number. -/
def Stops (rest : List UInt8) : Prop := ∀ c ∈ rest.head?, numberChar c = false

theorem stops_ws_append {w : List UInt8} (hw : IsWs w) {c : UInt8} (hc : numberChar c = false)
    (rest : List UInt8) : Stops (w ++ c :: rest) := by
  cases w with
  | nil => simpa [Stops] using hc
  | cons d w =>
    simp only [Stops, List.cons_append, List.head?_cons, Option.mem_def, Option.some.injEq,
      forall_eq']
    rcases hw d (.head _) with rfl | rfl | rfl | rfl <;> rfl

theorem stops_of_isWs {w : List UInt8} (hw : IsWs w) : Stops w := by
  cases w with
  | nil => simp [Stops]
  | cons d w =>
    simp only [Stops, List.head?_cons, Option.mem_def, Option.some.injEq, forall_eq']
    rcases hw d (.head _) with rfl | rfl | rfl | rfl <;> rfl

/-! ## Numbers -/

theorem isdigit_of_isDigit {c : UInt8} (h : IsDigit c) : isdigit c = true := by
  simpa [isdigit, IsDigit] using h

theorem numberChar_of_isdigit {c : UInt8} (h : isdigit c = true) : numberChar c = true := by
  simp [numberChar, h]

/-- A number token starts with `-` or a digit, and the scan of `parse_number` accepts all of
it. -/
theorem NumberToken.scan {token : List UInt8} (h : NumberToken token) :
    (∃ c rest, token = c :: rest ∧ (c = '-'.toUInt8 ∨ isdigit c = true)) ∧
      ∀ c ∈ token, numberChar c = true := by
  obtain ⟨sign, int, frac, exp, rfl, hsign, hint, hfrac, hexp⟩ := h
  have hintDigits : ∀ c ∈ int, isdigit c = true := by
    rcases hint with rfl | ⟨d, ds, rfl, hd₁, hd₉, hds⟩
    · intro c hc
      rw [List.mem_singleton.mp hc]
      rfl
    · simp only [List.mem_cons, forall_eq_or_imp]
      refine ⟨?_, fun c hc => isdigit_of_isDigit (hds c hc)⟩
      change (49 : UInt8) ≤ d at hd₁
      change d ≤ (57 : UInt8) at hd₉
      simp [isdigit, UInt8.le_def, BitVec.le_def] at *
      omega
  refine ⟨?_, ?_⟩
  · obtain ⟨d, ds, rfl⟩ : ∃ d ds, int = d :: ds := by
      rcases hint with rfl | ⟨d, ds, rfl, -⟩ <;> exact ⟨_, _, rfl⟩
    rcases hsign with rfl | rfl
    · exact ⟨d, _, rfl, .inr (hintDigits d (.head _))⟩
    · exact ⟨_, _, rfl, .inl rfl⟩
  · simp only [List.mem_append]
    rintro c (((hc | hc) | hc) | hc)
    · rcases hsign with rfl | rfl
      · simp at hc
      · rw [List.mem_singleton.mp hc]; rfl
    · exact numberChar_of_isdigit (hintDigits c hc)
    · rcases hfrac with rfl | ⟨ds, rfl, -, hds⟩
      · simp at hc
      · rcases List.mem_cons.mp hc with rfl | hc
        · rfl
        · exact numberChar_of_isdigit (isdigit_of_isDigit (hds c hc))
    · rcases hexp with rfl | ⟨e, s, ds, rfl, he, hs, -, hds⟩
      · simp at hc
      · rcases List.mem_cons.mp hc with rfl | hc
        · rcases he with rfl | rfl <;> rfl
        · rcases List.mem_append.mp hc with hc | hc
          · rcases hs with rfl | rfl | rfl <;>
              simp only [List.not_mem_nil, List.mem_singleton] at hc <;> subst hc <;> rfl
          · exact numberChar_of_isdigit (isdigit_of_isDigit (hds c hc))

section Parser

variable (stod : List UInt8 → Except StdException (BitVec 64))

/-- `parse_number` on a token of bytes its scan accepts, followed by a byte it does not. -/
theorem parseNumber_token {token rest : List UInt8} (htoken : ∀ c ∈ token, numberChar c = true)
    (hrest : Stops rest) :
    parseNumber stod (token ++ rest) = (fun value => (JsonValue.number value, rest)) <$>
      Outcome.ofExcept (stod token) := by
  have hstop : rest.takeWhile numberChar = [] ∧ rest.dropWhile numberChar = rest := by
    cases rest with
    | nil => simp
    | cons c rest =>
      have hc : numberChar c = false := hrest c rfl
      simp [List.takeWhile_cons, List.dropWhile_cons, hc]
  rw [parseNumber_eq, List.takeWhile_append_of_pos htoken, List.dropWhile_append_of_pos htoken,
    hstop.1, hstop.2, List.append_nil]

/-! ## Strings -/

/-- Each escape stands for the byte `parse_string` appends for it. -/
theorem unescape_of_mem_escapes : ∀ p ∈ escapes, unescape p.2 = p.1 := by decide

/-- The loop of `parse_string` unescapes a string's text and goes on with what follows. -/
theorem stringLoop_text_append {s e : List UInt8} (h : StringText s e) (rest : List UInt8) :
    stringLoop (e ++ rest) = (s ++ (stringLoop rest).1, (stringLoop rest).2) := by
  obtain ⟨pieces, hpieces, rfl⟩ := h
  induction hpieces with
  | nil => rfl
  | cons hchar _ ih =>
    cases hchar with
    | plain _ hquote hbackslash =>
      rw [List.flatten_cons, List.singleton_append, List.cons_append,
        stringLoop_plain hquote hbackslash, ih]
      rfl
    | escape hmem =>
      simp only [List.flatten_cons, List.cons_append, List.nil_append]
      rw [stringLoop_escape, ih, unescape_of_mem_escapes _ hmem]

/-- The loop of `parse_string` unescapes a string's text and stops at its closing quote. -/
theorem stringLoop_text {s e : List UInt8} (h : StringText s e) (rest : List UInt8) :
    stringLoop (e ++ '"'.toUInt8 :: rest) = (s, '"'.toUInt8 :: rest) := by
  rw [stringLoop_text_append h, stringLoop_quote, List.append_nil]

/-- On a string's text with nothing after it, the loop reads the string and reaches the end. -/
theorem stringLoop_text_end {s e : List UInt8} (h : StringText s e) : stringLoop e = (s, []) := by
  have h := stringLoop_text_append h []
  rwa [List.append_nil, show stringLoop [] = ([], []) from rfl, List.append_nil] at h

theorem parseString_text {s e : List UInt8} (h : StringText s e) (rest : List UInt8) :
    parseString ('"'.toUInt8 :: (e ++ '"'.toUInt8 :: rest)) = (.string s, rest) := by
  simp [parseString, stringLoop_text h]

/-- `parse_string` on a string's text with its closing quote cut off: the string, at the end of
the text. -/
theorem parseString_text_end {s e : List UInt8} (h : StringText s e) :
    parseString ('"'.toUInt8 :: e) = (.string s, []) := by
  simp only [parseString, List.drop_one, List.tail_cons, stringLoop_text_end h]
  rfl

/-! ## Values, elements and members -/

/-- A value's text starts with a byte that is neither white space nor `]`, `,` or `:`. -/
theorem JsonTree.Text.head {J : JsonTree} {t : List UInt8} (h : J.Text t) :
    ∃ c t', t = c :: t' ∧ isspace c = false ∧ c ≠ ']'.toUInt8 ∧ c ≠ ','.toUInt8 ∧
      c ≠ ':'.toUInt8 := by
  cases J with
  | null => obtain rfl : t = ascii "null" := h; exact ⟨_, _, rfl, rfl, by decide⟩
  | bool b =>
    cases b
    · obtain rfl : t = ascii "false" := h; exact ⟨_, _, rfl, rfl, by decide⟩
    · obtain rfl : t = ascii "true" := h; exact ⟨_, _, rfl, rfl, by decide⟩
  | number token =>
    obtain ⟨htoken, rfl⟩ : NumberToken token ∧ t = token := h
    obtain ⟨c, rest, rfl, hc⟩ := htoken.scan.1
    rcases hc with rfl | hdigit
    · exact ⟨_, _, rfl, rfl, by decide⟩
    · refine ⟨c, rest, rfl, isspace_eq_false_of_isdigit hdigit, ?_, ?_, ?_⟩ <;> rintro rfl <;>
        exact absurd hdigit (by decide)
  | string s => obtain ⟨_, _, rfl⟩ := h; exact ⟨_, _, rfl, rfl, by decide⟩
  | array items => cases items <;> obtain ⟨_, _, rfl⟩ := h <;> exact ⟨_, _, rfl, rfl, by decide⟩
  | object members =>
    cases members <;> obtain ⟨_, _, rfl⟩ := h <;> exact ⟨_, _, rfl, rfl, by decide⟩

theorem JsonTree.Text.fuel_succ {J : JsonTree} {t : List UInt8} {fuel : Nat} (h : J.Text t)
    (hfuel : 2 * t.length ≤ fuel) : ∃ f, fuel = f + 1 := by
  obtain ⟨c, t', rfl, -⟩ := h.head
  exact ⟨fuel - 1, by simp at hfuel; omega⟩

mutual

/-- `parse_value` on a value's text, with white space in front and followed by a byte that does
not continue a number, comes to the value's `JsonValue` and stops right after the text. -/
theorem JsonTree.parseValue_text (J : JsonTree) {t : List UInt8} (h : J.Text t)
    {w : List UInt8} (rest : List UInt8) (fuel : Nat) (hw : IsWs w) (hrest : Stops rest)
    (hfuel : 2 * t.length ≤ fuel) :
    parseValue stod fuel (w ++ (t ++ rest)) =
      (fun value => (value, rest)) <$> Outcome.ofExcept (J.toValue stod) := by
  obtain ⟨fuel, rfl⟩ := h.fuel_succ hfuel
  rw [parseValue_append_space stod (isspace_of_isWs hw)]
  match J, h with
  | .null, (h : t = _) => subst h; rfl
  | .bool true, (h : t = _) => subst h; rfl
  | .bool false, (h : t = _) => subst h; rfl
  | .number token, ⟨htoken, (h : t = token)⟩ =>
    subst h
    obtain ⟨⟨c, t', rfl, hc⟩, hall⟩ := htoken.scan
    rw [List.cons_append, parseValue_number stod hc, ← List.cons_append,
      parseNumber_token stod hall hrest, JsonTree.toValue]
    cases stod (c :: t') <;> rfl
  | .string s, ⟨e, he, (h : t = _)⟩ =>
    subst h
    simp only [List.cons_append, List.append_assoc, List.nil_append]
    rw [parseValue_quote, parseString_text he]
    rfl
  | .array [], ⟨w', hw', (h : t = _)⟩ =>
    subst h
    obtain ⟨fuel, rfl⟩ : ∃ g, fuel = g + 1 := ⟨fuel - 1, by simp at hfuel; omega⟩
    simp only [List.cons_append, List.append_assoc, List.nil_append]
    rw [parseValue_lbracket, parseArray_open stod _ (isspace_of_isWs hw')
      (show isspace ']'.toUInt8 = false from rfl)]
    rfl
  | .array (v :: vs), ⟨e, he, (h : t = _)⟩ =>
    subst h
    obtain ⟨fuel, rfl⟩ : ∃ g, fuel = g + 1 := ⟨fuel - 1, by simp at hfuel; omega⟩
    obtain ⟨w₁, t₁, w₂, more, hw₁, ht₁, hw₂, rfl, hmore⟩ := he
    obtain ⟨c, t₁', rfl, hspace, hclose, -⟩ := ht₁.head
    have he' : JsonTree.ElementsText (v :: vs) (c :: t₁' ++ w₂ ++ more) :=
      ⟨[], c :: t₁', w₂, more, by simp [IsWs], ht₁, hw₂, rfl, hmore⟩
    have hloop := JsonTree.arrayLoop_text (v :: vs) he' [] rest fuel (by simp at hfuel ⊢; omega)
    simp only [List.cons_append, List.append_assoc, List.nil_append] at hloop ⊢
    rw [parseValue_lbracket, parseArray_open stod _ (isspace_of_isWs hw₁) hspace, if_neg hclose,
      hloop, JsonTree.toValue]
    cases JsonTree.itemsToValue stod (v :: vs) <;> rfl
  | .object [], ⟨w', hw', (h : t = _)⟩ =>
    subst h
    obtain ⟨fuel, rfl⟩ : ∃ g, fuel = g + 1 := ⟨fuel - 1, by simp at hfuel; omega⟩
    simp only [List.cons_append, List.append_assoc, List.nil_append]
    rw [parseValue_lbrace, parseObject_open stod _ (isspace_of_isWs hw')
      (show isspace '}'.toUInt8 = false from rfl)]
    rfl
  | .object ((k, v) :: ms), ⟨e, he, (h : t = _)⟩ =>
    subst h
    obtain ⟨fuel, rfl⟩ : ∃ g, fuel = g + 1 := ⟨fuel - 1, by simp at hfuel; omega⟩
    obtain ⟨w₁, ek, w₂, w₃, t₁, w₄, more, hw₁, hek, hw₂, hw₃, ht₁, hw₄, rfl, hmore⟩ := he
    have he' : JsonTree.MembersText ((k, v) :: ms)
        ('"'.toUInt8 :: ek ++ '"'.toUInt8 :: w₂ ++ ':'.toUInt8 :: w₃ ++ t₁ ++ w₄ ++ more) :=
      ⟨[], ek, w₂, w₃, t₁, w₄, more, by simp [IsWs], hek, hw₂, hw₃, ht₁, hw₄, rfl, hmore⟩
    have hloop := JsonTree.objectLoop_text ((k, v) :: ms) he' .empty rest fuel
      (by simp at hfuel ⊢; omega)
    simp only [List.cons_append, List.append_assoc, List.nil_append] at hloop ⊢
    rw [parseValue_lbrace, parseObject_open stod _ (isspace_of_isWs hw₁)
      (show isspace '"'.toUInt8 = false from rfl),
      if_neg (by decide), hloop, JsonTree.toValue]
    cases JsonTree.membersToValue stod ((k, v) :: ms) <;> rfl

/-- `parse_array`'s loop on the elements of an array, up to its `]`: the elements' values
pushed after `arr`, in order, or the first exception. -/
theorem JsonTree.arrayLoop_text : (items : List JsonTree) → ∀ {e : List UInt8},
    JsonTree.ElementsText items e → ∀ (arr : List JsonValue) (rest : List UInt8) (fuel : Nat),
    2 * e.length < fuel →
    arrayLoop stod fuel arr (e ++ ']'.toUInt8 :: rest) =
      (fun xs => (JsonValue.array (arr ++ xs), rest)) <$>
        Outcome.ofExcept (JsonTree.itemsToValue stod items)
  | [], _, h, _, _, _, _ => h.elim
  | v :: vs, _, ⟨w₁, t, w₂, more, hw₁, ht, hw₂, rfl, hmore⟩, arr, rest, fuel, hfuel => by
    obtain ⟨fuel, rfl⟩ : ∃ f, fuel = f + 1 := ⟨fuel - 1, by omega⟩
    have hafter : skipWhitespace (w₂ ++ (more ++ ']'.toUInt8 :: rest)) =
        more ++ ']'.toUInt8 :: rest := by
      rw [skipWhitespace_append_of_space (isspace_of_isWs hw₂)]
      rcases hmore with ⟨-, rfl⟩ | ⟨e', rfl, -⟩ <;> rfl
    have hvalue := JsonTree.parseValue_text v ht (w₂ ++ (more ++ ']'.toUInt8 :: rest)) fuel hw₁
      (by rcases hmore with ⟨-, rfl⟩ | ⟨e', rfl, -⟩ <;> exact stops_ws_append hw₂ (by decide) _)
      (by simp at hfuel; omega)
    simp only [List.append_assoc] at hvalue ⊢
    obtain ⟨c, cs, hcs⟩ := List.exists_cons_of_ne_nil
      (show w₁ ++ (t ++ (w₂ ++ (more ++ ']'.toUInt8 :: rest))) ≠ [] by simp)
    rw [hcs, arrayLoop, ← hcs, hvalue]
    cases hx : v.toValue stod with
    | error ex =>
      simp only [JsonTree.itemsToValue, hx]
      rfl
    | ok x =>
      simp only [Outcome.ofExcept_ok, Outcome.map_ok, Outcome.ok_bind, hafter]
      rcases hmore with ⟨rfl, rfl⟩ | ⟨e', rfl, he'⟩
      · simp only [JsonTree.itemsToValue, hx]
        rfl
      · simp only [List.cons_append, if_true]
        rw [JsonTree.arrayLoop_text vs he' (arr ++ [x]) rest fuel (by simp at hfuel ⊢; omega)]
        simp only [JsonTree.itemsToValue, hx]
        cases JsonTree.itemsToValue stod vs
        · rfl
        · simp only [List.append_assoc, List.singleton_append]
          rfl

theorem JsonTree.objectLoop_text : (members : List (List UInt8 × JsonTree)) →
    ∀ {e : List UInt8}, JsonTree.MembersText members e →
    ∀ (obj : JsonObject) (rest : List UInt8) (fuel : Nat), 2 * e.length < fuel →
    objectLoop stod fuel obj (e ++ '}'.toUInt8 :: rest) =
      (fun ms => (JsonValue.object (JsonObject.assignMembers ms obj),
        rest)) <$> Outcome.ofExcept (JsonTree.membersToValue stod members)
  | [], _, h, _, _, _, _ => h.elim
  | (k, v) :: ms, _, ⟨w₁, ek, w₂, w₃, t, w₄, more, hw₁, hek, hw₂, hw₃, ht, hw₄, rfl, hmore⟩,
      obj, rest, fuel, hfuel => by
    obtain ⟨fuel, rfl⟩ : ∃ f, fuel = f + 1 := ⟨fuel - 1, by omega⟩
    have hafter : skipWhitespace (w₄ ++ (more ++ '}'.toUInt8 :: rest)) =
        more ++ '}'.toUInt8 :: rest := by
      rw [skipWhitespace_append_of_space (isspace_of_isWs hw₄)]
      rcases hmore with ⟨-, rfl⟩ | ⟨e', rfl, -⟩ <;> rfl
    have hvalue := JsonTree.parseValue_text v ht (w₄ ++ (more ++ '}'.toUInt8 :: rest)) fuel hw₃
      (by rcases hmore with ⟨-, rfl⟩ | ⟨e', rfl, -⟩ <;> exact stops_ws_append hw₄ (by decide) _)
      (by simp at hfuel; omega)
    simp only [List.append_assoc, List.cons_append] at hvalue ⊢
    obtain ⟨c, cs, hcs⟩ := List.exists_cons_of_ne_nil
      (show w₁ ++ '"'.toUInt8 :: (ek ++ '"'.toUInt8 :: (w₂ ++ ':'.toUInt8 :: (w₃ ++ (t ++
        (w₄ ++ (more ++ '}'.toUInt8 :: rest)))))) ≠ [] by simp)
    rw [hcs, objectLoop, ← hcs]
    simp only [skipWhitespace_append_of_space (isspace_of_isWs hw₁),
      skipWhitespace_append_of_space (isspace_of_isWs hw₂),
      @skipWhitespace_cons_of_not_space '"'.toUInt8 rfl,
      @skipWhitespace_cons_of_not_space ':'.toUInt8 rfl, parseString_text hek, skipColon, if_true,
      hvalue]
    cases hx : v.toValue stod with
    | error ex =>
      simp only [JsonTree.membersToValue, hx]
      rfl
    | ok x =>
      simp only [Outcome.ofExcept_ok, Outcome.map_ok, Outcome.ok_bind, hafter, JsonValue.asString]
      rcases hmore with ⟨rfl, rfl⟩ | ⟨e', rfl, he'⟩
      · simp only [JsonTree.membersToValue, hx]
        rfl
      · simp only [List.cons_append, if_true]
        rw [JsonTree.objectLoop_text ms he' _ rest fuel (by simp at hfuel ⊢; omega)]
        simp only [JsonTree.membersToValue, hx]
        cases JsonTree.membersToValue stod ms <;> rfl

end

/-- `JsonParser::parse` recognises JSON: on a JSON text of `J`, with twice the text's length in
fuel, it comes to `J.toValue stod`.  That is the `JsonValue` of `J` (same type at every node,
strings unescaped, arrays in order, objects the map of their members, each number `stod` of its
token) when `stod` accepts every number token, and otherwise the first exception it throws. -/
theorem parse_recognises (J : JsonTree) (text : List UInt8) (h : J.Denotes text) (fuel : Nat)
    (hfuel : 2 * text.length ≤ fuel) :
    parse stod fuel text = Outcome.ofExcept (J.toValue stod) := by
  obtain ⟨w₁, t, w₂, hw₁, ht, hw₂, rfl⟩ := h
  rw [parse, List.append_assoc, JsonTree.parseValue_text stod J ht w₂ fuel hw₁ (stops_of_isWs hw₂)
    (by simp at hfuel; omega)]
  cases J.toValue stod <;> rfl

/-- `JsonParser::parse` reads the first value of the text and ignores what follows it: after a
JSON value with white space in front, any text that does not go on with a number byte (a second
value, a stray bracket, garbage) changes nothing. -/
theorem parse_first_value (J : JsonTree) {t : List UInt8} (ht : J.Text t) {w : List UInt8}
    (hw : IsWs w) (rest : List UInt8) (hrest : Stops rest) (fuel : Nat)
    (hfuel : 2 * t.length ≤ fuel) :
    parse stod fuel (w ++ t ++ rest) = Outcome.ofExcept (J.toValue stod) := by
  rw [parse, List.append_assoc, JsonTree.parseValue_text stod J ht rest fuel hw hrest hfuel]
  cases J.toValue stod <;> rfl

end Parser

/-- The text `true]`: the stray bracket after the value is ignored. -/
theorem parse_first_value_stray_bracket :
    parse Library.stod 8 (ascii "true]") = .ok (.bool true) :=
  parse_first_value Library.stod (.bool true) (t := ascii "true") rfl (w := []) (by decide)
    (ascii "]") (fun c hc => by cases hc; rfl) 8 (by decide)

/-- The text ` [-1.5e3, "a\n"]`: a number, and a string with an escape. -/
theorem parse_recognises_array :
    let J := JsonTree.array [.number (ascii "-1.5e3"), .string (ascii "a\n")]
    let text := ascii " [-1.5e3, \"a\\n\"]"
    J.Denotes text ∧ 2 * text.length ≤ 40 ∧
      parse Library.stod 40 text = Outcome.ofExcept (J.toValue Library.stod) := by
  intro J text
  have hnumber : (JsonTree.number (ascii "-1.5e3")).Text (ascii "-1.5e3") :=
    ⟨⟨['-'.toUInt8], ['1'.toUInt8], ['.'.toUInt8, '5'.toUInt8], ['e'.toUInt8, '3'.toUInt8], rfl,
      .inr rfl, .inr ⟨_, [], rfl, by decide, by decide, by decide⟩, .inr ⟨_, rfl, by decide⟩,
      .inr ⟨_, [], _, rfl, .inl rfl, .inl rfl, by decide⟩⟩, rfl⟩
  have hstring : (JsonTree.string (ascii "a\n")).Text (ascii "\"a\\n\"") :=
    ⟨_, ⟨[['a'.toUInt8], ['\\'.toUInt8, 'n'.toUInt8]],
      .cons (.plain (by decide) (by decide) (by decide)) (.cons (.escape (by decide)) .nil), rfl⟩,
      rfl⟩
  have helements : JsonTree.ElementsText [.number (ascii "-1.5e3"), .string (ascii "a\n")]
      (ascii "-1.5e3, \"a\\n\"") :=
    ⟨[], _, [], ','.toUInt8 :: ascii " \"a\\n\"", by decide, hnumber, by decide, rfl,
      .inr ⟨_, rfl, [0x20], _, [], [], by decide, hstring, by decide, rfl, .inl ⟨rfl, rfl⟩⟩⟩
  have hdenotes : J.Denotes text := ⟨[0x20], _, [], by decide, ⟨_, helements, rfl⟩, by decide, rfl⟩
  exact ⟨hdenotes, by decide, parse_recognises Library.stod J text hdenotes 40 (by decide)⟩

set_option exponentiation.threshold 1100 in
/-- `1e999` is a JSON text, and `parse` throws `std::out_of_range` on it: its value overflows a
`double`. -/
theorem parse_overflowing_number :
    (JsonTree.number (ascii "1e999")).Denotes (ascii "1e999") ∧
      ∀ fuel, parse Library.stod (fuel + 1) (ascii "1e999") = .throw .outOfRange := by
  refine ⟨⟨[], _, [], by decide, ⟨?_, rfl⟩, by decide, rfl⟩, fun fuel => rfl⟩
  exact ⟨[], ['1'.toUInt8], [], ['e'.toUInt8, '9'.toUInt8, '9'.toUInt8, '9'.toUInt8], rfl, .inl rfl,
    .inr ⟨_, [], rfl, by decide, by decide, by decide⟩, .inl rfl,
    .inr ⟨_, [], _, rfl, .inl rfl, .inl rfl, by decide⟩⟩

end Json
end PolyGenSupport
