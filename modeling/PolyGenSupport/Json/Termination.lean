import PolyGenSupport.Json.Stod

/-!
# Where `JsonParser::parse` does not return

`parse_array`'s loop moves the cursor only through `parse_value` and through the `,` or `]` it
stops at.  `parse_value` leaves the cursor where it is at a byte none of its branches takes, and
at a `t`, `f` or `n` that does not begin the whole literal.  When such an element is followed by
anything but `,` or `]`, every turn of the loop pushes a null value and comes back to the same
text (`arrayLoop_stalls`): the loop never ends, and `arr` grows until allocation fails.  The text
`[x` is the smallest instance.

`parse_number` hands `std::stod` the bytes it scanned whatever they are, and the library's
`std::stod` throws `std::invalid_argument` on a lone `-`.

`parse_object`'s loop has no such stall.  No function of the parser moves the cursor back
(`advances`), and each turn of the loop reads its key with `parse_string`, which skips one byte
whatever it is, so the loop's text gets shorter every turn: on a text with no `[`, `parse`
returns or throws (`parse_returns_of_no_bracket`).
-/

namespace PolyGenSupport
namespace Json

section Stall

variable (stod : List UInt8 → Except StdException (BitVec 64))

/-- `parse_value` at a byte that is not white space and that none of its branches takes returns
a null value and leaves the cursor where it is. -/
theorem parseValue_unrecognised {c : UInt8} (hc : isspace c = false) (rest : List UInt8)
    (hbranch : c ∉ ['"'.toUInt8, '{'.toUInt8, '['.toUInt8, 't'.toUInt8, 'f'.toUInt8, 'n'.toUInt8,
      '-'.toUInt8]) (hdigit : isdigit c = false) (fuel : Nat) :
    parseValue stod (fuel + 1) (c :: rest) = .ok (.null, c :: rest) := by
  simp only [List.mem_cons, List.mem_singleton, not_or, List.not_mem_nil] at hbranch
  simp [parseValue, skipWhitespace_cons_of_not_space hc, hbranch, hdigit]

/-- An element at which `parse_value` returns without moving, followed by anything but `,` or
`]`, keeps `parse_array`'s loop at the same text forever, whatever it has pushed. -/
theorem arrayLoop_stalls {c : UInt8} {rest : List UInt8} (hc : isspace c = false)
    (hsep : c ≠ ','.toUInt8 ∧ c ≠ ']'.toUInt8)
    (hstall : ∀ fuel, ∃ value, parseValue stod (fuel + 1) (c :: rest) = .ok (value, c :: rest)) :
    ∀ fuel arr, arrayLoop stod fuel arr (c :: rest) = .outOfFuel := by
  intro fuel
  induction fuel with
  | zero => intro arr; rfl
  | succ fuel ih =>
    intro arr
    cases fuel with
    | zero => rfl
    | succ fuel =>
      obtain ⟨value, hvalue⟩ := hstall fuel
      simp only [arrayLoop, hvalue, Outcome.ok_bind, skipWhitespace_cons_of_not_space hc,
        if_neg hsep.1, if_neg hsep.2]
      exact ih _

end Stall


/-- `parse` does not return on `[x`, whatever `std::stod` is: no fuel is enough.  And on `-` the
library's `std::stod` throws `std::invalid_argument`, which leaves `parse`. -/
theorem parse_loops_or_throws :
    (∀ (stod : List UInt8 → Except StdException (BitVec 64)) (fuel : Nat),
      parse stod fuel (ascii "[x") = .outOfFuel) ∧
    ∀ fuel, parse Library.stod (fuel + 1) (ascii "-") = .throw .invalidArgument := by
  refine ⟨fun stod fuel => ?_, fun fuel => rfl⟩
  have hx : ∀ fuel arr, arrayLoop stod fuel arr (ascii "x") = .outOfFuel :=
    arrayLoop_stalls stod (by decide) (by decide) fun fuel =>
      ⟨_, parseValue_unrecognised stod (by decide) [] (by decide) (by decide) fuel⟩
  match fuel with
  | 0 => rfl
  | 1 => rfl
  | fuel + 2 =>
    show Prod.fst <$> arrayLoop stod fuel [] (ascii "x") = _
    rw [hx]
    rfl

/-! ## The cursor never moves back -/

theorem stringLoop_suffix : (json : List UInt8) → (stringLoop json).2 <:+ json
  | [] => List.suffix_refl _
  | c :: rest => by
    by_cases hquote : c = '"'.toUInt8
    · subst hquote
      simp only [stringLoop_quote, List.suffix_refl]
    by_cases hbackslash : c = '\\'.toUInt8
    · subst hbackslash
      cases rest with
      | nil => exact List.nil_suffix
      | cons e rest =>
        rw [stringLoop_escape]
        exact (stringLoop_suffix rest).trans ((List.suffix_cons _ _).trans (List.suffix_cons _ _))
    · rw [stringLoop_plain hquote hbackslash]
      exact (stringLoop_suffix rest).trans (List.suffix_cons _ _)

/-- `parse_string` always moves past its first byte. -/
theorem parseString_suffix (json : List UInt8) : (parseString json).2 <:+ json.drop 1 :=
  (List.drop_suffix 1 _).trans (stringLoop_suffix _)

theorem parseBool_suffix (json : List UInt8) : (parseBool json).2 <:+ json := by
  unfold parseBool
  split_ifs
  exacts [List.drop_suffix _ _, List.drop_suffix _ _, List.suffix_refl _]

theorem parseNull_suffix (json : List UInt8) : (parseNull json).2 <:+ json := by
  unfold parseNull
  split_ifs
  exacts [List.drop_suffix _ _, List.suffix_refl _]

theorem suffix_of_skipWhitespace_eq {json rest : List UInt8} (h : skipWhitespace json = rest) :
    rest <:+ json :=
  h ▸ List.dropWhile_suffix isspace

theorem skipColon_suffix (json : List UInt8) : skipColon json <:+ json := by
  cases json with
  | nil => exact List.suffix_refl _
  | cons c rest =>
    simp only [skipColon]
    split_ifs
    exacts [List.suffix_cons _ _, List.suffix_refl _]

theorem skipColon_skipWhitespace_suffix (json : List UInt8) :
    skipColon (skipWhitespace json) <:+ json :=
  (skipColon_suffix _).trans (List.dropWhile_suffix _)

/-- The text `parse_object`'s loop reads a member's value from, past the key and the `:`. -/
theorem objectLoop_value_suffix (json : List UInt8) :
    skipColon (skipWhitespace (parseString (skipWhitespace json)).2) <:+ json :=
  (skipColon_skipWhitespace_suffix _).trans
    ((parseString_suffix _).trans ((List.drop_suffix 1 _).trans (List.dropWhile_suffix _)))

/-- Each turn of `parse_object`'s loop reads its value from strictly shorter text: the key's
`parse_string` skips one byte whatever it is. -/
theorem objectLoop_value_shorter (c : UInt8) (rest : List UInt8) :
    (skipColon (skipWhitespace (parseString (skipWhitespace (c :: rest))).2)).length <
      (c :: rest).length :=
  calc (skipColon (skipWhitespace (parseString (skipWhitespace (c :: rest))).2)).length
      ≤ (parseString (skipWhitespace (c :: rest))).2.length :=
        (skipColon_skipWhitespace_suffix _).length_le
    _ ≤ ((skipWhitespace (c :: rest)).drop 1).length := (parseString_suffix _).length_le
    _ < (c :: rest).length := by
      have := (List.dropWhile_suffix isspace (l := c :: rest)).length_le
      simp only [List.length_drop, skipWhitespace] at this ⊢
      simp only [List.length_cons] at this ⊢
      omega

/-- Every text a call `r` on `json` returns with is a suffix of `json`. -/
def Advances (json : List UInt8) (r : Outcome (JsonValue × List UInt8)) : Prop :=
  ∀ value rest, r = .ok (value, rest) → rest <:+ json

namespace Advances

theorem ok {json rest : List UInt8} (value : JsonValue) (h : rest <:+ json) :
    Advances json (.ok (value, rest)) := by
  rintro _ _ ⟨⟩
  exact h

theorem throw (json : List UInt8) (e : StdException) : Advances json (.throw e) := by
  rintro _ _ ⟨⟩

theorem outOfFuel (json : List UInt8) : Advances json .outOfFuel := by
  rintro _ _ ⟨⟩

theorem mono {json json' : List UInt8} {r : Outcome (JsonValue × List UInt8)}
    (h : Advances json' r) (hsuffix : json' <:+ json) : Advances json r :=
  fun value rest hr => (h value rest hr).trans hsuffix

/-- A call followed by a continuation that does not move back does not move back. -/
theorem bind {json : List UInt8} {x : Outcome (JsonValue × List UInt8)}
    {f : JsonValue × List UInt8 → Outcome (JsonValue × List UInt8)} (hx : Advances json x)
    (hf : ∀ value rest, rest <:+ json → Advances rest (f (value, rest))) :
    Advances json (x >>= f) := by
  cases x with
  | ok p =>
    have hp := hx p.1 p.2 rfl
    rw [Outcome.ok_bind]
    exact (hf p.1 p.2 hp).mono hp
  | throw e => exact throw json e
  | outOfFuel => exact outOfFuel json

end Advances

section Advance

variable (stod : List UInt8 → Except StdException (BitVec 64))

theorem parseNumber_advances (json : List UInt8) : Advances json (parseNumber stod json) := by
  rw [parseNumber_eq]
  cases stod (json.takeWhile numberChar)
  · exact Advances.throw _ _
  · exact Advances.ok _ (List.dropWhile_suffix _)

/-- `parse_value`, `parse_array`, `parse_object` and both loops never move the cursor back. -/
theorem advances (fuel : Nat) :
    (∀ json, Advances json (parseValue stod fuel json)) ∧
    (∀ json, Advances json (parseArray stod fuel json)) ∧
    (∀ arr json, Advances json (arrayLoop stod fuel arr json)) ∧
    (∀ json, Advances json (parseObject stod fuel json)) ∧
    (∀ obj json, Advances json (objectLoop stod fuel obj json)) := by
  induction fuel with
  | zero =>
    exact ⟨fun _ => Advances.outOfFuel _, fun _ => Advances.outOfFuel _,
      fun _ _ => Advances.outOfFuel _, fun _ => Advances.outOfFuel _,
      fun _ _ => Advances.outOfFuel _⟩
  | succ fuel ih =>
    obtain ⟨hValue, hArray, hArrayLoop, hObject, hObjectLoop⟩ := ih
    refine ⟨fun json => ?_, fun json => ?_, fun arr json => ?_, fun json => ?_,
      fun obj json => ?_⟩
    · simp only [parseValue]
      split
      · exact Advances.ok _ List.nil_suffix
      · next c rest hc =>
        refine Advances.mono ?_ (suffix_of_skipWhitespace_eq hc)
        split_ifs
        · exact Advances.ok _ ((parseString_suffix _).trans (List.drop_suffix _ _))
        · exact hObject _
        · exact hArray _
        · exact Advances.ok _ (parseBool_suffix _)
        · exact Advances.ok _ (parseNull_suffix _)
        · exact parseNumber_advances stod _
        · exact Advances.ok _ (List.suffix_refl _)
    · simp only [parseArray]
      split
      · next c rest hc =>
        have hskip := (suffix_of_skipWhitespace_eq hc).trans (List.drop_suffix 1 json)
        split_ifs
        · exact Advances.ok _ ((List.suffix_cons _ _).trans hskip)
        · exact (hArrayLoop _ _).mono hskip
      · exact (hArrayLoop _ _).mono List.nil_suffix
    · cases json with
      | nil => exact Advances.ok _ List.nil_suffix
      | cons c rest =>
        simp only [arrayLoop]
        refine Advances.bind (hValue _) fun value json _ => ?_
        split
        · next c' rest' hc =>
          have hskip := suffix_of_skipWhitespace_eq hc
          split_ifs
          · exact (hArrayLoop _ _).mono ((List.suffix_cons _ _).trans hskip)
          · exact Advances.ok _ ((List.suffix_cons _ _).trans hskip)
          · exact (hArrayLoop _ _).mono hskip
        · exact (hArrayLoop _ _).mono List.nil_suffix
    · simp only [parseObject]
      split
      · next c rest hc =>
        have hskip := (suffix_of_skipWhitespace_eq hc).trans (List.drop_suffix 1 json)
        split_ifs
        · exact Advances.ok _ ((List.suffix_cons _ _).trans hskip)
        · exact (hObjectLoop _ _).mono hskip
      · exact (hObjectLoop _ _).mono List.nil_suffix
    · cases json with
      | nil => exact Advances.ok _ List.nil_suffix
      | cons c rest =>
        simp only [objectLoop]
        refine Advances.bind ((hValue _).mono (objectLoop_value_suffix _)) fun value json _ => ?_
        split
        · next c' rest' hc =>
          have hskip := suffix_of_skipWhitespace_eq hc
          split_ifs
          · exact (hObjectLoop _ _).mono ((List.suffix_cons _ _).trans hskip)
          · exact Advances.ok _ ((List.suffix_cons _ _).trans hskip)
          · exact (hObjectLoop _ _).mono hskip
        · exact (hObjectLoop _ _).mono List.nil_suffix

end Advance

/-! ## Without a `[`, `parse` returns -/

section Returns

variable (stod : List UInt8 → Except StdException (BitVec 64))

theorem parseNumber_ne_outOfFuel (json : List UInt8) : parseNumber stod json ≠ .outOfFuel := by
  rw [parseNumber_eq]
  cases stod (json.takeWhile numberChar) <;> simp

/-- `parse_value` returns or throws on a text of length at most `n` with no `[`, given `2 n + 1`
fuel. -/
def ValueReturns (n : Nat) : Prop :=
  ∀ json, json.length ≤ n → '['.toUInt8 ∉ json → ∀ fuel, 2 * n + 1 ≤ fuel →
    parseValue stod fuel json ≠ .outOfFuel

/-- The same for `parse_object`'s loop, whatever map it has built. -/
def ObjectLoopReturns (n : Nat) : Prop :=
  ∀ obj json, json.length ≤ n → '['.toUInt8 ∉ json → ∀ fuel, 2 * n + 1 ≤ fuel →
    objectLoop stod fuel obj json ≠ .outOfFuel

variable {stod} in
theorem ObjectLoopReturns.suffix {n : Nat} (h : ObjectLoopReturns stod n) {json text : List UInt8}
    (htext : text <:+ json) (hlen : json.length ≤ n) (hjson : '['.toUInt8 ∉ json)
    (obj : JsonObject) (fuel : Nat) (hfuel : 2 * n + 1 ≤ fuel) :
    objectLoop stod fuel obj text ≠ .outOfFuel :=
  h obj text (htext.length_le.trans hlen) (fun hbracket => hjson (htext.subset hbracket)) fuel hfuel

/-- `parse_value` enters `parse_object`'s loop past the `{`, on shorter text. -/
theorem valueReturns_succ {n : Nat} (hLoop : ObjectLoopReturns stod n) :
    ValueReturns stod (n + 1) := by
  intro json hlen hjson fuel hfuel
  obtain ⟨fuel, rfl⟩ : ∃ f, fuel = f + 2 := ⟨fuel - 2, by omega⟩
  simp only [parseValue]
  split
  · simp
  · next c rest hc =>
    have hsuffix := suffix_of_skipWhitespace_eq hc
    have hrest : rest.length ≤ n := by
      have := hsuffix.length_le
      simp only [List.length_cons] at this
      omega
    have hcont := fun text (htext : text <:+ rest) => hLoop.suffix htext hrest
      (fun hbracket => hjson (((List.suffix_cons c rest).trans hsuffix).subset hbracket)) .empty fuel
      (by omega)
    split_ifs with _ _ hbracket
    · simp
    · simp only [parseObject, List.drop_one, List.tail_cons]
      split
      · next d r hd =>
        split_ifs
        · simp
        · exact hcont _ (suffix_of_skipWhitespace_eq hd)
      · exact hcont _ List.nil_suffix
    · exact absurd (hsuffix.subset (hbracket ▸ List.mem_cons_self c rest)) hjson
    all_goals first | exact parseNumber_ne_outOfFuel stod _ | simp

/-- Each turn of `parse_object`'s loop reads its value from shorter text, and goes round again
at a suffix of what the value left. -/
theorem objectLoopReturns_succ {n : Nat} (hValue : ValueReturns stod n)
    (hLoop : ObjectLoopReturns stod n) : ObjectLoopReturns stod (n + 1) := by
  intro obj json hlen hjson fuel hfuel
  obtain ⟨fuel, rfl⟩ : ∃ f, fuel = f + 1 := ⟨fuel - 1, by omega⟩
  cases json with
  | nil => simp [objectLoop]
  | cons c rest =>
    have hkey := objectLoop_value_shorter c rest
    have hkeysuffix := objectLoop_value_suffix (c :: rest)
    simp only [objectLoop]
    generalize skipColon _ = keytext at hkey hkeysuffix ⊢
    have hvalue := hValue keytext (by simp only [List.length_cons] at hkey hlen; omega)
      (fun hbracket => hjson (hkeysuffix.subset hbracket)) fuel (by omega)
    have hadv := (advances stod fuel).1 keytext
    generalize parseValue stod fuel keytext = r at hvalue hadv ⊢
    cases r with
    | outOfFuel => exact absurd rfl hvalue
    | throw e => simp
    | ok p =>
      obtain ⟨value, json'⟩ := p
      have hrest := hadv value json' rfl
      have hcont := fun obj text (htext : text <:+ json') => hLoop.suffix htext
        (by have := hrest.length_le; simp only [List.length_cons] at hkey hlen; omega)
        (fun hbracket => hjson ((hrest.trans hkeysuffix).subset hbracket)) obj fuel (by omega)
      rw [Outcome.ok_bind]
      split
      · next d r hd =>
        split_ifs
        · exact hcont _ _ ((List.suffix_cons d r).trans (suffix_of_skipWhitespace_eq hd))
        · simp
        · exact hcont _ _ (suffix_of_skipWhitespace_eq hd)
      · exact hcont _ _ List.nil_suffix

/-- Without a `[`, `parse_value` and `parse_object`'s loop return or throw, by induction on the
length of the text. -/
theorem returns_of_no_bracket (n : Nat) : ValueReturns stod n ∧ ObjectLoopReturns stod n := by
  induction n with
  | zero =>
    refine ⟨fun json hlen _ fuel hfuel => ?_, fun obj json hlen _ fuel hfuel => ?_⟩ <;>
      obtain rfl := List.eq_nil_of_length_eq_zero (Nat.le_zero.mp hlen) <;>
      obtain ⟨fuel, rfl⟩ : ∃ f, fuel = f + 1 := ⟨fuel - 1, by omega⟩ <;>
      simp [parseValue, objectLoop, skipWhitespace]
  | succ n ih => exact ⟨valueReturns_succ stod ih.2, objectLoopReturns_succ stod ih.1 ih.2⟩

/-- Without a `[` in the text, `parse` returns or throws: `parse_array`'s loop is the only one
that can stall. -/
theorem parse_returns_of_no_bracket (json : List UInt8) (hjson : '['.toUInt8 ∉ json)
    (fuel : Nat) (hfuel : 2 * json.length + 1 ≤ fuel) : parse stod fuel json ≠ .outOfFuel := by
  have hvalue := (returns_of_no_bracket stod json.length).1 json le_rfl hjson fuel hfuel
  unfold parse
  generalize parseValue stod fuel json = r at hvalue ⊢
  cases r <;> simp_all

end Returns

/-- A malformed object with no `[`, its second member without a value: `parse` returns on it. -/
theorem parse_returns_malformed_object :
    let text := ascii "\x7b\"a\" 1 \"b\":\x7d"
    '['.toUInt8 ∉ text ∧ 2 * text.length + 1 ≤ 25 ∧ parse Library.stod 25 text ≠ .outOfFuel := by
  intro text
  exact ⟨by decide, by decide,
    parse_returns_of_no_bracket Library.stod text (by decide) 25 (by decide)⟩

end Json
end PolyGenSupport
