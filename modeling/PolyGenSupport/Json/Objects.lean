import PolyGenSupport.Json.Recognise
import Mathlib.Data.List.DropRight

/-!
# Parsed objects are `std::map`s

`parse_object` assigns each member with `obj[key] = value`, in text order, into a
`std::map`.  So on the JSON text of an object whose values `std::stod` accepts, with repeated
keys or not, `parse` returns an object whose `as_object()` lists each key once in increasing
byte order, where `has(key)` holds exactly for the text's keys and `operator[](key) const` is
the value of the key's last member (`parse_object_map`).  With distinct keys this is what
recognising the text already gives; a repeated key is where the last assignment wins.

Nor does the loop need the JSON separators: a key's `:` and the `,` after a value are skipped
when they are there, so `parse_object_loose` reads members without them as it reads their JSON
text.

A comma after the last member is not an error: the loop goes round once more and reads the
closing `}` as the opening quote of a key (`parse_object_trailing_comma`), so the object gets
one member the text does not write.
-/

namespace PolyGenSupport
namespace Json

section Parser

variable (stod : List UInt8 → Except StdException (BitVec 64))

end Parser

/-- The text between the braces of a non-empty object as the loop of `parse_object` reads it:
members `"key" value` with white space around each token, a `:` between key and value or not,
and a `,` between two members or not. -/
def JsonTree.LooseMembersText : List (List UInt8 × JsonTree) → List UInt8 → Prop
  | [], _ => False
  | (k, v) :: ms, e => ∃ w₁ ek w₂ colon t w₄ more, IsWs w₁ ∧ StringText k ek ∧ IsWs w₂ ∧
      (colon = [] ∨ ∃ w₃, IsWs w₃ ∧ colon = ':'.toUInt8 :: w₃) ∧ v.Text t ∧ IsWs w₄ ∧
      e = w₁ ++ '"'.toUInt8 :: ek ++ '"'.toUInt8 :: w₂ ++ colon ++ t ++ w₄ ++ more ∧
      (ms = [] ∧ more = [] ∨
        ∃ e', (more = e' ∨ more = ','.toUInt8 :: e') ∧ JsonTree.LooseMembersText ms e')

/-- The JSON text of an object's members is one the loop reads. -/
theorem JsonTree.MembersText.loose : {members : List (List UInt8 × JsonTree)} →
    {e : List UInt8} → JsonTree.MembersText members e → JsonTree.LooseMembersText members e
  | [], _, h => h.elim
  | (_, _) :: ms, _, ⟨w₁, ek, w₂, w₃, t, w₄, more, hw₁, hek, hw₂, hw₃, ht, hw₄, he, hmore⟩ =>
    ⟨w₁, ek, w₂, ':'.toUInt8 :: w₃, t, w₄, more, hw₁, hek, hw₂, .inr ⟨w₃, hw₃, rfl⟩, ht, hw₄,
      by simp [he], hmore.imp_right fun ⟨e', hmore, he'⟩ => ⟨e', .inr hmore, he'.loose⟩⟩

/-- Members' text starts, after white space, with the opening quote of the first key. -/
theorem JsonTree.LooseMembersText.quote {members : List (List UInt8 × JsonTree)} {e : List UInt8}
    (h : JsonTree.LooseMembersText members e) (after : List UInt8) :
    ∃ w r, IsWs w ∧ e ++ after = w ++ '"'.toUInt8 :: r := by
  match members, h with
  | (_, _) :: _, ⟨w₁, ek, w₂, colon, t, w₄, more, hw₁, _, _, _, _, _, he, _⟩ =>
    exact ⟨w₁, ek ++ '"'.toUInt8 :: (w₂ ++ colon ++ t ++ w₄ ++ more ++ after), hw₁, by simp [he]⟩

theorem JsonTree.LooseMembersText.skipWhitespace_quote {members : List (List UInt8 × JsonTree)}
    {e : List UInt8} (h : JsonTree.LooseMembersText members e) (after : List UInt8) :
    ∃ r, skipWhitespace (e ++ after) = '"'.toUInt8 :: r := by
  obtain ⟨w, r, hw, hquote⟩ := h.quote after
  rw [hquote, skipWhitespace_append_of_space (isspace_of_isWs hw)]
  exact ⟨r, rfl⟩

section Parser

variable (stod : List UInt8 → Except StdException (BitVec 64))

/-- White space in front changes nothing for a round of the loop, unless only white space is
left. -/
theorem objectLoop_skipWhitespace (fuel : Nat) (obj : JsonObject) {json : List UInt8}
    (h : skipWhitespace json ≠ []) :
    objectLoop stod fuel obj (skipWhitespace json) = objectLoop stod fuel obj json := by
  obtain ⟨c, cs, hcs⟩ := List.exists_cons_of_ne_nil h
  obtain ⟨d, ds, rfl⟩ : ∃ d ds, json = d :: ds := by
    cases json with
    | nil => exact absurd rfl h
    | cons d ds => exact ⟨d, ds, rfl⟩
  cases fuel with
  | zero => rfl
  | succ fuel =>
    rw [hcs, objectLoop, objectLoop, ← hcs]
    simp only [skipWhitespace, List.dropWhile_idempotent]

/-- When the text after the opening brace goes on, after white space, with anything but `}`,
`parse_object` starts its loop right there. -/
theorem parseObject_loop (b : UInt8) {json : List UInt8} {c : UInt8} {r : List UInt8}
    (hc : skipWhitespace json = c :: r) (hclose : c ≠ '}'.toUInt8) (fuel : Nat) :
    parseObject stod (fuel + 1) (b :: json) = objectLoop stod fuel .empty json := by
  simp only [parseObject, List.drop_one, List.tail_cons, hc, if_neg hclose]
  rw [← hc, objectLoop_skipWhitespace stod fuel .empty (by simp [hc])]

/-- One round of the loop on a member, with or without its colon, followed by any text that does
not continue a number: the member is assigned, and the loop goes on as the text after it says,
after white space. -/
theorem objectLoop_member_round {k ek t : List UInt8} {v : JsonTree} {w₁ w₂ colon : List UInt8}
    (hw₁ : IsWs w₁) (hek : StringText k ek) (hw₂ : IsWs w₂)
    (hcolon : colon = [] ∨ ∃ w₃, IsWs w₃ ∧ colon = ':'.toUInt8 :: w₃) (ht : v.Text t)
    (after : List UInt8) (hstops : Stops after) (obj : JsonObject) (fuel : Nat)
    (hfuel : 2 * t.length ≤ fuel) :
    objectLoop stod (fuel + 1) obj
        (w₁ ++ '"'.toUInt8 :: ek ++ '"'.toUInt8 :: w₂ ++ colon ++ t ++ after) =
      Outcome.ofExcept (v.toValue stod) >>= fun value =>
        match skipWhitespace after with
        | c :: r =>
          if c = ','.toUInt8 then objectLoop stod fuel (JsonObject.assign k value obj) r
          else if c = '}'.toUInt8 then .ok (.object (JsonObject.assign k value obj), r)
          else objectLoop stod fuel (JsonObject.assign k value obj) (c :: r)
        | [] => objectLoop stod fuel (JsonObject.assign k value obj) [] := by
  obtain ⟨b, t', rfl, hspace, -, -, hcolon'⟩ := ht.head
  obtain ⟨w₃, hw₃, hvalue⟩ : ∃ w₃, IsWs w₃ ∧
      skipColon (skipWhitespace (w₂ ++ (colon ++ (b :: t' ++ after)))) = w₃ ++ (b :: t' ++ after) := by
    rw [skipWhitespace_append_of_space (isspace_of_isWs hw₂)]
    rcases hcolon with rfl | ⟨w₃, hw₃, rfl⟩
    · refine ⟨[], by simp [IsWs], ?_⟩
      rw [List.nil_append, List.cons_append, skipWhitespace_cons_of_not_space hspace, skipColon,
        if_neg hcolon']
    · exact ⟨w₃, hw₃, rfl⟩
  obtain ⟨d, ds, hds⟩ := List.exists_cons_of_ne_nil (show w₁ ++ '"'.toUInt8 :: ek ++
    '"'.toUInt8 :: w₂ ++ colon ++ b :: t' ++ after ≠ [] by simp)
  rw [hds, objectLoop, ← hds]
  simp only [List.append_assoc, List.cons_append, skipWhitespace_append_of_space (isspace_of_isWs hw₁),
    @skipWhitespace_cons_of_not_space '"'.toUInt8 rfl, parseString_text hek]
  rw [← List.cons_append, hvalue, JsonTree.parseValue_text stod v ht after fuel hw₃ hstops hfuel]
  cases v.toValue stod <;> rfl

/-- One round of the loop on a member followed by text that goes on, after white space, with a
byte `c`: the member is assigned, and `c` decides what the loop does next. -/
theorem objectLoop_member {k ek t : List UInt8} {v : JsonTree} {w₁ w₂ colon : List UInt8}
    (hw₁ : IsWs w₁) (hek : StringText k ek) (hw₂ : IsWs w₂)
    (hcolon : colon = [] ∨ ∃ w₃, IsWs w₃ ∧ colon = ':'.toUInt8 :: w₃) (ht : v.Text t)
    (after : List UInt8) {c : UInt8} {r : List UInt8} (hafter : skipWhitespace after = c :: r)
    (hstops : Stops after) (obj : JsonObject) (fuel : Nat) (hfuel : 2 * t.length ≤ fuel) :
    objectLoop stod (fuel + 1) obj
        (w₁ ++ '"'.toUInt8 :: ek ++ '"'.toUInt8 :: w₂ ++ colon ++ t ++ after) =
      Outcome.ofExcept (v.toValue stod) >>= fun value =>
        if c = ','.toUInt8 then objectLoop stod fuel (JsonObject.assign k value obj) r
        else if c = '}'.toUInt8 then .ok (.object (JsonObject.assign k value obj), r)
        else objectLoop stod fuel (JsonObject.assign k value obj) (c :: r) := by
  rw [objectLoop_member_round stod hw₁ hek hw₂ hcolon ht after hstops obj fuel hfuel, hafter]

/-- The loop of `parse_object` on members with or without their colons and commas, up to the
closing `}`: the members are assigned in order, as for their JSON text. -/
theorem JsonTree.objectLoop_loose : (members : List (List UInt8 × JsonTree)) →
    ∀ {e : List UInt8}, JsonTree.LooseMembersText members e →
    ∀ (obj : JsonObject) (rest : List UInt8) (fuel : Nat), 2 * e.length < fuel →
    objectLoop stod fuel obj (e ++ '}'.toUInt8 :: rest) =
      (fun ms => (JsonValue.object (JsonObject.assignMembers ms obj),
        rest)) <$> Outcome.ofExcept (JsonTree.membersToValue stod members)
  | [], _, h, _, _, _, _ => h.elim
  | (k, v) :: ms, _, ⟨w₁, ek, w₂, colon, t, w₄, more, hw₁, hek, hw₂, hcolon, ht, hw₄, rfl, hmore⟩,
      obj, rest, fuel, hfuel => by
    obtain ⟨fuel, rfl⟩ : ∃ f, fuel = f + 1 := ⟨fuel - 1, by omega⟩
    simp only [List.length_append, List.length_cons] at hfuel
    have hmember := @objectLoop_member stod _ _ _ _ _ _ _ hw₁ hek hw₂ hcolon ht
      (w₄ ++ (more ++ '}'.toUInt8 :: rest))
    simp only [List.append_assoc] at hmember ⊢
    rcases hmore with ⟨rfl, rfl⟩ | ⟨e', hmore, he'⟩
    · simp only [List.nil_append] at hmember ⊢
      rw [hmember (by rw [skipWhitespace_append_of_space (isspace_of_isWs hw₄)]; rfl)
        (stops_ws_append hw₄ (by decide) rest) obj fuel (by omega)]
      simp only [JsonTree.membersToValue]
      cases v.toValue stod <;> rfl
    have hloop : ∀ x, objectLoop stod fuel (JsonObject.assign k x obj) (e' ++ '}'.toUInt8 :: rest) =
        (fun ms => (JsonValue.object (JsonObject.assignMembers ms
          (JsonObject.assign k x obj)), rest)) <$>
          Outcome.ofExcept (JsonTree.membersToValue stod ms) := fun x =>
      JsonTree.objectLoop_loose ms he' _ rest fuel (by
        have : e'.length ≤ more.length := by rcases hmore with rfl | rfl <;> simp
        omega)
    rcases hmore with hmore | hmore <;> subst more
    · obtain ⟨w', r', hw', hquote⟩ := he'.quote ('}'.toUInt8 :: rest)
      have hafter : skipWhitespace (w₄ ++ (e' ++ '}'.toUInt8 :: rest)) = '"'.toUInt8 :: r' := by
        rw [skipWhitespace_append_of_space (isspace_of_isWs hw₄), hquote,
          skipWhitespace_append_of_space (isspace_of_isWs hw')]
        rfl
      have hstops : Stops (w₄ ++ (e' ++ '}'.toUInt8 :: rest)) := by
        rw [hquote, ← List.append_assoc]
        exact stops_ws_append (fun a ha => (List.mem_append.mp ha).elim (hw₄ a) (hw' a))
          (by decide) r'
      rw [hmember hafter hstops obj fuel (by omega)]
      refine JsonTree.membersToValue_cons_bind stod k v ms _ fun x => ?_
      have hskip : skipWhitespace (w' ++ '"'.toUInt8 :: r') = '"'.toUInt8 :: r' := by
        rw [skipWhitespace_append_of_space (isspace_of_isWs hw')]
        rfl
      rw [if_neg (by decide), if_neg (by decide), ← hskip,
        objectLoop_skipWhitespace stod fuel _ (by simp [hskip]), ← hquote]
      exact hloop x
    · rw [hmember (by rw [skipWhitespace_append_of_space (isspace_of_isWs hw₄)]; rfl)
        (stops_ws_append hw₄ (by decide) _) obj fuel (by omega)]
      exact JsonTree.membersToValue_cons_bind stod k v ms _ fun x => (if_pos rfl).trans (hloop x)

/-- The loop of `parse_object` on the members of an object when the text ends right after them:
the members are assigned in order, as if the `}` were there. -/
theorem JsonTree.objectLoop_end : (members : List (List UInt8 × JsonTree)) →
    ∀ {e : List UInt8}, JsonTree.MembersText members e →
    ∀ (obj : JsonObject) (fuel : Nat), 2 * e.length + 2 ≤ fuel →
    objectLoop stod fuel obj e =
      (fun ms => (JsonValue.object (JsonObject.assignMembers ms obj),
        [])) <$> Outcome.ofExcept (JsonTree.membersToValue stod members)
  | [], _, h, _, _, _ => h.elim
  | (k, v) :: ms, _, ⟨w₁, ek, w₂, w₃, t, w₄, more, hw₁, hek, hw₂, hw₃, ht, hw₄, rfl, hmore⟩,
      obj, fuel, hfuel => by
    obtain ⟨fuel, rfl⟩ : ∃ f, fuel = f + 1 := ⟨fuel - 1, by omega⟩
    simp only [List.length_append, List.length_cons] at hfuel
    have hround := objectLoop_member_round stod hw₁ hek hw₂ (.inr ⟨w₃, hw₃, rfl⟩) ht (w₄ ++ more)
    simp only [List.append_assoc, List.cons_append] at hround ⊢
    rcases hmore with ⟨rfl, rfl⟩ | ⟨e', rfl, he'⟩
    · obtain ⟨fuel, rfl⟩ : ∃ f, fuel = f + 1 := ⟨fuel - 1, by omega⟩
      rw [hround (by simpa using stops_of_isWs hw₄) obj _ (by omega)]
      simp only [List.append_nil, skipWhitespace, List.dropWhile_eq_nil_iff.mpr
        (isspace_of_isWs hw₄), JsonTree.membersToValue]
      cases v.toValue stod <;> rfl
    · rw [hround (stops_ws_append hw₄ (by decide) e') obj fuel (by omega),
        skipWhitespace_append_of_space (isspace_of_isWs hw₄),
        @skipWhitespace_cons_of_not_space ','.toUInt8 rfl]
      refine JsonTree.membersToValue_cons_bind stod k v ms _ fun x => ?_
      dsimp only
      rw [if_pos rfl, JsonTree.objectLoop_end ms he' _ fuel
        (by simp only [List.length_cons] at hfuel; omega)]
      rfl

/-- `parse_value` on an object's JSON text with its closing brace cut off: the object's value,
at the end of the text. -/
theorem JsonTree.parseValue_object_dropLast {members : List (List UInt8 × JsonTree)}
    {t : List UInt8} (ht : (JsonTree.object members).Text t) (fuel : Nat)
    (hfuel : 2 * t.length ≤ fuel + 1) :
    parseValue stod (fuel + 1) t.dropLast =
      (fun v => (v, [])) <$> Outcome.ofExcept ((JsonTree.object members).toValue stod) := by
  match members, ht with
  | [], ⟨w', hw', (ht : t = _)⟩ =>
    subst ht
    obtain ⟨fuel, rfl⟩ : ∃ f, fuel = f + 2 := ⟨fuel - 2, by simp at hfuel; omega⟩
    rw [List.dropLast_concat, parseValue_lbrace]
    simp only [parseObject, List.drop_one, List.tail_cons, skipWhitespace,
      List.dropWhile_eq_nil_iff.mpr (isspace_of_isWs hw')]
    rfl
  | m :: ms, ⟨e, he, (ht : t = _)⟩ =>
    subst ht
    obtain ⟨fuel, rfl⟩ : ∃ f, fuel = f + 1 := ⟨fuel - 1, by simp at hfuel; omega⟩
    obtain ⟨r, hquote⟩ := he.loose.skipWhitespace_quote []
    rw [List.append_nil] at hquote
    rw [List.dropLast_concat, parseValue_lbrace, parseObject_loop stod _ hquote (by decide),
      JsonTree.objectLoop_end stod (m :: ms) he .empty fuel (by simp at hfuel; omega), JsonTree.toValue]
    cases JsonTree.membersToValue stod (m :: ms) <;> rfl

/-- `parse` on the text of an object whose members may leave out their colons and the commas
between them, with white space in front and anything after the `}`: the object's value, as for
its JSON text.  So `{"a" 1 "b" 2}` gives `{"a": 1, "b": 2}`. -/
theorem parse_object_loose {members : List (List UInt8 × JsonTree)} {e : List UInt8}
    (he : JsonTree.LooseMembersText members e) {w : List UInt8} (hw : IsWs w) (rest : List UInt8)
    (fuel : Nat) (hfuel : 2 * e.length + 4 ≤ fuel) :
    parse stod fuel (w ++ '{'.toUInt8 :: e ++ '}'.toUInt8 :: rest) =
      Outcome.ofExcept ((JsonTree.object members).toValue stod) := by
  obtain ⟨fuel, rfl⟩ : ∃ f, fuel = f + 2 := ⟨fuel - 2, by omega⟩
  obtain ⟨r, hquote⟩ := he.skipWhitespace_quote ('}'.toUInt8 :: rest)
  rw [parse, List.append_assoc, parseValue_append_space stod (isspace_of_isWs hw), List.cons_append,
    parseValue_lbrace, parseObject_loop stod _ hquote (by decide),
    JsonTree.objectLoop_loose stod members he .empty rest fuel (by omega), JsonTree.toValue]
  cases JsonTree.membersToValue stod members <;> rfl
end Parser

/-- The text `{"a" true"b":null}`: no colon after the first key, and no comma after its value. -/
theorem parse_object_loose_no_separators :
    parse Library.stod 40 (ascii "\x7b\"a\" true\"b\":null\x7d") =
      Outcome.ofExcept ((JsonTree.object [(ascii "a", .bool true), (ascii "b", .null)]).toValue
        Library.stod) :=
  @parse_object_loose Library.stod [(ascii "a", .bool true), (ascii "b", .null)]
    (ascii "\"a\" true\"b\":null")
    ⟨[], _, [0x20], [], _, [], _, by decide, ⟨[[0x61]], .cons (.plain (by decide) (by decide)
      (by decide)) .nil, rfl⟩, by decide, .inl rfl, rfl, by decide, rfl, .inr ⟨_, .inl rfl,
      ⟨[], _, [], [':'.toUInt8], _, [], [], by decide, ⟨[[0x62]], .cons (.plain (by decide)
        (by decide) (by decide)) .nil, rfl⟩, by decide, .inr ⟨[], by decide, rfl⟩, rfl, by decide,
        rfl, .inl ⟨rfl, rfl⟩⟩⟩⟩
    [] (by decide) [] 40 (by decide)

/-! ## A trailing comma

After a comma `parse_object` goes round its loop again, and `parse_string` skips one byte as the
opening quote of a key whatever it is.  So a comma after the last member makes the `}` that
closes the object the quote of one more key: the rest of the text up to a quote becomes that
key, and its value is whatever `parse_value` finds after it. -/

section Parser

variable (stod : List UInt8 → Except StdException (BitVec 64))

/-- On bytes without a quote or a backslash the loop of `parse_string` copies them all and
finds no closing quote. -/
theorem stringLoop_of_plain {r : List UInt8} (hquote : '"'.toUInt8 ∉ r)
    (hbackslash : '\\'.toUInt8 ∉ r) : stringLoop r = (r, []) := by
  induction r with
  | nil => rfl
  | cons c r ih =>
    rw [List.mem_cons, not_or] at hquote hbackslash
    rw [stringLoop_plain (Ne.symm hquote.1) (Ne.symm hbackslash.1), ih hquote.2 hbackslash.2]

/-- The last round of the loop after a trailing comma: the `}` is skipped as a key's opening
quote, the rest of the text is the key, and its value is the null `parse_value` returns at the
end of the text. -/
theorem objectLoop_closing_brace_key (obj : JsonObject) {w : List UInt8} (hw : IsWs w)
    {r : List UInt8} (hquote : '"'.toUInt8 ∉ r) (hbackslash : '\\'.toUInt8 ∉ r) (fuel : Nat) :
    objectLoop stod (fuel + 2) obj (w ++ '}'.toUInt8 :: r) =
      .ok (.object (JsonObject.assign r .null obj), []) := by
  obtain ⟨c, cs, hcs⟩ := List.exists_cons_of_ne_nil (show w ++ '}'.toUInt8 :: r ≠ [] by simp)
  rw [hcs, objectLoop, ← hcs]
  simp only [skipWhitespace_append_of_space (isspace_of_isWs hw),
    @skipWhitespace_cons_of_not_space '}'.toUInt8 rfl, parseString, List.drop_one, List.tail_cons,
    stringLoop_of_plain hquote hbackslash]
  rfl

/-- The loop of `parse_object` on the members of an object followed by a comma, white space,
`}` and a text `r` without a quote or a backslash: the members are assigned in order, and then
`r` is assigned null. -/
theorem JsonTree.objectLoop_trailing_comma : (members : List (List UInt8 × JsonTree)) →
    ∀ {e : List UInt8}, JsonTree.MembersText members e →
    ∀ (obj : JsonObject) {w : List UInt8}, IsWs w → ∀ {r : List UInt8}, '"'.toUInt8 ∉ r →
    '\\'.toUInt8 ∉ r → ∀ (fuel : Nat), 2 * e.length < fuel →
    objectLoop stod fuel obj (e ++ ','.toUInt8 :: w ++ '}'.toUInt8 :: r) =
      (fun ms => (JsonValue.object (JsonObject.assign r .null
        (JsonObject.assignMembers ms obj)), [])) <$>
        Outcome.ofExcept (JsonTree.membersToValue stod members)
  | [], _, h, _, _, _, _, _, _, _, _ => h.elim
  | (k, v) :: ms, _, ⟨w₁, ek, w₂, w₃, t, w₄, more, hw₁, hek, hw₂, hw₃, ht, hw₄, rfl, hmore⟩,
      obj, w, hw, r, hquote, hbackslash, fuel, hfuel => by
    obtain ⟨fuel, rfl⟩ : ∃ f, fuel = f + 1 := ⟨fuel - 1, by omega⟩
    simp only [List.length_append, List.length_cons] at hfuel
    have hafter : skipWhitespace (w₄ ++ (more ++ ','.toUInt8 :: (w ++ '}'.toUInt8 :: r))) =
        more ++ ','.toUInt8 :: (w ++ '}'.toUInt8 :: r) := by
      rw [skipWhitespace_append_of_space (isspace_of_isWs hw₄)]
      rcases hmore with ⟨-, rfl⟩ | ⟨e', rfl, -⟩ <;> rfl
    have hround := objectLoop_member_round stod hw₁ hek hw₂ (.inr ⟨w₃, hw₃, rfl⟩) ht
      (w₄ ++ (more ++ ','.toUInt8 :: (w ++ '}'.toUInt8 :: r)))
      (by rcases hmore with ⟨-, rfl⟩ | ⟨e', rfl, -⟩ <;> exact stops_ws_append hw₄ (by decide) _)
      obj fuel (by omega)
    simp only [List.append_assoc, List.cons_append] at hround ⊢
    rw [hround, hafter]
    refine JsonTree.membersToValue_cons_bind stod k v ms _ fun x => ?_
    rcases hmore with ⟨rfl, rfl⟩ | ⟨e', rfl, he'⟩
    · obtain ⟨f, rfl⟩ : ∃ f, fuel = f + 2 := ⟨fuel - 2, by omega⟩
      simp only [List.nil_append, if_true]
      rw [objectLoop_closing_brace_key stod _ hw hquote hbackslash]
      rfl
    · simp only [List.cons_append, if_true]
      rw [← List.cons_append, ← List.append_assoc, JsonTree.objectLoop_trailing_comma ms
        he' _ hw hquote hbackslash fuel (by simp only [List.length_cons] at hfuel; omega)]
      rfl

/-- `parse` on the JSON text of a non-empty object with a comma after its last member, white
space around, and then any text `r` without a quote or a backslash: the object has one member
more than the text writes, the key `r` with a null value, and the text after `}` is consumed as
that key.  So `{"a":true,}` gives `{"": null, "a": true}`. -/
theorem parse_object_trailing_comma {members : List (List UInt8 × JsonTree)} {e : List UInt8}
    (he : JsonTree.MembersText members e) {w w' : List UInt8} (hw : IsWs w) (hw' : IsWs w')
    {r : List UInt8} (hquote : '"'.toUInt8 ∉ r) (hbackslash : '\\'.toUInt8 ∉ r)
    {values : List (List UInt8 × JsonValue)}
    (hvalues : JsonTree.membersToValue stod members = .ok values) (fuel : Nat)
    (hfuel : 2 * e.length + 2 < fuel) :
    parse stod fuel (w ++ '{'.toUInt8 :: e ++ ','.toUInt8 :: w' ++ '}'.toUInt8 :: r) =
      .ok (.object (JsonObject.assign r .null (JsonObject.ofList values))) := by
  obtain ⟨fuel, rfl⟩ : ∃ f, fuel = f + 2 := ⟨fuel - 2, by omega⟩
  cases members with
  | nil => exact he.elim
  | cons m ms =>
    obtain ⟨k, v⟩ := m
    obtain ⟨w₁, ek, w₂, w₃, t₁, w₄, more, hw₁, hek, hw₂, hw₃, ht₁, hw₄, rfl, hmore⟩ := he
    have he' : JsonTree.MembersText ((k, v) :: ms)
        ('"'.toUInt8 :: ek ++ '"'.toUInt8 :: w₂ ++ ':'.toUInt8 :: w₃ ++ t₁ ++ w₄ ++ more) :=
      ⟨[], ek, w₂, w₃, t₁, w₄, more, by simp [IsWs], hek, hw₂, hw₃, ht₁, hw₄, rfl, hmore⟩
    have hloop := JsonTree.objectLoop_trailing_comma stod ((k, v) :: ms) he' .empty hw' hquote
      hbackslash fuel (by simp at hfuel ⊢; omega)
    simp only [List.cons_append, List.append_assoc, List.nil_append] at hloop ⊢
    rw [parse, parseValue_append_space stod (isspace_of_isWs hw), parseValue_lbrace,
      parseObject_open stod _ (isspace_of_isWs hw₁) (show isspace '"'.toUInt8 = false from rfl),
      if_neg (by decide), hloop, hvalues]
    rfl

end Parser

/-- The text `{"a":true,}`: one member more, the empty key with a null value. -/
theorem parse_object_trailing_comma_empty_key :
    parse Library.stod 32 (ascii "\x7b\"a\":true,\x7d") =
      .ok (.object (JsonObject.assign [] .null (JsonObject.ofList [(ascii "a", .bool true)]))) :=
  @parse_object_trailing_comma Library.stod [(ascii "a", .bool true)] (ascii "\"a\":true")
    ⟨[], _, [], [], _, [], [], by decide, ⟨[[0x61]], .cons (.plain (by decide) (by decide)
      (by decide)) .nil, rfl⟩, by decide, by decide, rfl, by decide, rfl, .inl ⟨rfl, rfl⟩⟩
    [] [] (by decide) (by decide) [] (by decide) (by decide) _ rfl 32 (by decide)

end Json
end PolyGenSupport
