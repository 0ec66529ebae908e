import PolyGenSupport.Json.Objects

/-!
# What `parse_array` reads between the brackets

Each round of the loop of `parse_array` reads a value, skips white space, and then goes on
after a `,`, stops after a `]`, and otherwise goes round again where it is.  `parse_value`
returns a null, without moving, at a byte that starts no value.  So the loop reads more than the
JSON grammar writes:

* a slot with no value before a `,` or the `]`, as in `[1,,2]` or `[1,]`, is a null element;
* two values need no comma between them, white space will do, as in `[1 2]`.

`parse_array_slots` says what `parse` returns on every such text: the array of the slots'
values, with a null for each empty slot.  The one text of slots it reads otherwise is a single
empty slot, `[ ]`, which is the empty array.

The loops of `parse_array`, `parse_object` and `parse_string` also stop at the end of the text,
as they stop at their closing bracket or quote.  So `parse_unclosed`: the JSON text of an array,
an object or a string with its last byte cut off reads as the whole text, `[1` as `[1]` and
`"ab` as `"ab"`.
-/

namespace PolyGenSupport
namespace Json

/-- A slot of an array's text: a value's text, or nothing. -/
def SlotText : Option JsonTree → List UInt8 → Prop
  | none, t => t = []
  | some v, t => v.Text t

/-- What may stand after a slot and before the next: white space and a comma or, between two
values, white space alone, at least one byte of it. -/
def SlotSeparator (s s' : Option JsonTree) (sep : List UInt8) : Prop :=
  (∃ w, IsWs w ∧ sep = w ++ [','.toUInt8]) ∨ (s.isSome ∧ s'.isSome ∧ IsWs sep ∧ sep ≠ [])

/-- The text between the brackets of an array as the loop of `parse_array` reads it: slots, each
with white space in front, a separator after each but the last, and white space after the
last. -/
def SlotsText : List (Option JsonTree) → List UInt8 → Prop
  | [], _ => False
  | [s], e => ∃ w₁ t w₂, IsWs w₁ ∧ SlotText s t ∧ IsWs w₂ ∧ e = w₁ ++ t ++ w₂
  | s :: s' :: ss, e => ∃ w₁ t sep e', IsWs w₁ ∧ SlotText s t ∧ SlotSeparator s s' sep ∧
      SlotsText (s' :: ss) e' ∧ e = w₁ ++ t ++ sep ++ e'

/-- The slots text of a non-empty JSON array: its elements separated by commas. -/
theorem slotsText_of_elementsText :
    (items : List JsonTree) → ∀ {e : List UInt8}, JsonTree.ElementsText items e →
      SlotsText (items.map some) e
  | [], _, h => h.elim
  | [v], _, ⟨w₁, t, w₂, more, hw₁, ht, hw₂, he, hmore⟩ => by
    obtain ⟨-, rfl⟩ | ⟨_, _, h⟩ := hmore
    · exact ⟨w₁, t, w₂, hw₁, ht, hw₂, by simpa using he⟩
    · exact h.elim
  | v :: v' :: vs, _, ⟨w₁, t, w₂, more, hw₁, ht, hw₂, he, hmore⟩ => by
    obtain ⟨h, -⟩ | ⟨e', rfl, he'⟩ := hmore
    · cases h
    · exact ⟨w₁, t, w₂ ++ [','.toUInt8], e', hw₁, ht, .inl ⟨w₂, hw₂, rfl⟩,
        slotsText_of_elementsText (v' :: vs) he', by simp [he]⟩

section Parser

variable (stod : List UInt8 → Except StdException (BitVec 64))

/-- White space in front changes nothing for `parse_value`. -/
theorem parseValue_skipWhitespace (fuel : Nat) (json : List UInt8) :
    parseValue stod fuel (skipWhitespace json) = parseValue stod fuel json := by
  cases fuel with
  | zero => rfl
  | succ fuel => simp only [parseValue, skipWhitespace, List.dropWhile_idempotent]

/-- Nor for a round of the loop, unless only white space is left. -/
theorem arrayLoop_skipWhitespace (fuel : Nat) (arr : List JsonValue) {json : List UInt8}
    (h : skipWhitespace json ≠ []) :
    arrayLoop stod fuel arr (skipWhitespace json) = arrayLoop stod fuel arr json := by
  obtain ⟨c, cs, hcs⟩ := List.exists_cons_of_ne_nil h
  obtain ⟨d, ds, rfl⟩ : ∃ d ds, json = d :: ds := by
    cases json with
    | nil => exact absurd rfl h
    | cons d ds => exact ⟨d, ds, rfl⟩
  cases fuel with
  | zero => rfl
  | succ fuel => rw [hcs, arrayLoop, arrayLoop, ← hcs, parseValue_skipWhitespace]

/-- When the text after the opening bracket goes on, after white space, with anything but `]`,
`parse_array` starts its loop right there. -/
theorem parseArray_loop (b : UInt8) {json : List UInt8} {c : UInt8} {r : List UInt8}
    (hc : skipWhitespace json = c :: r) (hclose : c ≠ ']'.toUInt8) (fuel : Nat) :
    parseArray stod (fuel + 1) (b :: json) = arrayLoop stod fuel [] json := by
  simp only [parseArray, List.drop_one, List.tail_cons, hc, if_neg hclose]
  rw [← hc, arrayLoop_skipWhitespace stod fuel [] (by simp [hc])]

/-- After white space, the text of slots that start with a value goes on with that value's first
byte, which is neither `,` nor `]`. -/
theorem SlotsText.skipWhitespace_of_some {v : JsonTree} {ss : List (Option JsonTree)}
    {e : List UInt8} (h : SlotsText (some v :: ss) e) (after : List UInt8) :
    ∃ c r, skipWhitespace (e ++ after) = c :: r ∧ c ≠ ','.toUInt8 ∧ c ≠ ']'.toUInt8 := by
  have first : ∀ {w₁ t : List UInt8} (more : List UInt8), IsWs w₁ → v.Text t →
      ∃ c r, skipWhitespace (w₁ ++ (t ++ more)) = c :: r ∧ c ≠ ','.toUInt8 ∧ c ≠ ']'.toUInt8 := by
    intro w₁ t more hw₁ ht
    obtain ⟨c, t', rfl, hspace, hclose, hcomma, -⟩ := ht.head
    exact ⟨c, t' ++ more, by rw [skipWhitespace_append_of_space (isspace_of_isWs hw₁),
      List.cons_append, skipWhitespace_cons_of_not_space hspace], hcomma, hclose⟩
  cases ss with
  | nil =>
    obtain ⟨w₁, t, w₂, hw₁, ht, -, rfl⟩ := h
    simpa only [List.append_assoc] using first (w₂ ++ after) hw₁ ht
  | cons s' ss =>
    obtain ⟨w₁, t, sep, e', hw₁, ht, -, -, rfl⟩ := h
    simpa only [List.append_assoc] using first (sep ++ (e' ++ after)) hw₁ ht

/-- One round of the loop on a slot, followed by text that goes on, after white space, with a
byte `c` (a `,` or `]` after an empty slot): the slot's value is pushed, and `c` decides what
the loop does next. -/
theorem arrayLoop_slot {s : Option JsonTree} {t : List UInt8} (ht : SlotText s t) {w₁ : List UInt8}
    (hw₁ : IsWs w₁) (after : List UInt8) {c : UInt8} {r : List UInt8}
    (hafter : skipWhitespace after = c :: r) (hstops : Stops after)
    (hempty : s = none → c = ','.toUInt8 ∨ c = ']'.toUInt8) (arr : List JsonValue) (fuel : Nat)
    (hfuel : 2 * t.length < fuel) :
    arrayLoop stod (fuel + 1) arr (w₁ ++ t ++ after) =
      Outcome.ofExcept ((s.getD .null).toValue stod) >>= fun value =>
        if c = ','.toUInt8 then arrayLoop stod fuel (arr ++ [value]) r
        else if c = ']'.toUInt8 then .ok (.array (arr ++ [value]), r)
        else arrayLoop stod fuel (arr ++ [value]) (c :: r) := by
  obtain ⟨d, ds, hds⟩ := List.exists_cons_of_ne_nil
    (show w₁ ++ t ++ after ≠ [] by rintro h; simp_all [skipWhitespace])
  rw [hds, arrayLoop, ← hds]
  cases s with
  | none =>
    obtain rfl : t = [] := ht
    obtain ⟨fuel, rfl⟩ : ∃ f, fuel = f + 1 := ⟨fuel - 1, by simp at hfuel; omega⟩
    have hspace : isspace c = false := by rcases hempty rfl with rfl | rfl <;> rfl
    have hvalue : parseValue stod (fuel + 1) (w₁ ++ [] ++ after) = .ok (.null, c :: r) := by
      rw [List.append_nil, parseValue_append_space stod (isspace_of_isWs hw₁), ←
        parseValue_skipWhitespace, hafter]
      rcases hempty rfl with rfl | rfl <;> rfl
    simp only [hvalue, Outcome.ok_bind, skipWhitespace_cons_of_not_space hspace]
    rfl
  | some v =>
    rw [List.append_assoc, JsonTree.parseValue_text stod v ht after fuel hw₁ hstops (by omega),
      Option.getD_some]
    cases v.toValue stod with
    | error ex => rfl
    | ok x => simp only [Outcome.ofExcept_ok, Outcome.map_ok, Outcome.ok_bind, hafter]

/-- The loop of `parse_array` on slots up to the closing `]`: their values pushed after `arr`,
in order, a null for each empty slot, or the first exception. -/
theorem arrayLoop_slots : (slots : List (Option JsonTree)) → ∀ {e : List UInt8},
    SlotsText slots e → ∀ (arr : List JsonValue) (rest : List UInt8) (fuel : Nat),
    2 * e.length + 2 ≤ fuel →
    arrayLoop stod fuel arr (e ++ ']'.toUInt8 :: rest) =
      (fun xs => (JsonValue.array (arr ++ xs), rest)) <$>
        Outcome.ofExcept (JsonTree.itemsToValue stod (slots.map fun s => s.getD .null))
  | [], _, h, _, _, _, _ => h.elim
  | [s], _, ⟨w₁, t, w₂, hw₁, ht, hw₂, rfl⟩, arr, rest, fuel, hfuel => by
    obtain ⟨fuel, rfl⟩ : ∃ f, fuel = f + 1 := ⟨fuel - 1, by omega⟩
    have hne : ']'.toUInt8 ≠ ','.toUInt8 := by decide
    rw [List.append_assoc, arrayLoop_slot stod ht hw₁ (w₂ ++ ']'.toUInt8 :: rest)
      (by rw [skipWhitespace_append_of_space (isspace_of_isWs hw₂)]; rfl)
      (stops_ws_append hw₂ (by decide) rest) (fun _ => .inr rfl) arr fuel
      (by simp only [List.length_append] at hfuel; omega)]
    simp only [List.map, JsonTree.itemsToValue, hne, if_false, if_true]
    cases (s.getD .null).toValue stod <;> rfl
  | s :: s' :: ss, _, ⟨w₁, t, sep, e', hw₁, ht, hsep, he', rfl⟩, arr, rest, fuel, hfuel => by
    obtain ⟨fuel, rfl⟩ : ∃ f, fuel = f + 1 := ⟨fuel - 1, by omega⟩
    simp only [List.length_append] at hfuel
    have hloop : ∀ value, arrayLoop stod fuel (arr ++ [value]) (e' ++ ']'.toUInt8 :: rest) =
        (fun xs => (JsonValue.array (arr ++ (value :: xs)), rest)) <$>
          Outcome.ofExcept (JsonTree.itemsToValue stod ((s' :: ss).map fun s => s.getD .null)) :=
      fun value => by
        rw [arrayLoop_slots (s' :: ss) he' (arr ++ [value]) rest fuel (by
          rcases hsep with ⟨w, -, rfl⟩ | ⟨-, -, -, hsep⟩
          · simp only [List.length_append, List.length_singleton] at hfuel; omega
          · have := List.length_pos.mpr hsep; omega)]
        simp only [List.append_assoc, List.singleton_append]
    rw [List.map_cons]
    rcases hsep with ⟨w, hw, rfl⟩ | ⟨hsome, hsome', hsep, hsep'⟩
    · rw [show w₁ ++ t ++ (w ++ [','.toUInt8]) ++ e' ++ ']'.toUInt8 :: rest =
          w₁ ++ t ++ (w ++ ','.toUInt8 :: (e' ++ ']'.toUInt8 :: rest)) by simp,
        arrayLoop_slot stod ht hw₁ _
          (by rw [skipWhitespace_append_of_space (isspace_of_isWs hw)]; rfl)
          (stops_ws_append hw (by decide) _) (fun _ => .inl rfl) arr fuel
          (by simp only [List.length_append, List.length_singleton] at hfuel; omega)]
      exact JsonTree.itemsToValue_cons_bind stod _ _ _ fun value => by rw [if_pos rfl, hloop]
    · obtain ⟨v, rfl⟩ := Option.isSome_iff_exists.mp hsome
      obtain ⟨v', rfl⟩ := Option.isSome_iff_exists.mp hsome'
      obtain ⟨c, r, hc, hcomma, hclose⟩ := he'.skipWhitespace_of_some (']'.toUInt8 :: rest)
      have hafter : skipWhitespace (sep ++ (e' ++ ']'.toUInt8 :: rest)) = c :: r := by
        rw [skipWhitespace_append_of_space (isspace_of_isWs hsep), hc]
      have hstops : Stops (sep ++ (e' ++ ']'.toUInt8 :: rest)) := by
        obtain ⟨b, bs, rfl⟩ := List.exists_cons_of_ne_nil hsep'
        exact fun a ha => stops_of_isWs hsep a (by simpa using ha)
      rw [show w₁ ++ t ++ sep ++ e' ++ ']'.toUInt8 :: rest =
          w₁ ++ t ++ (sep ++ (e' ++ ']'.toUInt8 :: rest)) by simp,
        arrayLoop_slot stod ht hw₁ _ hafter hstops (fun h => by cases h) arr fuel
          (by omega)]
      refine JsonTree.itemsToValue_cons_bind stod _ _ _ fun value => ?_
      rw [if_neg hcomma, if_neg hclose, ← hc, arrayLoop_skipWhitespace stod fuel _ (by simp [hc]),
        hloop]

/-- `parse` on an array's text as the loop of `parse_array` reads it, with white space in front
and anything after the `]`: the array of the slots' values, a null for each empty slot, unless
the text is a single empty slot, which is `[ ]`.  So `[1,,2]` gives `[1, null, 2]`, `[1,]` gives
`[1, null]`, and `[1 2]` gives `[1, 2]`; on a JSON array the slots are its elements. -/
theorem parse_array_slots {slots : List (Option JsonTree)} {e : List UInt8}
    (he : SlotsText slots e) (hslots : slots ≠ [none]) {w : List UInt8} (hw : IsWs w)
    (rest : List UInt8) (fuel : Nat) (hfuel : 2 * e.length + 4 ≤ fuel) :
    parse stod fuel (w ++ '['.toUInt8 :: e ++ ']'.toUInt8 :: rest) =
      Outcome.ofExcept ((JsonTree.array (slots.map fun s => s.getD .null)).toValue stod) := by
  obtain ⟨fuel, rfl⟩ : ∃ f, fuel = f + 2 := ⟨fuel - 2, by omega⟩
  obtain ⟨c, r, hc, hclose⟩ : ∃ c r, skipWhitespace (e ++ ']'.toUInt8 :: rest) = c :: r ∧
      c ≠ ']'.toUInt8 := by
    match slots, he with
    | some v :: ss, he =>
      obtain ⟨c, r, hc, -, hclose⟩ := he.skipWhitespace_of_some (']'.toUInt8 :: rest)
      exact ⟨c, r, hc, hclose⟩
    | [none], _ => exact absurd rfl hslots
    | none :: s' :: ss, ⟨w₁, t, sep, e', hw₁, ht, hsep, _, he⟩ =>
      obtain rfl : t = [] := ht
      obtain ⟨w₂, hw₂, rfl⟩ := hsep.resolve_right fun h => absurd h.1 (by decide)
      subst he
      refine ⟨','.toUInt8, e' ++ ']'.toUInt8 :: rest, ?_, by decide⟩
      simp only [List.append_nil, List.append_assoc, List.singleton_append,
        skipWhitespace_append_of_space (isspace_of_isWs hw₁),
        skipWhitespace_append_of_space (isspace_of_isWs hw₂)]
      rfl
  rw [parse, List.append_assoc, parseValue_append_space stod (isspace_of_isWs hw), List.cons_append,
    parseValue_lbracket, parseArray_loop stod _ hc hclose,
    arrayLoop_slots stod slots he [] rest fuel (by omega), JsonTree.toValue]
  cases JsonTree.itemsToValue stod (slots.map fun s => s.getD .null) <;> rfl

/-! ## The end of the text -/

/-- The loop of `parse_array` on the elements of an array when the text ends right after them:
their values, as if the `]` were there. -/
theorem JsonTree.arrayLoop_end : (items : List JsonTree) → ∀ {e : List UInt8},
    JsonTree.ElementsText items e → ∀ (arr : List JsonValue) (fuel : Nat), 2 * e.length + 2 ≤ fuel →
    arrayLoop stod fuel arr e =
      (fun xs => (JsonValue.array (arr ++ xs), [])) <$>
        Outcome.ofExcept (JsonTree.itemsToValue stod items)
  | [], _, h, _, _, _ => h.elim
  | v :: vs, _, ⟨w₁, t, w₂, more, hw₁, ht, hw₂, rfl, hmore⟩, arr, fuel, hfuel => by
    obtain ⟨fuel, rfl⟩ : ∃ f, fuel = f + 1 := ⟨fuel - 1, by omega⟩
    simp only [List.length_append] at hfuel
    obtain ⟨c, t', rfl, -⟩ := ht.head
    have hstops : Stops (w₂ ++ more) := by
      rcases hmore with ⟨-, rfl⟩ | ⟨e', rfl, -⟩
      · simpa using stops_of_isWs hw₂
      · exact stops_ws_append hw₂ (by decide) e'
    obtain ⟨d, ds, hds⟩ := List.exists_cons_of_ne_nil
      (show w₁ ++ c :: t' ++ w₂ ++ more ≠ [] by simp)
    rw [hds, arrayLoop, ← hds, List.append_assoc, List.append_assoc,
      JsonTree.parseValue_text stod v ht _ fuel hw₁ hstops
        (by simp only [List.length_cons] at hfuel ⊢; omega), Outcome.map_bind]
    refine JsonTree.itemsToValue_cons_bind stod v vs _ fun x => ?_
    dsimp only
    rw [skipWhitespace_append_of_space (isspace_of_isWs hw₂)]
    rcases hmore with ⟨rfl, rfl⟩ | ⟨e', rfl, he'⟩
    · obtain ⟨fuel, rfl⟩ : ∃ f, fuel = f + 1 := ⟨fuel - 1, by omega⟩
      rfl
    · simp only [@skipWhitespace_cons_of_not_space ','.toUInt8 rfl, if_true]
      rw [JsonTree.arrayLoop_end vs he' (arr ++ [x]) fuel
        (by simp only [List.length_cons] at hfuel; omega)]
      simp only [List.append_assoc, List.singleton_append]

/-- `parse_value` on an array's JSON text with its closing bracket cut off: the array's value,
at the end of the text. -/
theorem JsonTree.parseValue_array_dropLast {items : List JsonTree} {t : List UInt8}
    (ht : (JsonTree.array items).Text t) (fuel : Nat) (hfuel : 2 * t.length ≤ fuel + 1) :
    parseValue stod (fuel + 1) t.dropLast =
      (fun v => (v, [])) <$> Outcome.ofExcept ((JsonTree.array items).toValue stod) := by
  match items, ht with
  | [], ⟨w', hw', (ht : t = _)⟩ =>
    subst ht
    obtain ⟨fuel, rfl⟩ : ∃ f, fuel = f + 2 := ⟨fuel - 2, by simp at hfuel; omega⟩
    rw [List.dropLast_concat, parseValue_lbracket]
    simp only [parseArray, List.drop_one, List.tail_cons, skipWhitespace,
      List.dropWhile_eq_nil_iff.mpr (isspace_of_isWs hw')]
    rfl
  | v :: vs, ⟨e, he, (ht : t = _)⟩ =>
    subst ht
    obtain ⟨fuel, rfl⟩ : ∃ f, fuel = f + 1 := ⟨fuel - 1, by simp at hfuel; omega⟩
    obtain ⟨c, r, hc, -, hclose⟩ :=
      (slotsText_of_elementsText (v :: vs) he).skipWhitespace_of_some []
    rw [List.append_nil] at hc
    rw [List.dropLast_concat, parseValue_lbracket, parseArray_loop stod _ hc hclose,
      JsonTree.arrayLoop_end stod (v :: vs) he [] fuel (by simp at hfuel; omega), JsonTree.toValue]
    cases JsonTree.itemsToValue stod (v :: vs) <;> rfl

/-- `parse` on the JSON text of an array, an object or a string cut short by its last byte,
the closing bracket or quote, with white space in front: the value of the whole text.  The loops
stop at the end of the text as they stop at the bracket or the quote, so a text cut off after
its last element, member or byte reads as complete. -/
theorem parse_unclosed {J : JsonTree} {t : List UInt8} (ht : J.Text t)
    (hopen : t.head? = some '['.toUInt8 ∨ t.head? = some '{'.toUInt8 ∨
      t.head? = some '"'.toUInt8) {w : List UInt8}
    (hw : IsWs w) (fuel : Nat) (hfuel : 2 * t.length ≤ fuel) :
    parse stod fuel (w ++ t.dropLast) = Outcome.ofExcept (J.toValue stod) := by
  obtain ⟨c, t', rfl, -⟩ := ht.head
  obtain ⟨fuel, rfl⟩ : ∃ f, fuel = f + 1 := ⟨fuel - 1, by simp at hfuel; omega⟩
  rw [parse, parseValue_append_space stod (isspace_of_isWs hw)]
  match J, ht with
  | .null, (ht : _ = _) => rw [ht] at hopen; exact absurd hopen (by decide)
  | .bool true, (ht : _ = _) => rw [ht] at hopen; exact absurd hopen (by decide)
  | .bool false, (ht : _ = _) => rw [ht] at hopen; exact absurd hopen (by decide)
  | .number token, ⟨htoken, (ht : _ = token)⟩ =>
    obtain ⟨⟨d, rest, hd, hdigit⟩, -⟩ := htoken.scan
    obtain ⟨rfl, -⟩ := List.cons.inj (ht.trans hd)
    simp only [List.head?_cons, Option.some.injEq] at hopen
    rcases hopen with rfl | rfl | rfl <;> rcases hdigit with h | h <;> exact absurd h (by decide)
  | .string s, ⟨e, he, (ht : _ = _)⟩ =>
    rw [ht, List.dropLast_concat, parseValue_quote, parseString_text_end he]
    rfl
  | .array items, ht =>
    rw [JsonTree.parseValue_array_dropLast stod ht fuel hfuel]
    cases (JsonTree.array items).toValue stod <;> rfl
  | .object members, ht =>
    rw [JsonTree.parseValue_object_dropLast stod ht fuel hfuel]
    cases (JsonTree.object members).toValue stod <;> rfl

end Parser

/-- The text `[1 2,,]`: two values with no comma between them, then two empty slots. -/
theorem parse_array_slots_lenient :
    parse Library.stod 14 (ascii "[1 2,,]") =
      Outcome.ofExcept ((JsonTree.array [.number (ascii "1"), .number (ascii "2"), .null,
        .null]).toValue Library.stod) := by
  have hdigit : ∀ d : UInt8, '1'.toUInt8 ≤ d → d ≤ '9'.toUInt8 →
      SlotText (some (.number [d])) [d] :=
    fun d h₁ h₂ => ⟨⟨[], [d], [], [], rfl, .inl rfl, .inr ⟨d, [], rfl, h₁, h₂, by simp⟩, .inl rfl,
      .inl rfl⟩, rfl⟩
  exact @parse_array_slots Library.stod
    [some (.number (ascii "1")), some (.number (ascii "2")), none, none] (ascii "1 2,,")
    ⟨[], _, [0x20], _, by decide, hdigit _ (by decide) (by decide),
      .inr ⟨rfl, rfl, by decide, by simp⟩,
      ⟨[], _, [','.toUInt8], _, by decide, hdigit _ (by decide) (by decide),
        .inl ⟨[], by decide, rfl⟩,
        ⟨[], [], [','.toUInt8], _, by decide, rfl, .inl ⟨[], by decide, rfl⟩,
          ⟨[], [], [], by decide, rfl, by decide, rfl⟩, rfl⟩, rfl⟩, rfl⟩
    (by simp) [] (by decide) [] 14 (by decide)

/-- The text `[1`: the array `[1]`. -/
theorem parse_unclosed_array :
    parse Library.stod 6 (ascii "[1") =
      Outcome.ofExcept ((JsonTree.array [.number (ascii "1")]).toValue Library.stod) :=
  @parse_unclosed Library.stod (.array [.number (ascii "1")]) (ascii "[1]")
    ⟨ascii "1", ⟨[], _, [], [], by decide, ⟨⟨[], ascii "1", [], [], rfl, .inl rfl,
      .inr ⟨_, [], rfl, by decide, by decide, by simp⟩, .inl rfl, .inl rfl⟩, rfl⟩, by decide,
      rfl, .inl ⟨rfl, rfl⟩⟩, rfl⟩
    (.inl rfl) [] (by decide) 6 (by decide)

end Json
end PolyGenSupport
