import PolyGenSupport.Json.Number

/-!
# The fields of a `JsonValue`

The class keeps a type tag `type_` and one field per type: `bool_val_`, `num_val_`, `str_val_`,
`arr_val_` and `obj_val_`.  A constructor sets the tag and its own field and leaves the others at
their defaults, `false`, `0.0` and empty.  The accessors read their field whatever the tag, as
`has` and the `const` `operator[]` read `obj_val_`; the non-`const` `operator[]` inserts into
`obj_val_` whatever the tag.  `JsonCell` is this layout, and `JsonValue.toCell` lays out the value
a constructor builds from the inductive `JsonValue` of the other modules.

`run_toCell_not_object`: on a value that is not an object, uses of the non-`const` `operator[]`
fill `obj_val_` under the unchanged tag.  `has(key)` holds for each key they named while
`is_object()` is false, and no constructor builds the result.  The step lemmas are
`JsonCell.type_use` and `JsonCell.has_use`; the run lemmas follow by induction over the uses.
-/
namespace PolyGenSupport
namespace Json

/-- `JsonValue::Type`. -/
inductive JsonType where
  | null
  | bool
  | number
  | string
  | array
  | object
deriving DecidableEq, Repr

/-- `type()` of the value a constructor built: the tag it set. -/
def JsonValue.type : JsonValue → JsonType
  | .null => .null
  | .bool _ => .bool
  | .number _ => .number
  | .string _ => .string
  | .array _ => .array
  | .object _ => .object

/-- A `JsonValue` as the class lays it out: `type_`, `bool_val_`, `num_val_`, `str_val_`,
`arr_val_`, and `obj_val_` by its entries in key order. -/
inductive JsonCell where
  | mk (type : JsonType) (boolVal : Bool) (numVal : BitVec 64) (strVal : List UInt8)
      (arrVal : List JsonCell) (objVal : List (List UInt8 × JsonCell))
deriving Repr

namespace JsonCell

/-- `type()`: `type_`. -/
def type : JsonCell → JsonType
  | mk t _ _ _ _ _ => t

/-- `as_bool()`: `bool_val_`. -/
def boolVal : JsonCell → Bool
  | mk _ b _ _ _ _ => b

/-- `as_number()`: `num_val_`. -/
def numVal : JsonCell → BitVec 64
  | mk _ _ d _ _ _ => d

/-- `as_string()`: `str_val_`. -/
def strVal : JsonCell → List UInt8
  | mk _ _ _ s _ _ => s

/-- `as_array()`: `arr_val_`. -/
def arrVal : JsonCell → List JsonCell
  | mk _ _ _ _ items _ => items

/-- `as_object()`: `obj_val_`. -/
def objVal : JsonCell → List (List UInt8 × JsonCell)
  | mk _ _ _ _ _ members => members

/-- `JsonValue()`: the tag `Null` and every field at its default, also the static `null_val` of
the `const` `operator[]`. -/
def null : JsonCell := mk .null false 0 [] [] []

/-- `is_object()`. -/
def isObject (c : JsonCell) : Bool := c.type == .object

/-- `has(key)`. -/
def has (c : JsonCell) (key : List UInt8) : Bool := (JsonObject.find key c.objVal).isSome

/-- `operator[](key) const`: the member under `key`, or the static null value. -/
def index (c : JsonCell) (key : List UInt8) : JsonCell := (JsonObject.find key c.objVal).getD null

/-- `v[key] = x` through the non-`const` `operator[]`, which returns `obj_val_[key]` whatever
the tag: the map assignment of `std::map`, on the laid-out entries. -/
def assignAt (c : JsonCell) (key : List UInt8) (x : JsonCell) : JsonCell :=
  mk c.type c.boolVal c.numVal c.strVal c.arrVal (JsonObject.insertOrAssign key x c.objVal)

/-- A read `v[key]` through the non-`const` `operator[]`: `std::map::operator[]` inserts a
value-initialised `JsonValue()` under a missing key. -/
def touch (c : JsonCell) (key : List UInt8) : JsonCell :=
  if c.has key then c else c.assignAt key null

@[simp] theorem type_mk (t b d s items members) :
    (mk t b d s items members).type = t := rfl
@[simp] theorem objVal_mk (t b d s items members) :
    (mk t b d s items members).objVal = members := rfl

end JsonCell

/-! ## The layout of the values the constructors build -/

mutual

/-- The object a constructor builds: the tag of the value's type and its one field, every other
field at its default. -/
def JsonValue.toCell : JsonValue → JsonCell
  | .null => .null
  | .bool b => .mk .bool b 0 [] [] []
  | .number d => .mk .number false d [] [] []
  | .string s => .mk .string false 0 s [] []
  | .array items => .mk .array false 0 [] (JsonValue.itemsToCell items) []
  | .object members => .mk .object false 0 [] [] (JsonValue.membersToCell members)

/-- The elements of an array, laid out. -/
def JsonValue.itemsToCell : List JsonValue → List JsonCell
  | [] => []
  | v :: vs => v.toCell :: JsonValue.itemsToCell vs

/-- The entries of an object, each value laid out. -/
def JsonValue.membersToCell : List (List UInt8 × JsonValue) → List (List UInt8 × JsonCell)
  | [] => []
  | (k, v) :: ms => (k, v.toCell) :: JsonValue.membersToCell ms

end

namespace JsonValue

/-- Only an object's layout has members. -/
theorem objVal_toCell_of_ne {v : JsonValue} (hv : v.type ≠ .object) : v.toCell.objVal = [] := by
  cases v <;> first | rfl | exact absurd rfl hv

theorem has_toCell_of_ne {v : JsonValue} (hv : v.type ≠ .object) (key : List UInt8) :
    v.toCell.has key = false := by
  rw [JsonCell.has, objVal_toCell_of_ne hv]
  rfl

end JsonValue

/-! ## Uses of the non-`const` `operator[]` -/

/-- A use of the non-`const` `operator[]` on a value: `v[key] = x`, or a read of `v[key]`. -/
inductive IndexUse where
  | assign (key : List UInt8) (x : JsonValue)
  | read (key : List UInt8)

/-- The key a use names. -/
def IndexUse.key : IndexUse → List UInt8
  | .assign key _ => key
  | .read key => key

/-- The object after one use of the non-`const` `operator[]`. -/
def JsonCell.use (c : JsonCell) : IndexUse → JsonCell
  | .assign key x => c.assignAt key x.toCell
  | .read key => c.touch key

namespace JsonCell

theorem type_use (c : JsonCell) (u : IndexUse) : (c.use u).type = c.type := by
  cases u with
  | assign key x => rfl
  | read key =>
    simp only [use, touch]
    split_ifs <;> rfl

/-- A use adds its key to the keys `has` finds, and removes none. -/
theorem has_use (c : JsonCell) (u : IndexUse) (k : List UInt8) :
    (c.use u).has k = true ↔ c.has k = true ∨ k = u.key := by
  have hassign : ∀ key x, (c.assignAt key x).has k = true ↔ c.has k = true ∨ k = key := by
    intro key x
    simp only [has, assignAt, objVal_mk, JsonObject.find_insertOrAssign]
    split_ifs with h <;> simp [h]
  cases u with
  | assign key x => exact hassign key x.toCell
  | read key =>
    simp only [use, touch, IndexUse.key]
    split_ifs with h
    · exact ⟨.inl, fun hk => hk.elim id (fun hk => hk ▸ h)⟩
    · exact hassign key null

theorem type_run (c : JsonCell) (uses : List IndexUse) :
    (uses.foldl use c).type = c.type := by
  induction uses generalizing c with
  | nil => rfl
  | cons u us ih => rw [List.foldl_cons, ih, type_use]

/-- After any uses, `has` finds the keys it found before and the keys the uses named. -/
theorem has_run (c : JsonCell) (uses : List IndexUse) (k : List UInt8) :
    (uses.foldl use c).has k = true ↔ c.has k = true ∨ ∃ u ∈ uses, u.key = k := by
  induction uses generalizing c with
  | nil => simp
  | cons u us ih =>
    rw [List.foldl_cons, ih, has_use]
    constructor
    · rintro ((h | rfl) | ⟨u', hu', rfl⟩)
      · exact .inl h
      · exact .inr ⟨u, List.mem_cons_self _ _, rfl⟩
      · exact .inr ⟨u', List.mem_cons_of_mem _ hu', rfl⟩
    · rintro (h | ⟨u', hu', rfl⟩)
      · exact .inl (.inl h)
      · rcases List.mem_cons.mp hu' with rfl | hu'
        · exact .inl (.inr rfl)
        · exact .inr ⟨u', hu', rfl⟩

end JsonCell

/-- On a value that is not an object, uses of the non-`const` `operator[]` fill `obj_val_` under
the unchanged tag: afterwards `has(key)` holds exactly for the keys the uses named, while
`is_object()` is false, and after at least one use the result is the layout of no value the
constructors build. -/
theorem run_toCell_not_object {v : JsonValue} (hv : v.type ≠ .object) (uses : List IndexUse) :
    ((uses.foldl JsonCell.use v.toCell).type = v.type ∧
        (uses.foldl JsonCell.use v.toCell).isObject = false) ∧
      (∀ k, (uses.foldl JsonCell.use v.toCell).has k = true ↔ ∃ u ∈ uses, u.key = k) ∧
      (uses ≠ [] → ∀ w : JsonValue, w.toCell ≠ uses.foldl JsonCell.use v.toCell) := by
  have htype : (uses.foldl JsonCell.use v.toCell).type = v.type := by
    rw [JsonCell.type_run]
    cases v <;> rfl
  have hhas : ∀ k, (uses.foldl JsonCell.use v.toCell).has k = true ↔ ∃ u ∈ uses, u.key = k := by
    intro k
    rw [JsonCell.has_run, JsonValue.has_toCell_of_ne hv]
    simp
  refine ⟨⟨htype, by simp [JsonCell.isObject, htype, hv]⟩, hhas, fun hne w hw => ?_⟩
  obtain ⟨u, hu⟩ := List.exists_mem_of_ne_nil uses hne
  have hwtype : w.type ≠ .object := by
    rw [← htype, ← hw] at hv
    cases w <;> exact hv
  have hfalse := JsonValue.has_toCell_of_ne hwtype u.key
  rw [hw, (hhas u.key).2 ⟨u, hu, rfl⟩] at hfalse
  exact Bool.noConfusion hfalse

/-- `JsonValue v; v["a"] = true;`: `v` stays null, `has("a")` holds, and no constructor builds
it. -/
theorem run_toCell_not_object_null :
    (([IndexUse.assign (ascii "a") (.bool true)].foldl JsonCell.use JsonValue.null.toCell).type =
          JsonValue.null.type ∧
        ([IndexUse.assign (ascii "a") (.bool true)].foldl JsonCell.use
          JsonValue.null.toCell).isObject = false) ∧
      (∀ k, ([IndexUse.assign (ascii "a") (.bool true)].foldl JsonCell.use
          JsonValue.null.toCell).has k = true ↔
        ∃ u ∈ [IndexUse.assign (ascii "a") (.bool true)], u.key = k) ∧
      ∀ w : JsonValue, w.toCell ≠ [IndexUse.assign (ascii "a") (.bool true)].foldl JsonCell.use
        JsonValue.null.toCell :=
  have h := run_toCell_not_object (v := .null) (by decide) [IndexUse.assign (ascii "a") (.bool true)]
  ⟨h.1, h.2.1, h.2.2 (List.cons_ne_nil _ _)⟩

end Json
end PolyGenSupport
