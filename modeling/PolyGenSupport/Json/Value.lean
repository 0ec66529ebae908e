import Mathlib.Data.List.Basic
import Mathlib.Algebra.Group.Nat.Basic

/-!
# `JsonValue` and the outcome of a parser call

A `JsonValue` is only ever built by one of its constructors, each of which sets the type tag and
the one field of that type; every other field keeps its default.  So the values the parser can
return are exactly the terms of the inductive `JsonValue` below, one constructor per
`JsonValue::Type`.  A `double` is its IEEE bit pattern, as `f64` is in the wire model, and a
`std::string` is its bytes.

`JsonObject` is a `std::map<std::string, JsonValue>`: its entries in increasing key order.  Keys
are compared byte by byte as `unsigned char`, as `std::char_traits<char>` does (`keyLess`).  The
key order is a field of the structure: a map starts empty, and `obj[key] = value`
(`JsonObject.assign`, over `JsonObject.insertOrAssign` on the entries) keeps the entries in
strictly increasing key order (`JsonObject.Ordered.insertOrAssign`).  After a sequence of
assignments each key finds the value of its last one (`JsonObject.find_ofList_last`).  The
accessors read the one field a constructor set; `has` and the `const` `operator[]` look the key up
in `obj_val_`, which is empty unless the value is an object.

A call of the parser ends in one of three ways (`Outcome`): it returns a value, or an exception
of `std::stod` leaves it, or, in the model only, it runs out of fuel.  The C++ functions have no
fuel; running out of it for every amount of fuel is how the model shows that a call never
returns.  A loop that never returns keeps pushing values in C++ until an allocation throws
`std::bad_alloc` or `std::length_error`; the model leaves those exceptions out.
-/

namespace PolyGenSupport
namespace Json

/-- The bytes of an ASCII string literal, as a `std::string` holds them. -/
def ascii (s : String) : List UInt8 := s.toList.map Char.toUInt8

/-- The exceptions `std::stod` throws. -/
inductive StdException where
  | invalidArgument
  | outOfRange
deriving DecidableEq, Repr

/-- A `JsonValue`, by the constructor that built it. -/
inductive JsonValue where
  | null
  | bool (value : Bool)
  | number (value : BitVec 64)
  | string (value : List UInt8)
  | array (items : List JsonValue)
  | object (members : List (List UInt8 × JsonValue))
deriving Repr

/-- `as_string`: `str_val_`, which only the string constructor sets. -/
def JsonValue.asString : JsonValue → List UInt8
  | .string value => value
  | _ => []

/-- `as_bool`: `bool_val_`, which only the bool constructor sets. -/
def JsonValue.asBool : JsonValue → Bool
  | .bool value => value
  | _ => false

/-- `as_array`: `arr_val_`, which only the array constructor sets. -/
def JsonValue.asArray : JsonValue → List JsonValue
  | .array items => items
  | _ => []

/-- `as_object`: `obj_val_`, which only the object constructor sets, in its iteration order. -/
def JsonValue.asObject : JsonValue → List (List UInt8 × JsonValue)
  | .object members => members
  | _ => []

/-- `operator<` on `std::string` keys: byte by byte as `unsigned char`, a proper prefix
first. -/
def keyLess : List UInt8 → List UInt8 → Bool
  | [], [] => false
  | [], _ :: _ => true
  | _ :: _, [] => false
  | a :: as, b :: bs => a < b || (a = b && keyLess as bs)

/-! Byte-wise key order is a strict total order, as `std::map` requires of its comparison. -/

theorem keyLess_irrefl (a : List UInt8) : keyLess a a = false := by
  induction a with
  | nil => rfl
  | cons c a ih => simp [keyLess, ih]

theorem keyLess_trans {a b c : List UInt8} (hab : keyLess a b = true) (hbc : keyLess b c = true) :
    keyLess a c = true := by
  induction a generalizing b c with
  | nil => cases b <;> cases c <;> simp_all [keyLess]
  | cons x a ih =>
    cases b with
    | nil => simp [keyLess] at hab
    | cons y b =>
      cases c with
      | nil => simp [keyLess] at hbc
      | cons z c =>
        simp only [keyLess, Bool.or_eq_true, Bool.and_eq_true, decide_eq_true_eq] at hab hbc ⊢
        rcases hab with hxy | ⟨rfl, hab⟩ <;> rcases hbc with hyz | ⟨rfl, hbc⟩
        · exact .inl (UInt8.lt_trans hxy hyz)
        · exact .inl hxy
        · exact .inl hyz
        · exact .inr ⟨rfl, ih hab hbc⟩

theorem keyLess_total {a b : List UInt8} (hne : a ≠ b) :
    keyLess a b = true ∨ keyLess b a = true := by
  induction a generalizing b with
  | nil => cases b <;> simp_all [keyLess]
  | cons x a ih =>
    cases b with
    | nil => simp [keyLess]
    | cons y b =>
      simp only [keyLess, Bool.or_eq_true, Bool.and_eq_true, decide_eq_true_eq]
      have htri : x.toNat < y.toNat ∨ x = y ∨ y.toNat < x.toNat := by
        rcases Nat.lt_trichotomy x.toNat y.toNat with h | h | h
        · exact .inl h
        · exact .inr (.inl (UInt8.toNat.inj h))
        · exact .inr (.inr h)
      rcases htri with hxy | rfl | hyx
      · exact .inl (.inl hxy)
      · have : a ≠ b := fun h => hne (h ▸ rfl)
        rcases ih this with h | h
        · exact .inl (.inr ⟨rfl, h⟩)
        · exact .inr (.inr ⟨rfl, h⟩)
      · exact .inr (.inl hyx)

namespace JsonObject

/-! The map operations on entries, for the values of the inductive `JsonValue` and for their
layout `Json.JsonCell` alike. -/

variable {α : Type}

/-- A `std::map`'s entries: keys in strictly increasing order. -/
def Ordered (entries : List (List UInt8 × α)) : Prop :=
  entries.Pairwise fun e e' => keyLess e.1 e'.1 = true

/-- `obj_val_.find(key)`, as `has` and the `const` `operator[]` use it. -/
def find (key : List UInt8) : List (List UInt8 × α) → Option α
  | [] => none
  | (k, v) :: rest => if key = k then some v else find key rest

/-- `obj[key] = value` on the entries: `operator[]` finds the entry of `key` or inserts one at its
place in key order, and the assignment overwrites its value. -/
def insertOrAssign (key : List UInt8) (value : α) : List (List UInt8 × α) → List (List UInt8 × α)
  | [] => [(key, value)]
  | (k, v) :: rest =>
    if keyLess key k then (key, value) :: (k, v) :: rest
    else if key = k then (key, value) :: rest
    else (k, v) :: insertOrAssign key value rest

@[simp] theorem find_nil (key : List UInt8) : find key ([] : List (List UInt8 × α)) = none := rfl

/-- After `obj[key] = value`, `key` finds `value` and every other key finds what it found. -/
theorem find_insertOrAssign (key k : List UInt8) (value : α) (entries : List (List UInt8 × α)) :
    find k (insertOrAssign key value entries) =
      if k = key then some value else find k entries := by
  induction entries with
  | nil => simp [insertOrAssign, find]
  | cons e rest ih =>
    obtain ⟨k₀, v₀⟩ := e
    simp only [insertOrAssign]
    split_ifs <;> simp_all [find]

theorem mem_insertOrAssign {key : List UInt8} {value : α} {entries : List (List UInt8 × α)}
    {e : List UInt8 × α} (h : e ∈ insertOrAssign key value entries) :
    e = (key, value) ∨ e ∈ entries := by
  induction entries with
  | nil => simp_all [insertOrAssign]
  | cons e' rest ih =>
    obtain ⟨k, v⟩ := e'
    simp only [insertOrAssign] at h
    split_ifs at h with hless heq
    · rcases List.mem_cons.mp h with rfl | h
      · exact .inl rfl
      · exact .inr h
    · rcases List.mem_cons.mp h with rfl | h
      · exact .inl rfl
      · exact .inr (List.mem_cons_of_mem _ h)
    · rcases List.mem_cons.mp h with rfl | h
      · exact .inr (List.mem_cons_self _ _)
      · exact (ih h).imp_right (List.mem_cons_of_mem _)

/-- `obj[key] = value` keeps the keys in order. -/
theorem Ordered.insertOrAssign {entries : List (List UInt8 × α)} (hentries : Ordered entries)
    (key : List UInt8) (value : α) : Ordered (insertOrAssign key value entries) := by
  induction entries with
  | nil => exact List.pairwise_singleton _ _
  | cons e rest ih =>
    obtain ⟨k, v⟩ := e
    obtain ⟨hk, hrest⟩ := List.pairwise_cons.mp hentries
    simp only [JsonObject.insertOrAssign]
    split_ifs with hless heq
    · refine List.Pairwise.cons (fun e he => ?_) hentries
      rcases List.mem_cons.mp he with rfl | he
      · exact hless
      · exact keyLess_trans hless (hk e he)
    · subst heq
      exact List.Pairwise.cons hk hrest
    · refine List.Pairwise.cons (fun e he => ?_) (ih hrest)
      rcases mem_insertOrAssign he with he | he
      · rw [he]
        exact (keyLess_total heq).resolve_left hless
      · exact hk e he

end JsonObject

/-- `JsonObject`: a `std::map` from keys to values, by its entries.  The keys are in strictly
increasing order, and every map carries the proof: it starts empty and changes only by
`obj[key] = value` (`JsonObject.assign`), which keeps the order. -/
structure JsonObject where
  /-- The entries in iteration order. -/
  entries : List (List UInt8 × JsonValue)
  ordered : JsonObject.Ordered entries

attribute [coe] JsonObject.entries

/-- `JsonValue(obj)` stores the map's entries. -/
instance : Coe JsonObject (List (List UInt8 × JsonValue)) := ⟨JsonObject.entries⟩

namespace JsonObject

/-- The empty map a default-constructed `JsonObject` is. -/
def empty : JsonObject := ⟨[], List.Pairwise.nil⟩

/-- `obj[key] = value`. -/
def assign (key : List UInt8) (value : JsonValue) (obj : JsonObject) : JsonObject :=
  ⟨insertOrAssign key value obj.entries, obj.ordered.insertOrAssign key value⟩

/-- `obj[key] = value` for each member in turn, as the loop of `parse_object` does. -/
def assignMembers (members : List (List UInt8 × JsonValue)) (obj : JsonObject) : JsonObject :=
  members.foldl (fun obj m => assign m.1 m.2 obj) obj

/-- The map a list of members makes when they are assigned in order to an empty one. -/
def ofList (members : List (List UInt8 × JsonValue)) : JsonObject := assignMembers members empty

@[simp] theorem entries_empty : empty.entries = [] := rfl

@[simp] theorem assignMembers_nil (obj : JsonObject) : assignMembers [] obj = obj := rfl

end JsonObject

/-- `has(key)`: `obj_val_.find(key) != obj_val_.end()`. -/
def JsonValue.has (v : JsonValue) (key : List UInt8) : Bool :=
  (JsonObject.find key v.asObject).isSome

/-- `operator[](key) const`: the value `obj_val_` holds under `key`, or the static null value
when it holds none. -/
def JsonValue.index (v : JsonValue) (key : List UInt8) : JsonValue :=
  (JsonObject.find key v.asObject).getD .null

/-- How a call of the parser ends. -/
inductive Outcome (α : Type) where
  /-- The call returned this value. -/
  | ok (value : α)
  /-- An exception left the call. -/
  | throw (exception : StdException)
  /-- The model ran out of fuel before the call returned. -/
  | outOfFuel
deriving Repr

namespace Outcome

instance : Monad Outcome where
  pure := .ok
  bind x f := match x with
    | .ok a => f a
    | .throw e => .throw e
    | .outOfFuel => .outOfFuel

/-- The outcome of a call that cannot run out of fuel. -/
def ofExcept {α : Type} : Except StdException α → Outcome α
  | .ok a => .ok a
  | .error e => .throw e

variable {α β : Type}

@[simp] theorem ofExcept_ok (a : α) : ofExcept (.ok a) = .ok a := rfl
@[simp] theorem ofExcept_error (e : StdException) :
    ofExcept (.error e : Except StdException α) = .throw e := rfl

@[simp] theorem pure_eq (a : α) : (pure a : Outcome α) = .ok a := rfl
@[simp] theorem ok_bind (a : α) (f : α → Outcome β) : (Outcome.ok a >>= f) = f a := rfl
@[simp] theorem throw_bind (e : StdException) (f : α → Outcome β) :
    (Outcome.throw e >>= f) = .throw e := rfl
@[simp] theorem outOfFuel_bind (f : α → Outcome β) : (Outcome.outOfFuel >>= f) = .outOfFuel :=
  rfl

@[simp] theorem map_ok (f : α → β) (a : α) : f <$> Outcome.ok a = .ok (f a) := rfl
@[simp] theorem map_throw (f : α → β) (e : StdException) :
    f <$> (Outcome.throw e : Outcome α) = .throw e := rfl
@[simp] theorem map_outOfFuel (f : α → β) : f <$> (Outcome.outOfFuel : Outcome α) = .outOfFuel :=
  rfl

theorem map_eq_bind (f : α → β) (x : Outcome α) : f <$> x = x >>= fun a => .ok (f a) := rfl

theorem map_bind {γ : Type} (f : α → β) (x : Outcome α) (k : β → Outcome γ) :
    (f <$> x) >>= k = x >>= fun a => k (f a) := by
  cases x <;> rfl

/-- A bind that returned: the computation returned, and so did the continuation on its value. -/
theorem bind_eq_ok {x : Outcome α} {f : α → Outcome β} {b : β} (h : (x >>= f) = .ok b) :
    ∃ a, x = .ok a ∧ f a = .ok b := by
  cases x with
  | ok a => exact ⟨a, rfl, h⟩
  | throw e => cases h
  | outOfFuel => cases h

/-- `x ⊑ y`: `y` ends as `x` does, unless `x` ran out of fuel.  More fuel only moves a call up
this order. -/
def Le (x y : Outcome α) : Prop := x = .outOfFuel ∨ x = y

@[simp] theorem outOfFuel_le (x : Outcome α) : Le .outOfFuel x := .inl rfl

theorem le_trans {x y z : Outcome α} (hxy : Le x y) (hyz : Le y z) : Le x z := by
  rcases hxy with rfl | rfl
  · exact outOfFuel_le z
  · exact hyz

end Outcome

end Json
end PolyGenSupport
