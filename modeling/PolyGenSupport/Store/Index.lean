import Mathlib.Data.List.Nodup

/-!
# `UniqueIndex` and `GroupIndex`

Both index classes wrap one `std::unordered_map`.  A hash map is modelled by its live entries,
one per key (`UnorderedMap`); buckets, hashing and iteration order are not observable through
the index classes and are left out.  `operator[]` is `UnorderedMap.update`: it value-initialises
a missing entry and then changes it in place, which is what both `insert`s do.

An index stores `V*`, modelled as `Option Addr` with `none` for `nullptr`.  The `std::string`
specialisations of both classes have the same bodies as the generic templates, so they are the
definitions below at `K := List UInt8`.

A run of `insert` and `clear` calls is a list of `IndexOp`s.  What each index is for is stated
over the inserts made since the most recent `clear` (`insertsSinceClear`): a unique index is the
last insert under each key, a group index all inserts under each key in order.  Each index
refines that log (`UniqueIndex.Refines`, `GroupIndex.Refines`): the refinement holds for the
empty index, one lemma carries it over one call, and a run lemma carries it over any run.
-/

namespace PolyGenSupport
namespace Store

/-- The address of a row in a `DataTable`'s deque. -/
abbrev Addr := Nat

/-- `std::unordered_map<K, M>` by its live entries: one per key. -/
structure UnorderedMap (K M : Type) where
  entries : List (K × M)
  nodup : (entries.map Prod.fst).Nodup

/-- In a list of entries with distinct keys, the first entry under a key is the only one. -/
theorem lookup_of_mem {K M : Type} [DecidableEq K] {entries : List (K × M)}
    (hnodup : (entries.map Prod.fst).Nodup) {key : K} {value : M}
    (hmem : (key, value) ∈ entries) :
    (entries.find? fun e => e.1 = key).map Prod.snd = some value := by
  obtain ⟨e, he⟩ : ∃ e, (entries.find? fun e => e.1 = key) = some e := by
    rw [← Option.isSome_iff_exists, List.find?_isSome]
    exact ⟨_, hmem, by simp⟩
  have hkey : e.1 = key := by simpa using List.find?_some he
  have heq : e = (key, value) :=
    List.inj_on_of_nodup_map hnodup (List.mem_of_find?_eq_some he) hmem hkey
  simp [he, heq]

namespace UnorderedMap

variable {K M : Type} [DecidableEq K]

/-- The map with no entries. -/
def empty : UnorderedMap K M := ⟨[], List.nodup_nil⟩

/-- `find`: the value under `key`, or `end()`. -/
def find (m : UnorderedMap K M) (key : K) : Option M :=
  (m.entries.find? fun e => e.1 = key).map Prod.snd

theorem map_fst_update_eq (entries : List (K × M)) (key : K) (f : M → M) :
    (entries.map fun e => if e.1 = key then (e.1, f e.2) else e).map Prod.fst =
      entries.map Prod.fst := by
  rw [List.map_map]
  congr 1
  funext e
  by_cases h : e.1 = key <;> simp [h]

/-- `operator[](key)` followed by an update of the entry: a present entry is changed in place by
`f`, a missing one is first value-initialised to `default`. -/
def update (m : UnorderedMap K M) (key : K) (f : M → M) (default : M) : UnorderedMap K M :=
  if h : key ∈ m.entries.map Prod.fst then
    ⟨m.entries.map fun e => if e.1 = key then (e.1, f e.2) else e,
      (map_fst_update_eq m.entries key f).symm ▸ m.nodup⟩
  else
    ⟨m.entries ++ [(key, f default)], by
      rw [List.map_append]
      exact m.nodup.append (List.nodup_singleton _) (by simpa using h)⟩

@[simp] theorem find_empty (key : K) : (empty : UnorderedMap K M).find key = none := rfl

theorem find_eq_none_iff (m : UnorderedMap K M) (key : K) :
    m.find key = none ↔ key ∉ m.entries.map Prod.fst := by
  simp only [find, Option.map_eq_none', List.find?_eq_none, decide_eq_true_eq, List.mem_map,
    not_exists, not_and]

/-- The spec lemma of `update`: only the entry under `key` changes. -/
theorem find_update (m : UnorderedMap K M) (key k : K) (f : M → M) (default : M) :
    (m.update key f default).find k =
      if k = key then some (f ((m.find key).getD default)) else m.find k := by
  unfold update
  split
  · next hmem =>
    simp only [find, List.find?_map, Function.comp_def, apply_ite Prod.fst, ite_self,
      Option.map_map]
    split
    · next hk =>
      subst hk
      obtain ⟨v, hv⟩ : ∃ v, (m.entries.find? fun e => e.1 = k) = some v := by
        rw [← Option.isSome_iff_exists, List.find?_isSome]
        simpa using hmem
      have hv1 : v.1 = k := by simpa using List.find?_some hv
      simp [hv, hv1]
    · next hk =>
      cases hv : m.entries.find? fun e => e.1 = k with
      | none => rfl
      | some v =>
        have hv1 : v.1 = k := by simpa using List.find?_some hv
        simp [hv1, hk]
  · next hmem =>
    have hnone : (m.entries.find? fun e => e.1 = key) = none := by
      simpa [find] using (find_eq_none_iff m key).mpr hmem
    by_cases hk : k = key
    · subst hk
      simp [find, List.find?_append, hnone]
    · simp [find, List.find?_append, hk, Ne.symm hk]

/-- Keys are unique, so an entry is what `find` returns for its key. -/
theorem find_of_mem (m : UnorderedMap K M) {key : K} {value : M}
    (hmem : (key, value) ∈ m.entries) : m.find key = some value :=
  lookup_of_mem m.nodup hmem

end UnorderedMap

/-- A call on an index of a table: `insert(key, &row)` with the address of a stored row, which
is never `nullptr`, or `clear()`. -/
inductive IndexOp (K : Type) where
  | insert (key : K) (row : Addr)
  | clear

namespace IndexOp

variable {K : Type}

/-- The inserts since the most recent `clear`, after one more call. -/
def log : List (K × Addr) → IndexOp K → List (K × Addr)
  | inserts, .insert key row => inserts ++ [(key, row)]
  | _, .clear => []

end IndexOp

/-- The inserts made since the most recent `clear` of a run, in order. -/
def insertsSinceClear {K : Type} (ops : List (IndexOp K)) : List (K × Addr) :=
  ops.foldl IndexOp.log []

theorem insertsSinceClear_append_insert {K : Type} (ops : List (IndexOp K)) (key : K)
    (row : Addr) :
    insertsSinceClear (ops ++ [.insert key row]) = insertsSinceClear ops ++ [(key, row)] := by
  simp [insertsSinceClear, IndexOp.log]

section Spec

variable {K : Type} [DecidableEq K]

/-- The row of the last insert under `key`, if any. -/
def lastInsert (inserts : List (K × Addr)) (key : K) : Option Addr :=
  ((inserts.filter fun e => e.1 = key).getLast?).map Prod.snd

/-- The rows of every insert under `key`, in insertion order, repetitions kept. -/
def insertsUnder (inserts : List (K × Addr)) (key : K) : List Addr :=
  (inserts.filter fun e => e.1 = key).map Prod.snd

theorem lastInsert_append_self (inserts : List (K × Addr)) (key : K) (row : Addr) :
    lastInsert (inserts ++ [(key, row)]) key = some row := by
  simp [lastInsert, List.filter_append]

theorem lastInsert_append_ne (inserts : List (K × Addr)) {key k : K} (row : Addr)
    (h : k ≠ key) : lastInsert (inserts ++ [(key, row)]) k = lastInsert inserts k := by
  simp [lastInsert, List.filter_append, Ne.symm h]

theorem insertsUnder_append (inserts : List (K × Addr)) (key k : K) (row : Addr) :
    insertsUnder (inserts ++ [(key, row)]) k =
      insertsUnder inserts k ++ if k = key then [row] else [] := by
  by_cases h : k = key
  · subst h
    simp [insertsUnder, List.filter_append]
  · simp [insertsUnder, List.filter_append, Ne.symm h, h]

end Spec

/-! ## `UniqueIndex` -/

/-- `UniqueIndex<K, V>`: `index_`, an `unordered_map<K, V*>`. -/
structure UniqueIndex (K : Type) where
  index : UnorderedMap K (Option Addr)

namespace UniqueIndex

variable {K : Type} [DecidableEq K]

/-- A default-constructed index. -/
def empty : UniqueIndex K := ⟨UnorderedMap.empty⟩

/-- `insert`: `index_[key] = value`. -/
def insert (ix : UniqueIndex K) (key : K) (value : Option Addr) : UniqueIndex K :=
  ⟨ix.index.update key (fun _ => value) none⟩

/-- `get`: the stored pointer, or `nullptr` when the key is absent. -/
def get (ix : UniqueIndex K) (key : K) : Option Addr := (ix.index.find key).getD none

/-- `contains`: whether the key has an entry. -/
def contains (ix : UniqueIndex K) (key : K) : Bool := (ix.index.find key).isSome

/-- `clear`: `index_.clear()`. -/
def clear (_ : UniqueIndex K) : UniqueIndex K := ⟨UnorderedMap.empty⟩

/-- One call of a run. -/
def apply (ix : UniqueIndex K) : IndexOp K → UniqueIndex K
  | .insert key row => ix.insert key (some row)
  | .clear => ix.clear

/-- The index after a run of calls on a default-constructed one. -/
def run (ops : List (IndexOp K)) : UniqueIndex K := ops.foldl apply empty

/-- The index holds, under each key, the row of the last insert of the log under it. -/
def Refines (ix : UniqueIndex K) (inserts : List (K × Addr)) : Prop :=
  ∀ key, ix.index.find key = (lastInsert inserts key).map some

theorem refines_empty : (empty : UniqueIndex K).Refines [] := fun _ => rfl

theorem refines_apply {ix : UniqueIndex K} {inserts : List (K × Addr)} (h : ix.Refines inserts) :
    ∀ op, (ix.apply op).Refines (IndexOp.log inserts op)
  | .insert key row, k => by
    rw [apply, insert, UnorderedMap.find_update, IndexOp.log]
    split
    · next hk =>
      subst hk
      rw [lastInsert_append_self]
      rfl
    · next hk => rw [lastInsert_append_ne _ _ hk, h]
  | .clear, _ => rfl

theorem refines_run (ops : List (IndexOp K)) :
    ∀ {ix : UniqueIndex K} {inserts}, ix.Refines inserts →
      (ops.foldl apply ix).Refines (ops.foldl IndexOp.log inserts) := by
  induction ops with
  | nil => exact id
  | cons op ops ih => exact fun h => ih (refines_apply h op)

theorem get_of_refines {ix : UniqueIndex K} {inserts : List (K × Addr)} (h : ix.Refines inserts)
    (key : K) : ix.get key = lastInsert inserts key := by
  rw [get, h]
  cases lastInsert inserts key <;> rfl

theorem contains_of_refines {ix : UniqueIndex K} {inserts : List (K × Addr)}
    (h : ix.Refines inserts) (key : K) : ix.contains key = (lastInsert inserts key).isSome := by
  rw [contains, h]
  cases lastInsert inserts key <;> rfl

/-- **Last write wins.**  After any run of `insert` and `clear` calls, `get(key)` is the row of
the last insert under `key` since the most recent `clear`, or `nullptr` if there is none;
`contains(key)` holds exactly when `get(key)` is not `nullptr`; and one more insert under another
key changes neither. -/
theorem run_lastWriteWins (ops : List (IndexOp K)) (key : K) :
    (run ops).get key = lastInsert (insertsSinceClear ops) key ∧
      ((run ops).contains key = true ↔ (run ops).get key ≠ none) ∧
      ∀ key' row, key' ≠ key →
        (run (ops ++ [.insert key' row])).get key = (run ops).get key ∧
          (run (ops ++ [.insert key' row])).contains key = (run ops).contains key := by
  have h : (run ops).Refines (insertsSinceClear ops) := refines_run ops refines_empty
  have h' : ∀ key' row, (run (ops ++ [.insert key' row])).Refines
      (insertsSinceClear (ops ++ [.insert key' row])) := fun key' row =>
    refines_run _ refines_empty
  refine ⟨get_of_refines h key, ?_, fun key' row hne => ?_⟩
  · rw [contains_of_refines h, get_of_refines h, Option.isSome_iff_ne_none]
  · rw [get_of_refines (h' key' row), contains_of_refines (h' key' row),
      insertsSinceClear_append_insert,
      lastInsert_append_ne _ _ (Ne.symm hne), get_of_refines h, contains_of_refines h]
    exact ⟨rfl, rfl⟩

example : (run [.insert 1 10, .insert 2 20, .insert 1 11]).get 1 = some 11 ∧
    (run [.insert 1 10, .clear, .insert 2 20]).get 1 = none := by decide

end UniqueIndex

/-! ## `GroupIndex` -/

/-- `GroupIndex<K, V>`: `index_`, an `unordered_map<K, std::vector<V*>>`. -/
structure GroupIndex (K : Type) where
  index : UnorderedMap K (List (Option Addr))

namespace GroupIndex

variable {K : Type} [DecidableEq K]

/-- A default-constructed index. -/
def empty : GroupIndex K := ⟨UnorderedMap.empty⟩

/-- `insert`: `index_[key].push_back(value)`. -/
def insert (ix : GroupIndex K) (key : K) (value : Option Addr) : GroupIndex K :=
  ⟨ix.index.update key (· ++ [value]) []⟩

/-- `get`: the stored vector, or the empty `empty_` when the key is absent. -/
def get (ix : GroupIndex K) (key : K) : List (Option Addr) := (ix.index.find key).getD []

/-- `contains`: whether the key has an entry. -/
def contains (ix : GroupIndex K) (key : K) : Bool := (ix.index.find key).isSome

/-- `clear`: `index_.clear()`. -/
def clear (_ : GroupIndex K) : GroupIndex K := ⟨UnorderedMap.empty⟩

/-- One call of a run. -/
def apply (ix : GroupIndex K) : IndexOp K → GroupIndex K
  | .insert key row => ix.insert key (some row)
  | .clear => ix.clear

/-- The index after a run of calls on a default-constructed one. -/
def run (ops : List (IndexOp K)) : GroupIndex K := ops.foldl apply empty

/-- A key has an entry exactly when the log has inserts under it, and the entry lists their rows
in order. -/
def Refines (ix : GroupIndex K) (inserts : List (K × Addr)) : Prop :=
  ∀ key, ix.index.find key =
    if insertsUnder inserts key = [] then none else some ((insertsUnder inserts key).map some)

theorem refines_empty : (empty : GroupIndex K).Refines [] := fun _ => rfl

theorem refines_apply {ix : GroupIndex K} {inserts : List (K × Addr)} (h : ix.Refines inserts) :
    ∀ op, (ix.apply op).Refines (IndexOp.log inserts op)
  | .insert key row, k => by
    rw [apply, insert, UnorderedMap.find_update, IndexOp.log, insertsUnder_append]
    split
    · next hk =>
      subst hk
      rw [h]
      split <;> simp_all
    · next hk => simpa [hk] using h k
  | .clear, _ => rfl

theorem refines_run (ops : List (IndexOp K)) :
    ∀ {ix : GroupIndex K} {inserts}, ix.Refines inserts →
      (ops.foldl apply ix).Refines (ops.foldl IndexOp.log inserts) := by
  induction ops with
  | nil => exact id
  | cons op ops ih => exact fun h => ih (refines_apply h op)

theorem get_of_refines {ix : GroupIndex K} {inserts : List (K × Addr)} (h : ix.Refines inserts)
    (key : K) : ix.get key = (insertsUnder inserts key).map some := by
  rw [get, h]
  split <;> simp_all

theorem contains_of_refines {ix : GroupIndex K} {inserts : List (K × Addr)}
    (h : ix.Refines inserts) (key : K) : ix.contains key = !(insertsUnder inserts key).isEmpty := by
  rw [contains, h]
  split <;> simp_all

theorem entry_ne_nil_of_refines {ix : GroupIndex K} {inserts : List (K × Addr)}
    (h : ix.Refines inserts) {key : K} {rows : List (Option Addr)}
    (hmem : (key, rows) ∈ ix.index.entries) : rows ≠ [] := by
  have hfind := UnorderedMap.find_of_mem ix.index hmem
  rw [h] at hfind
  split at hfind
  · cases hfind
  · next hne =>
    cases hfind
    simpa using hne

/-- **Insertion-ordered multimap.**  After any run of `insert` and `clear` calls, `get(key)` is
the rows inserted under `key` since the most recent `clear`, in insertion order with repetitions
kept; `contains(key)` holds exactly when that list is not empty, so no entry of the map holds an
empty list; and one more insert under another key leaves `get(key)` unchanged. -/
theorem run_insertionOrdered (ops : List (IndexOp K)) (key : K) :
    (run ops).get key = (insertsUnder (insertsSinceClear ops) key).map some ∧
      ((run ops).contains key = true ↔ (run ops).get key ≠ []) ∧
      (∀ k rows, (k, rows) ∈ (run ops).index.entries → rows ≠ []) ∧
      ∀ key' row, key' ≠ key →
        (run (ops ++ [.insert key' row])).get key = (run ops).get key := by
  have h : (run ops).Refines (insertsSinceClear ops) := refines_run ops refines_empty
  refine ⟨get_of_refines h key, ?_, fun _ _ hmem => entry_ne_nil_of_refines h hmem,
    fun key' row hne => ?_⟩
  · rw [contains_of_refines h, get_of_refines h]
    simp [List.isEmpty_iff]
  · have h' : (run (ops ++ [.insert key' row])).Refines
        (insertsSinceClear (ops ++ [.insert key' row])) := refines_run _ refines_empty
    rw [get_of_refines h', get_of_refines h, insertsSinceClear_append_insert, insertsUnder_append,
      if_neg (Ne.symm hne), List.append_nil]

example : (run [.insert 1 10, .insert 2 20, .insert 1 10, .insert 1 11]).get 1 =
    [some 10, some 10, some 11] := by decide

end GroupIndex

end Store
end PolyGenSupport
