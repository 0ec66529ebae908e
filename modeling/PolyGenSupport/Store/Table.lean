import PolyGenSupport.Store.Index

/-!
# `DataTable` and a table of the schema container

`DataTable<T>` keeps its rows in a `std::deque<T>` so that `push_back` never moves an existing
row: the indexes hold raw pointers into it.  A row is modelled with the address it lives at;
`add_row` appends a row at an address the deque allocates for it, and `clear` drops them all.

The generated schema container is not part of the support library.  Its contract is modelled
from the specification (`TableStore`): one `DataTable` per schema table, and one `UniqueIndex`
per `primary_key`/`unique` column and one `GroupIndex` per `foreign_key` or plain index, each with
its own key column; `add_row` appends the row and then inserts the stored copy's address into
every index under that row's key, and the container's reset clears the table and every index.

`TableStore.Inv` ties the store to the list of rows added since the last reset: the deque holds
them at distinct addresses, and every index refines their keys.  It holds for the empty store and
is kept by every call whose allocation is fresh, which `std::deque` guarantees; from it, every
index lookup agrees with a linear scan of the deque (`run_scanAgreement`).
-/

namespace PolyGenSupport
namespace Store

/-- `DataTable<T>`: `rows_`, a `std::deque<T>`, each row with the address it lives at. -/
structure DataTable (T : Type) where
  rows : List (Addr × T)

namespace DataTable

variable {T : Type}

/-- A default-constructed table. -/
def empty : DataTable T := ⟨[]⟩

/-- `add_row`: `rows_.push_back(row)`, the copy constructed at `addr`. -/
def addRow (table : DataTable T) (addr : Addr) (row : T) : DataTable T :=
  ⟨table.rows ++ [(addr, row)]⟩

/-- `count`: `rows_.size()`. -/
def count (table : DataTable T) : Nat := table.rows.length

/-- `clear`: `rows_.clear()`. -/
def clear (_ : DataTable T) : DataTable T := ⟨[]⟩

/-- The row a `T*` holding `addr` points at, if a row of the table lives there. -/
def deref (table : DataTable T) (addr : Addr) : Option T :=
  (table.rows.find? fun e => e.1 = addr).map Prod.snd

end DataTable

/-- A call on one table of the schema container: `add_row(row)`, whose copy the deque constructs
at `addr`, or the container's reset. -/
inductive TableOp (T : Type) where
  | addRow (row : T) (addr : Addr)
  | reset

namespace TableOp

variable {T : Type}

/-- The rows added since the most recent reset, after one more call. -/
def log : List (Addr × T) → TableOp T → List (Addr × T)
  | rows, .addRow row addr => rows ++ [(addr, row)]
  | _, .reset => []

end TableOp

/-- The rows added since the most recent reset of a run, with their addresses, in order. -/
def rowsSinceReset {T : Type} (ops : List (TableOp T)) : List (Addr × T) :=
  ops.foldl TableOp.log []

/-- Every `add_row` of the run gets an address that none of the `live` rows, nor any row added
after them and before a reset, occupies. -/
def FreshFrom {T : Type} : List Addr → List (TableOp T) → Prop
  | _, [] => True
  | live, .addRow _ addr :: ops => addr ∉ live ∧ FreshFrom (live ++ [addr]) ops
  | _, .reset :: ops => FreshFrom [] ops

/-- The deque constructs each row in memory of its own: every `add_row` of the run gets an
address no row of the table occupies at that moment. -/
def FreshAddrs {T : Type} (ops : List (TableOp T)) : Prop := FreshFrom [] ops

section Keys

variable {T K : Type} [DecidableEq K]

theorem lastInsert_keyed (rows : List (Addr × T)) (key : T → K) (k : K) :
    lastInsert (rows.map fun e => (key e.2, e.1)) k =
      ((rows.filter fun e => key e.2 = k).getLast?).map Prod.fst := by
  simp only [lastInsert, List.filter_map, List.getLast?_map, Option.map_map]
  rfl

theorem insertsUnder_keyed (rows : List (Addr × T)) (key : T → K) (k : K) :
    insertsUnder (rows.map fun e => (key e.2, e.1)) k =
      (rows.filter fun e => key e.2 = k).map Prod.fst := by
  simp only [insertsUnder, List.filter_map, List.map_map]
  rfl

end Keys

/-- Modelled from the spec: one table of the generated schema container, with its `DataTable`, a
`UniqueIndex` for each `primary_key`/`unique` column in `ιu`, and a `GroupIndex` for each
`foreign_key` or plain index in `ιg`. -/
structure TableStore (T : Type) {ιu ιg : Type} (Ku : ιu → Type) (Kg : ιg → Type) where
  table : DataTable T
  uniques : (i : ιu) → UniqueIndex (Ku i)
  groups : (j : ιg) → GroupIndex (Kg j)

namespace TableStore

variable {T ιu ιg : Type} {Ku : ιu → Type} {Kg : ιg → Type}
  [∀ i, DecidableEq (Ku i)] [∀ j, DecidableEq (Kg j)]
  (uniqueKey : (i : ιu) → T → Ku i) (groupKey : (j : ιg) → T → Kg j)

/-- A freshly created container's table. -/
def empty : TableStore T Ku Kg :=
  ⟨DataTable.empty, fun _ => UniqueIndex.empty, fun _ => GroupIndex.empty⟩

/-- Modelled from the spec: the generated `add_row` appends the row to the table, then inserts
the stored copy's address into every index under that row's key. -/
def addRow (s : TableStore T Ku Kg) (addr : Addr) (row : T) : TableStore T Ku Kg where
  table := s.table.addRow addr row
  uniques i := (s.uniques i).insert (uniqueKey i row) (some addr)
  groups j := (s.groups j).insert (groupKey j row) (some addr)

/-- Modelled from the spec: the container's reset clears the table and every index together. -/
def reset (s : TableStore T Ku Kg) : TableStore T Ku Kg where
  table := s.table.clear
  uniques i := (s.uniques i).clear
  groups j := (s.groups j).clear

/-- One call of a run. -/
def apply (s : TableStore T Ku Kg) : TableOp T → TableStore T Ku Kg
  | .addRow row addr => s.addRow uniqueKey groupKey addr row
  | .reset => s.reset

/-- The table after a run of calls on a freshly created container. -/
def run (ops : List (TableOp T)) : TableStore T Ku Kg := ops.foldl (apply uniqueKey groupKey) empty

/-- A pointer some index of the table holds. -/
def HeldRef (s : TableStore T Ku Kg) (p : Option Addr) : Prop :=
  (∃ i k, (k, p) ∈ (s.uniques i).index.entries) ∨
    ∃ j k ptrs, (k, ptrs) ∈ (s.groups j).index.entries ∧ p ∈ ptrs

/-- The store holds exactly `rows`, at distinct addresses, and each index refines the keys of
`rows`. -/
structure Inv (s : TableStore T Ku Kg) (rows : List (Addr × T)) : Prop where
  table_rows : s.table.rows = rows
  nodup : (rows.map Prod.fst).Nodup
  uniques : ∀ i, (s.uniques i).Refines (rows.map fun e => (uniqueKey i e.2, e.1))
  groups : ∀ j, (s.groups j).Refines (rows.map fun e => (groupKey j e.2, e.1))

theorem inv_empty : (empty : TableStore T Ku Kg).Inv uniqueKey groupKey [] :=
  ⟨rfl, List.nodup_nil, fun _ => UniqueIndex.refines_empty, fun _ => GroupIndex.refines_empty⟩

theorem inv_addRow {s : TableStore T Ku Kg} {rows : List (Addr × T)}
    (h : s.Inv uniqueKey groupKey rows) {addr : Addr} (hfresh : addr ∉ rows.map Prod.fst)
    (row : T) : (s.addRow uniqueKey groupKey addr row).Inv uniqueKey groupKey
      (rows ++ [(addr, row)]) where
  table_rows := by rw [← h.table_rows]; rfl
  nodup := by
    rw [List.map_append]
    exact List.nodup_append.mpr ⟨h.nodup, List.nodup_singleton _, by simpa using hfresh⟩
  uniques i := by
    simpa using UniqueIndex.refines_apply (h.uniques i) (.insert (uniqueKey i row) addr)
  groups j := by
    simpa using GroupIndex.refines_apply (h.groups j) (.insert (groupKey j row) addr)

theorem inv_reset {s : TableStore T Ku Kg} {rows : List (Addr × T)}
    (h : s.Inv uniqueKey groupKey rows) : s.reset.Inv uniqueKey groupKey [] :=
  ⟨rfl, List.nodup_nil, fun i => UniqueIndex.refines_apply (h.uniques i) .clear,
    fun j => GroupIndex.refines_apply (h.groups j) .clear⟩

/-- The invariant holds along every run whose allocations are fresh. -/
theorem inv_run : ∀ (ops : List (TableOp T)) {s : TableStore T Ku Kg} {rows : List (Addr × T)},
    s.Inv uniqueKey groupKey rows → FreshFrom (rows.map Prod.fst) ops →
      (ops.foldl (apply uniqueKey groupKey) s).Inv uniqueKey groupKey (ops.foldl TableOp.log rows)
  | [], _, _, h, _ => h
  | .addRow row addr :: ops, _, rows, h, ⟨hfresh, hops⟩ =>
    inv_run ops (inv_addRow uniqueKey groupKey h hfresh row) (by simpa [TableOp.log] using hops)
  | .reset :: ops, _, _, h, hops => inv_run ops (inv_reset uniqueKey groupKey h) hops

/-- A run without resets only appends to the deque. -/
theorem rows_prefix_run : ∀ (post : List (TableOp T)) (s : TableStore T Ku Kg),
    (∀ op ∈ post, op ≠ .reset) →
      s.table.rows <+: (post.foldl (apply uniqueKey groupKey) s).table.rows
  | [], _, _ => List.prefix_refl _
  | .addRow row addr :: post, s, h =>
    (List.prefix_append s.table.rows [(addr, row)]).trans
      (rows_prefix_run post (s.addRow uniqueKey groupKey addr row)
        fun op hop => h op (List.mem_cons_of_mem _ hop))
  | .reset :: _, _, h => absurd rfl (h .reset (List.mem_cons_self _ _))

theorem deref_of_mem {s : TableStore T Ku Kg} {rows : List (Addr × T)}
    (h : s.Inv uniqueKey groupKey rows) {addr : Addr} {row : T} (hmem : (addr, row) ∈ rows) :
    s.table.deref addr = some row := by
  rw [DataTable.deref, h.table_rows]
  exact lookup_of_mem h.nodup hmem

/-- Every pointer an index holds is the address of one of the rows, and so of a row of the
deque. -/
theorem heldRef_of_inv {s : TableStore T Ku Kg} {rows : List (Addr × T)}
    (h : s.Inv uniqueKey groupKey rows) {p : Option Addr} (hp : s.HeldRef p) :
    ∃ addr row, p = some addr ∧ (addr, row) ∈ rows := by
  rcases hp with ⟨i, k, hmem⟩ | ⟨j, k, ptrs, hmem, hp⟩
  · have hfind := UnorderedMap.find_of_mem _ hmem
    rw [h.uniques i, lastInsert_keyed] at hfind
    obtain ⟨e, he, rfl⟩ : ∃ e, (rows.filter fun e => uniqueKey i e.2 = k).getLast? = some e ∧
        some e.1 = p := by
      cases hl : (rows.filter fun e => uniqueKey i e.2 = k).getLast? with
      | none => simp [hl] at hfind
      | some e => exact ⟨e, rfl, by simpa [hl] using hfind⟩
    exact ⟨e.1, e.2, rfl, (List.mem_filter.mp (List.mem_of_getLast?_eq_some he)).1⟩
  · have hfind := UnorderedMap.find_of_mem _ hmem
    rw [h.groups j, insertsUnder_keyed] at hfind
    split at hfind
    · cases hfind
    · cases hfind
      obtain ⟨addr, hmem', rfl⟩ := List.mem_map.mp hp
      obtain ⟨e, he, rfl⟩ := List.mem_map.mp hmem'
      exact ⟨e.1, e.2, rfl, (List.mem_filter.mp he).1⟩

/-- What the container promises of one table after a run: the deque holds the rows added since
the last reset, at distinct addresses; a unique index returns the last of them with the key, and
`nullptr` exactly when none has it; a group index returns all of them with the key, each once, in
insertion order; every pointer an index holds designates a row of the deque holding the content
that was added; and later `add_row` calls neither move nor overwrite any row. -/
structure ScanAgreement (ops : List (TableOp T)) (s : TableStore T Ku Kg) : Prop where
  rows_eq : s.table.rows = rowsSinceReset ops
  addrs_nodup : (s.table.rows.map Prod.fst).Nodup
  unique_get : ∀ i k, (s.uniques i).get k =
    ((s.table.rows.filter fun e => uniqueKey i e.2 = k).getLast?).map Prod.fst
  unique_get_eq_none : ∀ i k, (s.uniques i).get k = none ↔ ∀ e ∈ s.table.rows, uniqueKey i e.2 ≠ k
  group_get : ∀ j k, (s.groups j).get k =
    (s.table.rows.filter fun e => groupKey j e.2 = k).map fun e => some e.1
  held_live : ∀ p, s.HeldRef p →
    ∃ addr row, p = some addr ∧ (addr, row) ∈ s.table.rows ∧ s.table.deref addr = some row
  rows_stable : ∀ post, (∀ op ∈ post, op ≠ .reset) →
    s.table.rows <+: (run uniqueKey groupKey (ops ++ post)).table.rows

/-- **Indexed lookup agrees with a linear scan.**  After any run of `add_row` and reset calls
whose allocations are fresh, every index of the table agrees with a scan of its deque. -/
theorem run_scanAgreement (ops : List (TableOp T)) (hfresh : FreshAddrs ops) :
    ScanAgreement uniqueKey groupKey ops (run uniqueKey groupKey ops) := by
  have h : (run uniqueKey groupKey ops).Inv uniqueKey groupKey (rowsSinceReset ops) :=
    inv_run uniqueKey groupKey ops (inv_empty uniqueKey groupKey) hfresh
  have hrows := h.table_rows
  refine ⟨hrows, hrows ▸ h.nodup, fun i k => ?_, fun i k => ?_, fun j k => ?_, fun p hp => ?_,
    fun post hpost => ?_⟩
  · rw [UniqueIndex.get_of_refines (h.uniques i), lastInsert_keyed, hrows]
  · rw [UniqueIndex.get_of_refines (h.uniques i), lastInsert_keyed, hrows]
    simp
  · rw [GroupIndex.get_of_refines (h.groups j), insertsUnder_keyed, hrows, List.map_map]
    rfl
  · obtain ⟨addr, row, rfl, hmem⟩ := heldRef_of_inv uniqueKey groupKey h hp
    exact ⟨addr, row, rfl, hrows ▸ hmem, deref_of_mem uniqueKey groupKey h hmem⟩
  · unfold run
    rw [List.foldl_append]
    exact rows_prefix_run uniqueKey groupKey post _ hpost

/-- Rows `(id, owner)` with a unique index on `id` and a group index on `owner`; after the reset
the deque hands out address `100` again. -/
theorem run_scanAgreement_owners :
    let ops : List (TableOp (Nat × Nat)) :=
      [.addRow (1, 7) 100, .addRow (2, 7) 101, .reset, .addRow (1, 8) 100, .addRow (1, 8) 102]
    FreshAddrs ops ∧
      ScanAgreement (fun (_ : Unit) (r : Nat × Nat) => r.1) (fun (_ : Unit) r => r.2) ops
        (run (fun (_ : Unit) (r : Nat × Nat) => r.1) (fun (_ : Unit) r => r.2) ops) :=
  ⟨by simp [FreshAddrs, FreshFrom],
    run_scanAgreement _ _ _ (by simp [FreshAddrs, FreshFrom])⟩

example :
    let s := run (fun (_ : Unit) (r : Nat × Nat) => r.1) (fun (_ : Unit) r => r.2)
      [.addRow (1, 7) 100, .addRow (2, 7) 101, .reset, .addRow (1, 8) 100, .addRow (1, 8) 102]
    (s.uniques ()).get 1 = some 102 ∧ (s.uniques ()).get 2 = none ∧
      (s.groups ()).get 8 = [some 100, some 102] ∧ (s.groups ()).get 7 = [] := by
  decide

end TableStore

end Store
end PolyGenSupport
