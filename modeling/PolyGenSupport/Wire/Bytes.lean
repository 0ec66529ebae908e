import Mathlib.Data.List.Basic
import Mathlib.Algebra.Group.Nat.Basic

/-!
# Little-endian words and the reading cursor

`BinaryWriter` writes a `uintN_t` by copying its bytes out of memory after `native_to_le`, and
`BinaryReader` reads one by copying bytes into memory before `le_to_native`.  Both conversions
are the identity, since the code assumes a little-endian host, so on the wire a word is its
base-256 digits, least significant first.  `leBytes` and `leValue` are the two directions.

A `BinaryReader` is a cursor over a byte stream.  A read consumes a prefix of the unread bytes
and returns a value, or `check_read` throws once a read has run past the end.  `Reader` is that
state-passing computation; `readRaw` is `stream_.read` followed by `check_read`, and every other
read is built from it.  The bind lemmas at the end are the only place a proof looks inside the
monad.
-/

namespace PolyGenSupport
namespace Wire

/-! ## Words -/

/-- The `width` bytes of the word `n` as they sit in memory on a little-endian host. -/
def leBytes : Nat → Nat → List UInt8
  | 0, _ => []
  | width + 1, n => UInt8.ofNat (n % 256) :: leBytes width (n / 256)

/-- The word whose bytes in memory on a little-endian host are `bytes`. -/
def leValue : List UInt8 → Nat
  | [] => 0
  | b :: bytes => b.toNat + 256 * leValue bytes

@[simp] theorem leBytes_zero (n : Nat) : leBytes 0 n = [] := rfl

@[simp] theorem leValue_nil : leValue [] = 0 := rfl

theorem uint8_toNat_ofNat (n : Nat) : (UInt8.ofNat n).toNat = n % 256 := rfl

@[simp] theorem leBytes_length (width n : Nat) : (leBytes width n).length = width := by
  induction width generalizing n with
  | zero => rfl
  | succ width ih => simp [leBytes, ih]

/-- Reading back the bytes of a word gives the word modulo the width. -/
theorem leValue_leBytes (width n : Nat) : leValue (leBytes width n) = n % 256 ^ width := by
  induction width generalizing n with
  | zero => simp [Nat.mod_one]
  | succ width ih =>
    rw [leBytes, leValue, ih, uint8_toNat_ofNat, Nat.pow_succ', Nat.mod_mul, Nat.mod_mod]

theorem leValue_lt (bytes : List UInt8) : leValue bytes < 256 ^ bytes.length := by
  induction bytes with
  | nil => simp
  | cons b bytes ih =>
    have hb : b.toNat < 256 := b.toNat_lt_size
    rw [leValue, List.length_cons, Nat.pow_succ']
    omega

/-- Every byte string is the encoding of the word it denotes: no word has two encodings. -/
theorem leBytes_leValue (bytes : List UInt8) : leBytes bytes.length (leValue bytes) = bytes := by
  induction bytes with
  | nil => rfl
  | cons b bytes ih =>
    have hb : b.toNat < 256 := b.toNat_lt_size
    have hdiv : (b.toNat + 256 * leValue bytes) / 256 = leValue bytes := by omega
    have hmod : (b.toNat + 256 * leValue bytes) % 256 = b.toNat := by omega
    rw [List.length_cons, leBytes, leValue, hdiv, hmod, ih]
    exact congrArg (· :: bytes) (UInt8.toNat.inj (by rw [uint8_toNat_ofNat]; omega))

/-! ## The reading cursor -/

/-- What `check_read` throws once a read has run past the end of the stream. -/
def endOfStream : String := "Binary read error: unexpected end of stream"

/-- A read from a `BinaryReader`: it consumes a prefix of the unread bytes and returns a value,
or throws. -/
abbrev Reader := StateT (List UInt8) (Except String)

/-- `stream_.read(buf, n)` followed by `check_read()`: the next `n` bytes, or the end-of-stream
error when fewer than `n` remain. -/
def readRaw (n : Nat) : Reader (List UInt8) := fun bytes =>
  if n ≤ bytes.length then .ok (bytes.take n, bytes.drop n) else .error endOfStream

theorem readRaw_append (bytes rest : List UInt8) :
    (readRaw bytes.length).run (bytes ++ rest) = .ok (bytes, rest) := by
  simp [readRaw, StateT.run]

theorem readRaw_append_of_le {n : Nat} {bytes : List UInt8} (h : n ≤ bytes.length)
    (rest : List UInt8) :
    (readRaw n).run (bytes ++ rest) = .ok (bytes.take n, bytes.drop n ++ rest) := by
  simp only [readRaw, StateT.run, List.length_append, List.take_append_of_le_length h,
    List.drop_append_of_le_length h]
  rw [if_pos (by omega)]

theorem readRaw_eq_ok {n : Nat} {s bytes rest : List UInt8} :
    (readRaw n).run s = .ok (bytes, rest) ↔ bytes.length = n ∧ s = bytes ++ rest := by
  simp only [readRaw, StateT.run]
  split
  · constructor
    · rintro ⟨⟩
      simp [*]
    · rintro ⟨rfl, rfl⟩
      simp
  · simp only [reduceCtorEq, false_iff, not_and]
    rintro rfl rfl
    simp_all

theorem readRaw_eq_error {n : Nat} {s : List UInt8} {e : String} :
    (readRaw n).run s = .error e ↔ s.length < n ∧ e = endOfStream := by
  simp only [readRaw, StateT.run]
  split
  · simp only [reduceCtorEq, false_iff, not_and]
    omega
  · simp only [Except.error.injEq]
    constructor
    · rintro rfl
      exact ⟨by omega, rfl⟩
    · exact fun h => h.2.symm

/-! ## Sequencing reads -/

section Bind

variable {α β : Type} {x : Reader α} {f : α → Reader β} {s : List UInt8}

theorem run_bind_of_ok {a : α} {s' : List UInt8} (h : x.run s = .ok (a, s')) :
    (x >>= f).run s = (f a).run s' := by
  simp only [StateT.run_bind, h]
  rfl

theorem run_bind_of_error {e : String} (h : x.run s = .error e) :
    (x >>= f).run s = .error e := by
  simp only [StateT.run_bind, h]
  rfl

/-- A sequenced read succeeds exactly when both halves do, the second on what the first left. -/
theorem run_bind_eq_ok {b : β} {s'' : List UInt8} :
    (x >>= f).run s = .ok (b, s'') ↔
      ∃ a s', x.run s = .ok (a, s') ∧ (f a).run s' = .ok (b, s'') := by
  rcases h : x.run s with e | ⟨a, s'⟩
  · simp [run_bind_of_error h]
  · rw [run_bind_of_ok h]
    exact ⟨fun h' => ⟨a, s', rfl, h'⟩, fun ⟨_, _, hx, hf⟩ => by cases hx; exact hf⟩

/-- A sequenced read throws exactly when its first half throws, or the first half succeeds and
the second throws. -/
theorem run_bind_eq_error {e : String} :
    (x >>= f).run s = .error e ↔
      x.run s = .error e ∨ ∃ a s', x.run s = .ok (a, s') ∧ (f a).run s' = .error e := by
  rcases h : x.run s with e' | ⟨a, s'⟩
  · simp [run_bind_of_error h]
  · rw [run_bind_of_ok h]
    exact ⟨fun h' => .inr ⟨a, s', rfl, h'⟩, fun
      | .inl hx => by cases hx
      | .inr ⟨_, _, hx, hf⟩ => by cases hx; exact hf⟩

end Bind

@[simp] theorem run_pure {α : Type} (a : α) (s : List UInt8) :
    (pure a : Reader α).run s = .ok (a, s) := rfl

end Wire
end PolyGenSupport
