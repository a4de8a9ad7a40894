import Mathlib.Data.Nat.Count
import Mathlib.Data.Fin.Basic
import Mathlib.Logic.Function.Basic
import Mathlib.Tactic.Ring
import Mathlib.Tactic.Linarith
import Mathlib.Tactic.IntervalCases

/-!
Byte-addressed memory and little-endian machine words.
A memory is a total map from offsets to bytes; an array of n bytes is a memory
of which only the first n offsets are meaningful. Words are stored low byte
first. Faults record why a C function did not return. Nothing here depends on
a particular program.
-/
namespace RathalOS.ByteMemory

abbrev Byte := BitVec 8
abbrev Memory := ℕ → Byte

/-- Why a call did not return: a failed assertion, a call of `exit`, or an
access outside an array. -/
inductive Fault
  | assertion
  | exit
  | undefined
  deriving DecidableEq, Repr

@[simp] theorem ok_bind {ε α β : Type} (a : α) (k : α → Except ε β) :
    (Except.ok a >>= k) = k a := rfl

@[simp] theorem error_bind {ε α β : Type} (e : ε) (k : α → Except ε β) :
    ((Except.error e : Except ε α) >>= k) = Except.error e := rfl

theorem bind_of_ok {ε α β : Type} {x : Except ε α} {a : α} (h : x = .ok a) (k : α → Except ε β) :
    (x >>= k) = k a := by
  rw [h, ok_bind]

/-- A computation that returned a value passed through each of its steps. -/
theorem bind_eq_ok {ε α β : Type} {x : Except ε α} {k : α → Except ε β} {b : β}
    (h : (x >>= k) = .ok b) : ∃ a, x = .ok a ∧ k a = .ok b := by
  cases x with
  | error e => simp at h
  | ok a => exact ⟨a, rfl, h⟩

theorem exists_of_map_fst {α β : Type} {r : Except Fault (α × β)} {a : α}
    (h : r.map Prod.fst = .ok a) : ∃ b, r = .ok (a, b) := by
  cases r with
  | error e => cases h
  | ok p =>
    cases h
    exact ⟨p.2, rfl⟩

/-- Running the first step of a computation with more to return than is used. -/
theorem map_bind_of_map {ε α α' β γ : Type} {x : Except ε α} {p : α → α'} {y : Except ε α'}
    {k : α → Except ε β} {g : β → γ} {k' : α' → Except ε γ} (hx : x.map p = y)
    (h : ∀ a, (k a).map g = k' (p a)) : (x >>= k).map g = (y >>= k') := by
  subst hx
  cases x with
  | error e => rfl
  | ok a => exact h a

theorem map_bind_eq {ε α β γ : Type} {x : Except ε α} {k : α → Except ε β} {g : β → γ}
    {k' : α → Except ε γ} (h : ∀ a, (k a).map g = k' a) : (x >>= k).map g = (x >>= k') := by
  cases x with
  | error e => rfl
  | ok a => exact h a

/-- Unsigned 32-bit arithmetic. -/
def uint (n : ℕ) : ℕ := n % 2 ^ 32

/-- A signed value converted to an unsigned 32-bit one. -/
def uintOfInt (n : ℤ) : ℕ := (n % 2 ^ 32).toNat

/-- An unsigned 32-bit value converted to a signed one. -/
def intOfUint (n : ℕ) : ℤ := if n < 2 ^ 31 then n else (n : ℤ) - 2 ^ 32

theorem uint_of_lt {n : ℕ} (h : n < 2 ^ 32) : uint n = n := Nat.mod_eq_of_lt h

theorem uintOfInt_natCast {n : ℕ} (h : n < 2 ^ 32) : uintOfInt n = n := by
  unfold uintOfInt
  omega

theorem intOfUint_of_lt {n : ℕ} (h : n < 2 ^ 31) : intOfUint n = n := by
  unfold intOfUint
  exact if_pos h

theorem intOfUint_lt {n : ℕ} (h : n < 2 ^ 32) : intOfUint n < 2 ^ 31 := by
  unfold intOfUint
  split <;> omega

/-- The k-th byte of a number, counted from the low end. -/
def byteAt (n k : ℕ) : Byte := BitVec.ofNat 8 (n / 256 ^ k)

def read16 (m : Memory) (a : ℕ) : BitVec 16 :=
  BitVec.ofNat 16 ((m a).toNat + 256 * (m (a + 1)).toNat)

def read32 (m : Memory) (a : ℕ) : BitVec 32 :=
  BitVec.ofNat 32 ((m a).toNat + 256 * (m (a + 1)).toNat + 65536 * (m (a + 2)).toNat +
    16777216 * (m (a + 3)).toNat)

/-- The memory seen through a pointer moved k bytes forward. -/
def advance (m : Memory) (k : ℕ) : Memory := fun i => m (k + i)

/-- Overwrite n bytes from an offset with the first n bytes of some data. -/
def store (m : Memory) (offset n : ℕ) (data : Memory) : Memory :=
  fun a => if offset ≤ a ∧ a < offset + n then data (a - offset) else m a

@[simp] theorem advance_apply (m : Memory) (k i : ℕ) : advance m k i = m (k + i) := rfl

theorem advance_advance (m : Memory) (j k : ℕ) : advance (advance m j) k = advance m (j + k) := by
  funext i
  rw [advance_apply, advance_apply, advance_apply, Nat.add_assoc]

theorem advance_zero (m : Memory) : advance m 0 = m := by
  funext i
  rw [advance_apply, Nat.zero_add]

theorem read16_toNat (m : Memory) (a : ℕ) :
    (read16 m a).toNat = (m a).toNat + 256 * (m (a + 1)).toNat := by
  unfold read16
  rw [BitVec.toNat_ofNat]
  have h0 := (m a).isLt
  have h1 := (m (a + 1)).isLt
  omega

theorem read16_congr {m m' : Memory} {a b : ℕ} (h0 : m a = m' b) (h1 : m (a + 1) = m' (b + 1)) :
    read16 m a = read16 m' b := by
  unfold read16
  rw [h0, h1]

theorem read32_congr {m m' : Memory} {a b : ℕ} (h : ∀ k < 4, m (a + k) = m' (b + k)) :
    read32 m a = read32 m' b := by
  unfold read32
  have h0 := h 0 (by omega)
  simp only [Nat.add_zero] at h0
  rw [h0, h 1 (by omega), h 2 (by omega), h 3 (by omega)]

/-- A 16-bit word is recovered from its two bytes. -/
theorem read16_byteAt (m : Memory) (a : ℕ) (w : BitVec 16)
    (h0 : m a = byteAt w.toNat 0) (h1 : m (a + 1) = byteAt w.toNat 1) : read16 m a = w := by
  apply BitVec.eq_of_toNat_eq
  rw [read16_toNat, h0, h1]
  unfold byteAt
  simp only [BitVec.toNat_ofNat, Nat.pow_zero, Nat.pow_one, Nat.div_one]
  have hw := w.isLt
  omega

/-- A 32-bit word is recovered from its four bytes. -/
theorem read32_byteAt (m : Memory) (a : ℕ) (w : BitVec 32)
    (h : ∀ k < 4, m (a + k) = byteAt w.toNat k) : read32 m a = w := by
  apply BitVec.eq_of_toNat_eq
  have h0 := h 0 (by omega)
  simp only [Nat.add_zero] at h0
  unfold read32
  rw [h0, h 1 (by omega), h 2 (by omega), h 3 (by omega)]
  unfold byteAt
  simp only [BitVec.toNat_ofNat, Nat.pow_zero, Nat.pow_one, Nat.div_one, Nat.reducePow]
  have hw := w.isLt
  omega

theorem store_inside (m data : Memory) {offset n a : ℕ} (h : offset ≤ a) (h' : a < offset + n) :
    store m offset n data a = data (a - offset) := if_pos ⟨h, h'⟩

theorem store_outside (m data : Memory) {offset n a : ℕ} (h : a < offset ∨ offset + n ≤ a) :
    store m offset n data a = m a := if_neg (by omega)

theorem store_zero (m data : Memory) (offset : ℕ) : store m offset 0 data = m := by
  funext a
  exact store_outside m data (by omega)

/-- The first byte and then the others. -/
theorem store_succ (m data : Memory) (offset n : ℕ) :
    store (Function.update m offset (data 0)) (offset + 1) n (advance data 1) =
      store m offset (n + 1) data := by
  funext a
  by_cases ha : a = offset
  · rw [store_outside _ _ (by omega), store_inside _ _ (by omega) (by omega), ha, Nat.sub_self,
      Function.update_self]
  · by_cases hin : offset < a ∧ a < offset + 1 + n
    · obtain ⟨hlow, hhigh⟩ := hin
      rw [store_inside _ _ hlow hhigh, store_inside _ _ hlow.le (by omega), advance_apply,
        show 1 + (a - (offset + 1)) = a - offset by omega]
    · rw [store_outside _ _ (by omega), store_outside _ _ (by omega), Function.update_of_ne ha]

end RathalOS.ByteMemory
