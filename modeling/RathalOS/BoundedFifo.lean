import Mathlib.Algebra.Group.Nat.Defs
import Mathlib.Data.List.Induction
import Mathlib.Logic.Function.Basic

/-!
Bounded first-in first-out buffers, as an observer knows them, and ring buffers whose
counters have just as many bits as an index. Such a ring holds up to 2^w values, but
its size reads 0 when it is full. Nothing here depends on a particular program.
-/
namespace RathalOS.BoundedFifo

/-- What an operation on a buffer does that can be seen. -/
inductive Observation (α : Type)
  | stored (a : α)
  | dropped
  | returned (a : α)
  | blocked
  | ignored
  deriving DecidableEq, Repr

section Observations

variable {α : Type} [DecidableEq α] {cap : ℕ}

/-- The values unread after an observation; there is none when a first-in first-out
buffer of this capacity would have done something else. -/
def observe (cap : ℕ) (unread : List α) : Observation α → Option (List α)
  | .stored a => if unread.length < cap then some (unread ++ [a]) else none
  | .dropped => if unread.length = cap then some unread else none
  | .returned a => if unread.head? = some a then some unread.tail else none
  | .blocked => if unread = [] then some [] else none
  | .ignored => some unread

def replay (cap : ℕ) (observations : List (Observation α)) : Option (List α) :=
  observations.foldlM (observe cap) []

/-- Every value stored is returned once, in the order stored; an operation blocks only
when nothing is unread, and drops a value only when the buffer is full. -/
def Lossless (cap : ℕ) (observations : List (Observation α)) : Prop :=
  replay cap observations ≠ none

instance (cap : ℕ) (observations : List (Observation α)) :
    Decidable (Lossless cap observations) := by
  unfold Lossless
  infer_instance

theorem replay_concat (cap : ℕ) (observations : List (Observation α)) (o : Observation α) :
    replay cap (observations ++ [o]) =
      (replay cap observations).bind fun unread => observe cap unread o := by
  simp only [replay, List.foldlM_append]
  cases observations.foldlM (observe cap) [] with
  | none => rfl
  | some unread => simp

end Observations

section Rings

variable {w : ℕ} {α : Type}

/-- A ring of 2^w cells: the next value is stored at head and read at tail. -/
structure Ring (w : ℕ) (α : Type) where
  cells : BitVec w → α
  head : BitVec w
  tail : BitVec w
  size : BitVec w

def Ring.push (r : Ring w α) (a : α) : Ring w α where
  cells := Function.update r.cells r.head a
  head := r.head + 1
  tail := r.tail
  size := r.size + 1

def Ring.front (r : Ring w α) : α := r.cells r.tail

def Ring.pop (r : Ring w α) : Ring w α :=
  { r with
    tail := r.tail + 1
    size := r.size - 1 }

/-- The unread values lie between tail and head, in order. -/
structure Holds (r : Ring w α) (unread : List α) : Prop where
  length_le : unread.length ≤ 2 ^ w
  head : r.head = r.tail + BitVec.ofNat w unread.length
  size : r.size = BitVec.ofNat w unread.length
  cell : ∀ i (hi : i < unread.length), r.cells (r.tail + BitVec.ofNat w i) = unread[i]

variable {r : Ring w α} {unread : List α} {a : α}

theorem holds_nil (hhead : r.head = r.tail) (hsize : r.size = 0) : Holds r [] where
  length_le := Nat.zero_le _
  head := by simpa using hhead
  size := hsize
  cell := fun i hi => absurd hi (Nat.not_lt_zero i)

/-- The cell at head is not one of those in use as long as the ring is not full. -/
theorem Holds.head_ne (h : Holds r unread) (hlt : unread.length < 2 ^ w) {i : ℕ}
    (hi : i < unread.length) : r.tail + BitVec.ofNat w i ≠ r.head := by
  rw [h.head]
  intro heq
  have hoffset := congrArg BitVec.toNat ((BitVec.add_right_inj _).mp heq)
  rw [BitVec.toNat_ofNat, BitVec.toNat_ofNat, Nat.mod_eq_of_lt (by omega),
    Nat.mod_eq_of_lt hlt] at hoffset
  omega

theorem Holds.push (h : Holds r unread) (hlt : unread.length < 2 ^ w) :
    Holds (r.push a) (unread ++ [a]) where
  length_le := by
    rw [List.length_append, List.length_singleton]
    omega
  head := by
    rw [List.length_append, List.length_singleton, BitVec.ofNat_add, ← BitVec.add_assoc]
    exact congrArg (· + 1) h.head
  size := by
    rw [List.length_append, List.length_singleton, BitVec.ofNat_add]
    exact congrArg (· + 1) h.size
  cell := by
    intro i hi
    change Function.update r.cells r.head a (r.tail + BitVec.ofNat w i) = _
    rw [List.length_append, List.length_singleton] at hi
    by_cases hlast : i = unread.length
    · subst hlast
      rw [← h.head, Function.update_self, List.getElem_concat_length]
      rfl
    · have hin : i < unread.length := by omega
      rw [Function.update_of_ne (h.head_ne hlt hin), h.cell i hin,
        List.getElem_append_left hin]

theorem Holds.front (h : Holds r (a :: unread)) : r.front = a := by
  have hcell := h.cell 0 (Nat.zero_lt_succ _)
  simpa [Ring.front] using hcell

theorem Holds.pop (h : Holds r (a :: unread)) : Holds r.pop unread where
  length_le := Nat.le_of_succ_le h.length_le
  head := by
    change r.head = r.tail + 1 + BitVec.ofNat w unread.length
    rw [h.head, List.length_cons, BitVec.add_assoc, Nat.add_comm, BitVec.ofNat_add]
    rfl
  size := by
    change r.size - 1 = _
    rw [h.size, List.length_cons, BitVec.ofNat_add]
    exact BitVec.add_sub_cancel _ _
  cell := by
    intro i hi
    have hcell := h.cell (i + 1) (Nat.succ_lt_succ hi)
    change r.cells (r.tail + 1 + BitVec.ofNat w i) = _
    have hnext : (1 : BitVec w) + BitVec.ofNat w i = BitVec.ofNat w (i + 1) := by
      rw [BitVec.ofNat_add, BitVec.add_comm]
      rfl
    rw [BitVec.add_assoc, hnext, hcell]
    rfl

/-- A size of 0 means that the ring is empty or that it is full. -/
theorem Holds.size_eq_zero_iff (h : Holds r unread) :
    r.size = 0 ↔ unread = [] ∨ unread.length = 2 ^ w := by
  have hle := h.length_le
  have hpos : 0 < 2 ^ w := Nat.two_pow_pos w
  rw [h.size, ← BitVec.toNat_inj, BitVec.toNat_ofNat, ← List.length_eq_zero_iff]
  change unread.length % 2 ^ w = 0 % 2 ^ w ↔ _
  rw [Nat.zero_mod]
  constructor
  · intro hmod
    by_cases hfull : unread.length = 2 ^ w
    · exact Or.inr hfull
    · rw [Nat.mod_eq_of_lt (by omega)] at hmod
      exact Or.inl hmod
  · intro hor
    rcases hor with hempty | hfull
    · rw [hempty, Nat.zero_mod]
    · rw [hfull, Nat.mod_self]

end Rings

end RathalOS.BoundedFifo
