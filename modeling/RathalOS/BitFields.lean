import Mathlib.Data.Nat.Notation
import Mathlib.Tactic.ByContra

/-!
Fields packed into a word. A field is a range of bits; setting it replaces these bits and
no other. Where no two fields of a layout have a bit in common, each of them keeps its
value when another is set. Nothing here depends on a particular program.
-/
namespace RathalOS.BitFields

variable {w : ℕ} {ι : Type}

/-- A range of bits of a word. -/
structure BitField (w : ℕ) where
  offset : ℕ
  width : ℕ
  fits : offset + width ≤ w

namespace BitField

def Contains (f : BitField w) (k : ℕ) : Prop := f.offset ≤ k ∧ k < f.offset + f.width

instance (f : BitField w) (k : ℕ) : Decidable (f.Contains k) :=
  inferInstanceAs (Decidable (f.offset ≤ k ∧ k < f.offset + f.width))

/-- Two fields have no bit in common. -/
def Apart (f g : BitField w) : Prop :=
  f.offset + f.width ≤ g.offset ∨ g.offset + g.width ≤ f.offset

instance (f g : BitField w) : Decidable (f.Apart g) :=
  inferInstanceAs (Decidable (f.offset + f.width ≤ g.offset ∨ g.offset + g.width ≤ f.offset))

def get (f : BitField w) (word : BitVec w) : BitVec f.width := (word >>> f.offset).setWidth f.width

/-- The bits of the field. -/
def mask (f : BitField w) : BitVec w := (BitVec.allOnes f.width).setWidth w <<< f.offset

def set (f : BitField w) (value : BitVec f.width) (word : BitVec w) : BitVec w :=
  word &&& ~~~ f.mask ||| value.setWidth w <<< f.offset

variable {f g : BitField w} {word : BitVec w} {k : ℕ}

theorem get_getLsbD (f : BitField w) (word : BitVec w) {k : ℕ} (h : k < f.width) :
    (f.get word).getLsbD k = word.getLsbD (f.offset + k) := by
  rw [get, BitVec.getLsbD_setWidth, BitVec.getLsbD_ushiftRight, decide_eq_true h, Bool.true_and]

theorem mask_getLsbD (f : BitField w) (k : ℕ) : f.mask.getLsbD k = decide (f.Contains k) := by
  have hfits := f.fits
  rw [mask, BitVec.getLsbD_shiftLeft, BitVec.getLsbD_setWidth, BitVec.getLsbD_allOnes,
    Bool.eq_iff_iff, decide_eq_true_iff]
  simp only [Bool.and_eq_true, Bool.not_eq_true', decide_eq_true_eq, decide_eq_false_iff_not]
  unfold Contains
  omega

/-- Setting a field changes its bits only. -/
theorem set_getLsbD (f : BitField w) (value : BitVec f.width) (word : BitVec w) (k : ℕ) :
    (f.set value word).getLsbD k =
      if f.Contains k then value.getLsbD (k - f.offset) else word.getLsbD k := by
  have hfits := f.fits
  rw [set, BitVec.getLsbD_or, BitVec.getLsbD_and, BitVec.getLsbD_not, mask_getLsbD,
    BitVec.getLsbD_shiftLeft, BitVec.getLsbD_setWidth]
  by_cases hk : f.Contains k
  · obtain ⟨hlow, hhigh⟩ := id hk
    have hw : k < w := by omega
    have hsub : k - f.offset < w := by omega
    simp [hk, hw, hsub, Nat.not_lt.mpr hlow]
  · rw [if_neg hk]
    by_cases hlow : k < f.offset
    · by_cases hw : k < w
      · simp [hk, hlow, hw]
      · rw [BitVec.getLsbD_of_ge word k (Nat.le_of_not_lt hw)]
        simp [hw]
    · have hvalue : value.getLsbD (k - f.offset) = false := by
        apply BitVec.getLsbD_of_ge
        simp only [Contains] at hk
        omega
      by_cases hw : k < w
      · simp [hk, hvalue, hw]
      · rw [BitVec.getLsbD_of_ge word k (Nat.le_of_not_lt hw)]
        simp [hw]

theorem get_set_self (f : BitField w) (value : BitVec f.width) (word : BitVec w) :
    f.get (f.set value word) = value := by
  apply BitVec.eq_of_getLsbD_eq
  intro k hk
  have hin : f.Contains (f.offset + k) := ⟨Nat.le_add_right _ _, by omega⟩
  rw [get_getLsbD _ _ hk, set_getLsbD, if_pos hin, Nat.add_sub_cancel_left]

theorem get_set_of_apart (h : f.Apart g) (value : BitVec f.width) (word : BitVec w) :
    g.get (f.set value word) = g.get word := by
  apply BitVec.eq_of_getLsbD_eq
  intro k hk
  have hout : ¬ f.Contains (g.offset + k) := by
    unfold Contains
    unfold Apart at h
    omega
  rw [get_getLsbD _ _ hk, get_getLsbD _ _ hk, set_getLsbD, if_neg hout]

end BitField

/-- The fields of a word, no two of which have a bit in common. -/
structure Layout (w : ℕ) (ι : Type) where
  field : ι → BitField w
  apart : ∀ i j, i ≠ j → (field i).Apart (field j)

namespace Layout

/-- Values of all fields. -/
abbrev Record (l : Layout w ι) : Type := ∀ i, BitVec (l.field i).width

/-- The fields are set one after the other. -/
def store (l : Layout w ι) (record : l.Record) (order : List ι) (word : BitVec w) : BitVec w :=
  order.foldl (fun word i => (l.field i).set (record i) word) word

def load (l : Layout w ι) (word : BitVec w) : l.Record := fun i => (l.field i).get word

/-- Every bit of the word belongs to a field. -/
def Covers (l : Layout w ι) : Prop := ∀ k < w, ∃ i, (l.field i).Contains k

variable {l : Layout w ι} {order : List ι} {i j : ι}

/-- No field is altered by setting another. -/
theorem get_set_of_ne (l : Layout w ι) (h : i ≠ j) (value : BitVec (l.field i).width)
    (word : BitVec w) : (l.field j).get ((l.field i).set value word) = (l.field j).get word :=
  BitField.get_set_of_apart (l.apart i j h) value word

theorem get_store_of_notMem (l : Layout w ι) (record : l.Record) (h : i ∉ order)
    (word : BitVec w) : (l.field i).get (l.store record order word) = (l.field i).get word := by
  induction order generalizing word with
  | nil => rfl
  | cons j rest ih =>
    rw [List.mem_cons, not_or] at h
    exact (ih h.2 _).trans (l.get_set_of_ne (Ne.symm h.1) _ _)

/-- A field that is set has its value in the end, whatever is set after it. -/
theorem get_store_of_mem (l : Layout w ι) (record : l.Record) (h : i ∈ order)
    (word : BitVec w) : (l.field i).get (l.store record order word) = record i := by
  induction order generalizing word with
  | nil => exact absurd h List.not_mem_nil
  | cons j rest ih =>
    by_cases hrest : i ∈ rest
    · exact ih hrest _
    · have hij : i = j := (List.mem_cons.mp h).resolve_right hrest
      subst hij
      exact (l.get_store_of_notMem record hrest _).trans (BitField.get_set_self _ _ _)

theorem load_store (l : Layout w ι) (record : l.Record) (h : ∀ i, i ∈ order)
    (word : BitVec w) : l.load (l.store record order word) = record :=
  funext fun i => l.get_store_of_mem record (h i) word

/-- Words with the same fields are the same. -/
theorem eq_of_load (hcovers : l.Covers) {word word' : BitVec w}
    (h : l.load word = l.load word') : word = word' := by
  apply BitVec.eq_of_getLsbD_eq
  intro k hk
  obtain ⟨i, hlow, hhigh⟩ := hcovers k hk
  have hfield : (l.field i).get word = (l.field i).get word' := congrFun h i
  have hbit := congrArg (fun value => value.getLsbD (k - (l.field i).offset)) hfield
  rw [BitField.get_getLsbD _ _ (by omega), BitField.get_getLsbD _ _ (by omega),
    Nat.add_sub_cancel' hlow] at hbit
  exact hbit

/-- Setting all fields leaves nothing of the word before. -/
theorem store_eq (hcovers : l.Covers) (record : l.Record) (h : ∀ i, i ∈ order)
    (word word' : BitVec w) : l.store record order word = l.store record order word' := by
  apply eq_of_load hcovers
  rw [load_store l record h, load_store l record h]

end Layout

end RathalOS.BitFields
