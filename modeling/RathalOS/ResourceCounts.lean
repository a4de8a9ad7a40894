import Mathlib.Algebra.BigOperators.Group.Finset.Sigma
import RathalOS.FirstFit
import RathalOS.Ownership

/-!
How many numbered resources are held. With exact bookkeeping every held resource but the
reserved one is named by one owner at one place, so the number of held ones is that of the
places in use, counted owner by owner. Nothing here depends on a particular program.
-/
namespace RathalOS.ResourceCounts

open FirstFit Ownership

variable {ι π : Type} {live : ι → Prop} {names : ι → π → ℕ} {held : ℕ → Bool} {n : ℕ}

/-- The places in use are those at which a live owner names a resource. -/
structure InUse (live : ι → Prop) (names : ι → π → ℕ) (owners : Finset ι)
    (places : ι → Finset π) : Prop where
  owner_iff : ∀ i, i ∈ owners ↔ live i
  place_iff : ∀ i, live i → ∀ p, p ∈ places i ↔ names i p ≠ 0

theorem heldCount_eq_card (held : ℕ → Bool) (n : ℕ) :
    heldCount held n = ((Finset.range n).filter fun b => held b = true).card :=
  Nat.count_eq_card_filter_range _ n

/-- One resource is reserved, and every other one that is held is named at one place. -/
theorem heldCount_of_tracked (h : Tracked live names held n) (hn : 0 < n) {owners : Finset ι}
    {places : ι → Finset π} (huse : InUse live names owners places) :
    heldCount held n = 1 + ∑ i ∈ owners, (places i).card := by
  classical
  have hlive : ∀ x ∈ owners.sigma places, live x.1 ∧ names x.1 x.2 ≠ 0 := by
    intro x hx
    obtain ⟨hi, hp⟩ := Finset.mem_sigma.mp hx
    have hi' := (huse.owner_iff x.1).mp hi
    exact ⟨hi', (huse.place_iff x.1 hi' x.2).mp hp⟩
  have hheld : ((Finset.range n).filter fun b => held b = true) =
      insert 0 ((owners.sigma places).image fun x => names x.1 x.2) := by
    ext b
    rw [Finset.mem_filter, Finset.mem_range, Finset.mem_insert, Finset.mem_image]
    constructor
    · rintro ⟨hb, hbit⟩
      rcases (h.held_iff b hb).mp hbit with rfl | ⟨i, p, hi, hip⟩
      · exact .inl rfl
      · by_cases hzero : b = 0
        · exact .inl hzero
        · have hp := (huse.place_iff i hi p).mpr (hip ▸ hzero)
          exact .inr ⟨⟨i, p⟩, Finset.mem_sigma.mpr ⟨(huse.owner_iff i).mpr hi, hp⟩, hip⟩
    · rintro (rfl | ⟨x, hx, rfl⟩)
      · exact ⟨hn, (h.held_iff 0 hn).mpr (.inl rfl)⟩
      · have hi := (hlive x hx).1
        exact ⟨h.inRange x.1 x.2 hi, h.held_of_named hi⟩
  have hnotMem : 0 ∉ (owners.sigma places).image fun x => names x.1 x.2 := by
    intro hzero
    obtain ⟨x, hx, heq⟩ := Finset.mem_image.mp hzero
    exact (hlive x hx).2 heq
  have hinj : Set.InjOn (fun x : (_ : ι) × π => names x.1 x.2) (owners.sigma places) := by
    rintro ⟨i, p⟩ hx ⟨j, q⟩ hy heq
    obtain ⟨hi, hne⟩ := hlive _ hx
    obtain ⟨rfl, rfl⟩ := h.distinct i j p q hi (hlive _ hy).1 hne heq
    rfl
  rw [heldCount_eq_card, hheld, Finset.card_insert_of_notMem hnotMem,
    Finset.card_image_of_injOn hinj, Finset.card_sigma, Nat.add_comm]

end RathalOS.ResourceCounts
