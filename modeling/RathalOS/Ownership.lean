import RathalOS.ByteMemory

/-!
Ownership of numbered resources. Each live owner names resources at places of
its own; 0 names nothing and is reserved. The bookkeeping is exact when no
resource is named twice and a resource is marked held exactly when it is
reserved or some live owner names it. Granting unheld resources to a new owner
and revoking everything an owner names keep the bookkeeping exact. Nothing here
depends on a particular program.
-/
namespace RathalOS.Ownership

variable {ι π : Type}

/-- The bookkeeping of n resources is exact. -/
structure Tracked (live : ι → Prop) (names : ι → π → ℕ) (held : ℕ → Bool) (n : ℕ) : Prop where
  distinct : ∀ i j p q, live i → live j → names i p ≠ 0 → names i p = names j q → i = j ∧ p = q
  inRange : ∀ i p, live i → names i p < n
  held_iff : ∀ b < n, held b = true ↔ b = 0 ∨ ∃ i p, live i ∧ names i p = b

variable {live live' : ι → Prop} {names names' : ι → π → ℕ} {held held' : ℕ → Bool} {n : ℕ}

/-- A named resource is held. -/
theorem Tracked.held_of_named (h : Tracked live names held n) {i : ι} {p : π} (hi : live i) :
    held (names i p) = true :=
  (h.held_iff _ (h.inRange i p hi)).mpr (Or.inr ⟨i, p, hi, rfl⟩)

/-- The bookkeeping does not depend on what owners that are not live name. -/
theorem Tracked.congr (h : Tracked live names held n) (hlive : ∀ i, live' i ↔ live i)
    (hnames : ∀ i p, live i → names' i p = names i p) (hheld : ∀ b < n, held' b = held b) :
    Tracked live' names' held' n where
  distinct i j p q hi hj hne heq := by
    rw [hlive] at hi hj
    rw [hnames i p hi] at hne heq
    rw [hnames j q hj] at heq
    exact h.distinct i j p q hi hj hne heq
  inRange i p hi := by
    rw [hlive] at hi
    rw [hnames i p hi]
    exact h.inRange i p hi
  held_iff b hb := by
    rw [hheld b hb, h.held_iff b hb]
    refine or_congr_right ⟨?_, ?_⟩
    · intro howned
      rcases howned with ⟨i, p, hi, hb⟩
      exact ⟨i, p, (hlive i).mpr hi, by rw [hnames i p hi, hb]⟩
    · intro howned
      rcases howned with ⟨i, p, hi, hb⟩
      have hi' := (hlive i).mp hi
      exact ⟨i, p, hi', by rw [← hnames i p hi', hb]⟩

/-- Unheld resources, each named once, may be given to an owner that was not live. -/
theorem Tracked.grant (h : Tracked live names held n) (i₀ : ι)
    (hlive : ∀ i, live' i ↔ live i ∨ i = i₀) (hnew : ¬ live i₀)
    (hnames : ∀ i p, live i → names' i p = names i p)
    (hdistinct : ∀ p q, names' i₀ p ≠ 0 → names' i₀ p = names' i₀ q → p = q)
    (hrange : ∀ p, names' i₀ p < n)
    (hfresh : ∀ p, names' i₀ p ≠ 0 → held (names' i₀ p) = false)
    (hheld : ∀ b < n, held' b = true ↔ held b = true ∨ ∃ p, names' i₀ p ≠ 0 ∧ names' i₀ p = b) :
    Tracked live' names' held' n := by
  have hapart : ∀ i p q, live i → names' i₀ q ≠ 0 → names' i p = names' i₀ q → False := by
    intro i p q hi hne heq
    have hheld := h.held_of_named (p := p) hi
    rw [hnames i p hi] at heq
    rw [heq, hfresh q hne] at hheld
    exact Bool.noConfusion hheld
  constructor
  · intro i j p q hi hj hne heq
    rcases (hlive i).mp hi with hi' | rfl
    · rcases (hlive j).mp hj with hj' | rfl
      · rw [hnames i p hi'] at hne heq
        rw [hnames j q hj'] at heq
        exact h.distinct i j p q hi' hj' hne heq
      · exact (hapart i p q hi' (by rwa [← heq]) heq).elim
    · rcases (hlive j).mp hj with hj' | rfl
      · exact (hapart j q p hj' hne heq.symm).elim
      · exact ⟨rfl, hdistinct p q hne heq⟩
  · intro i p hi
    rcases (hlive i).mp hi with hi' | rfl
    · rw [hnames i p hi']
      exact h.inRange i p hi'
    · exact hrange p
  · intro b hb
    rw [hheld b hb, h.held_iff b hb]
    constructor
    · intro hheld
      rcases hheld with (h0 | ⟨i, p, hi, hip⟩) | ⟨p, -, hp⟩
      · exact Or.inl h0
      · exact Or.inr ⟨i, p, (hlive i).mpr (Or.inl hi), by rw [hnames i p hi, hip]⟩
      · exact Or.inr ⟨i₀, p, (hlive i₀).mpr (Or.inr rfl), hp⟩
    · intro hheld
      rcases hheld with h0 | ⟨i, p, hi, hip⟩
      · exact Or.inl (Or.inl h0)
      · by_cases hb0 : b = 0
        · exact Or.inl (Or.inl hb0)
        · rcases (hlive i).mp hi with hi' | rfl
          · exact Or.inl (Or.inr ⟨i, p, hi', by rw [← hnames i p hi', hip]⟩)
          · exact Or.inr ⟨p, by rwa [hip], hip⟩

/-- Everything an owner names may be released together with the owner. -/
theorem Tracked.revoke (h : Tracked live names held n) (i₀ : ι)
    (hlive : ∀ i, live' i ↔ live i ∧ i ≠ i₀) (hold : live i₀)
    (hnames : ∀ i p, live i → i ≠ i₀ → names' i p = names i p)
    (hheld : ∀ b < n, held' b = true ↔ held b = true ∧ ∀ p, names i₀ p ≠ 0 → names i₀ p ≠ b) :
    Tracked live' names' held' n := by
  constructor
  · intro i j p q hi hj hne heq
    obtain ⟨hi', hi₀⟩ := (hlive i).mp hi
    obtain ⟨hj', hj₀⟩ := (hlive j).mp hj
    rw [hnames i p hi' hi₀] at hne heq
    rw [hnames j q hj' hj₀] at heq
    exact h.distinct i j p q hi' hj' hne heq
  · intro i p hi
    obtain ⟨hi', hi₀⟩ := (hlive i).mp hi
    rw [hnames i p hi' hi₀]
    exact h.inRange i p hi'
  · intro b hb
    rw [hheld b hb, h.held_iff b hb]
    constructor
    · intro hheld
      rcases hheld with ⟨h0 | ⟨i, p, hi, hip⟩, hfree⟩
      · exact Or.inl h0
      · by_cases hb0 : b = 0
        · exact Or.inl hb0
        · have hne : i ≠ i₀ := by
            intro heq
            subst heq
            exact hfree p (by rwa [hip]) hip
          exact Or.inr ⟨i, p, (hlive i).mpr ⟨hi, hne⟩, by rw [hnames i p hi hne, hip]⟩
    · intro hheld
      rcases hheld with h0 | ⟨i, p, hi, hip⟩
      · exact ⟨Or.inl h0, fun p hne heq => hne (by rw [heq, h0])⟩
      · obtain ⟨hi', hi₀⟩ := (hlive i).mp hi
        rw [hnames i p hi' hi₀] at hip
        refine ⟨Or.inr ⟨i, p, hi', hip⟩, fun q hne heq => hi₀ ?_⟩
        exact (h.distinct i₀ i q p hold hi' hne (heq.trans hip.symm)).1.symm

end RathalOS.Ownership
