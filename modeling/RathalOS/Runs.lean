import Mathlib.Data.Nat.Notation
import Mathlib.Data.List.Infix
import Mathlib.Tactic.ByContra

/-!
Runs of a step function whose calls may fail. A run is a list of calls, each issued
in the state the one before left; a call that does not return ends it. What holds
throughout a run follows from what one call preserves. Nothing here depends on a
particular program.
-/
namespace RathalOS.Runs

variable {σ α ε : Type}

/-- Every call of a run satisfies Q in the state it is issued in. -/
def Each (step : σ → α → Except ε σ) (Q : σ → α → Prop) : σ → List α → Prop
  | _, [] => True
  | s, a :: rest => Q s a ∧ ∀ s', step s a = .ok s' → Each step Q s' rest

/-- P holds at the start of a run and after every call that returned. -/
def Throughout (step : σ → α → Except ε σ) (P : σ → Prop) : σ → List α → Prop
  | s, [] => P s
  | s, a :: rest => P s ∧ ∀ s', step s a = .ok s' → Throughout step P s' rest

/-- Every call of a run returns, and P holds at the start and after every call. -/
def Always (step : σ → α → Except ε σ) (P : σ → Prop) : σ → List α → Prop
  | s, [] => P s
  | s, a :: rest => P s ∧ ∃ s', step s a = .ok s' ∧ Always step P s' rest

variable {step : σ → α → Except ε σ} {I P : σ → Prop} {Q R : σ → α → Prop} {s : σ}

theorem Throughout.start {calls : List α} (h : Throughout step P s calls) : P s := by
  cases calls with
  | nil => exact h
  | cons a rest => exact h.1

theorem Each.mono {calls : List α} (h : Each step Q s calls) (hQR : ∀ s a, Q s a → R s a) :
    Each step R s calls := by
  induction calls generalizing s with
  | nil => exact trivial
  | cons a rest ih => exact ⟨hQR s a h.1, fun s' hok => ih (h.2 s' hok)⟩

theorem Each.and {calls : List α} (hQ : Each step Q s calls) (hR : Each step R s calls) :
    Each step (fun s a => Q s a ∧ R s a) s calls := by
  induction calls generalizing s with
  | nil => exact trivial
  | cons a rest ih =>
    exact ⟨⟨hQ.1, hR.1⟩, fun s' hok => ih (hQ.2 s' hok) (hR.2 s' hok)⟩

/-- An invariant that the calls of a run preserve gives what holds in every state of it. -/
theorem always_of_invariant {calls : List α} (hI : ∀ s, I s → P s)
    (hstep : ∀ s, ∀ a ∈ calls, I s → ∃ s', step s a = .ok s' ∧ I s') (hs : I s) :
    Always step P s calls := by
  induction calls generalizing s with
  | nil => exact hI s hs
  | cons a rest ih =>
    obtain ⟨s', hok, hs'⟩ := hstep s a List.mem_cons_self hs
    exact ⟨hI s hs, s', hok, ih (fun t b hb => hstep t b (List.mem_cons_of_mem a hb)) hs'⟩

/-- An invariant that the calls with Q preserve holds in every state of a run of such calls. -/
theorem always_of_each {calls : List α} (hI : ∀ s, I s → P s)
    (hstep : ∀ s a, I s → Q s a → ∃ s', step s a = .ok s' ∧ I s') (hs : I s)
    (hQ : Each step Q s calls) : Always step P s calls := by
  induction calls generalizing s with
  | nil => exact hI s hs
  | cons a rest ih =>
    obtain ⟨s', hok, hs'⟩ := hstep s a hs hQ.1
    exact ⟨hI s hs, s', hok, ih hs' (hQ.2 s' hok)⟩

/-- And it gives what every call of such a run satisfies. -/
theorem each_of_each {calls : List α} (hI : ∀ s a, I s → Q s a → R s a)
    (hstep : ∀ s a s', I s → Q s a → step s a = .ok s' → I s') (hs : I s)
    (hQ : Each step Q s calls) : Each step R s calls := by
  induction calls generalizing s with
  | nil => exact trivial
  | cons a rest ih =>
    exact ⟨hI s a hs hQ.1, fun s' hok => ih (hstep s a s' hs hQ.1 hok) (hQ.2 s' hok)⟩

/-- An invariant that every call preserves gives what every call satisfies. -/
theorem each_of_invariant (hI : ∀ s a, I s → Q s a)
    (hstep : ∀ s a s', I s → step s a = .ok s' → I s') (hs : I s) (calls : List α) :
    Each step Q s calls := by
  induction calls generalizing s with
  | nil => exact trivial
  | cons a rest ih => exact ⟨hI s a hs, fun s' hok => ih (hstep s a s' hs hok)⟩

/-- An invariant that every call preserves holds in every state of a run. -/
theorem throughout_of_invariant (hI : ∀ s, I s → P s)
    (hstep : ∀ s a s', I s → step s a = .ok s' → I s') (hs : I s) (calls : List α) :
    Throughout step P s calls := by
  induction calls generalizing s with
  | nil => exact hI s hs
  | cons a rest ih => exact ⟨hI s hs, fun s' hok => ih (hstep s a s' hs hok)⟩

/-- When the calls with Q preserve the invariant and a call without Q breaks P, P holds
throughout exactly the runs whose calls have Q. -/
theorem throughout_iff_each (hI : ∀ s, I s → P s)
    (hkeep : ∀ s a s', I s → Q s a → step s a = .ok s' → I s')
    (hbreak : ∀ s a, I s → ¬ Q s a → ∃ s', step s a = .ok s' ∧ ¬ P s') (hs : I s)
    (calls : List α) : Throughout step P s calls ↔ Each step Q s calls := by
  induction calls generalizing s with
  | nil => exact iff_of_true (hI s hs) trivial
  | cons a rest ih =>
    constructor
    · intro h
      rcases h with ⟨-, hrest⟩
      have hQ : Q s a := by
        by_contra hnot
        obtain ⟨s', hok, hP⟩ := hbreak s a hs hnot
        exact hP (hrest s' hok).start
      exact ⟨hQ, fun s' hok => (ih (hkeep s a s' hs hQ hok)).mp (hrest s' hok)⟩
    · intro h
      rcases h with ⟨hQ, hrest⟩
      exact ⟨hI s hs, fun s' hok => (ih (hkeep s a s' hs hQ hok)).mpr (hrest s' hok)⟩

/-- When every call spends one unit of a budget, and fails if there is none, a run succeeds
exactly as long as the budget lasts. -/
theorem each_iff_length_le {budget : σ → ℕ}
    (hspend : ∀ s a, Q s a → 0 < budget s →
      R s a ∧ ∃ s', step s a = .ok s' ∧ budget s' + 1 = budget s)
    (hempty : ∀ s a, Q s a → budget s = 0 → ¬ R s a) {calls : List α}
    (hQ : Each step Q s calls) : Each step R s calls ↔ calls.length ≤ budget s := by
  induction calls generalizing s with
  | nil => exact iff_of_true trivial (Nat.zero_le _)
  | cons a rest ih =>
    rcases hQ with ⟨ha, hrest⟩
    rw [List.length_cons]
    by_cases hbudget : budget s = 0
    · refine iff_of_false (fun h => hempty s a ha hbudget h.1) ?_
      rw [hbudget]
      exact Nat.not_succ_le_zero _
    · obtain ⟨hR, s', hok, hspent⟩ := hspend s a ha (Nat.pos_of_ne_zero hbudget)
      have hiff := ih (hrest s' hok)
      constructor
      · intro h
        have hle := hiff.mp (h.2 s' hok)
        omega
      · intro hle
        refine ⟨hR, fun t ht => ?_⟩
        rw [hok] at ht
        cases ht
        exact hiff.mpr (by omega)

/-- Q holds of every element of a list, given those before it. -/
def AtEach (Q : List α → α → Prop) (l : List α) : Prop :=
  ∀ before a, before ++ [a] <+: l → Q before a

theorem atEach_nil (Q : List α → α → Prop) : AtEach Q [] := by
  intro before a hpre
  have hnil := List.prefix_nil.mp hpre
  simp at hnil

theorem atEach_concat {Q : List α → α → Prop} {l : List α} {a : α} :
    AtEach Q (l ++ [a]) ↔ AtEach Q l ∧ Q l a := by
  constructor
  · intro h
    exact ⟨fun before b hpre => h before b (hpre.trans (List.prefix_append _ _)),
      h l a (List.prefix_refl _)⟩
  · intro h before b hpre
    rcases List.prefix_concat_iff.mp hpre with heq | hold
    · obtain ⟨rfl, htail⟩ := List.append_inj' heq rfl
      cases htail
      exact h.2
    · exact h.1 before b hold

end RathalOS.Runs
