import RathalOS.InterruptedPrograms
import Mathlib.Data.List.Forall2

/-!
Proofs about programs that are interrupted by something that they do see. An onlooker
follows the operations and the interrupts of a run; what is assumed of the interrupts is
that the onlooker gets to its end. An assertion about a point of a program, on what the
onlooker and the memory hold there, has to survive an interrupt. Nothing here depends on a
particular program.
-/
namespace RathalOS.InterruptedPrograms

open Program

variable {Op : Type} {Result : Op → Type} {α β σ ι γ : Type}

/-- A run with the operations performed and the interrupts, in their order. -/
inductive Traced (exec : (o : Op) → σ → Result o × σ) (interrupt : ι → σ → σ → Prop) :
    Program Op Result α → σ → List (Op ⊕ ι) → α × σ → Prop
  | done (a : α) (s : σ) : Traced exec interrupt (done a) s [] (a, s)
  | perform {o : Op} {next : Result o → Program Op Result α} {s : σ} {trace : List (Op ⊕ ι)}
      {r : α × σ} (rest : Traced exec interrupt (next (exec o s).1) (exec o s).2 trace r) :
      Traced exec interrupt (perform o next) s (.inl o :: trace) r
  | interrupted {p : Program Op Result α} {s s' : σ} {i : ι} {trace : List (Op ⊕ ι)} {r : α × σ}
      (first : interrupt i s s') (rest : Traced exec interrupt p s' trace r) :
      Traced exec interrupt p s (.inr i :: trace) r

variable {exec : (o : Op) → σ → Result o × σ} {interrupt : ι → σ → σ → Prop}
  {trace : List (Op ⊕ ι)} {s : σ} {is : List ι}

/-- A run of two programs is a run of the first and one of the second. -/
theorem Traced.of_bind {p : Program Op Result α} {k : α → Program Op Result β} {r : β × σ}
    (h : Traced exec interrupt (p.bind k) s trace r) :
    ∃ trace₁ trace₂ mid, trace = trace₁ ++ trace₂ ∧ Traced exec interrupt p s trace₁ mid ∧
      Traced exec interrupt (k mid.1) mid.2 trace₂ r := by
  generalize hq : p.bind k = q at h
  induction h generalizing p with
  | done b s =>
    cases p with
    | done a =>
      change k a = Program.done b at hq
      refine ⟨[], [], (a, s), rfl, .done a s, ?_⟩
      rw [hq]
      exact .done b s
    | perform o next => cases hq
  | @perform o next s trace r rest ih =>
    cases p with
    | done a =>
      change k a = Program.perform o next at hq
      refine ⟨[], .inl o :: trace, (a, s), rfl, .done a s, ?_⟩
      rw [hq]
      exact .perform rest
    | perform o' next' =>
      cases hq
      obtain ⟨trace₁, trace₂, mid, rfl, hfirst, hsecond⟩ := ih rfl
      exact ⟨.inl o :: trace₁, trace₂, mid, rfl, .perform hfirst, hsecond⟩
  | @interrupted q s s' i trace r first rest ih =>
    obtain ⟨trace₁, trace₂, mid, rfl, hfirst, hsecond⟩ := ih hq
    exact ⟨.inr i :: trace₁, trace₂, mid, rfl, .interrupted first hfirst, hsecond⟩

/-- A program that only works on a part of the state runs on that part, interrupted by what
the interrupts do to it. -/
theorem Interrupted.project {τ κ : Type} (part : σ → τ) {exec' : (o : Op) → τ → Result o × τ}
    {interrupt' : κ → τ → τ → Prop} {effect : ι → κ → Prop} {p : Program Op Result α} {r : α × σ}
    (hresult : ∀ o s, (exec o s).1 = (exec' o (part s)).1)
    (hpart : ∀ o s, part (exec o s).2 = (exec' o (part s)).2)
    (hinterrupt : ∀ i s s', interrupt i s s' → ∃ k, effect i k ∧ interrupt' k (part s) (part s'))
    (h : Interrupted exec interrupt p s is r) :
    ∃ trace, Traced exec' interrupt' p (part s) trace (r.1, part r.2) ∧
      List.Forall₂ effect is (trace.filterMap Sum.getRight?) := by
  induction h with
  | done a s => exact ⟨[], .done a _, .nil⟩
  | @perform o next s is r rest ih =>
    obtain ⟨trace, hrest, heffects⟩ := ih
    rw [hresult, hpart] at hrest
    exact ⟨.inl o :: trace, .perform hrest, heffects⟩
  | @interrupted p s s' i is r first rest ih =>
    obtain ⟨trace, hrest, heffects⟩ := ih
    obtain ⟨k, heffect, hfirst⟩ := hinterrupt i s s' first
    exact ⟨.inr k :: trace, .interrupted hfirst hrest, .cons heffect heffects⟩

section Onlookers

/-- The assertion survives an interrupt that the onlooker gets over. -/
def Stable (interrupt : ι → σ → σ → Prop) (watch : γ → Op ⊕ ι → Option γ)
    (P : γ → σ → Prop) : Prop :=
  ∀ g s i s' g', P g s → interrupt i s s' → watch g (.inr i) = some g' → P g' s'

/-- From a state with P the program ends in one with Q, wherever it is interrupted, in every
run that the onlooker gets to the end of. -/
def Meets (exec : (o : Op) → σ → Result o × σ) (interrupt : ι → σ → σ → Prop)
    (watch : γ → Op ⊕ ι → Option γ) (P : γ → σ → Prop) (p : Program Op Result α)
    (Q : α → γ → σ → Prop) : Prop :=
  ∀ g s trace r g', P g s → Traced exec interrupt p s trace r →
    trace.foldlM watch g = some g' → Q r.1 g' r.2

variable {watch : γ → Op ⊕ ι → Option γ} {P : γ → σ → Prop}

theorem Stable.exists {κ : Type} {P : κ → γ → σ → Prop}
    (h : ∀ k, Stable interrupt watch (P k)) : Stable interrupt watch fun g s => ∃ k, P k g s :=
  fun g s i s' g' ⟨k, hP⟩ hinterrupt hwatch => ⟨k, h k g s i s' g' hP hinterrupt hwatch⟩

theorem meets_done {Q : α → γ → σ → Prop} {a : α} (hstable : Stable interrupt watch P)
    (hQ : ∀ g s, P g s → Q a g s) :
    Meets exec interrupt watch P (done a : Program Op Result α) Q := by
  intro g s trace r g' hP hrun hwatch
  generalize hp : (done a : Program Op Result α) = p at hrun
  induction hrun generalizing g with
  | done b s =>
    cases hp
    cases hwatch
    exact hQ _ _ hP
  | perform rest ih => cases hp
  | @interrupted p s s' i trace r first rest ih =>
    rw [List.foldlM_cons, Option.bind_eq_bind, Option.bind_eq_some_iff] at hwatch
    obtain ⟨g₁, hfirst, hrest⟩ := hwatch
    exact ih g₁ (hstable g s i s' g₁ hP first hfirst) hrest hp

/-- Between two operations the assertion has to be stable; the operation itself is looked at
once. -/
theorem meets_op {o : Op} {R : Result o → γ → σ → Prop} (hstable : Stable interrupt watch P)
    (hop : ∀ g s g', P g s → watch g (.inl o) = some g' → R (exec o s).1 g' (exec o s).2)
    (hR : ∀ x, Stable interrupt watch (R x)) :
    Meets exec interrupt watch P (op o) R := by
  intro g s trace r g' hP hrun hwatch
  generalize hp : (op o : Program Op Result _) = p at hrun
  induction hrun generalizing g with
  | done b s => cases hp
  | @perform o' next s trace r rest ih =>
    cases hp
    rw [List.foldlM_cons, Option.bind_eq_bind, Option.bind_eq_some_iff] at hwatch
    obtain ⟨g₁, hfirst, hrest⟩ := hwatch
    exact meets_done (hR _) (fun _ _ h => h) g₁ _ _ _ _ (hop g s g₁ hP hfirst) rest hrest
  | @interrupted p s s' i trace r first rest ih =>
    rw [List.foldlM_cons, Option.bind_eq_bind, Option.bind_eq_some_iff] at hwatch
    obtain ⟨g₁, hfirst, hrest⟩ := hwatch
    exact ih g₁ (hstable g s i s' g₁ hP first hfirst) hrest hp

theorem Meets.bind {p : Program Op Result α} {k : α → Program Op Result β}
    {R : α → γ → σ → Prop} {Q : β → γ → σ → Prop} (hp : Meets exec interrupt watch P p R)
    (hk : ∀ a, Meets exec interrupt watch (R a) (k a) Q) :
    Meets exec interrupt watch P (p.bind k) Q := by
  intro g s trace r g' hP hrun hwatch
  obtain ⟨trace₁, trace₂, mid, rfl, hfirst, hsecond⟩ := hrun.of_bind
  rw [List.foldlM_append, Option.bind_eq_bind, Option.bind_eq_some_iff] at hwatch
  obtain ⟨g₁, hwatch₁, hwatch₂⟩ := hwatch
  exact hk mid.1 g₁ _ _ _ _ (hp g s _ _ _ hP hfirst hwatch₁) hsecond hwatch₂

end Onlookers

end RathalOS.InterruptedPrograms
