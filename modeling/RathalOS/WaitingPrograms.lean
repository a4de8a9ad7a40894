import RathalOS.InterruptedPrograms

/-!
Programs that wait for a device in loops. A program is given a number that bounds the rounds of
each of its loops, and gives up when one of them gets there; what counts is what it does with
every number that is large enough. Interrupts that leave the device alone make no difference to
that. Nothing here depends on a particular program.
-/
namespace RathalOS.InterruptedPrograms

variable {Op : Type} {Result : Op → Type} {α β σ τ ι : Type}

namespace Program

/-- One program after another that has not given up. -/
def bindSome (p : Program Op Result (Option α)) (k : α → Program Op Result (Option β)) :
    Program Op Result (Option β) :=
  p.bind fun
    | none => done none
    | some a => k a

/-- The loop that performs an operation until its result says so. -/
def poll (o : Op) (ready : Result o → Bool) : ℕ → Program Op Result (Option Unit)
  | 0 => done none
  | rounds + 1 => (op o).bind fun r =>
    if ready r = true then done (some ()) else poll o ready rounds

end Program

open Program

/-- With enough rounds the program returns this result and leaves this state. -/
def Finishes (exec : (o : Op) → σ → Result o × σ) (p : ℕ → Program Op Result (Option α)) (s : σ)
    (a : α) (s' : σ) : Prop :=
  ∃ n, ∀ rounds, n ≤ rounds → (p rounds).run exec s = (some a, s')

section Composition

variable {exec : (o : Op) → σ → Result o × σ} {p : ℕ → Program Op Result (Option α)}
  {q : ℕ → α → Program Op Result (Option β)} {s s' s'' : σ} {a : α} {b : β} {o : Op}
  {ready : Result o → Bool}

theorem finishes_done (a : α) (s : σ) : Finishes exec (fun _ => done (some a)) s a s :=
  ⟨0, fun _ _ => rfl⟩

theorem Finishes.bindSome (hp : Finishes exec p s a s')
    (hq : Finishes exec (fun rounds => q rounds a) s' b s'') :
    Finishes exec (fun rounds => (p rounds).bindSome (q rounds)) s b s'' := by
  obtain ⟨n, hn⟩ := hp
  obtain ⟨m, hm⟩ := hq
  refine ⟨max n m, fun rounds hrounds => ?_⟩
  have hfirst := hn rounds (by omega)
  have hsecond := hm rounds (by omega)
  change ((p rounds).bind _).run exec s = _
  rw [run_bind, hfirst]
  exact hsecond

/-- A program without loops in front. -/
theorem Finishes.after {first : Program Op Result α} (hfirst : first.run exec s = (a, s'))
    (hq : Finishes exec (fun rounds => q rounds a) s' b s'') :
    Finishes exec (fun rounds => first.bind (q rounds)) s b s'' := by
  obtain ⟨n, hn⟩ := hq
  refine ⟨n, fun rounds hrounds => ?_⟩
  rw [run_bind, hfirst]
  exact hn rounds hrounds

theorem finishes_poll (hready : ready (exec o s).1 = true) :
    Finishes exec (poll o ready) s () (exec o s).2 := by
  refine ⟨1, fun rounds hrounds => ?_⟩
  obtain ⟨rounds, rfl⟩ : ∃ k, rounds = k + 1 := ⟨rounds - 1, by omega⟩
  rw [poll, run_bind, run_op, if_pos hready]
  rfl

theorem Finishes.poll (hready : ¬ ready (exec o s).1 = true)
    (hrest : Finishes exec (poll o ready) (exec o s).2 () s') :
    Finishes exec (Program.poll o ready) s () s' := by
  obtain ⟨n, hn⟩ := hrest
  refine ⟨n + 1, fun rounds hrounds => ?_⟩
  obtain ⟨rounds, rfl⟩ : ∃ k, rounds = k + 1 := ⟨rounds - 1, by omega⟩
  rw [Program.poll, run_bind, run_op, if_neg hready]
  exact hn rounds (by omega)

end Composition

section Interrupts

variable {exec : (o : Op) → σ → Result o × σ} {interrupt : ι → τ → τ → Prop}

/-- The device in a machine. -/
def onDevice (exec : (o : Op) → σ → Result o × σ) (o : Op) (s : σ × τ) : Result o × (σ × τ) :=
  ((exec o s.1).1, ((exec o s.1).2, s.2))

/-- An interrupt that leaves the device alone. -/
def besideDevice (interrupt : ι → τ → τ → Prop) (i : ι) (s s' : σ × τ) : Prop :=
  s'.1 = s.1 ∧ interrupt i s.2 s'.2

/-- The device and what the interrupts are about do not see each other. -/
theorem Interrupted.beside {p : Program Op Result α} {s : σ × τ} {is : List ι}
    {r : α × (σ × τ)} (h : Interrupted (onDevice exec) (besideDevice interrupt) p s is r) :
    (r.1, r.2.1) = p.run exec s.1 ∧ Chain interrupt s.2 is r.2.2 := by
  induction h with
  | done a s => exact ⟨rfl, .nil s.2⟩
  | perform rest ih => exact ih
  | interrupted first rest ih =>
    obtain ⟨hsame, hinterrupt⟩ := first
    rw [hsame] at ih
    exact ⟨ih.1, .cons hinterrupt ih.2⟩

theorem Finishes.beside (interrupt : ι → τ → τ → Prop) {p : ℕ → Program Op Result (Option α)}
    {s s' : σ} {a : α} (h : Finishes exec p s a s') :
    ∃ n, ∀ rounds, n ≤ rounds → ∀ (t : τ) is r,
      Interrupted (onDevice exec) (besideDevice interrupt) (p rounds) (s, t) is r →
      r.1 = some a ∧ r.2.1 = s' ∧ Chain interrupt t is r.2.2 := by
  obtain ⟨n, hn⟩ := h
  refine ⟨n, fun rounds hrounds t is r hrun => ?_⟩
  obtain ⟨hresult, hchain⟩ := hrun.beside
  rw [hn rounds hrounds] at hresult
  exact ⟨congrArg Prod.fst hresult, congrArg Prod.snd hresult, hchain⟩

end Interrupts

end RathalOS.InterruptedPrograms
