import Mathlib.Data.Nat.Notation

/-!
Programs of atomic operations that may be interrupted between any two of them. If no
operation of a program can tell apart the states an interrupt leads from and to, and each
keeps it that way, then the program computes what it computes undisturbed, whenever and
however often it is interrupted; and what no operation touches changes by the interrupts
alone. Nothing here depends on a particular program.
-/
namespace RathalOS.InterruptedPrograms

/-- A program that performs operations and goes on with their results. -/
inductive Program (Op : Type) (Result : Op → Type) (α : Type)
  | done (a : α)
  | perform (op : Op) (next : Result op → Program Op Result α)

variable {Op : Type} {Result : Op → Type} {α β σ τ ι : Type}

namespace Program

def bind : Program Op Result α → (α → Program Op Result β) → Program Op Result β
  | done a, k => k a
  | perform op next, k => perform op fun r => (next r).bind k

/-- A single operation. -/
def op (o : Op) : Program Op Result (Result o) := perform o done

/-- One program for each element of a list, in order. -/
def each (body : β → Program Op Result Unit) : List β → Program Op Result Unit
  | [] => done ()
  | b :: rest => (body b).bind fun _ => each body rest

/-- The run of a program that is not interrupted. -/
def run (exec : (o : Op) → σ → Result o × σ) : Program Op Result α → σ → α × σ
  | done a, s => (a, s)
  | perform o next, s => (next (exec o s).1).run exec (exec o s).2

/-- Whatever the operations return, the program performs only these. -/
def Uses (allowed : Op → Prop) : Program Op Result α → Prop
  | done _ => True
  | perform o next => allowed o ∧ ∀ r, (next r).Uses allowed

variable {exec : (o : Op) → σ → Result o × σ} {allowed : Op → Prop}

@[simp] theorem run_done (a : α) (s : σ) :
    (done a : Program Op Result α).run exec s = (a, s) := rfl

@[simp] theorem run_op (o : Op) (s : σ) : (op o : Program Op Result _).run exec s = exec o s := rfl

@[simp] theorem run_bind (p : Program Op Result α) (k : α → Program Op Result β) (s : σ) :
    (p.bind k).run exec s = (k (p.run exec s).1).run exec (p.run exec s).2 := by
  induction p generalizing s with
  | done a => rfl
  | perform o next ih => exact ih _ _

/-- A loop whose body is understood as a function on states is a fold. -/
theorem run_each {body : β → Program Op Result Unit} {f : σ → β → σ} {l : List β}
    (h : ∀ b ∈ l, ∀ s, (body b).run exec s = ((), f s b)) (s : σ) :
    (each body l).run exec s = ((), l.foldl f s) := by
  induction l generalizing s with
  | nil => rfl
  | cons b rest ih =>
    rw [each, run_bind, h b List.mem_cons_self s,
      ih (fun c hc => h c (List.mem_cons_of_mem b hc)), List.foldl_cons]

theorem Uses.bind {p : Program Op Result α} {k : α → Program Op Result β} (hp : p.Uses allowed)
    (hk : ∀ a, (k a).Uses allowed) : (p.bind k).Uses allowed := by
  induction p with
  | done a => exact hk a
  | perform o next ih => exact ⟨hp.1, fun r => ih r (hp.2 r)⟩

theorem Uses.each {body : β → Program Op Result Unit} {l : List β}
    (h : ∀ b ∈ l, (body b).Uses allowed) : (each body l).Uses allowed := by
  induction l with
  | nil => trivial
  | cons b rest ih =>
    exact (h b List.mem_cons_self).bind fun _ => ih fun c hc => h c (List.mem_cons_of_mem b hc)

end Program

open Program

/-- A run that is interrupted before some of its operations, with the interrupts in their
order. -/
inductive Interrupted (exec : (o : Op) → σ → Result o × σ) (interrupt : ι → σ → σ → Prop) :
    Program Op Result α → σ → List ι → α × σ → Prop
  | done (a : α) (s : σ) : Interrupted exec interrupt (done a) s [] (a, s)
  | perform {o : Op} {next : Result o → Program Op Result α} {s : σ} {is : List ι} {r : α × σ}
      (rest : Interrupted exec interrupt (next (exec o s).1) (exec o s).2 is r) :
      Interrupted exec interrupt (perform o next) s is r
  | interrupted {p : Program Op Result α} {s s' : σ} {i : ι} {is : List ι} {r : α × σ}
      (first : interrupt i s s') (rest : Interrupted exec interrupt p s' is r) :
      Interrupted exec interrupt p s (i :: is) r

/-- The states related by a list of interrupts, one after the other. -/
inductive Chain (interrupt : ι → τ → τ → Prop) : τ → List ι → τ → Prop
  | nil (t : τ) : Chain interrupt t [] t
  | cons {t t' t'' : τ} {i : ι} {is : List ι} (first : interrupt i t t')
      (rest : Chain interrupt t' is t'') : Chain interrupt t (i :: is) t''

variable {exec : (o : Op) → σ → Result o × σ} {interrupt : ι → σ → σ → Prop}
  {allowed : Op → Prop} {p : Program Op Result α} {s t : σ} {is : List ι} {r : α × σ}

/-- The states look the same to the operations, before and after an interrupt and after each
operation. -/
structure Invisible (exec : (o : Op) → σ → Result o × σ) (interrupt : ι → σ → σ → Prop)
    (allowed : Op → Prop) (alike : σ → σ → Prop) : Prop where
  interrupt : ∀ i s s' t, alike s t → interrupt i s s' → alike s' t
  result : ∀ o s t, allowed o → alike s t → (exec o s).1 = (exec o t).1
  perform : ∀ o s t, allowed o → alike s t → alike (exec o s).2 (exec o t).2

/-- An interrupted run returns what the undisturbed one returns and ends in a state that
looks the same. -/
theorem Interrupted.alike {alike : σ → σ → Prop}
    (h : Invisible exec interrupt allowed alike) (hrun : Interrupted exec interrupt p s is r)
    (huses : p.Uses allowed) (hst : alike s t) :
    r.1 = (p.run exec t).1 ∧ alike r.2 (p.run exec t).2 := by
  induction hrun generalizing t with
  | done a s => exact ⟨rfl, hst⟩
  | @perform o next s is r rest ih =>
    have hnext := ih (huses.2 _) (h.perform o s t huses.1 hst)
    rw [h.result o s t huses.1 hst] at hnext
    exact hnext
  | interrupted first rest ih => exact ih huses (h.interrupt _ _ _ _ hst first)

/-- What is known of all interrupts of a run is known of each. -/
theorem Interrupted.restrict {Q : ι → Prop} (hrun : Interrupted exec interrupt p s is r)
    (hQ : ∀ i ∈ is, Q i) : Interrupted exec (fun i s s' => Q i ∧ interrupt i s s') p s is r := by
  induction hrun with
  | done a s => exact .done a s
  | perform rest ih => exact .perform (ih hQ)
  | interrupted first rest ih =>
    exact .interrupted ⟨hQ _ List.mem_cons_self, first⟩
      (ih fun i hi => hQ i (List.mem_cons_of_mem _ hi))

/-- What no operation touches is changed by the interrupts alone. -/
theorem Interrupted.chain (part : σ → τ) {interrupt' : ι → τ → τ → Prop}
    (hexec : ∀ o s, part (exec o s).2 = part s)
    (hinterrupt : ∀ i s s', interrupt i s s' → interrupt' i (part s) (part s'))
    (hrun : Interrupted exec interrupt p s is r) : Chain interrupt' (part s) is (part r.2) := by
  induction hrun with
  | done a s => exact .nil _
  | @perform o next s is r rest ih =>
    rw [hexec] at ih
    exact ih
  | interrupted first rest ih => exact .cons (hinterrupt _ _ _ first) ih

/-- A run is there for all interrupts that do not fail, wherever the first of them comes. -/
theorem Interrupted.of_chain (hchain : Chain interrupt s is t) :
    Interrupted exec interrupt p s is (p.run exec t) := by
  induction hchain with
  | nil t =>
    induction p generalizing t with
    | done a => exact .done a t
    | perform o next ih => exact .perform (ih _ _)
  | cons first rest ih => exact .interrupted first ih

end RathalOS.InterruptedPrograms
