import Mathlib.Logic.Function.Basic
import Mathlib.Data.List.Nodup

/-!
Tasks that the processor switches between. Each task has a segment that its context is saved
in, with a link to the task it was called from, and is busy from the call until it returns.
Calls and returns match as those of procedures do: as long as no busy task is called, a return
goes back to the last call that has not returned, and the caller goes on with the context it
called in. Nothing here depends on a particular processor.
-/
namespace RathalOS.HardwareTasks

/-- The flag in a context that says that its task was called by another. -/
structure Flag (C : Type) where
  get : C → Bool
  set : Bool → C → C

/-- The task that runs with its context, and the segments of all tasks. -/
structure Machine (ι C : Type) where
  current : ι
  context : C
  saved : ι → C
  link : ι → Option ι
  busy : ι → Bool

variable {ι C : Type} [DecidableEq ι]

/-- A call of a task, which must not be busy. -/
def call (flag : Flag C) (t : ι) (m : Machine ι C) : Option (Machine ι C) :=
  if m.busy t = true then none
  else
    some {
      current := t
      context := flag.set true (m.saved t)
      saved := Function.update m.saved m.current m.context
      link := Function.update m.link t (some m.current)
      busy := Function.update m.busy t true }

/-- The return to the task in the link. -/
def ret (flag : Flag C) (m : Machine ι C) : Option (Machine ι C) :=
  if flag.get m.context = true then
    match m.link m.current with
    | none => none
    | some u =>
      if m.busy u = true then
        some {
          current := u
          context := m.saved u
          saved := Function.update m.saved m.current (flag.set false m.context)
          link := m.link
          busy := Function.update m.busy m.current false }
      else none
  else none

/-- A task with those it was called from, each with the context that it called in. The first
task of all was called by none. -/
def Linked (m : Machine ι C) : ι → List (ι × C) → Prop
  | t, [] => m.busy t = true ∧ m.link t = none
  | t, (u, c) :: rest => m.busy t = true ∧ m.link t = some u ∧ m.saved u = c ∧ Linked m u rest

/-- The tasks that have not returned. -/
structure Frames (m : Machine ι C) (frames : List (ι × C)) : Prop where
  linked : Linked m m.current frames
  nodup : (m.current :: frames.map Prod.fst).Nodup
  busy : ∀ t, m.busy t = true ↔ t = m.current ∨ t ∈ frames.map Prod.fst

variable {m m' : Machine ι C} {frames : List (ι × C)} {t u : ι} {c : C}

omit [DecidableEq ι] in
/-- What is linked does not depend on other tasks. -/
theorem Linked.congr (h : Linked m t frames)
    (hbusy : ∀ v, v = t ∨ v ∈ frames.map Prod.fst → m'.busy v = m.busy v)
    (hlink : ∀ v, v = t ∨ v ∈ frames.map Prod.fst → m'.link v = m.link v)
    (hsaved : ∀ v ∈ frames.map Prod.fst, m'.saved v = m.saved v) : Linked m' t frames := by
  induction frames generalizing t with
  | nil => exact ⟨(hbusy t (.inl rfl)).trans h.1, (hlink t (.inl rfl)).trans h.2⟩
  | cons frame rest ih =>
    obtain ⟨hb, hl, hs, hrest⟩ := h
    refine ⟨(hbusy t (.inl rfl)).trans hb, (hlink t (.inl rfl)).trans hl,
      (hsaved _ List.mem_cons_self).trans hs, ih hrest ?_ ?_ ?_⟩
    · exact fun v hv => hbusy v (.inr (by simpa using hv))
    · exact fun v hv => hlink v (.inr (by simpa using hv))
    · exact fun v hv => hsaved v (List.mem_cons_of_mem _ hv)

omit [DecidableEq ι] in
/-- A task may do what it likes with its own context. -/
theorem Frames.work (h : Frames m frames) (c : C) : Frames { m with context := c } frames where
  linked := h.linked.congr (fun _ _ => rfl) (fun _ _ => rfl) fun _ _ => rfl
  nodup := h.nodup
  busy := h.busy

/-- The call of a task that is not busy puts the caller in front. -/
theorem Frames.call (flag : Flag C) (h : Frames m frames) (hfree : m.busy t = false) :
    ∃ m', HardwareTasks.call flag t m = some m' ∧ m'.current = t ∧
      m'.context = flag.set true (m.saved t) ∧ Frames m' ((m.current, m.context) :: frames) ∧
      (∀ v, v ≠ t → m'.busy v = m.busy v) ∧ ∀ v, v ≠ m.current → m'.saved v = m.saved v := by
  have hnot : t ≠ m.current ∧ t ∉ frames.map Prod.fst := by
    constructor
    · rintro rfl
      rw [(h.busy _).mpr (.inl rfl)] at hfree
      cases hfree
    · intro hmem
      rw [(h.busy _).mpr (.inr hmem)] at hfree
      cases hfree
  have hcurrent : m.current ∉ frames.map Prod.fst := (List.nodup_cons.mp h.nodup).1
  have hother : ∀ v, v = m.current ∨ v ∈ frames.map Prod.fst → v ≠ t := by
    rintro v (rfl | hv) rfl
    · exact hnot.1 rfl
    · exact hnot.2 hv
  refine ⟨_, if_neg (by simp [hfree]), rfl, rfl, ⟨?_, ?_, ?_⟩, ?_, ?_⟩
  · refine ⟨Function.update_self _ _ _, Function.update_self _ _ _, Function.update_self _ _ _,
      h.linked.congr ?_ ?_ ?_⟩
    · exact fun v hv => Function.update_of_ne (hother v hv) _ _
    · exact fun v hv => Function.update_of_ne (hother v hv) _ _
    · rintro v hv
      refine Function.update_of_ne ?_ _ _
      rintro rfl
      exact hcurrent hv
  · rw [List.map_cons, List.nodup_cons]
    refine ⟨?_, h.nodup⟩
    rw [List.mem_cons, not_or]
    exact hnot
  · intro v
    dsimp only
    rw [List.map_cons, List.mem_cons]
    by_cases hv : v = t
    · rw [hv, Function.update_self]
      exact iff_of_true rfl (.inl rfl)
    · rw [Function.update_of_ne hv, h.busy]
      exact (or_iff_right hv).symm
  · exact fun v hv => Function.update_of_ne hv _ _
  · exact fun v hv => Function.update_of_ne hv _ _

/-- The return of a called task goes back to the last caller. -/
theorem Frames.ret (flag : Flag C) (h : Frames m ((u, c) :: frames))
    (hnested : flag.get m.context = true) :
    ∃ m', HardwareTasks.ret flag m = some m' ∧ m'.current = u ∧ m'.context = c ∧
      Frames m' frames ∧ (∀ v, v ≠ m.current → m'.busy v = m.busy v) ∧
      (∀ v, v ≠ m.current → m'.saved v = m.saved v) := by
  obtain ⟨⟨-, hlink, hsaved, hrest⟩, hnodup, hbusy⟩ := h
  rw [List.map_cons, List.nodup_cons] at hnodup
  rw [List.mem_cons, not_or] at hnodup
  obtain ⟨⟨hcu, hcrest⟩, hnodup⟩ := hnodup
  have hu : m.busy u = true := (hbusy u).mpr (.inr (by simp))
  have hother : ∀ v, v = u ∨ v ∈ frames.map Prod.fst → v ≠ m.current := by
    rintro v (rfl | hv) rfl
    · exact hcu rfl
    · exact hcrest hv
  refine ⟨{
      current := u
      context := m.saved u
      saved := Function.update m.saved m.current (flag.set false m.context)
      link := m.link
      busy := Function.update m.busy m.current false }, ?_, rfl, hsaved, ⟨?_, hnodup, ?_⟩,
    ?_, ?_⟩
  · rw [HardwareTasks.ret, if_pos hnested, hlink]
    exact if_pos hu
  · refine hrest.congr ?_ ?_ ?_
    · exact fun v hv => Function.update_of_ne (hother v hv) _ _
    · exact fun v hv => rfl
    · exact fun v hv => Function.update_of_ne (hother v (.inr hv)) _ _
  · intro v
    dsimp only
    by_cases hv : v = m.current
    · rw [hv, Function.update_self]
      exact iff_of_false (by simp) fun h => hother _ h rfl
    · rw [Function.update_of_ne hv, hbusy, List.map_cons, List.mem_cons]
      exact or_iff_right hv
  · exact fun v hv => Function.update_of_ne hv _ _
  · exact fun v hv => Function.update_of_ne hv _ _

end RathalOS.HardwareTasks
