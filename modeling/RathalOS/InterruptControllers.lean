import Mathlib.Data.List.FinRange
import Mathlib.Logic.Function.Basic

/-!
A programmable interrupt controller of eight lines, of which the lowest has the highest
priority. It passes a line on unless one of the same or a higher priority is in service, and
an end of interrupt takes the one with the highest priority out of service. So an end of
interrupt always ends the interrupt accepted last, however they nest. Nothing here depends
on a particular program.
-/
namespace RathalOS.InterruptControllers

abbrev Line := Fin 8

/-- The byte the data port waits for. -/
inductive Phase
  | ready
  | vector
  | cascade
  | mode
  deriving DecidableEq

structure Controller where
  phase : Phase
  single : Bool
  wantsMode : Bool
  vectorBase : BitVec 8
  cascade : BitVec 8
  mode : BitVec 8
  mask : Line → Bool
  inService : Line → Bool

namespace Controller

/-- The line in service with the highest priority. -/
def highest (c : Controller) : Option Line := (List.finRange 8).find? c.inService

/-- The line is passed on to the processor. -/
def Accepts (c : Controller) (line : Line) : Prop :=
  c.phase = .ready ∧ c.mask line = false ∧ ∀ i ≤ line, c.inService i = false

instance (c : Controller) (line : Line) : Decidable (c.Accepts line) := by
  unfold Accepts
  infer_instance

/-- The processor takes an interrupt: the controller names its vector. -/
def acknowledge (c : Controller) (line : Line) : Controller :=
  { c with inService := Function.update c.inService line true }

def vector (c : Controller) (line : Line) : BitVec 8 := c.vectorBase ||| BitVec.ofNat 8 line

def endOfInterrupt (c : Controller) : Controller :=
  match c.highest with
  | none => c
  | some line => { c with inService := Function.update c.inService line false }

/-- A write to the command port: the first byte of an initialisation, or a command. Of the
commands only the end of interrupt without a line is modelled. -/
def writeCommand (c : Controller) (data : BitVec 8) : Controller :=
  if data.getLsbD 4 then
    { c with
      phase := .vector
      single := data.getLsbD 1
      wantsMode := data.getLsbD 0
      mask := fun _ => false
      inService := fun _ => false }
  else if data >>> 3 = 4 then c.endOfInterrupt
  else c

/-- A write to the data port: the next byte of an initialisation, or the mask. -/
def writeData (c : Controller) (data : BitVec 8) : Controller :=
  let last := if c.wantsMode then Phase.mode else Phase.ready
  match c.phase with
  | .vector =>
    { c with
      vectorBase := data &&& 0xf8
      phase := if c.single then last else .cascade }
  | .cascade =>
    { c with
      cascade := data
      phase := last }
  | .mode =>
    { c with
      mode := data
      phase := .ready }
  | .ready => { c with mask := fun line => data.getLsbD line }

variable {c : Controller} {line : Line}

theorem highest_eq_some (hline : c.inService line = true) (h : ∀ i < line, c.inService i = false) :
    c.highest = some line := by
  unfold highest
  rw [List.find?_eq_some_iff_getElem]
  refine ⟨hline, line, by simp, by simp, fun j hj => ?_⟩
  rw [List.getElem_finRange, h _ (by simpa [Fin.lt_def] using hj)]
  rfl

theorem highest_acknowledge (h : c.Accepts line) : (c.acknowledge line).highest = some line := by
  refine highest_eq_some (Function.update_self _ _ _) fun i hi => ?_
  exact (Function.update_of_ne hi.ne _ _).trans (h.2.2 i hi.le)

/-- An end of interrupt undoes what accepting the interrupt did. -/
theorem endOfInterrupt_acknowledge (h : c.Accepts line) :
    (c.acknowledge line).endOfInterrupt = c := by
  have hline : c.inService line = false := h.2.2 line le_rfl
  unfold endOfInterrupt
  rw [highest_acknowledge h]
  change { c with
    inService := Function.update (Function.update c.inService line true) line false } = c
  rw [Function.update_idem, ← hline, Function.update_eq_self]

end Controller

end RathalOS.InterruptControllers
