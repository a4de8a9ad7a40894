import Mathlib.Logic.Function.Basic

/-!
A drive that moves sectors of 256 words through its data register, one word at a time. It is
busy for a while after each command and between two sectors, and while it is busy it answers
its status only. How long it is busy is not known. Commands other than the two that move
sectors, other drives and other forms of addresses are not modelled. Nothing here depends on a
particular program.
-/
namespace RathalOS.SectorDrives

abbrev Word := BitVec 16

def wordsPerSector : Nat := 256

/-- The sector and the word of it that the data register is about, and the number of sectors
that follow. -/
inductive Transfer
  | idle
  | toHost (sector left index : Nat)
  | fromHost (sector left index : Nat)

inductive Register
  | count
  | low
  | middle
  | high
  | device
  deriving DecidableEq

/-- The next delays are the numbers of times that the status is read before the drive is ready. -/
structure Drive where
  media : Nat → Nat → Word
  registers : Register → BitVec 8
  transfer : Transfer
  busy : Nat
  delays : Nat → Nat

namespace Drive

def pause (d : Drive) : Drive :=
  { d with
    busy := d.delays 0
    delays := fun n => d.delays (n + 1) }

def status (d : Drive) : BitVec 8 :=
  if d.busy ≠ 0 then 0x80
  else
    match d.transfer with
    | .idle => 0x50
    | _ => 0x58

/-- The status, and the drive a moment later. -/
def readStatus (d : Drive) : BitVec 8 × Drive := (d.status, { d with busy := d.busy - 1 })

def writeRegister (d : Drive) (r : Register) (data : BitVec 8) : Drive :=
  if d.busy ≠ 0 then d else { d with registers := Function.update d.registers r data }

/-- The number of a sector has 28 bits, the highest four of which are in the register that
selects the drive. -/
def address (d : Drive) : Nat :=
  (d.registers .low).toNat + 256 * (d.registers .middle).toNat +
    65536 * (d.registers .high).toNat + 16777216 * ((d.registers .device).toNat % 16)

/-- How many sectors follow the first. A count of zero stands for 256. -/
def following (d : Drive) : Nat := (d.registers .count - 1).toNat

/-- The drive is the first one, and its address is a number. -/
def Selected (d : Drive) : Prop :=
  (d.registers .device).getLsbD 4 = false ∧ (d.registers .device).getLsbD 6 = true

instance (d : Drive) : Decidable d.Selected := by
  unfold Selected
  infer_instance

def writeCommand (d : Drive) (command : BitVec 8) : Drive :=
  if d.busy ≠ 0 ∨ ¬ d.Selected then d
  else if command = 0x20 then { d.pause with transfer := .toHost d.address d.following 0 }
  else if command = 0x30 then { d.pause with transfer := .fromHost d.address d.following 0 }
  else d

/-- The word of the sector that is read, if there is one. -/
def readData (d : Drive) : Word × Drive :=
  if d.busy ≠ 0 then (0xFFFF, d)
  else
    match d.transfer with
    | .toHost sector left index =>
      let word := d.media sector index
      if index + 1 < wordsPerSector then
        (word, { d with transfer := .toHost sector left (index + 1) })
      else if left = 0 then (word, { d with transfer := .idle })
      else (word, { d.pause with transfer := .toHost (sector + 1) (left - 1) 0 })
    | _ => (0xFFFF, d)

def writeData (d : Drive) (word : Word) : Drive :=
  if d.busy ≠ 0 then d
  else
    match d.transfer with
    | .fromHost sector left index =>
      let media := Function.update d.media sector (Function.update (d.media sector) index word)
      if index + 1 < wordsPerSector then
        { d with
          media := media
          transfer := .fromHost sector left (index + 1) }
      else if left = 0 then
        { d.pause with
          media := media
          transfer := .idle }
      else
        { d.pause with
          media := media
          transfer := .fromHost (sector + 1) (left - 1) 0 }
    | _ => d

/-- The drive n words into a transfer of one sector to the host. -/
def sending (d : Drive) (sector n : Nat) : Drive :=
  { d with transfer := if n < wordsPerSector then .toHost sector 0 n else .idle }

/-- A sector of which the first n words were replaced. -/
def overwritten (d : Drive) (sector n : Nat) (data : Nat → Word) : Nat → Nat → Word :=
  Function.update d.media sector fun index => if index < n then data index else d.media sector index

/-- The drive n words into a transfer of one sector from the host. -/
def receiving (d : Drive) (sector n : Nat) (data : Nat → Word) : Drive :=
  if n < wordsPerSector then
    { d with
      media := d.overwritten sector n data
      transfer := .fromHost sector 0 n }
  else
    { d.pause with
      media := d.overwritten sector n data
      transfer := .idle }

variable {d : Drive} {sector n : Nat}

theorem readData_sending (hready : d.busy = 0) (hn : n < wordsPerSector) :
    (d.sending sector n).readData = (d.media sector n, d.sending sector (n + 1)) := by
  have hsending : (d.sending sector n).transfer = .toHost sector 0 n := if_pos hn
  have hidle : ¬ (d.sending sector n).busy ≠ 0 := not_not.mpr hready
  rw [readData, if_neg hidle, hsending]
  dsimp only
  by_cases hnext : n + 1 < wordsPerSector
  · rw [if_pos hnext]
    simp only [sending, if_pos hnext]
  · rw [if_neg hnext, if_pos rfl]
    simp only [sending, if_neg hnext]

theorem overwritten_succ (data : Nat → Word) :
    Function.update (d.overwritten sector n data) sector
      (Function.update (d.overwritten sector n data sector) n (data n)) =
        d.overwritten sector (n + 1) data := by
  unfold overwritten
  rw [Function.update_idem, Function.update_self]
  congr 1
  funext index
  by_cases hindex : index = n
  · rw [hindex, Function.update_self, if_pos (Nat.lt_succ_self n)]
  · rw [Function.update_of_ne hindex]
    have hiff : index < n ↔ index < n + 1 := by omega
    simp only [hiff]

theorem writeData_receiving (hready : d.busy = 0) (hn : n < wordsPerSector) (data : Nat → Word) :
    (d.receiving sector n data).writeData (data n) = d.receiving sector (n + 1) data := by
  have hreceiving : d.receiving sector n data =
      { d with
        media := d.overwritten sector n data
        transfer := .fromHost sector 0 n } := if_pos hn
  have hidle : ¬ (d.receiving sector n data).busy ≠ 0 := by
    rw [hreceiving]
    exact not_not.mpr hready
  rw [writeData, if_neg hidle, hreceiving]
  dsimp only
  rw [overwritten_succ]
  by_cases hnext : n + 1 < wordsPerSector
  · rw [if_pos hnext, receiving, if_pos hnext]
  · rw [if_neg hnext, if_pos rfl, receiving, if_neg hnext]
    rfl

end Drive

end RathalOS.SectorDrives
