import RathalOS.KernelFiles
import RathalOS.SectorDrives

/-!
The disk driver, kernel/drivers/ide.c, on a drive that is busy for as long as it likes. What
the file system uses it for is a memory of bytes, from which a sector is copied: the ports,
the order of the bytes in a word and the delays are not seen there.
-/
namespace RathalOS.IdeDriver

open ByteMemory KernelFiles SectorDrives

section Ports

def inb (d : Drive) (port : BitVec 16) : Byte × Drive :=
  if port = 0x1F7 then d.readStatus else (0xFF, d)

def outb (d : Drive) (port : BitVec 16) (data : Byte) : Drive :=
  if port = 0x1F2 then d.writeRegister .count data
  else if port = 0x1F3 then d.writeRegister .low data
  else if port = 0x1F4 then d.writeRegister .middle data
  else if port = 0x1F5 then d.writeRegister .high data
  else if port = 0x1F6 then d.writeRegister .device data
  else if port = 0x1F7 then d.writeCommand data
  else d

def inw (d : Drive) (port : BitVec 16) : Word × Drive :=
  if port = 0x1F0 then d.readData else (0xFFFF, d)

def outw (d : Drive) (port : BitVec 16) (data : Word) : Drive :=
  if port = 0x1F0 then d.writeData data else d

end Ports

/-- The low byte comes first. -/
def write16 (m : Memory) (a : ℕ) (w : Word) : Memory :=
  Function.update (Function.update m a (w.setWidth 8)) (a + 1) ((w >>> 8).setWidth 8)

theorem status_of_busy {d : Drive} (h : d.busy ≠ 0) : d.status &&& 0xC0 ≠ 0x40 := by
  rw [Drive.status, if_pos h]
  decide

theorem status_of_ready {d : Drive} (h : d.busy = 0) : d.status &&& 0xC0 = 0x40 := by
  rw [Drive.status, if_neg (not_not.mpr h)]
  have hdata : (0x58 : Byte) &&& 0xC0 = 0x40 := by decide
  cases d.transfer with
  | idle => decide
  | _ => exact hdata

theorem inb_status (d : Drive) : inb d 0x1F7 = d.readStatus := if_pos rfl

/-- `wait_drive` -/
def waitDrive (d : Drive) : Drive :=
  if (inb d 0x1F7).1 &&& 0xC0 = 0x40 then (inb d 0x1F7).2 else waitDrive (inb d 0x1F7).2
termination_by d.busy
decreasing_by
  rename_i hstatus
  have hbusy : d.busy ≠ 0 := fun h => hstatus (status_of_ready h)
  change d.busy - 1 < d.busy
  omega

/-- `pio_prepare`. The number of the sector is an int, which is shifted with its sign. -/
def pioPrepare (d : Drive) (sector : BitVec 32) : Drive :=
  let d := waitDrive d
  let d := outb d 0x1F2 1
  let d := outb d 0x1F3 ((sector &&& 0xFF).setWidth 8)
  let d := outb d 0x1F4 ((sector.sshiftRight 8 &&& 0xFF).setWidth 8)
  let d := outb d 0x1F5 ((sector.sshiftRight 16 &&& 0xFF).setWidth 8)
  outb d 0x1F6 ((sector.sshiftRight 24 &&& 0x0F ||| 0xE0).setWidth 8)

/-- The loop of ide_read_sector, n words of it. -/
def readLoop (d : Drive) (dst : Memory) (start n : ℕ) : Memory × Drive :=
  (List.range n).foldl (fun (dst, d) i =>
    let (word, d) := inw d 0x1F0
    (write16 dst (start + 2 * i) word, d)) (dst, d)

/-- `ide_read_sector(sector, &dst[start])`, with the drive. -/
def ideReadSector (d : Drive) (sector : BitVec 32) (dst : Memory) (start : ℕ) : Memory × Drive :=
  let d := pioPrepare d sector
  let d := outb d 0x1F7 0x20
  let d := waitDrive d
  readLoop d dst start (SECTOR_SIZE / 2)

def writeLoop (d : Drive) (src : Memory) (start n : ℕ) : Drive :=
  (List.range n).foldl (fun d i => outw d 0x1F0 (read16 src (start + 2 * i))) d

/-- `ide_write_sector(sector, &src[start])` -/
def ideWriteSector (d : Drive) (sector : BitVec 32) (src : Memory) (start : ℕ) : Drive :=
  let d := pioPrepare d sector
  let d := outb d 0x1F7 0x30
  let d := waitDrive d
  writeLoop d src start (SECTOR_SIZE / 2)

section Driver

variable {d : Drive}

/-- The bytes of a drive, in the order in which they get into memory. -/
def diskBytes (media : ℕ → ℕ → Word) : Memory := fun a =>
  let word := media (a / SECTOR_SIZE) (a % SECTOR_SIZE / 2)
  if a % 2 = 0 then word.setWidth 8 else (word >>> 8).setWidth 8

/-- The number a drive gets for a sector. -/
def lba (sector : BitVec 32) : ℕ := sector.toNat % 2 ^ 28

theorem waitDrive_eq (d : Drive) : waitDrive d = { d with busy := 0 } := by
  induction hn : d.busy generalizing d with
  | zero =>
    rw [waitDrive, inb_status, Drive.readStatus, if_pos (status_of_ready hn), hn]
  | succ n ih =>
    have hbusy : d.busy ≠ 0 := by omega
    rw [waitDrive, inb_status, Drive.readStatus, if_neg (status_of_busy hbusy)]
    refine ih { d with busy := d.busy - 1 } ?_
    change d.busy - 1 = n
    omega

/-- The registers for one sector. -/
def addressed (sector : BitVec 32) : Register → Byte
  | .count => 1
  | .low => (sector &&& 0xFF).setWidth 8
  | .middle => (sector.sshiftRight 8 &&& 0xFF).setWidth 8
  | .high => (sector.sshiftRight 16 &&& 0xFF).setWidth 8
  | .device => (sector.sshiftRight 24 &&& 0x0F ||| 0xE0).setWidth 8

theorem pioPrepare_eq (d : Drive) (sector : BitVec 32) : pioPrepare d sector =
    { d with
      busy := 0
      registers := addressed sector } := by
  unfold pioPrepare
  rw [waitDrive_eq]
  simp only [outb, Drive.writeRegister, if_true, if_false, ne_eq, not_true_eq_false,
    BitVec.reduceEq]
  congr 1
  funext r
  cases r <;> rfl

/-- A byte of a word, taken by a shift with sign. -/
theorem byte_of_sshiftRight (sector : BitVec 32) {k : ℕ} (h : k ≤ 24) :
    ((sector.sshiftRight k &&& 0xFF).setWidth 8).toNat = sector.toNat / 2 ^ k % 256 := by
  have hbyte : (sector.sshiftRight k &&& 0xFF).setWidth 8 =
      BitVec.setWidth 8 (sector >>> k) := by
    have hmask : ∀ i (hi : i < 8), (255#8)[i] = true := by decide
    ext i hi
    simp [hmask i hi, BitVec.getLsbD_sshiftRight, show ¬ 32 ≤ i by omega,
      show k + i < 32 by omega]
  rw [hbyte, BitVec.toNat_setWidth, BitVec.toNat_ushiftRight, Nat.shiftRight_eq_div_pow]

theorem device_of_sshiftRight (sector : BitVec 32) :
    ((sector.sshiftRight 24 &&& 0x0F ||| 0xE0).setWidth 8).toNat % 16 =
      sector.toNat / 2 ^ 24 % 16 := by
  have hlow : ((sector.sshiftRight 24 &&& 0x0F ||| 0xE0).setWidth 8).setWidth 4 =
      BitVec.setWidth 4 (sector >>> 24) := by
    have hmask : ∀ i (hi : i < 4), (15#4)[i] = true := by decide
    ext i hi
    simp [hmask i hi, BitVec.getLsbD_sshiftRight, show ¬ 32 ≤ i by omega,
      show 24 + i < 32 by omega]
  have hnat := congrArg BitVec.toNat hlow
  rw [BitVec.toNat_setWidth 4, BitVec.toNat_setWidth 4, BitVec.toNat_ushiftRight,
    Nat.shiftRight_eq_div_pow] at hnat
  exact hnat

theorem addressed_spec (d : Drive) (sector : BitVec 32) :
    ({ d with registers := addressed sector } : Drive).address = lba sector ∧
      ({ d with registers := addressed sector } : Drive).following = 0 ∧
      ({ d with registers := addressed sector } : Drive).Selected := by
  refine ⟨?_, (by decide : ((1 : Byte) - 1).toNat = 0), ?_⟩
  · have hlow : ((sector &&& 0xFF).setWidth 8).toNat = sector.toNat % 256 := by
      have hbyte := byte_of_sshiftRight sector (Nat.zero_le 24)
      rw [BitVec.sshiftRight_zero, Nat.pow_zero, Nat.div_one] at hbyte
      exact hbyte
    change ((sector &&& 0xFF).setWidth 8).toNat +
      256 * ((sector.sshiftRight 8 &&& 0xFF).setWidth 8).toNat +
      65536 * ((sector.sshiftRight 16 &&& 0xFF).setWidth 8).toNat +
      16777216 * (((sector.sshiftRight 24 &&& 0x0F ||| 0xE0).setWidth 8).toNat % 16) = _
    rw [hlow, byte_of_sshiftRight sector (by decide), byte_of_sshiftRight sector (by decide),
      device_of_sshiftRight, lba]
    omega
  · constructor
    · change ((sector.sshiftRight 24 &&& 0x0F ||| 0xE0).setWidth 8).getLsbD 4 = false
      simp
    · change ((sector.sshiftRight 24 &&& 0x0F ||| 0xE0).setWidth 8).getLsbD 6 = true
      simp

/-- The drive when it is ready to move a sector. -/
def prepared (d : Drive) (sector : BitVec 32) : Drive :=
  { d.pause with
    busy := 0
    registers := addressed sector }

theorem waitDrive_command (hcommand : d.busy = 0) (hselected : d.Selected)
    (hfollowing : d.following = 0) :
    waitDrive (outb d 0x1F7 0x20) =
        { d.pause with
          busy := 0
          transfer := .toHost d.address 0 0 } ∧
      waitDrive (outb d 0x1F7 0x30) =
        { d.pause with
          busy := 0
          transfer := .fromHost d.address 0 0 } := by
  have hguard : ¬ (d.busy ≠ 0 ∨ ¬ d.Selected) := by simp [hcommand, hselected]
  rw [waitDrive_eq, waitDrive_eq]
  constructor
  · change { d.writeCommand 0x20 with busy := 0 } = _
    rw [Drive.writeCommand, if_neg hguard, if_pos rfl, hfollowing]
  · change { d.writeCommand 0x30 with busy := 0 } = _
    rw [Drive.writeCommand, if_neg hguard, if_neg (by decide), if_pos rfl, hfollowing]

/-- The preparation and the command, for a sector to be read or written. -/
theorem waitDrive_prepared (d : Drive) (sector : BitVec 32) (data : ℕ → Word) :
    waitDrive (outb (pioPrepare d sector) 0x1F7 0x20) =
        (prepared d sector).sending (lba sector) 0 ∧
      waitDrive (outb (pioPrepare d sector) 0x1F7 0x30) =
        (prepared d sector).receiving (lba sector) 0 data := by
  obtain ⟨haddress, hfollowing, hselected⟩ := addressed_spec { d with busy := 0 } sector
  obtain ⟨hread, hwrite⟩ := waitDrive_command (d := { d with
    busy := 0
    registers := addressed sector }) rfl hselected hfollowing
  rw [pioPrepare_eq, hread, hwrite]
  have hmedia : (prepared d sector).overwritten (lba sector) 0 data = d.media :=
    Function.update_eq_self _ _
  constructor
  · rw [haddress]
    rfl
  · rw [haddress, Drive.receiving, if_pos (by decide), hmedia]
    rfl

theorem lba_eq (sector : BitVec 32) : (sector.toInt % 2 ^ 28).toNat = lba sector := by
  rw [lba, BitVec.toInt_eq_toNat_cond]
  split <;> omega

theorem diskBytes_word (media : ℕ → ℕ → Word) (s : ℕ) {i : ℕ} (h : i < 256) :
    diskBytes media (512 * s + 2 * i) = (media s i).setWidth 8 ∧
      diskBytes media (512 * s + (2 * i + 1)) = (media s i >>> 8).setWidth 8 := by
  unfold diskBytes SECTOR_SIZE
  dsimp only
  constructor
  · rw [show (512 * s + 2 * i) / 512 = s by omega, show (512 * s + 2 * i) % 512 / 2 = i by omega,
      if_pos (by omega)]
  · rw [show (512 * s + (2 * i + 1)) / 512 = s by omega,
      show (512 * s + (2 * i + 1)) % 512 / 2 = i by omega, if_neg (by omega)]

/-- The words of a sector are its bytes in memory. -/
theorem sectorData_diskBytes (media : ℕ → ℕ → Word) (sector : BitVec 32) {i : ℕ}
    (h : i < SECTOR_SIZE / 2) :
    sectorData (diskBytes media) sector.toInt (2 * i) = (media (lba sector) i).setWidth 8 ∧
      sectorData (diskBytes media) sector.toInt (2 * i + 1) =
        (media (lba sector) i >>> 8).setWidth 8 := by
  rw [sectorData, lba_eq]
  exact diskBytes_word media (lba sector) h

theorem write16_store {data : Memory} {w : Word} {n : ℕ} (dst : Memory) (start : ℕ)
    (hlow : data (2 * n) = w.setWidth 8) (hhigh : data (2 * n + 1) = (w >>> 8).setWidth 8) :
    write16 (store dst start (2 * n) data) (start + 2 * n) w =
      store dst start (2 * (n + 1)) data := by
  funext a
  unfold write16
  by_cases hsecond : a = start + 2 * n + 1
  · rw [hsecond, Function.update_self, store_inside _ _ (by omega) (by omega), ← hhigh]
    congr 1
    omega
  · rw [Function.update_of_ne hsecond]
    by_cases hfirst : a = start + 2 * n
    · rw [hfirst, Function.update_self, store_inside _ _ (by omega) (by omega), ← hlow]
      congr 1
      omega
    · rw [Function.update_of_ne hfirst]
      by_cases hin : start ≤ a ∧ a < start + 2 * n
      · rw [store_inside _ _ hin.1 hin.2, store_inside _ _ hin.1 (by omega)]
      · rw [store_outside _ _ (by omega), store_outside _ _ (by omega)]

/-- The first n words of a sector on their way into memory. -/
theorem readLoop_sending (hready : d.busy = 0) (sector : BitVec 32) (dst : Memory) (start : ℕ)
    {n : ℕ} (hn : n ≤ SECTOR_SIZE / 2) :
    readLoop (d.sending (lba sector) 0) dst start n =
      (store dst start (2 * n) (sectorData (diskBytes d.media) sector.toInt),
        d.sending (lba sector) n) := by
  induction n with
  | zero => rw [Nat.mul_zero, store_zero]; rfl
  | succ n ih =>
    have hloop := ih (Nat.le_of_succ_le hn)
    unfold readLoop at hloop ⊢
    obtain ⟨hlow, hhigh⟩ := sectorData_diskBytes d.media sector hn
    rw [List.range_succ, List.foldl_append, hloop, List.foldl_cons, List.foldl_nil]
    have hinw : inw (d.sending (lba sector) n) 0x1F0 =
        (d.media (lba sector) n, d.sending (lba sector) (n + 1)) :=
      Drive.readData_sending hready hn
    dsimp only
    rw [hinw]
    dsimp only
    rw [write16_store dst start hlow hhigh]

/-- ide_read_sector copies a sector, however long the drive takes. -/
theorem ideReadSector_eq (d : Drive) (sector : BitVec 32) (dst : Memory) (start : ℕ) :
    ideReadSector d sector dst start =
      (KernelFiles.ideReadSector (diskBytes d.media) sector.toInt dst start,
        { prepared d sector with transfer := .idle }) := by
  unfold ideReadSector
  dsimp only
  rw [(waitDrive_prepared d sector fun _ => 0).1, readLoop_sending rfl sector dst start le_rfl]
  rfl

/-- The sector that is being written, as far as it is. -/
theorem writeLoop_receiving (hready : d.busy = 0) (sector : BitVec 32) (src : Memory) (start : ℕ)
    {n : ℕ} (hn : n ≤ SECTOR_SIZE / 2) :
    writeLoop (d.receiving (lba sector) 0 fun i => read16 src (start + 2 * i)) src start n =
      d.receiving (lba sector) n fun i => read16 src (start + 2 * i) := by
  induction n with
  | zero => rfl
  | succ n ih =>
    have hloop := ih (Nat.le_of_succ_le hn)
    unfold writeLoop at hloop ⊢
    rw [List.range_succ, List.foldl_append, hloop, List.foldl_cons, List.foldl_nil]
    exact Drive.writeData_receiving hready hn fun i => read16 src (start + 2 * i)

theorem bytes_of_read16 (m : Memory) (a : ℕ) :
    (read16 m a).setWidth 8 = m a ∧ (read16 m a >>> 8).setWidth 8 = m (a + 1) := by
  have hvalue := read16_toNat m a
  have hlow := (m a).isLt
  have hhigh := (m (a + 1)).isLt
  constructor
  · apply BitVec.eq_of_toNat_eq
    rw [BitVec.toNat_setWidth, hvalue]
    omega
  · apply BitVec.eq_of_toNat_eq
    rw [BitVec.toNat_setWidth, BitVec.toNat_ushiftRight, Nat.shiftRight_eq_div_pow, hvalue]
    omega

/-- On the drive a sector is overwritten and no other. -/
theorem diskBytes_overwritten (d : Drive) (sector : BitVec 32) (src : Memory) (start : ℕ) :
    diskBytes (d.overwritten (lba sector) (SECTOR_SIZE / 2) fun i => read16 src (start + 2 * i)) =
      store (diskBytes d.media) (SECTOR_SIZE * lba sector) SECTOR_SIZE (advance src start) := by
  funext a
  have hsize : SECTOR_SIZE = 512 := rfl
  rw [hsize]
  unfold diskBytes Drive.overwritten SECTOR_SIZE
  dsimp only
  by_cases hsector : a / 512 = lba sector
  · have hword : a % 512 / 2 < 512 / 2 := by omega
    rw [hsector, Function.update_self, if_pos hword, store_inside _ _ (by omega) (by omega),
      advance_apply]
    obtain ⟨hlow, hhigh⟩ := bytes_of_read16 src (start + 2 * (a % 512 / 2))
    rw [hlow, hhigh]
    by_cases heven : a % 2 = 0
    · rw [if_pos heven]
      congr 1
      omega
    · rw [if_neg heven]
      congr 1
      omega
  · rw [Function.update_of_ne hsector, store_outside _ _ (by omega)]

/-- ide_write_sector overwrites a sector. The drive may be busy with it when it returns. -/
theorem ideWriteSector_media (d : Drive) (sector : BitVec 32) (src : Memory) (start : ℕ) :
    diskBytes (ideWriteSector d sector src start).media =
      store (diskBytes d.media) (SECTOR_SIZE * lba sector) SECTOR_SIZE (advance src start) := by
  unfold ideWriteSector
  dsimp only
  rw [(waitDrive_prepared d sector fun i => read16 src (start + 2 * i)).2,
    writeLoop_receiving rfl sector src start le_rfl]
  exact diskBytes_overwritten (prepared d sector) sector src start

end Driver

section Calls

/-- A call of the driver, with the memory it is passed a pointer into. -/
inductive Call
  | readSector (sector : BitVec 32) (dst : Memory) (start : ℕ)
  | writeSector (sector : BitVec 32) (src : Memory) (start : ℕ)

/-- The memory after a call, and the drive. -/
def call (d : Drive) : Call → Memory × Drive
  | .readSector sector dst start => ideReadSector d sector dst start
  | .writeSector sector src start => (src, ideWriteSector d sector src start)

def run (d : Drive) : List Call → List Memory × Drive
  | [] => ([], d)
  | c :: rest =>
    let (memory, d) := call d c
    let (memories, d) := run d rest
    (memory :: memories, d)

/-- The same on a disk that is a memory of bytes. -/
def answer (disk : Memory) : Call → Memory × Memory
  | .readSector sector dst start => (KernelFiles.ideReadSector disk sector.toInt dst start, disk)
  | .writeSector sector src start =>
    (src, store disk (SECTOR_SIZE * lba sector) SECTOR_SIZE (advance src start))

def answers (disk : Memory) : List Call → List Memory × Memory
  | [] => ([], disk)
  | c :: rest =>
    let (memory, disk) := answer disk c
    let (memories, disk) := answers disk rest
    (memory :: memories, disk)

theorem call_answer (d : Drive) (c : Call) :
    ((call d c).1, diskBytes (call d c).2.media) = answer (diskBytes d.media) c := by
  cases c with
  | readSector sector dst start =>
    rw [call, ideReadSector_eq]
    rfl
  | writeSector sector src start =>
    exact congrArg (Prod.mk src) (ideWriteSector_media d sector src start)

/-- Whatever is read and written, and however long the drive is busy in between, the driver
makes a memory of bytes of it. -/
theorem run_refines (d : Drive) (calls : List Call) :
    ((run d calls).1, diskBytes (run d calls).2.media) = answers (diskBytes d.media) calls := by
  induction calls generalizing d with
  | nil => rfl
  | cons c rest ih =>
    rw [run, answers, ← call_answer d c]
    dsimp only
    rw [← ih (call d c).2]

/-- What a sector holds after a call, from what it held before. Sectors are the same if the
drive gets the same number for them. -/
def written (sector : BitVec 32) (data : Memory) : Call → Memory
  | .writeSector sector' src start => if lba sector' = lba sector then advance src start else data
  | .readSector _ _ _ => data

/-- What the last write of a sector stored there, or what the disk held before. -/
def lastWritten (disk : Memory) (sector : BitVec 32) (calls : List Call) : Memory :=
  calls.foldl (written sector) (sectorData disk sector.toInt)

theorem foldl_written_congr (sector : BitVec 32) {data data' : Memory} {i : ℕ}
    (h : data i = data' i) (calls : List Call) :
    calls.foldl (written sector) data i = calls.foldl (written sector) data' i := by
  induction calls generalizing data data' with
  | nil => exact h
  | cons c rest ih =>
    refine ih ?_
    cases c with
    | readSector sector' dst start => exact h
    | writeSector sector' src start =>
      rw [written, written]
      split
      · rfl
      · exact h

theorem sectorData_answer (disk : Memory) (sector : BitVec 32) (c : Call) {i : ℕ}
    (h : i < SECTOR_SIZE) : sectorData (answer disk c).2 sector.toInt i =
      written sector (sectorData disk sector.toInt) c i := by
  cases c with
  | readSector sector' dst start => rfl
  | writeSector sector' src start =>
    have hsize : SECTOR_SIZE = 512 := rfl
    rw [answer, written, sectorData, sectorData, lba_eq]
    dsimp only [advance_apply]
    by_cases hsame : lba sector' = lba sector
    · rw [if_pos hsame, hsame, store_inside _ _ (by omega) (by omega)]
      congr 1
      omega
    · rw [hsize] at h
      rw [if_neg hsame, hsize, store_outside _ _ (by omega)]
      rfl

theorem sectorData_answers (disk : Memory) (sector : BitVec 32) (calls : List Call) {i : ℕ}
    (h : i < SECTOR_SIZE) : sectorData (answers disk calls).2 sector.toInt i =
      lastWritten disk sector calls i := by
  induction calls generalizing disk with
  | nil => rfl
  | cons c rest ih =>
    refine (ih (answer disk c).2).trans ?_
    exact foldl_written_congr sector (sectorData_answer disk sector c h) rest

/-- A sector is read as it was written last, whatever was read and written before and after
that, and however long the drive was busy with it. -/
theorem read_lastWritten (d : Drive) (calls : List Call) (sector : BitVec 32) (dst : Memory)
    (start : ℕ) :
    (ideReadSector (run d calls).2 sector dst start).1 =
      store dst start SECTOR_SIZE (lastWritten (diskBytes d.media) sector calls) := by
  have hdisk := congrArg Prod.snd (run_refines d calls)
  rw [ideReadSector_eq]
  dsimp only at hdisk ⊢
  rw [KernelFiles.ideReadSector, hdisk]
  funext a
  by_cases hin : start ≤ a ∧ a < start + SECTOR_SIZE
  · rw [store_inside _ _ hin.1 hin.2, store_inside _ _ hin.1 hin.2,
      sectorData_answers _ _ _ (by omega)]
  · rw [store_outside _ _ (by omega), store_outside _ _ (by omega)]

end Calls

end RathalOS.IdeDriver
