import RathalOS.WaitingPrograms
import RathalOS.IdeDriver
import RathalOS.InterruptHandling
import RathalOS.ServedFiles

/-!
The file system of the kernel on a drive, one access to a port after the other, with interrupts
in between, which are allowed before files_system_init is called. wait_drive polls the drive for
as long as it is busy. What the calls return is what they return on a memory of bytes, wherever
the timer, the keyboard and the disk interrupt them.
-/
namespace RathalOS.DriveSessions

open ByteMemory Bitmaps Superblocks Inodes KernelFiles FileRemoval ServedFiles SectorDrives
open IdeDriver InterruptedPrograms Program

section Driver

/-- An access to a port of the drive. -/
inductive Access
  | inb (port : BitVec 16)
  | outb (port : BitVec 16) (data : Byte)
  | inw (port : BitVec 16)

abbrev Access.Result : Access → Type
  | inb _ => Byte
  | outb _ _ => Unit
  | inw _ => SectorDrives.Word

def Access.exec : (a : Access) → Drive → a.Result × Drive
  | inb port, d => IdeDriver.inb d port
  | outb port data, d => ((), IdeDriver.outb d port data)
  | inw port, d => IdeDriver.inw d port

abbrev DriveProgram := Program Access Access.Result

def waitDriveProgram (rounds : ℕ) : DriveProgram (Option Unit) :=
  poll (.inb 0x1F7) (fun (status : Byte) => decide (status &&& 0xC0 = 0x40)) rounds

def outputs (writes : List (BitVec 16 × Byte)) : DriveProgram Unit :=
  each (fun write => op (Access.outb write.1 write.2)) writes

def pioPrepareProgram (rounds : ℕ) (sector : BitVec 32) : DriveProgram (Option Unit) :=
  (waitDriveProgram rounds).bindSome fun _ =>
  (outputs
    [(0x1F2, 1),
      (0x1F3, (sector &&& 0xFF).setWidth 8),
      (0x1F4, (sector.sshiftRight 8 &&& 0xFF).setWidth 8),
      (0x1F5, (sector.sshiftRight 16 &&& 0xFF).setWidth 8),
      (0x1F6, (sector.sshiftRight 24 &&& 0x0F ||| 0xE0).setWidth 8)]).bind fun _ =>
  done (some ())

/-- The words with these numbers. -/
def readLoopProgram (start : ℕ) : List ℕ → Memory → DriveProgram Memory
  | [], dst => done dst
  | i :: rest, dst => (op (.inw 0x1F0)).bind fun (word : SectorDrives.Word) =>
    readLoopProgram start rest (write16 dst (start + 2 * i) word)

def ideReadSectorProgram (rounds : ℕ) (sector : BitVec 32) (dst : Memory) (start : ℕ) :
    DriveProgram (Option Memory) :=
  (pioPrepareProgram rounds sector).bindSome fun _ =>
  (op (.outb 0x1F7 0x20)).bind fun _ =>
  (waitDriveProgram rounds).bindSome fun _ =>
  (readLoopProgram start (List.range (SECTOR_SIZE / 2)) dst).bind fun dst =>
  done (some dst)

theorem finishes_waitDrive (d : Drive) :
    Finishes Access.exec waitDriveProgram d () (waitDrive d) := by
  have hread : ∀ d : Drive, Access.exec (.inb 0x1F7) d = d.readStatus := fun d => inb_status d
  rw [waitDrive_eq]
  induction hn : d.busy generalizing d with
  | zero =>
    have hready : decide ((Access.exec (.inb 0x1F7) d).1 &&& 0xC0 = 0x40) = true := by
      rw [hread]
      exact decide_eq_true (status_of_ready hn)
    have hpoll : Finishes Access.exec waitDriveProgram d () (Access.exec (.inb 0x1F7) d).2 :=
      finishes_poll hready
    rw [hread, Drive.readStatus, hn] at hpoll
    exact hpoll
  | succ n ih =>
    have hbusy : d.busy ≠ 0 := by omega
    have hready : ¬ decide ((Access.exec (.inb 0x1F7) d).1 &&& 0xC0 = 0x40) = true := by
      rw [hread, decide_eq_true_eq]
      exact status_of_busy hbusy
    refine Finishes.poll hready ?_
    rw [hread]
    refine ih { d with busy := d.busy - 1 } ?_
    change d.busy - 1 = n
    omega

theorem run_outputs (writes : List (BitVec 16 × Byte)) (d : Drive) :
    (outputs writes).run Access.exec d =
      ((), writes.foldl (fun d write => IdeDriver.outb d write.1 write.2) d) :=
  run_each (fun _ _ _ => rfl) d

theorem finishes_pioPrepare (d : Drive) (sector : BitVec 32) :
    Finishes Access.exec (fun rounds => pioPrepareProgram rounds sector) d ()
      (pioPrepare d sector) :=
  (finishes_waitDrive d).bindSome (.after (run_outputs _ _) (finishes_done () _))

theorem run_readLoop (start n : ℕ) (dst : Memory) (d : Drive) :
    (readLoopProgram start (List.range n) dst).run Access.exec d = readLoop d dst start n := by
  unfold readLoop
  generalize List.range n = l
  induction l generalizing dst d with
  | nil => rfl
  | cons i rest ih =>
    rw [readLoopProgram, run_bind, ih]
    rfl

/-- The accesses of ide_read_sector. -/
theorem finishes_ideReadSector (d : Drive) (sector : BitVec 32) (dst : Memory) (start : ℕ) :
    Finishes Access.exec (fun rounds => ideReadSectorProgram rounds sector dst start) d
      (IdeDriver.ideReadSector d sector dst start).1
      (IdeDriver.ideReadSector d sector dst start).2 := by
  have hprepare := finishes_pioPrepare d sector
  have hcommand : (op (Access.outb 0x1F7 0x20)).run Access.exec (pioPrepare d sector) =
      ((), IdeDriver.outb (pioPrepare d sector) 0x1F7 0x20) := rfl
  have hwait := finishes_waitDrive (IdeDriver.outb (pioPrepare d sector) 0x1F7 0x20)
  have hread := run_readLoop start (SECTOR_SIZE / 2) dst
    (waitDrive (IdeDriver.outb (pioPrepare d sector) 0x1F7 0x20))
  have hresult : IdeDriver.ideReadSector d sector dst start =
      readLoop (waitDrive (IdeDriver.outb (pioPrepare d sector) 0x1F7 0x20)) dst start
        (SECTOR_SIZE / 2) := rfl
  rw [hresult]
  generalize readLoop _ dst start (SECTOR_SIZE / 2) = result at hread ⊢
  exact hprepare.bindSome (.after hcommand (hwait.bindSome (.after hread (finishes_done _ _))))

end Driver

section Files

variable {α β : Type} {p : ℕ → DriveProgram (Option α)} {q : ℕ → α → DriveProgram (Option β)}
  {f : Memory → α} {g : α → Memory → β}

/-- With a drive the program returns what the function makes of the bytes on it, which stay as
they are. -/
def Answers (p : ℕ → DriveProgram (Option α)) (f : Memory → α) : Prop :=
  ∀ d : Drive, ∃ d' : Drive, d'.media = d.media ∧
    Finishes Access.exec p d (f (diskBytes d.media)) d'

theorem answers_done (a : α) : Answers (fun _ => done (some a)) fun _ => a :=
  fun d => ⟨d, rfl, finishes_done a d⟩

theorem Answers.bindSome (hp : Answers p f) (hq : ∀ a, Answers (fun rounds => q rounds a) (g a)) :
    Answers (fun rounds => (p rounds).bindSome (q rounds)) fun disk => g (f disk) disk := by
  intro d
  obtain ⟨d₁, hmedia₁, hfirst⟩ := hp d
  obtain ⟨d₂, hmedia₂, hsecond⟩ := hq (f (diskBytes d.media)) d₁
  rw [hmedia₁] at hmedia₂ hsecond
  exact ⟨d₂, hmedia₂, hfirst.bindSome hsecond⟩

/-- `ide_read_sector(sector, &dst[start])`, where the sector is an int. -/
def readSector (rounds : ℕ) (sector : ℤ) (dst : Memory) (start : ℕ) :
    DriveProgram (Option Memory) :=
  ideReadSectorProgram rounds (BitVec.ofInt 32 sector) dst start

theorem answers_readSector (sector : ℤ) (dst : Memory) (start : ℕ) :
    Answers (fun rounds => readSector rounds sector dst start)
      fun disk => KernelFiles.ideReadSector disk sector dst start := by
  intro d
  have hnumber : (BitVec.ofInt 32 sector).toInt % 2 ^ 28 = sector % 2 ^ 28 := by
    rw [BitVec.toInt_ofInt, Int.bmod_def]
    split <;> omega
  have hread := finishes_ideReadSector d (BitVec.ofInt 32 sector) dst start
  rw [ideReadSector_eq] at hread
  refine ⟨{ prepared d (BitVec.ofInt 32 sector) with transfer := .idle }, rfl, ?_⟩
  rw [KernelFiles.ideReadSector, sectorData, hnumber] at hread
  exact hread

def fileSuperblocInitProgram (rounds : ℕ) (k : Kernel) : DriveProgram (Option Kernel) :=
  (readSector rounds 0 k.globalBuffer 0).bindSome fun buffer =>
  done (some { k with globalBuffer := buffer })

def fileInodeBitmapInitProgram (rounds : ℕ) (k : Kernel) : DriveProgram (Option Kernel) :=
  let sb := k.superblock
  (readSector rounds (intOfUint sb.inodeBitmapStart) k.globalBuffer SECTOR_SIZE).bindSome
    fun buffer => done (some { k with
      globalBuffer := buffer
      inodeBitmapCount := sb.inodeCount
      inodeBitmapSize := uint (sb.inodeBitmapBlockCount * sb.blockSize) })

def inodeTableInitProgram (rounds : ℕ) (k : Kernel) : DriveProgram (Option Kernel) :=
  let sb := k.superblock
  (readSector rounds (intOfUint sb.inodeStart) k.globalBuffer (4 * SECTOR_SIZE)).bindSome
    fun buffer => done (some { k with
      globalBuffer := buffer
      inodeTableCount := sb.inodeCount
      inodeTableSize := uint (sb.inodeCount * inodeSize) })

def filesSystemInitProgram (rounds : ℕ) (k : Kernel) : DriveProgram (Option Kernel) :=
  (fileSuperblocInitProgram rounds k).bindSome fun k =>
  (fileInodeBitmapInitProgram rounds k).bindSome fun k =>
  (inodeTableInitProgram rounds k).bindSome fun k =>
  done (some (fdescriptorTabInit k))

theorem answers_filesSystemInit (k : Kernel) :
    Answers (fun rounds => filesSystemInitProgram rounds k) fun disk => filesSystemInit disk k :=
  Answers.bindSome
    ((answers_readSector 0 k.globalBuffer 0).bindSome fun _ => answers_done _) fun _ =>
  Answers.bindSome ((answers_readSector _ _ _).bindSome fun _ => answers_done _) fun _ =>
  Answers.bindSome ((answers_readSector _ _ _).bindSome fun _ => answers_done _) fun _ =>
  answers_done _

theorem indirect_lt {block : ℕ} (h : block < INODE_INDIRECT_PTR_CNT * (SECTOR_SIZE / 2)) :
    (block - INODE_DIRECT_PTR_CNT) / (SECTOR_SIZE / 2) < 9 := by
  change block < 2304 at h
  change (block - 4) / 256 < 9
  omega

/-- The indirect block for a block of the file. -/
def indirectBlock {block : ℕ} (h : block < INODE_INDIRECT_PTR_CNT * (SECTOR_SIZE / 2)) : Fin 9 :=
  ⟨(block - INODE_DIRECT_PTR_CNT) / (SECTOR_SIZE / 2), indirect_lt h⟩

def accessBlockProgram (rounds : ℕ) (dataStart : ℤ) (inode : Inode) (s : ReadState) :
    DriveProgram (Option ReadState) :=
  let blockAdressesPerBlock := SECTOR_SIZE / 2
  if h : s.block < 4 then
    let dataBlock := (inode.directPtr ⟨s.block, h⟩).toNat
    (readSector rounds (dataStart + dataBlock) s.buf s.moved).bindSome fun buf =>
    done (some { s with
      dataBlock := some dataBlock
      buf := buf })
  else if h : s.block < INODE_INDIRECT_PTR_CNT * blockAdressesPerBlock then
    let block := s.block - INODE_DIRECT_PTR_CNT
    let adressBlock := (inode.indirectPtr (indirectBlock h)).toNat
    let adressInIndirectBlock := 2 * (block % blockAdressesPerBlock)
    (readSector rounds (dataStart + (adressBlock + adressInIndirectBlock : ℕ) + 1) s.buf
      s.moved).bindSome fun buf =>
    done (some { s with
      adressInIndirectBlock := some adressInIndirectBlock
      buf := buf })
  else done (some s)

theorem answers_accessBlock (dataStart : ℤ) (inode : Inode) (s : ReadState) :
    Answers (fun rounds => accessBlockProgram rounds dataStart inode s)
      fun disk => accessBlock disk dataStart inode s := by
  unfold accessBlockProgram accessBlock
  dsimp only
  split
  · exact (answers_readSector _ _ _).bindSome fun _ => answers_done _
  · split
    · exact (answers_readSector _ _ _).bindSome fun _ => answers_done _
    · exact answers_done s

def readBlocksProgram (rounds : ℕ) (dataStart : ℤ) (inode : Inode) :
    ℕ → ReadState → DriveProgram (Option ReadState)
  | 0, s => done (some s)
  | n + 1, s =>
    (accessBlockProgram rounds dataStart inode s).bindSome fun s =>
    readBlocksProgram rounds dataStart inode n
      { s with
        block := s.block + 1
        moved := s.moved + SECTOR_SIZE }

theorem answers_readBlocks (dataStart : ℤ) (inode : Inode) (n : ℕ) (s : ReadState) :
    Answers (fun rounds => readBlocksProgram rounds dataStart inode n s)
      fun disk => readBlocks disk dataStart inode n s := by
  induction n generalizing s with
  | zero => exact answers_done s
  | succ n ih => exact (answers_accessBlock dataStart inode s).bindSome fun _ => ih _

def fileReadProgram (rounds : ℕ) (k : Kernel) (stale : ℕ) (fd : ℤ) (buf : Memory) (count : ℕ) :
    DriveProgram (Option (Except Fault (ℤ × Memory))) :=
  match k.descriptor fd with
  | .error e => done (some (.error e))
  | .ok i =>
    if (k.fileDescriptorTab i).status = 0 then done (some (.ok (-1, buf)))
    else
      match (k.fileDescriptorTab i).inode with
      | none => done (some (.error .undefined))
      | some slot =>
        match inodeGet k.inodeTable slot with
        | .error e => done (some (.error e))
        | .ok inode =>
          let dataStart := intOfUint k.superblock.datablocksStart
          (readBlocksProgram rounds dataStart inode (count / SECTOR_SIZE + 1)
            ⟨0, none, none, buf, 0⟩).bindSome fun s =>
          let last := s.dataBlock.getD stale + s.adressInIndirectBlock.getD stale
          (readSector rounds (dataStart + last) s.buf s.moved).bindSome fun buf =>
          done (some (.ok (intOfUint count, buf)))

theorem answers_fileRead (k : Kernel) (stale : ℕ) (fd : ℤ) (buf : Memory) (count : ℕ) :
    Answers (fun rounds => fileReadProgram rounds k stale fd buf count)
      fun disk => fileRead k disk stale fd buf count := by
  unfold fileReadProgram fileRead
  cases k.descriptor fd with
  | error e => exact answers_done _
  | ok i =>
    simp only [ok_bind]
    split
    · exact answers_done _
    · cases (k.fileDescriptorTab i).inode with
      | none => exact answers_done _
      | some slot =>
        dsimp only
        cases inodeGet k.inodeTable slot with
        | error e => exact answers_done _
        | ok inode =>
          simp only [ok_bind]
          exact (answers_readBlocks _ _ _ _).bindSome fun _ =>
            (answers_readSector _ _ _).bindSome fun _ => answers_done _

end Files

section Sessions

/-- What a call returns, if it does, and what it leaves in the buffer of the caller. -/
structure Answer where
  ret : Option ℤ
  buf : Option Memory

/-- A call on a memory of bytes. -/
def answer (disk : Memory) (stale : ℕ) (k : Kernel) : KernelCall → Except Fault (Answer × Kernel)
  | .fileOpen filename => do
    let (fd, k) ← fileOpen k filename
    .ok (⟨some fd, none⟩, k)
  | .fileRead fd buf count => do
    let (ret, buf) ← fileRead k disk stale fd buf count
    .ok (⟨some ret, some buf⟩, k)
  | .fileSeek fd offset => do
    let (ret, k) ← fileSeek k fd offset
    .ok (⟨some ret, none⟩, k)
  | .fileClose fd => do
    let k ← fileClose k fd
    .ok (⟨none, none⟩, k)
  | .fileRemove filename => do
    let (ret, k) ← fileRemove k filename
    .ok (⟨some ret, none⟩, k)

def session (disk : Memory) (stale : ℕ) :
    List KernelCall → Kernel → Except Fault (List Answer × Kernel)
  | [], k => .ok ([], k)
  | call :: rest, k => do
    let (a, k) ← answer disk stale k call
    let (answers, k) ← session disk stale rest k
    .ok (a :: answers, k)

/-- A call on a drive. Of the calls only file_read gets to it. -/
def answerProgram (rounds stale : ℕ) (k : Kernel) :
    KernelCall → DriveProgram (Option (Except Fault (Answer × Kernel)))
  | .fileOpen filename => done <| some do
    let (fd, k) ← fileOpen k filename
    .ok (⟨some fd, none⟩, k)
  | .fileRead fd buf count =>
    (fileReadProgram rounds k stale fd buf count).bindSome fun result =>
    done <| some do
      let (ret, buf) ← result
      .ok (⟨some ret, some buf⟩, k)
  | .fileSeek fd offset => done <| some do
    let (ret, k) ← fileSeek k fd offset
    .ok (⟨some ret, none⟩, k)
  | .fileClose fd => done <| some do
    let k ← fileClose k fd
    .ok (⟨none, none⟩, k)
  | .fileRemove filename => done <| some do
    let (ret, k) ← fileRemove k filename
    .ok (⟨some ret, none⟩, k)

/-- Calls one after the other, until one of them is undefined. -/
def sessionProgram (rounds stale : ℕ) :
    List KernelCall → Kernel → DriveProgram (Option (Except Fault (List Answer × Kernel)))
  | [], k => done (some (.ok ([], k)))
  | call :: rest, k =>
    (answerProgram rounds stale k call).bindSome fun
      | .error e => done (some (.error e))
      | .ok (a, k) =>
        (sessionProgram rounds stale rest k).bindSome fun result =>
        done <| some do
          let (answers, k) ← result
          .ok (a :: answers, k)

/-- The kernel from its start. -/
def bootProgram (rounds stale : ℕ) (calls : List KernelCall) :
    DriveProgram (Option (Except Fault (List Answer × Kernel))) :=
  (filesSystemInitProgram rounds Kernel.initial).bindSome fun k =>
  sessionProgram rounds stale calls k

theorem answers_answer (stale : ℕ) (k : Kernel) (call : KernelCall) :
    Answers (fun rounds => answerProgram rounds stale k call)
      fun disk => answer disk stale k call := by
  cases call with
  | fileRead fd buf count =>
    exact (answers_fileRead k stale fd buf count).bindSome fun _ => answers_done _
  | _ => exact answers_done _

theorem answers_session (stale : ℕ) (calls : List KernelCall) (k : Kernel) :
    Answers (fun rounds => sessionProgram rounds stale calls k)
      fun disk => session disk stale calls k := by
  induction calls generalizing k with
  | nil => exact answers_done _
  | cons call rest ih =>
    refine Answers.bindSome (g := fun result disk => do
      let (a, k) ← result
      let (answers, k) ← session disk stale rest k
      .ok (a :: answers, k)) (answers_answer stale k call) fun result => ?_
    cases result with
    | error e => exact answers_done _
    | ok result => exact (ih result.2).bindSome fun _ => answers_done _

/-- files_system_init and any calls after it, on a drive that is busy for as long as it likes,
interrupted at any of their accesses by the timer, the keyboard, the disk or any other device:
with enough rounds for wait_drive they return what they return on the bytes of the drive, leave
the drive with these bytes, and the interrupts do what they do. -/
theorem session_interrupted (d : Drive) (stale : ℕ) (calls : List KernelCall) :
    ∃ n, ∀ rounds, n ≤ rounds → ∀ (k : InterruptHandling.Kernel) is r,
      Interrupted (onDevice Access.exec) (besideDevice InterruptHandling.irq)
        (bootProgram rounds stale calls) (d, k) is r →
      r.1 = some (session (diskBytes d.media) stale calls
        (filesSystemInit (diskBytes d.media) Kernel.initial)) ∧
      r.2.1.media = d.media ∧ Chain InterruptHandling.irq k is r.2.2 := by
  have hboot : Answers (fun rounds => bootProgram rounds stale calls) fun disk =>
      session disk stale calls (filesSystemInit disk Kernel.initial) :=
    (answers_filesSystemInit Kernel.initial).bindSome fun k => answers_session stale calls k
  obtain ⟨d', hmedia, hfinishes⟩ := hboot d
  obtain ⟨n, hn⟩ := hfinishes.beside InterruptHandling.irq
  refine ⟨n, fun rounds hrounds k is r hrun => ?_⟩
  obtain ⟨hresult, hdrive, hchain⟩ := hn rounds hrounds k is r hrun
  rw [hdrive]
  exact ⟨hresult, hmedia, hchain⟩

end Sessions

section Examples

open Images AddedFiles ImageRuns

/-- The words of a drive that holds these bytes. -/
def mediaOf (bytes : Memory) : ℕ → ℕ → SectorDrives.Word :=
  fun sector i => read16 bytes (SECTOR_SIZE * sector + 2 * i)

theorem diskBytes_mediaOf (bytes : Memory) : diskBytes (mediaOf bytes) = bytes := by
  funext a
  obtain ⟨hlow, hhigh⟩ := bytes_of_read16 bytes (512 * (a / 512) + 2 * (a % 512 / 2))
  unfold diskBytes mediaOf SECTOR_SIZE
  dsimp only
  rw [hlow, hhigh]
  split
  · congr 1
    omega
  · congr 1
    omega

/-- A drive with the small file, which says three times that it is busy, and once after each
command. -/
def busyDrive : Drive where
  media := mediaOf smallFileImage.bytes
  registers := fun _ => 0
  transfer := .idle
  busy := 3
  delays := fun _ => 1

def readCalls : List KernelCall := [.fileOpen (nameOf 98), .fileRead 0 (fun _ => 0) 2]

/-- What the calls return, with the first two bytes of the buffer. -/
theorem session_readCalls : ((session smallFileImage.bytes 0 readCalls
      (filesSystemInit smallFileImage.bytes Kernel.initial)).map fun r =>
        r.1.map fun a => (a.ret, a.buf.map fun buf => [buf 0, buf 1])) =
    .ok [(some 0, none), (some 2, some [7, 9])] := by
  decide +kernel

/-- The timer interrupts wait_drive after its first round. -/
theorem session_interrupted_waiting : ∃ rounds r answers kernel,
    Interrupted (onDevice Access.exec) (besideDevice InterruptHandling.irq)
      (bootProgram rounds 0 readCalls) (busyDrive, InterruptHandling.exampleKernel)
      [⟨0, 0, 0⟩] r ∧
    r.1 = some (.ok (answers, kernel)) ∧
    answers.map (fun a => (a.ret, a.buf.map fun buf => [buf 0, buf 1])) =
      [(some 0, none), (some 2, some [7, 9])] := by
  obtain ⟨n, hn⟩ := session_interrupted busyDrive 0 readCalls
  obtain ⟨k, hk⟩ := InterruptHandling.irqHandler_example
  -- one more round, of which the first is over when the timer comes
  let polled : Drive := { busyDrive with busy := 2 }
  obtain ⟨next, hboot⟩ : ∃ next, bootProgram (n + 1) 0 readCalls = perform (.inb 0x1F7) next :=
    ⟨_, rfl⟩
  have hround : onDevice Access.exec (.inb 0x1F7) (busyDrive, InterruptHandling.exampleKernel) =
      ((0x80 : Byte), (polled, InterruptHandling.exampleKernel)) := rfl
  have htick : besideDevice InterruptHandling.irq ⟨0, 0, 0⟩
      (polled, InterruptHandling.exampleKernel) (polled, k) := ⟨rfl, hk⟩
  have hrun : Interrupted (onDevice Access.exec) (besideDevice InterruptHandling.irq)
      (bootProgram (n + 1) 0 readCalls) (busyDrive, InterruptHandling.exampleKernel)
      [⟨0, 0, 0⟩] ((next (0x80 : Byte)).run (onDevice Access.exec) (polled, k)) := by
    rw [hboot]
    refine .perform ?_
    rw [hround]
    exact .of_chain (.cons htick (.nil _))
  obtain ⟨hresult, -⟩ := hn (n + 1) (Nat.le_succ n) _ _ _ hrun
  have hanswers := session_readCalls
  have hmedia : diskBytes busyDrive.media = smallFileImage.bytes := diskBytes_mediaOf _
  rw [hmedia] at hresult
  cases hsession : session smallFileImage.bytes 0 readCalls
      (filesSystemInit smallFileImage.bytes Kernel.initial) with
  | error e =>
    rw [hsession] at hanswers
    cases hanswers
  | ok result =>
    rw [hsession] at hresult hanswers
    exact ⟨n + 1, _, result.1, result.2, hrun, hresult, Except.ok.inj hanswers⟩

end Examples

end RathalOS.DriveSessions
