import RathalOS.FileRemoval
import RathalOS.Runs

/-!
Descriptors over runs of file_open, file_close and file_remove. An open descriptor points
to the inode of the file it was opened with. file_remove does not look at the
descriptors: removing an open file leaves one that points to a free inode, and
removing files that are not open leaves none.
-/
namespace RathalOS.OpenFiles

open ByteMemory Bitmaps CStrings Inodes FileAccess KernelFiles FileRemoval Runs

inductive FileCall
  | fileOpen (filename : Memory)
  | fileClose (fd : ℤ)
  | fileRemove (filename : Memory)

/-- A kernel, and the name that each descriptor was opened with last. -/
structure Session where
  kernel : Kernel
  names : Fin FILE_DESCRIPTOR_TAB_SIZE → Memory

/-- The names after a call of file_open. -/
def Session.opened (s : Session) (fd : ℤ) (filename : Memory) :
    Fin FILE_DESCRIPTOR_TAB_SIZE → Memory :=
  fun i => if fd = (i : ℕ) then filename else s.names i

@[simp] theorem Session.opened_self (s : Session) (i : Fin FILE_DESCRIPTOR_TAB_SIZE)
    (filename : Memory) : s.opened (i : ℕ) filename i = filename := if_pos rfl

theorem Session.opened_other (s : Session) {fd : ℤ} (filename : Memory)
    {i : Fin FILE_DESCRIPTOR_TAB_SIZE} (h : fd ≠ (i : ℕ)) : s.opened fd filename i = s.names i :=
  if_neg h

def step (s : Session) : FileCall → Except Fault Session
  | .fileOpen filename => do
    let (fd, k) ← fileOpen s.kernel filename
    .ok { kernel := k, names := s.opened fd filename }
  | .fileClose fd => do
    let k ← fileClose s.kernel fd
    .ok { s with kernel := k }
  | .fileRemove filename => do
    let (_, k) ← fileRemove s.kernel filename
    .ok { s with kernel := k }

/-- The slot holds an inode in use, with its bit in the bitmap. -/
structure Allocated (k : Kernel) (slot : ℕ) : Prop where
  slot_lt : slot < k.inodeTable.slots
  number : (k.inodeTable.inode slot).number ≠ 0
  bit : (inodeBitmap k).test (k.inodeTable.inode slot).number.toNat = true

/-- Every open descriptor refers to an allocated inode that carries the name it was
opened with. -/
def NoDangling (s : Session) : Prop :=
  ∀ fd, (s.kernel.fileDescriptorTab fd).status = 1 → ∃ slot,
    (s.kernel.fileDescriptorTab fd).inode = some slot ∧ Allocated s.kernel slot ∧
    (s.kernel.inodeTable.inode slot).shownName = cut 31 (s.names fd)

/-- The call does not remove a file that is open. -/
def SparesOpen (s : Session) : FileCall → Prop
  | .fileRemove filename => ∀ i slotsRead,
    inodeGetFromFilename s.kernel.inodeTable filename = .ok (some i, slotsRead) →
    ∀ fd, (s.kernel.fileDescriptorTab fd).status = 1 →
      (s.kernel.fileDescriptorTab fd).inode ≠ some i
  | _ => True

/-- Every inode in use holds the number of its slot and has its bit in the bitmap. -/
def Numbered (k : Kernel) : Prop :=
  ∀ i < k.inodeTable.slots, i < k.inodeTable.inodeCount → (k.inodeTable.inode i).number ≠ 0 →
    (k.inodeTable.inode i).number.toNat = i ∧ (inodeBitmap k).test i = true

/-- What the calls preserve. -/
structure Sound (s : Session) : Prop where
  numbered : Numbered s.kernel
  noDangling : NoDangling s
  inside : ∀ fd slot, (s.kernel.fileDescriptorTab fd).status = 1 →
    (s.kernel.fileDescriptorTab fd).inode = some slot → slot < s.kernel.inodeTable.inodeCount

section Steps

variable {s s' : Session}

/-- The inode a lookup finds is allocated. -/
theorem Numbered.allocated {k : Kernel} (hk : Numbered k) {filename : Memory} {slot : ℕ}
    {slotsRead : List ℕ}
    (hfind : inodeGetFromFilename k.inodeTable filename = .ok (some slot, slotsRead)) :
    slot < k.inodeTable.inodeCount ∧ (k.inodeTable.inode slot).number.toNat = slot ∧
      Allocated k slot ∧ (k.inodeTable.inode slot).shownName = cut 31 filename := by
  obtain ⟨hlt, hslots, hmatch⟩ := findInode_some hfind
  obtain ⟨hlive, hname⟩ := (matchesName_iff _ _).mp hmatch
  obtain ⟨hnumber, hbit⟩ := hk slot hslots (by omega) hlive
  refine ⟨by omega, hnumber, ⟨hslots, hlive, ?_⟩, hname⟩
  rw [hnumber, hbit]

/-- Opening a file points a free descriptor to an inode in use. -/
theorem Sound.fileOpen (hs : Sound s) {filename : Memory}
    (h : step s (.fileOpen filename) = .ok s') : Sound s' := by
  obtain ⟨⟨fd, k'⟩, hopen, h⟩ := bind_eq_ok h
  cases h
  by_cases hfd : fd = -1
  · subst hfd
    have hnames : s.opened (-1) filename = s.names := by
      funext i
      exact s.opened_other filename (by omega)
    rw [fileOpen_refused hopen, hnames]
    exact hs
  · obtain ⟨i, slot, slotsRead, hfree, hfind, rfl, rfl⟩ := fileOpen_eq hopen hfd
    obtain ⟨hcount, -, halloc, hname⟩ := hs.numbered.allocated hfind
    constructor
    case numbered => exact hs.numbered
    case noDangling =>
      intro fd hstatus
      by_cases hi : fd = i
      · refine ⟨slot, ?_, ⟨halloc.slot_lt, halloc.number, halloc.bit⟩, ?_⟩
        · rw [hi, setDescriptor_self]
        · dsimp only
          rw [hi, Session.opened_self]
          exact hname
      · rw [setDescriptor_other _ _ hi] at hstatus ⊢
        obtain ⟨slot', hinode, halloc', hname'⟩ := hs.noDangling fd hstatus
        refine ⟨slot', hinode, ⟨halloc'.slot_lt, halloc'.number, halloc'.bit⟩, ?_⟩
        have hne : ((i : ℕ) : ℤ) ≠ (fd : ℕ) := fun heq => hi (Fin.ext (by omega))
        dsimp only
        rw [s.opened_other filename hne]
        exact hname'
    case inside =>
      intro fd slot' hstatus hinode
      by_cases hi : fd = i
      · rw [hi, setDescriptor_self] at hinode
        cases hinode
        exact hcount
      · rw [setDescriptor_other _ _ hi] at hstatus hinode
        exact hs.inside fd slot' hstatus hinode

/-- Closing a descriptor leaves the others as they are. -/
theorem Sound.fileClose (hs : Sound s) {fd : ℤ} (h : step s (.fileClose fd) = .ok s') :
    Sound s' := by
  obtain ⟨k', hclose, h⟩ := bind_eq_ok h
  cases h
  obtain ⟨i, -, hclose⟩ := bind_eq_ok hclose
  cases hclose
  have hother : ∀ fd, ((s.kernel.setDescriptor i
      { s.kernel.fileDescriptorTab i with status := 0 }).fileDescriptorTab fd).status = 1 →
      fd ≠ i := by
    rintro fd hstatus rfl
    rw [setDescriptor_self] at hstatus
    have hzero : (0 : Byte) = 1 := hstatus
    exact absurd hzero (by decide)
  constructor
  case numbered => exact hs.numbered
  case noDangling =>
    intro fd hstatus
    have hi := hother fd hstatus
    rw [setDescriptor_other _ _ hi] at hstatus ⊢
    obtain ⟨slot, hinode, halloc, hname⟩ := hs.noDangling fd hstatus
    exact ⟨slot, hinode, ⟨halloc.slot_lt, halloc.number, halloc.bit⟩, hname⟩
  case inside =>
    intro fd slot hstatus hinode
    have hi := hother fd hstatus
    rw [setDescriptor_other _ _ hi] at hstatus hinode
    exact hs.inside fd slot hstatus hinode

/-- A removal that no open descriptor refers to. -/
theorem Sound.removed (hs : Sound s) {i : ℕ} {k' : Kernel} (h : Removed s.kernel i k')
    (hspares : ∀ fd, (s.kernel.fileDescriptorTab fd).status = 1 →
      (s.kernel.fileDescriptorTab fd).inode ≠ some i) :
    Sound { s with kernel := k' } := by
  have hslots : s.kernel.inodeTable.slots = 124 := rfl
  have hbits : bitCount = 12288 := rfl
  have hcount := h.inodeCount
  -- the bits of the inodes in the table lie before the table
  have hkept : ∀ j, j ≠ i → j < 124 → (inodeBitmap k').test j = (inodeBitmap s.kernel).test j := by
    intro j hj hlt
    rw [h.bit j (by omega), Function.update_of_ne hj]
  constructor
  case numbered =>
    intro j hj hjcount hlive
    have hlt : j < s.kernel.inodeTable.slots := hj
    obtain ⟨hji, hlive⟩ := (h.live_iff j).mp hlive
    dsimp only at hjcount ⊢
    rw [h.inode j hji, hkept j hji (by omega)]
    exact hs.numbered j hlt (by omega) hlive
  case noDangling =>
    intro fd hstatus
    dsimp only at hstatus ⊢
    rw [h.descriptors] at hstatus ⊢
    obtain ⟨slot, hinode, halloc, hname⟩ := hs.noDangling fd hstatus
    have hslot : slot ≠ i := by
      rintro rfl
      exact hspares fd hstatus hinode
    have hlt := halloc.slot_lt
    obtain ⟨hnumber, -⟩ := hs.numbered slot halloc.slot_lt (hs.inside fd slot hstatus hinode)
      halloc.number
    refine ⟨slot, hinode, ⟨hlt, ?_, ?_⟩, ?_⟩
    · rw [h.inode slot hslot]
      exact halloc.number
    · rw [h.inode slot hslot, hnumber, hkept slot hslot (by omega), ← halloc.bit, hnumber]
    · rw [h.inode slot hslot]
      exact hname
  case inside =>
    intro fd slot hstatus hinode
    dsimp only at hstatus hinode ⊢
    rw [h.descriptors] at hstatus hinode
    rw [hcount]
    exact hs.inside fd slot hstatus hinode

/-- Removing a file that is not open. -/
theorem Sound.fileRemove (hs : Sound s) {filename : Memory}
    (hspares : SparesOpen s (.fileRemove filename))
    (h : step s (.fileRemove filename) = .ok s') : Sound s' := by
  obtain ⟨⟨ret, k'⟩, hremove, h⟩ := bind_eq_ok h
  cases h
  have hfound := hremove
  obtain ⟨found, hexists, hfound⟩ := bind_eq_ok hfound
  obtain ⟨⟨slot, slotsRead⟩, hfind, -⟩ := bind_eq_ok hexists
  cases slot with
  | none =>
    rw [fileRemove_none hfind] at hremove
    cases hremove
    exact hs
  | some i =>
    obtain ⟨-, hnumber, -, -⟩ := hs.numbered.allocated hfind
    obtain ⟨k'', hremove', hremoved⟩ := fileRemove_found hfind hnumber
    rw [hremove'] at hremove
    cases hremove
    exact hs.removed hremoved (hspares i slotsRead hfind)

/-- Removing an open file leaves its descriptor dangling. -/
theorem Sound.dangles (hs : Sound s) {filename : Memory}
    (hopen : ¬ SparesOpen s (.fileRemove filename)) :
    ∃ s', step s (.fileRemove filename) = .ok s' ∧ ¬ NoDangling s' := by
  simp only [SparesOpen, not_forall, not_not] at hopen
  obtain ⟨i, slotsRead, hfind, fd, hstatus, hinode⟩ := hopen
  obtain ⟨-, hnumber, -, -⟩ := hs.numbered.allocated hfind
  obtain ⟨k', hremove, hremoved⟩ := fileRemove_found hfind hnumber
  refine ⟨{ s with kernel := k' }, ?_, fun hno => ?_⟩
  · rw [step, hremove]
    rfl
  · have hdesc := congrFun hremoved.descriptors fd
    obtain ⟨slot, hinode', halloc, -⟩ := hno fd (by rw [hdesc]; exact hstatus)
    rw [hdesc, hinode] at hinode'
    cases hinode'
    exact halloc.number (by rw [hremoved.cleared]; rfl)

/-- A file that has just been opened is not spared by its removal. -/
theorem open_not_spared {k k' : Kernel} {filename : Memory} {fd : ℤ}
    (h : fileOpen k filename = .ok (fd, k')) (hfd : fd ≠ -1)
    {names : Fin FILE_DESCRIPTOR_TAB_SIZE → Memory} :
    ¬ SparesOpen { kernel := k', names := names } (.fileRemove filename) := by
  obtain ⟨i, slot, slotsRead, -, hfind, -, rfl⟩ := fileOpen_eq h hfd
  intro hspares
  refine hspares slot slotsRead hfind i ?_ ?_
  · dsimp only
    rw [setDescriptor_self]
  · dsimp only
    rw [setDescriptor_self]

end Steps

/-- The kernel after files_system_init, with no file open. -/
def started (disk : Memory) (k : Kernel) (names : Fin FILE_DESCRIPTOR_TAB_SIZE → Memory) :
    Session where
  kernel := filesSystemInit disk k
  names := names

theorem started_sound {disk : Memory} {k : Kernel} (h : Numbered (filesSystemInit disk k))
    (names : Fin FILE_DESCRIPTOR_TAB_SIZE → Memory) : Sound (started disk k names) := by
  have hclosed : ∀ fd, ((started disk k names).kernel.fileDescriptorTab fd).status ≠ 1 :=
    fun fd => by
      change (0 : Byte) ≠ 1
      decide
  exact ⟨h, fun fd hstatus => absurd hstatus (hclosed fd),
    fun fd _ hstatus => absurd hstatus (hclosed fd)⟩

/-- No descriptor dangles in any state of a run exactly when the run never removes a file
that is open. -/
theorem noDangling_iff {disk : Memory} {k : Kernel} (h : Numbered (filesSystemInit disk k))
    (names : Fin FILE_DESCRIPTOR_TAB_SIZE → Memory) (calls : List FileCall) :
    Throughout step NoDangling (started disk k names) calls ↔
      Each step SparesOpen (started disk k names) calls := by
  apply throughout_iff_each (fun s hs => hs.noDangling) ?_ ?_ (started_sound h names)
  · intro s call s' hs hspares hok
    cases call with
    | fileOpen filename => exact hs.fileOpen hok
    | fileClose fd => exact hs.fileClose hok
    | fileRemove filename => exact hs.fileRemove hspares hok
  · intro s call hs hnot
    cases call with
    | fileOpen filename => exact absurd trivial hnot
    | fileClose fd => exact absurd trivial hnot
    | fileRemove filename => exact hs.dangles hnot

section Images

open ByteFile Images AddedFiles Mounting

/-- The tables of every consistent image whose blocks are sectors are numbered. -/
theorem numbered_of_image {sb : Superblocks.Superblock} {fs : File} {disk : Memory}
    (hc : Consistent sb fs) (hdisk : DiskHolds disk fs) (hbs : sb.blockSize = 512) :
    Numbered (filesSystemInit disk Kernel.initial) := by
  have hsector : SECTOR_SIZE = 512 := rfl
  have hview := mounted_view hc hdisk closedTab
  have hcount : (filesSystemInit disk Kernel.initial).inodeTable.inodeCount = sb.inodeCount :=
    hview.inodeCount
  intro i _ hi hlive
  by_cases hi8 : i < 8
  · have hinode : (filesSystemInit disk Kernel.initial).inodeTable.inode i =
        inodeAt sb fs.bytes i := hview.inode_eq hc hdisk hbs (by omega) hi8
    rw [hinode] at hlive ⊢
    have hnumber := (hc.number i (by omega)).resolve_left hlive
    refine ⟨hnumber, ?_⟩
    rw [show filesSystemInit disk Kernel.initial = mounted disk closedTab from rfl,
      mounted_bit hc hdisk hbs closedTab (by omega) (by omega)]
    exact (hc.inodeBit_iff i (by omega)).mpr (Or.inr hnumber)
  · have hzero : (filesSystemInit disk Kernel.initial).inodeTable.inode i = Inode.zero :=
      hview.inode_zero (by omega)
    rw [hzero] at hlive
    exact absurd rfl hlive

/-- A session on the large image. -/
def largeSession : Session := started largeImage.bytes Kernel.initial fun _ => nameOf 97

theorem largeImage_numbered : Numbered (filesSystemInit largeImage.bytes Kernel.initial) :=
  numbered_of_image largeImage_wellFormed.toConsistent (fun _ _ => rfl) rfl

/-- Opening, closing and removing the file of the large image. -/
theorem noDangling_iff_closed : Throughout step NoDangling largeSession
    [.fileOpen (nameOf 97), .fileClose 0, .fileRemove (nameOf 97)] := by
  refine (noDangling_iff largeImage_numbered _ _).mpr
    ⟨trivial, fun s hs => ⟨trivial, fun s' hs' => ⟨?_, fun _ _ => trivial⟩⟩⟩
  have hclosed : (step largeSession (.fileOpen (nameOf 97)) >>=
      fun s => step s (.fileClose 0)).map (fun s => (List.finRange FILE_DESCRIPTOR_TAB_SIZE).all
        fun fd => decide ((s.kernel.fileDescriptorTab fd).status = 0)) = .ok true := by
    decide +kernel
  have hopen : step largeSession (.fileOpen (nameOf 97)) = .ok s := hs
  rw [bind_of_ok hopen, hs'] at hclosed
  have hall := List.all_eq_true.mp (Except.ok.inj hclosed)
  intro i slotsRead _ fd hstatus
  have hzero := of_decide_eq_true (hall fd (List.mem_finRange fd))
  rw [hzero] at hstatus
  exact absurd hstatus (by decide)

/-- Removing the file of the large image while it is open. -/
theorem noDangling_removed : ¬ Throughout step NoDangling largeSession
    [.fileOpen (nameOf 97), .fileRemove (nameOf 97)] := by
  obtain ⟨k, hopen⟩ := exists_of_map_fst (by decide +kernel :
    (fileOpen largeSession.kernel (nameOf 97)).map Prod.fst = .ok 0)
  have hs : Sound largeSession := started_sound largeImage_numbered _
  have hstep : step largeSession (.fileOpen (nameOf 97)) =
      .ok { kernel := k, names := largeSession.opened 0 (nameOf 97) } := by
    rw [step, hopen, ok_bind]
  obtain ⟨s', hremove, hdangling⟩ := (hs.fileOpen hstep).dangles (open_not_spared hopen (by decide))
  intro h
  exact hdangling ((h.2 _ hstep).2 s' hremove).start

end Images

end RathalOS.OpenFiles
