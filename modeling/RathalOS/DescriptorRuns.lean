import RathalOS.FileRemoval
import RathalOS.Histories
import RathalOS.Runs

/-!
The descriptor table over runs of file_open, file_close and file_seek, kernel/fs/fs.c.
The descriptors in use are those that file_open returned and nobody closed since;
file_open always takes the first of the others.
-/
namespace RathalOS.DescriptorRuns

open ByteMemory CStrings Inodes FileAccess KernelFiles FileRemoval Histories Runs

inductive DescriptorCall
  | fileOpen (filename : Memory)
  | fileClose (fd : Fin FILE_DESCRIPTOR_TAB_SIZE)
  | fileSeek (fd : Fin FILE_DESCRIPTOR_TAB_SIZE) (offset : BitVec 32)

/-- A kernel, with what file_open has returned, for which name, and what was closed. -/
structure Session where
  kernel : Kernel
  history : List (Event ℤ Memory)

def step (s : Session) : DescriptorCall → Except Fault Session
  | .fileOpen filename => do
    let (fd, k) ← fileOpen s.kernel filename
    .ok { kernel := k, history := s.history ++ [.put fd filename] }
  | .fileClose fd => do
    let k ← fileClose s.kernel fd
    .ok { kernel := k, history := s.history ++ [.erase fd] }
  | .fileSeek fd offset => do
    let (_, k) ← fileSeek s.kernel fd offset.toNat
    .ok { s with kernel := k }

/-- After fdescriptor_tab_init. -/
def started (k : Kernel) : Session where
  kernel := fdescriptorTabInit k
  history := []

/-- The slots of the table exist, and live names differ. -/
structure TableConsistent (itab : InodeTable) : Prop where
  inside : itab.inodeCount ≤ itab.slots
  names : ∀ i < itab.inodeCount, ∀ j < itab.inodeCount, (itab.inode i).number ≠ 0 →
    (itab.inode j).number ≠ 0 → (itab.inode i).shownName = (itab.inode j).shownName → i = j

/-- A slot holds the inode of the file with a name. -/
structure Holds (itab : InodeTable) (slot : ℕ) (filename : Memory) : Prop where
  slot_lt : slot < itab.inodeCount
  number : (itab.inode slot).number ≠ 0
  name : (itab.inode slot).shownName = cut 31 filename

/-- file_open has returned the descriptor, and it was not closed since. -/
def Session.IsOpen (s : Session) (fd : Fin FILE_DESCRIPTOR_TAB_SIZE) : Prop :=
  Kept ((fd : ℕ) : ℤ) s.history

/-- What file_open makes of a session: nothing, or the first descriptor that was not open
refers to the file. -/
structure Opens (s : Session) (filename : Memory) (ret : ℤ) (k' : Kernel) : Prop where
  refused_iff : ret = -1 ↔
    (∀ slot, ¬ Holds s.kernel.inodeTable slot filename) ∨ ∀ fd, s.IsOpen fd
  least : ret ≠ -1 → ∃ fd : Fin FILE_DESCRIPTOR_TAB_SIZE, ret = (fd : ℕ) ∧ ¬ s.IsOpen fd ∧
    (∀ i < fd, s.IsOpen i) ∧ ∀ slot, Holds s.kernel.inodeTable slot filename →
      k'.fileDescriptorTab fd = ⟨some slot, 1, 0⟩
  others : ∀ i : Fin FILE_DESCRIPTOR_TAB_SIZE, ret ≠ (i : ℕ) →
    k'.fileDescriptorTab i = s.kernel.fileDescriptorTab i

/-- What file_close makes of a session. -/
structure Closes (s : Session) (fd : Fin FILE_DESCRIPTOR_TAB_SIZE) (k' : Kernel) : Prop where
  closed : k'.fileDescriptorTab fd = { s.kernel.fileDescriptorTab fd with status := 0 }
  others : ∀ i, i ≠ fd → k'.fileDescriptorTab i = s.kernel.fileDescriptorTab i

/-- What file_seek makes of a session. -/
structure Seeks (s : Session) (fd : Fin FILE_DESCRIPTOR_TAB_SIZE) (offset : BitVec 32) (ret : ℤ)
    (k' : Kernel) : Prop where
  stored : s.IsOpen fd → ret = intOfUint offset.toNat ∧
    k'.fileDescriptorTab fd = { s.kernel.fileDescriptorTab fd with offset := offset.toNat }
  refused : ¬ s.IsOpen fd → ret = -1 ∧ k'.fileDescriptorTab fd = s.kernel.fileDescriptorTab fd
  others : ∀ i, i ≠ fd → k'.fileDescriptorTab i = s.kernel.fileDescriptorTab i

/-- The call returns, and does what it is for. -/
def Serves (s : Session) : DescriptorCall → Prop
  | .fileOpen filename => ∃ ret k', fileOpen s.kernel filename = .ok (ret, k') ∧
    Opens s filename ret k'
  | .fileClose fd => ∃ k', fileClose s.kernel fd = .ok k' ∧ Closes s fd k'
  | .fileSeek fd offset => ∃ ret k', fileSeek s.kernel fd offset.toNat = .ok (ret, k') ∧
    Seeks s fd offset ret k'

/-- The table of descriptors agrees with the history of a session. -/
structure Tracks (itab : InodeTable) (s : Session) : Prop where
  table : s.kernel.inodeTable = itab
  status_iff : ∀ fd, (s.kernel.fileDescriptorTab fd).status = 1 ↔ s.IsOpen fd
  closed : ∀ fd, ¬ s.IsOpen fd → (s.kernel.fileDescriptorTab fd).status = 0

section Opening

variable {k : Kernel} {filename : Memory}

theorem Holds.unique {itab : InodeTable} (h : TableConsistent itab) {i j : ℕ}
    (hi : Holds itab i filename) (hj : Holds itab j filename) : i = j :=
  h.names i hi.slot_lt j hj.slot_lt hi.number hj.number (hi.name.trans hj.name.symm)

theorem holds_of_lookup {itab : InodeTable} {slot : ℕ} (h : lookup filename itab = some slot) :
    Holds itab slot filename := by
  obtain ⟨hlt, hlive, hname, -⟩ := lookup_some h
  exact ⟨hlt, hlive, hname⟩

theorem lookup_none_iff {itab : InodeTable} :
    lookup filename itab = none ↔ ∀ slot, ¬ Holds itab slot filename := by
  rw [lookup_eq_none_iff]
  exact ⟨fun h slot hslot => h slot hslot.slot_lt hslot.number hslot.name,
    fun h i hi hlive hname => h i ⟨hi, hlive, hname⟩⟩

/-- The first index with a property. -/
theorem find_finRange_some {n : ℕ} {p : Fin n → Bool} {i : Fin n}
    (h : (List.finRange n).find? p = some i) : p i = true ∧ ∀ j < i, p j = false := by
  obtain ⟨hi, index, hindex, heq, hleast⟩ := List.find?_eq_some_iff_getElem.mp h
  refine ⟨hi, fun j hj => ?_⟩
  rw [List.getElem_finRange] at heq
  have hlt : (j : ℕ) < index := by
    rw [← heq] at hj
    exact hj
  have hnot := hleast j hlt
  rw [List.getElem_finRange] at hnot
  simpa using hnot

end Opening

section Calls

variable {itab : InodeTable} {s s' : Session}

theorem Tracks.open (h : Tracks itab s) (hitab : TableConsistent itab) (filename : Memory) :
    ∃ ret k', fileOpen s.kernel filename = .ok (ret, k') ∧ Opens s filename ret k' := by
  have htable := h.table
  obtain ⟨⟨slotsRead, hfind⟩, hexists, -⟩ :=
    lookups_eq (k := s.kernel) (by rw [htable]; exact hitab.inside) filename
  rw [fileOpen, hexists, ok_bind]
  cases hfound : lookup filename s.kernel.inodeTable with
  | none =>
    have hnone := lookup_none_iff.mp hfound
    exact ⟨-1, s.kernel, rfl, iff_of_true rfl (Or.inl hnone), fun hne => absurd rfl hne,
      fun _ _ => rfl⟩
  | some slot =>
    have hslot := holds_of_lookup hfound
    rw [hfound] at hfind
    rw [Option.isSome_some, if_pos rfl, openLoop_find hfind]
    cases hfree : (List.finRange FILE_DESCRIPTOR_TAB_SIZE).find?
        fun fd => decide ((s.kernel.fileDescriptorTab fd).status = 0) with
    | none =>
      have hall : ∀ fd, s.IsOpen fd := fun fd => by
        by_contra hclosed
        have hused := List.find?_eq_none.mp hfree fd (List.mem_finRange fd)
        exact hused (decide_eq_true (h.closed fd hclosed))
      exact ⟨-1, s.kernel, rfl, iff_of_true rfl (Or.inr hall), fun hne => absurd rfl hne,
        fun _ _ => rfl⟩
    | some fd =>
      obtain ⟨hzero, hleast⟩ := find_finRange_some hfree
      have hclosed : ¬ s.IsOpen fd := fun hopen => by
        have hone := (h.status_iff fd).mpr hopen
        rw [of_decide_eq_true hzero] at hone
        exact absurd hone (by decide)
      refine ⟨(fd : ℕ), _, rfl, ⟨?_, fun _ => ⟨fd, rfl, hclosed, ?_, ?_⟩, ?_⟩⟩
      · refine iff_of_false (by omega) fun hor => ?_
        rcases hor with hnone | hall
        · exact hnone slot hslot
        · exact hclosed (hall fd)
      · intro i hi
        by_contra hnot
        exact of_decide_eq_false (hleast i hi) (h.closed i hnot)
      · intro slot' hslot'
        rw [setDescriptor_self]
        rw [htable] at hslot hslot'
        rw [hslot.unique hitab hslot']
      · intro i hi
        exact setDescriptor_other _ _ fun heq => hi (by rw [heq])

theorem close (s : Session) (fd : Fin FILE_DESCRIPTOR_TAB_SIZE) :
    ∃ k', fileClose s.kernel fd = .ok k' ∧ Closes s fd k' := by
  refine ⟨s.kernel.setDescriptor fd { s.kernel.fileDescriptorTab fd with status := 0 }, ?_,
    setDescriptor_self _ _ _, fun i hi => setDescriptor_other _ _ hi⟩
  rw [fileClose, Kernel.descriptor_val, ok_bind]

theorem Tracks.seek (h : Tracks itab s) (fd : Fin FILE_DESCRIPTOR_TAB_SIZE)
    (offset : BitVec 32) : ∃ ret k', fileSeek s.kernel fd offset.toNat = .ok (ret, k') ∧
      Seeks s fd offset ret k' := by
  rw [fileSeek, Kernel.descriptor_val, ok_bind]
  by_cases hopen : s.IsOpen fd
  · rw [if_pos ((h.status_iff fd).mpr hopen)]
    exact ⟨_, _, rfl, fun _ => ⟨rfl, setDescriptor_self _ _ _⟩, fun hnot => absurd hopen hnot,
      fun i hi => setDescriptor_other _ _ hi⟩
  · rw [if_neg fun hone => hopen ((h.status_iff fd).mp hone)]
    exact ⟨_, _, rfl, fun hopen' => absurd hopen' hopen, fun _ => ⟨rfl, rfl⟩, fun _ _ => rfl⟩

theorem Tracks.serves (h : Tracks itab s) (hitab : TableConsistent itab) (call : DescriptorCall) :
    Serves s call := by
  cases call with
  | fileOpen filename => exact h.open hitab filename
  | fileClose fd => exact close s fd
  | fileSeek fd offset => exact h.seek fd offset

theorem isOpen_put (filename : Memory) {k' : Kernel} {ret : ℤ}
    {fd : Fin FILE_DESCRIPTOR_TAB_SIZE} :
    Session.IsOpen ⟨k', s.history ++ [.put ret filename]⟩ fd ↔ ret = (fd : ℕ) ∨ s.IsOpen fd := by
  rw [Session.IsOpen, kept_concat]
  by_cases hfd : ret = (fd : ℕ)
  · rw [if_pos (show (Event.put ret filename).key = ((fd : ℕ) : ℤ) from hfd)]
    exact iff_of_true (Option.some_ne_none _) (Or.inl hfd)
  · rw [if_neg (show (Event.put ret filename).key ≠ ((fd : ℕ) : ℤ) from hfd)]
    exact (or_iff_right hfd).symm

theorem isOpen_erase {k' : Kernel} {i fd : Fin FILE_DESCRIPTOR_TAB_SIZE} :
    Session.IsOpen ⟨k', s.history ++ [.erase ((i : ℕ) : ℤ)]⟩ fd ↔ fd ≠ i ∧ s.IsOpen fd := by
  rw [Session.IsOpen, kept_concat]
  by_cases hfd : fd = i
  · rw [if_pos (show (Event.erase ((i : ℕ) : ℤ)).key = ((fd : ℕ) : ℤ) by rw [hfd]; rfl)]
    exact iff_of_false (fun h => h rfl) fun h => h.1 hfd
  · have hne : ((i : ℕ) : ℤ) ≠ ((fd : ℕ) : ℤ) := fun heq => hfd (Fin.ext (by omega))
    rw [if_neg (show (Event.erase ((i : ℕ) : ℤ)).key ≠ ((fd : ℕ) : ℤ) from hne)]
    exact (and_iff_right hfd).symm

theorem Tracks.opened (h : Tracks itab s) {filename : Memory} {ret : ℤ} {k' : Kernel}
    (hok : fileOpen s.kernel filename = .ok (ret, k')) :
    Tracks itab ⟨k', s.history ++ [.put ret filename]⟩ := by
  by_cases hret : ret = -1
  · subst hret
    have hopen : ∀ fd, Session.IsOpen ⟨k', s.history ++ [.put (-1) filename]⟩ fd ↔
        s.IsOpen fd := fun fd => by
      rw [isOpen_put]
      exact or_iff_right (by omega)
    rw [fileOpen_refused hok] at hopen ⊢
    exact ⟨h.table, fun fd => (h.status_iff fd).trans (hopen fd).symm,
      fun fd hclosed => h.closed fd fun hkept => hclosed ((hopen fd).mpr hkept)⟩
  · obtain ⟨i, slot, slotsRead, -, -, rfl, rfl⟩ := fileOpen_eq hok hret
    refine ⟨h.table, fun fd => ?_, fun fd hclosed => ?_⟩
    · rw [isOpen_put]
      dsimp only
      by_cases hfd : fd = i
      · rw [hfd, setDescriptor_self]
        exact iff_of_true rfl (Or.inl rfl)
      · rw [setDescriptor_other _ _ hfd, h.status_iff]
        exact (or_iff_right fun heq => hfd (Fin.ext (by omega))).symm
    · rw [isOpen_put, not_or] at hclosed
      have hfd : fd ≠ i := fun heq => hclosed.1 (by rw [heq])
      dsimp only
      rw [setDescriptor_other _ _ hfd]
      exact h.closed fd hclosed.2

theorem Tracks.closed_step (h : Tracks itab s) {i : Fin FILE_DESCRIPTOR_TAB_SIZE} {k' : Kernel}
    (hok : fileClose s.kernel i = .ok k') :
    Tracks itab ⟨k', s.history ++ [.erase ((i : ℕ) : ℤ)]⟩ := by
  rw [fileClose, Kernel.descriptor_val, ok_bind] at hok
  cases hok
  refine ⟨h.table, fun fd => ?_, fun fd hclosed => ?_⟩
  · rw [isOpen_erase]
    dsimp only
    by_cases hfd : fd = i
    · rw [hfd, setDescriptor_self]
      exact iff_of_false (show (0 : Byte) ≠ 1 by decide) fun hboth => hboth.1 rfl
    · rw [setDescriptor_other _ _ hfd, h.status_iff]
      exact (and_iff_right hfd).symm
  · dsimp only
    by_cases hfd : fd = i
    · rw [hfd, setDescriptor_self]
    · rw [setDescriptor_other _ _ hfd]
      exact h.closed fd fun hopen => hclosed (isOpen_erase.mpr ⟨hfd, hopen⟩)

theorem Tracks.sought (h : Tracks itab s) {i : Fin FILE_DESCRIPTOR_TAB_SIZE} {offset : BitVec 32}
    {ret : ℤ} {k' : Kernel} (hok : fileSeek s.kernel i offset.toNat = .ok (ret, k')) :
    Tracks itab { s with kernel := k' } := by
  rw [fileSeek, Kernel.descriptor_val, ok_bind] at hok
  split at hok
  · cases hok
    have hstatus : ∀ fd, ((s.kernel.setDescriptor i
        { s.kernel.fileDescriptorTab i with offset := offset.toNat }).fileDescriptorTab fd).status =
          (s.kernel.fileDescriptorTab fd).status := fun fd => by
      by_cases hfd : fd = i
      · rw [hfd, setDescriptor_self]
      · rw [setDescriptor_other _ _ hfd]
    refine ⟨h.table, fun fd => ?_, fun fd hclosed => ?_⟩
    · dsimp only
      rw [hstatus]
      exact h.status_iff fd
    · dsimp only
      rw [hstatus]
      exact h.closed fd hclosed
  · cases hok
    exact h

/-- A call preserves the agreement. -/
theorem Tracks.step (h : Tracks itab s) {call : DescriptorCall} (hok : step s call = .ok s') :
    Tracks itab s' := by
  cases call with
  | fileOpen filename =>
    obtain ⟨⟨ret, k'⟩, hopen, hok⟩ := bind_eq_ok hok
    cases hok
    exact h.opened hopen
  | fileClose fd =>
    obtain ⟨k', hclose, hok⟩ := bind_eq_ok hok
    cases hok
    exact h.closed_step hclose
  | fileSeek fd offset =>
    obtain ⟨⟨ret, k'⟩, hseek, hok⟩ := bind_eq_ok hok
    cases hok
    exact h.sought hseek

theorem step_returns {call : DescriptorCall} (h : Serves s call) : ∃ s', step s call = .ok s' := by
  cases call with
  | fileOpen filename =>
    obtain ⟨ret, k', hopen, -⟩ := h
    exact ⟨_, by rw [DescriptorRuns.step, hopen, ok_bind]⟩
  | fileClose fd =>
    obtain ⟨k', hclose, -⟩ := h
    exact ⟨_, by rw [DescriptorRuns.step, hclose, ok_bind]⟩
  | fileSeek fd offset =>
    obtain ⟨ret, k', hseek, -⟩ := h
    exact ⟨_, by rw [DescriptorRuns.step, hseek, ok_bind]⟩

end Calls

theorem started_tracks (k : Kernel) : Tracks k.inodeTable (started k) := by
  have hclosed : ∀ fd, ¬ (started k).IsOpen fd := fun fd hopen => (kept_iff _ _).mp hopen rfl
  refine ⟨rfl, fun fd => ?_, fun fd _ => rfl⟩
  exact iff_of_false (show (0 : Byte) ≠ 1 by decide) (hclosed fd)

/-- In every run the descriptors with status 1 are those open by the history of the run, and
every call does what it is for. -/
theorem descriptors_of_run {k : Kernel} (h : TableConsistent k.inodeTable)
    (calls : List DescriptorCall) :
    Always step (fun s => s.kernel.inodeTable = k.inodeTable ∧
      ∀ fd, (s.kernel.fileDescriptorTab fd).status = 1 ↔ s.IsOpen fd) (started k) calls ∧
    Each step Serves (started k) calls := by
  constructor
  · refine always_of_invariant (fun s hs => ⟨hs.table, hs.status_iff⟩) (fun s call _ hs => ?_)
      (started_tracks k)
    obtain ⟨s', hok⟩ := step_returns (hs.serves h call)
    exact ⟨s', hok, hs.step hok⟩
  · exact each_of_invariant (fun s call hs => hs.serves h call)
      (fun s call s' hs hok => hs.step hok) (started_tracks k) calls

/-- The file of the large image is opened twice, sought in, and the first one closed twice. -/
theorem descriptors_of_run_large :
    TableConsistent largeKernel.inodeTable ∧
    Each step Serves (started largeKernel)
      [.fileOpen (AddedFiles.nameOf 97), .fileOpen (AddedFiles.nameOf 97), .fileSeek 1 5,
        .fileClose 0, .fileClose 0, .fileOpen (AddedFiles.nameOf 97)] := by
  have h : TableConsistent largeKernel.inodeTable :=
    ⟨largeKernel_consistent.inside, largeKernel_consistent.names⟩
  exact ⟨h, (descriptors_of_run h _).2⟩

end RathalOS.DescriptorRuns
