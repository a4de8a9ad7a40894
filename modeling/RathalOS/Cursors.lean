import RathalOS.KernelReads

/-!
Descriptors as cursors. A cursor over the contents of a file is moved by what
is read; file_read always starts at the first block, leaves the offset of the
descriptor as it was and returns the count it was asked for. Only reads of no
bytes are therefore those of a cursor, and the loop of cat never ends.
-/
namespace RathalOS.Cursors

open ByteMemory ByteFile CStrings Superblocks Inodes FileAccess Images
open EmptyImages AddedFiles KernelFiles Mounting KernelReads

/-- A call on a descriptor. -/
inductive FileCall
  | seek (offset : BitVec 32)
  | read (buf : Memory) (count : BitVec 32)

/-- The result of a call, what it left in the buffer, and the kernel after it. -/
def FileCall.exec (disk : Memory) (stale : ℕ) (fd : ℤ) (k : Kernel) :
    FileCall → Except Fault (ℤ × Memory × Kernel)
  | .seek offset => do
    let (ret, k') ← fileSeek k fd offset.toNat
    .ok (ret, fun _ => 0, k')
  | .read buf count => do
    let (ret, buf') ← fileRead k disk stale fd buf count.toNat
    .ok (ret, buf', k)

/-- What a call does to a cursor over contents of some size. -/
def FileCall.Moves (contents : Memory) (size cursor : ℕ) :
    FileCall → ℤ → Memory → ℕ → Prop
  | .seek offset, _, _, cursor' => cursor' = offset.toNat
  | .read _ count, ret, buf', cursor' =>
    let n := min count.toNat (size - cursor)
    ret = n ∧ (∀ t < n, buf' t = contents (cursor + t)) ∧ cursor' = cursor + n

/-- Every call of a sequence moves the descriptor as a cursor. -/
def ActsAsCursor (disk : Memory) (stale : ℕ) (fd : Fin FILE_DESCRIPTOR_TAB_SIZE)
    (contents : Memory) (size : ℕ) : Kernel → List FileCall → Prop
  | _, [] => True
  | k, call :: rest => ∃ ret buf' k', call.exec disk stale fd k = .ok (ret, buf', k') ∧
      call.Moves contents size (k.fileDescriptorTab fd).offset ret buf'
        (k'.fileDescriptorTab fd).offset ∧
      ActsAsCursor disk stale fd contents size k' rest

/-- The loop of cat with some rounds allowed: what it printed if it ended. puts
prints the buffer up to the zero that cat stored behind the bytes read. -/
def catLoop (k : Kernel) (disk : Memory) (stale : ℕ) (fd : ℤ) :
    ℕ → Memory → Except Fault (Option (List Byte))
  | 0, _ => .ok none
  | rounds + 1, buf => do
    let (n, buf) ← fileRead k disk stale fd buf 47
    if n < 0 then .error .undefined
    else do
      let buf := Function.update buf n.toNat 0
      let shown := cut (n.toNat + 1) buf
      if n = 0 then .ok (some shown)
      else do
        let rest ← catLoop k disk stale fd rounds buf
        .ok (rest.map fun more => shown ++ more)

/-- A descriptor is open on a slot of the inode table. -/
structure OpenAt (k : Kernel) (fd : Fin FILE_DESCRIPTOR_TAB_SIZE) (slot : ℕ) : Prop where
  status : (k.fileDescriptorTab fd).status = 1
  inode : (k.fileDescriptorTab fd).inode = some slot
  slot_lt : slot < k.inodeTable.slots

theorem openAt_setDescriptor {k : Kernel} (fd : Fin FILE_DESCRIPTOR_TAB_SIZE) {slot : ℕ}
    (hslot : slot < k.inodeTable.slots) :
    OpenAt (k.setDescriptor fd ⟨some slot, 1, 0⟩) fd slot where
  status := by rw [setDescriptor_self]
  inode := by rw [setDescriptor_self]
  slot_lt := hslot

/-- What file_open returned is open. -/
theorem openAt_of_fileOpen {k k' : Kernel} {filename : Memory} {fd : ℤ}
    (h : fileOpen k filename = .ok (fd, k')) (hfd : fd ≠ -1) :
    ∃ i slot, fd = (i : Fin FILE_DESCRIPTOR_TAB_SIZE) ∧ OpenAt k' i slot := by
  obtain ⟨i, slot, slotsRead, -, hfind, hi, rfl⟩ := fileOpen_eq h hfd
  exact ⟨i, slot, hi, openAt_setDescriptor i (findInode_some hfind).2.1⟩

theorem intOfUint_eq_zero_iff {n : ℕ} (h : n < 2 ^ 32) : intOfUint n = 0 ↔ n = 0 := by
  unfold intOfUint
  split <;> omega

section Calls

variable {k : Kernel} {fd : Fin FILE_DESCRIPTOR_TAB_SIZE} {slot : ℕ}

theorem OpenAt.seek (h : OpenAt k fd slot) (offset : ℕ) :
    ∃ k', fileSeek k fd offset = .ok (intOfUint offset, k') ∧ OpenAt k' fd slot ∧
      (k'.fileDescriptorTab fd).offset = offset := by
  refine ⟨k.setDescriptor fd { k.fileDescriptorTab fd with offset := offset }, ?_,
    ⟨?_, ?_, h.slot_lt⟩, ?_⟩
  · simp only [fileSeek, k.descriptor_val fd, ok_bind, if_pos h.status]
  · rw [setDescriptor_self]
    exact h.status
  · rw [setDescriptor_self]
    exact h.inode
  · rw [setDescriptor_self]

theorem OpenAt.status_ne (h : OpenAt k fd slot) : (k.fileDescriptorTab fd).status ≠ 0 := by
  rw [h.status]
  decide

theorem OpenAt.read (h : OpenAt k fd slot) (disk : Memory) (stale : ℕ) (buf : Memory)
    (count : ℕ) : ∃ buf', fileRead k disk stale fd buf count = .ok (intOfUint count, buf') := by
  obtain ⟨buf', hread, -⟩ := fileRead_spec h.status_ne h.inode h.slot_lt disk stale
    buf count
  exact ⟨buf', hread⟩

/-- A read moves the descriptor as a cursor only if it asks for nothing. -/
theorem OpenAt.read_moves_iff (h : OpenAt k fd slot) (disk : Memory) (stale : ℕ)
    (contents : Memory) (size : ℕ) (buf : Memory) (count : BitVec 32) {ret : ℤ} {buf' : Memory}
    {k' : Kernel} (hexec : (FileCall.read buf count).exec disk stale fd k = .ok (ret, buf', k')) :
    k' = k ∧ ((FileCall.read buf count).Moves contents size (k.fileDescriptorTab fd).offset ret
      buf' (k'.fileDescriptorTab fd).offset ↔ count = 0) := by
  obtain ⟨buf'', hread⟩ := h.read disk stale buf count.toNat
  simp only [FileCall.exec, hread, ok_bind] at hexec
  cases hexec
  refine ⟨rfl, ?_⟩
  have hzero : count = 0 ↔ count.toNat = 0 := by
    rw [← BitVec.toNat_inj]
    rfl
  simp only [FileCall.Moves]
  rw [hzero]
  constructor
  · intro hmoves
    rcases hmoves with ⟨hret, -, hcursor⟩
    rw [show min count.toNat (size - (k.fileDescriptorTab fd).offset) = 0 by omega] at hret
    exact (intOfUint_eq_zero_iff count.isLt).mp hret
  · intro hcount
    rw [hcount, Nat.zero_min]
    exact ⟨rfl, fun t ht => by omega, rfl⟩

/-- A sequence of calls moves the descriptor as a cursor exactly when none of its reads
asks for anything. -/
theorem OpenAt.actsAsCursor_iff (h : OpenAt k fd slot) (disk : Memory) (stale : ℕ)
    (contents : Memory) (size : ℕ) (calls : List FileCall) :
    ActsAsCursor disk stale fd contents size k calls ↔
      ∀ buf count, FileCall.read buf count ∈ calls → count = 0 := by
  induction calls generalizing k with
  | nil => exact iff_of_true trivial fun buf count hmem => by cases hmem
  | cons call rest ih =>
    cases call with
    | seek offset =>
      obtain ⟨k', hseek, hopen, hoffset⟩ := h.seek offset.toNat
      have hexec : (FileCall.seek offset).exec disk stale fd k =
          .ok (intOfUint offset.toNat, fun _ => 0, k') := by
        simp only [FileCall.exec, hseek, ok_bind]
      constructor
      · intro hacts buf count hmem
        rcases hacts with ⟨ret, buf', k'', hexec', -, hrest⟩
        rw [hexec] at hexec'
        cases hexec'
        rcases List.mem_cons.mp hmem with hread | hmem
        · cases hread
        · exact (ih hopen).mp hrest buf count hmem
      · intro hcounts
        exact ⟨_, _, k', hexec, hoffset,
          (ih hopen).mpr fun buf count hmem => hcounts buf count (List.mem_cons_of_mem _ hmem)⟩
    | read buf count =>
      constructor
      · intro hacts buf₁ count₁ hmem
        rcases hacts with ⟨ret, buf', k', hexec, hmoves, hrest⟩
        obtain ⟨rfl, hiff⟩ := h.read_moves_iff disk stale contents size buf count hexec
        rcases List.mem_cons.mp hmem with hread | hmem
        · cases hread
          exact hiff.mp hmoves
        · exact (ih h).mp hrest buf₁ count₁ hmem
      · intro hcounts
        obtain ⟨buf', hread⟩ := h.read disk stale buf count.toNat
        have hexec : (FileCall.read buf count).exec disk stale fd k =
            .ok (intOfUint count.toNat, buf', k) := by
          simp only [FileCall.exec, hread, ok_bind]
        obtain ⟨-, hiff⟩ := h.read_moves_iff disk stale contents size buf count hexec
        exact ⟨_, _, k, hexec, hiff.mpr (hcounts buf count List.mem_cons_self),
          (ih h).mpr fun buf₁ count₁ hmem => hcounts buf₁ count₁ (List.mem_cons_of_mem _ hmem)⟩

/-- Every round of cat reads 47 bytes. -/
theorem OpenAt.catLoop_none (h : OpenAt k fd slot) (disk : Memory) (stale rounds : ℕ)
    (buf : Memory) : catLoop k disk stale fd rounds buf = .ok none := by
  induction rounds generalizing buf with
  | zero => rfl
  | succ rounds ih =>
    obtain ⟨buf', hread⟩ := h.read disk stale buf 47
    have hcount : intOfUint 47 = 47 := rfl
    rw [hcount] at hread
    simp only [catLoop, hread, ok_bind]
    rw [if_neg (by decide), if_neg (by decide), ih]
    rfl

end Calls

/-- Descriptors behave as cursors in the calls that read nothing and in no others, and cat
prints no file in finitely many rounds. -/
theorem descriptor_cursor_iff {k : Kernel} {fd : Fin FILE_DESCRIPTOR_TAB_SIZE} {slot : ℕ}
    (h : OpenAt k fd slot) (disk : Memory) (stale : ℕ) :
    (∀ calls, ActsAsCursor disk stale fd
        (fileByte k.superblock disk (k.inodeTable.inode slot))
        (k.inodeTable.inode slot).size.toNat k calls ↔
      ∀ buf count, FileCall.read buf count ∈ calls → count = 0) ∧
    ∀ rounds buf, catLoop k disk stale fd rounds buf = .ok none :=
  ⟨h.actsAsCursor_iff disk stale _ _, h.catLoop_none disk stale⟩

/-- The large file, opened. -/
theorem descriptor_cursor_large : ∃ k, fileOpen (mounted largeImage.bytes closedTab)
      (nameOf 97) = .ok (0, k) ∧
    ActsAsCursor largeImage.bytes 0 0 (fileByte k.superblock largeImage.bytes
      (k.inodeTable.inode 1)) (k.inodeTable.inode 1).size.toNat k
      [.seek 7, .read (fun _ => 0) 0] := by
  obtain ⟨k, hopen⟩ := exists_of_map_fst (by decide +kernel :
    (fileOpen (mounted largeImage.bytes closedTab) (nameOf 97)).map Prod.fst = .ok 0)
  have hslot : (fileOpen (mounted largeImage.bytes closedTab) (nameOf 97)).map
      (fun r => (r.2.fileDescriptorTab 0).inode) = .ok (some 1) := by
    decide +kernel
  rw [hopen] at hslot
  obtain ⟨i, slot, hi, hat⟩ := openAt_of_fileOpen hopen (by decide)
  have hi0 : i = 0 := by exact_mod_cast hi.symm
  subst hi0
  have hslot1 : slot = 1 := by
    have hinode := hat.inode
    rw [show (k.fileDescriptorTab 0).inode = some 1 from Except.ok.inj hslot] at hinode
    exact (Option.some.inj hinode).symm
  subst hslot1
  refine ⟨k, hopen, ((descriptor_cursor_iff hat largeImage.bytes 0).1 _).mpr ?_⟩
  intro buf count hmem
  simp only [List.mem_cons, reduceCtorEq, FileCall.read.injEq, List.not_mem_nil, or_false,
    false_or] at hmem
  exact hmem.2

/-- Reading 47 bytes of the large file does not move the cursor, and cat never ends. -/
theorem descriptor_stuck : ∃ k, fileOpen (mounted largeImage.bytes closedTab)
      (nameOf 97) = .ok (0, k) ∧
    (∀ contents size, ¬ ActsAsCursor largeImage.bytes 0 0 contents size k
      [.read (fun _ => 0) 47]) ∧
    ∀ rounds buf, catLoop k largeImage.bytes 0 0 rounds buf = .ok none := by
  obtain ⟨k, hopen⟩ := exists_of_map_fst (by decide +kernel :
    (fileOpen (mounted largeImage.bytes closedTab) (nameOf 97)).map Prod.fst = .ok 0)
  obtain ⟨i, slot, hi, hat⟩ := openAt_of_fileOpen hopen (by decide)
  have hi0 : i = 0 := by exact_mod_cast hi.symm
  subst hi0
  refine ⟨k, hopen, fun contents size hacts => ?_, hat.catLoop_none largeImage.bytes 0⟩
  have hcount := (hat.actsAsCursor_iff largeImage.bytes 0 contents size _).mp hacts
    (fun _ => 0) 47 List.mem_cons_self
  exact absurd hcount (by decide)

end RathalOS.Cursors
