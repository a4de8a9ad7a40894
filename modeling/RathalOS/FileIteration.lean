import RathalOS.Mounting

/-!
Listing the files of the kernel. An iterator is a pointer into the inode table;
file_next moves it to the first live inode from the number of the present one
on. That number belongs to the present inode itself, so an iterator that has
reached a live inode stays there, and the loop over it only ends in an empty
table.
-/
namespace RathalOS.FileIteration

open ByteMemory Inodes Superblocks FirstFit KernelFiles Mounting AddedFiles

/-- The search starts at the index it is given, converted to 16 bits. The line
it prints is left out. -/
def inodeGetNext (itab : InodeTable) (currentIndex : ℕ) : Except Fault (Option ℕ) := do
  let i := currentIndex % 2 ^ 16
  let (found, _) ← findInode itab (fun inode => decide (inode.number ≠ 0)) i (itab.inodeCount - i)
  .ok found

/-- `file_iterator_t` holds a pointer to an inode, here the slot it refers to. -/
def fileIterator : ℕ := 0

def fileHasNext (itab : InodeTable) (it : ℕ) : Except Fault Bool := do
  let inode ← inodeGet itab it
  let next ← inodeGetNext itab inode.number.toNat
  .ok next.isSome

/-- The name stored and the iterator after the call. -/
def fileNext (itab : InodeTable) (filename : Memory) (it : ℕ) : Except Fault (Memory × ℕ) := do
  let inode ← inodeGet itab it
  let more ← fileHasNext itab it
  if more then do
    let next ← inodeGetNext itab inode.number.toNat
    match next with
    | none => .error .undefined
    | some slot => do
      let inode ← inodeGet itab slot
      .ok (store filename 0 INODE_FILENAME_LENGTH inode.namePtr, slot)
  else .ok (filename, it)

/-- The loop of list_files from an iterator, with some rounds allowed: the names it
produced if it ended. `stale` is what the name array holds. -/
def listFiles (itab : InodeTable) (stale : Memory) :
    ℕ → ℕ → Except Fault (Option (List (Fin 32 → Byte)))
  | rounds, it => do
    let more ← fileHasNext itab it
    if more then
      match rounds with
      | 0 => .ok none
      | rounds + 1 => do
        let (name, it) ← fileNext itab stale it
        let rest ← listFiles itab stale rounds it
        .ok (rest.map fun names => (fun i : Fin 32 => name i) :: names)
    else .ok (some [])

/-- The names of the live inodes in increasing order. -/
def liveNames (itab : InodeTable) : List (Fin 32 → Byte) :=
  ((List.range itab.inodeCount).filter fun i => decide ((itab.inode i).number ≠ 0)).map
    fun i => (itab.inode i).name

/-- Inode 0 is there and is free; every other inode is free or carries its index. -/
structure Numbered (itab : InodeTable) : Prop where
  slots_pos : 0 < itab.slots
  first_free : (itab.inode 0).number = 0
  number : ∀ i < itab.inodeCount, (itab.inode i).number = 0 ∨ (itab.inode i).number.toNat = i

section

variable {itab : InodeTable}

/-- From the number of a live inode on, that inode itself is found. -/
theorem inodeGetNext_self (h : Numbered itab) {i : ℕ} (hi : i < itab.inodeCount)
    (hslot : i < itab.slots) (hlive : (itab.inode i).number ≠ 0) :
    inodeGetNext itab (itab.inode i).number.toNat = .ok (some i) := by
  have hnumber := (h.number i hi).resolve_left hlive
  have hbound := (itab.inode i).number.isLt
  obtain ⟨slotsRead, hfind, -⟩ := findInode_found itab (fun inode => decide (inode.number ≠ 0))
    (Nat.le_refl i) (by omega : i < i + (itab.inodeCount - i)) hslot (by simpa using hlive)
    fun k hk hki => by omega
  rw [hnumber] at hbound ⊢
  simp only [inodeGetNext, Nat.mod_eq_of_lt hbound, hfind, ok_bind]

theorem fileHasNext_of_live (h : Numbered itab) {i : ℕ} (hi : i < itab.inodeCount)
    (hslot : i < itab.slots) (hlive : (itab.inode i).number ≠ 0) :
    fileHasNext itab i = .ok true := by
  have hget : inodeGet itab i = .ok (itab.inode i) := if_pos hslot
  simp only [fileHasNext, hget, ok_bind, inodeGetNext_self h hi hslot hlive, Option.isSome_some]

/-- The iterator does not leave a live inode. -/
theorem fileNext_of_live (h : Numbered itab) (filename : Memory) {i : ℕ}
    (hi : i < itab.inodeCount) (hslot : i < itab.slots) (hlive : (itab.inode i).number ≠ 0) :
    fileNext itab filename i =
      .ok (store filename 0 INODE_FILENAME_LENGTH (itab.inode i).namePtr, i) := by
  have hget : inodeGet itab i = .ok (itab.inode i) := if_pos hslot
  simp only [fileNext, hget, ok_bind, fileHasNext_of_live h hi hslot hlive, if_true,
    inodeGetNext_self h hi hslot hlive]

theorem listFiles_of_live (h : Numbered itab) (stale : Memory) (rounds : ℕ) {i : ℕ}
    (hi : i < itab.inodeCount) (hslot : i < itab.slots) (hlive : (itab.inode i).number ≠ 0) :
    listFiles itab stale rounds i = .ok none := by
  induction rounds with
  | zero =>
    rw [listFiles, fileHasNext_of_live h hi hslot hlive]
    rfl
  | succ rounds ih =>
    rw [listFiles, fileHasNext_of_live h hi hslot hlive]
    simp only [ok_bind, if_true, fileNext_of_live h stale hi hslot hlive, ih, Option.map_none]

/-- The three ends of the search from index 0 on: a live inode, the end of the table,
or the end of the slots there are. -/
theorem inodeGetNext_zero (itab : InodeTable) :
    (∃ i, i < itab.inodeCount ∧ i < itab.slots ∧ (itab.inode i).number ≠ 0 ∧
      inodeGetNext itab 0 = .ok (some i)) ∨
    (itab.inodeCount ≤ itab.slots ∧ (∀ i < itab.inodeCount, (itab.inode i).number = 0) ∧
      inodeGetNext itab 0 = .ok none) ∨
    (itab.slots < itab.inodeCount ∧ (∀ i < itab.slots, (itab.inode i).number = 0) ∧
      inodeGetNext itab 0 = .error .undefined) := by
  let live : Inode → Bool := fun inode => decide (inode.number ≠ 0)
  have hnext : inodeGetNext itab 0 = (do
      let (found, _) ← findInode itab live 0 itab.inodeCount
      .ok found) := rfl
  let held : ℕ → Bool := fun k => !live (itab.inode k)
  cases hfirst : firstFree held (min itab.inodeCount itab.slots) with
  | some i =>
    obtain ⟨hi, hfound, hleast⟩ := firstFree_some hfirst
    have hlive : live (itab.inode i) = true := by simpa [held] using hfound
    obtain ⟨slotsRead, hfind, -⟩ := findInode_found itab live (Nat.zero_le i)
      (by omega : i < 0 + itab.inodeCount) (by omega) hlive
      fun k _ hki => by simpa [held] using hleast k hki
    refine Or.inl ⟨i, by omega, by omega, by simpa [live] using hlive, ?_⟩
    rw [hnext, hfind]
    rfl
  | none =>
    have hnone : ∀ k < min itab.inodeCount itab.slots, live (itab.inode k) = false := by
      intro k hk
      simpa [held] using firstFree_none_iff.mp hfirst k hk
    by_cases hfits : itab.inodeCount ≤ itab.slots
    · obtain ⟨slotsRead, hfind, -⟩ := findInode_spec itab live 0 itab.inodeCount (by omega)
      have hend : firstFreeFrom held 0 itab.inodeCount = none := by
        rwa [Nat.min_eq_left hfits] at hfirst
      refine Or.inr (Or.inl ⟨hfits, fun k hk => by simpa [live] using hnone k (by omega), ?_⟩)
      rw [hnext, hfind, ok_bind]
      exact congrArg Except.ok hend
    · refine Or.inr (Or.inr ⟨by omega, fun k hk => by simpa [live] using hnone k (by omega), ?_⟩)
      rw [hnext, findInode_undefined (Nat.zero_le _) (by omega) fun k _ hk => hnone k (by omega),
        error_bind]

/-- What the loop over the files does, for every number of rounds. -/
theorem listFiles_cases (h : Numbered itab) (stale : Memory) :
    ((∃ i < itab.inodeCount, (itab.inode i).number ≠ 0) ∧
      ∀ rounds, listFiles itab stale rounds fileIterator = .ok none) ∨
    (itab.inodeCount ≤ itab.slots ∧ (∀ i < itab.inodeCount, (itab.inode i).number = 0) ∧
      ∀ rounds, listFiles itab stale rounds fileIterator = .ok (some [])) ∨
    (itab.slots < itab.inodeCount ∧
      ∀ rounds, listFiles itab stale rounds fileIterator = .error .undefined) := by
  have hget : inodeGet itab 0 = .ok (itab.inode 0) := if_pos h.slots_pos
  have hzero : (itab.inode 0).number.toNat = 0 := by
    rw [h.first_free]
    rfl
  rcases inodeGetNext_zero itab with ⟨i, hi, hslot, hlive, hnext⟩ | ⟨hfits, hfree, hnext⟩ |
    ⟨hover, -, hnext⟩
  · -- the first round reaches a live inode and every later one stays there
    have hmore : fileHasNext itab fileIterator = .ok true := by
      simp only [fileHasNext, fileIterator, hget, ok_bind, hzero, hnext, Option.isSome_some]
    have hgeti : inodeGet itab i = .ok (itab.inode i) := if_pos hslot
    refine Or.inl ⟨⟨i, hi, hlive⟩, fun rounds => ?_⟩
    cases rounds with
    | zero =>
      rw [listFiles, hmore]
      rfl
    | succ rounds =>
      have hmove : fileNext itab stale fileIterator =
          .ok (store stale 0 INODE_FILENAME_LENGTH (itab.inode i).namePtr, i) := by
        simp only [fileNext, hmore, ok_bind, if_true]
        simp only [fileIterator, hget, ok_bind, hzero, hnext, hgeti]
      rw [listFiles, hmore]
      simp only [ok_bind, if_true, hmove, listFiles_of_live h stale rounds hi hslot hlive,
        Option.map_none]
  · have hmore : fileHasNext itab fileIterator = .ok false := by
      simp only [fileHasNext, fileIterator, hget, ok_bind, hzero, hnext, Option.isSome_none]
    refine Or.inr (Or.inl ⟨hfits, hfree, fun rounds => ?_⟩)
    cases rounds <;> rw [listFiles, hmore] <;> rfl
  · have hmore : fileHasNext itab fileIterator = .error .undefined := by
      simp only [fileHasNext, fileIterator, hget, ok_bind, hzero, hnext, error_bind]
    refine Or.inr (Or.inr ⟨hover, fun rounds => ?_⟩)
    cases rounds <;> rw [listFiles, hmore] <;> rfl

theorem liveNames_eq_nil (hfree : ∀ i < itab.inodeCount, (itab.inode i).number = 0) :
    liveNames itab = [] := by
  unfold liveNames
  rw [List.map_eq_nil_iff, List.filter_eq_nil_iff]
  intro i hi
  simp [hfree i (List.mem_range.mp hi)]

end

/-- The loop over the files ends after one round for each live inode, with their names in
order, exactly when no inode is live, in a table whose slots all exist. -/
theorem listFiles_complete_iff {itab : InodeTable} (h : Numbered itab) (stale : Memory) :
    listFiles itab stale (liveNames itab).length fileIterator = .ok (some (liveNames itab)) ↔
      itab.inodeCount ≤ itab.slots ∧ ∀ i < itab.inodeCount, (itab.inode i).number = 0 := by
  constructor
  · intro hlist
    rcases listFiles_cases h stale with ⟨-, hendless⟩ | ⟨hfits, hfree, -⟩ | ⟨-, hfault⟩
    · rw [hendless] at hlist
      cases hlist
    · exact ⟨hfits, hfree⟩
    · rw [hfault] at hlist
      cases hlist
  · intro hfree
    rcases hfree with ⟨hfits, hfree⟩
    rw [liveNames_eq_nil hfree]
    rcases listFiles_cases h stale with ⟨⟨i, hi, hlive⟩, -⟩ | ⟨-, -, hend⟩ | ⟨hover, -⟩
    · exact absurd (hfree i hi) hlive
    · exact hend _
    · omega

/-- Two inodes, both free. -/
theorem listFiles_complete_free :
    listFiles (tableOf (fun _ => 0) 0 2) (fun _ => 0) 0 fileIterator = .ok (some []) := by
  have hfree : ∀ i < 2, ((tableOf (fun _ => 0) 0 2).inode i).number = 0 := by decide +kernel
  have h : Numbered (tableOf (fun _ => 0) 0 2) :=
    ⟨by decide, hfree 0 (by decide), fun i hi => Or.inl (hfree i hi)⟩
  have hcomplete := (listFiles_complete_iff h (fun _ => 0)).mpr ⟨by decide, hfree⟩
  rwa [liveNames_eq_nil hfree] at hcomplete

/-- The kernel that has mounted the image of one large file lists that file for ever. -/
theorem listFiles_large : Numbered (mounted largeImage.bytes closedTab).inodeTable ∧
    (liveNames (mounted largeImage.bytes closedTab).inodeTable).length = 1 ∧
    ∀ stale rounds, listFiles (mounted largeImage.bytes closedTab).inodeTable stale rounds
      fileIterator = .ok none := by
  have hcount : (mounted largeImage.bytes closedTab).inodeTable.inodeCount = 8 := by
    decide +kernel
  have hlive : ((mounted largeImage.bytes closedTab).inodeTable.inode 1).number ≠ 0 := by
    decide +kernel
  have h : Numbered (mounted largeImage.bytes closedTab).inodeTable := by
    refine ⟨by decide, by decide +kernel, ?_⟩
    rw [hcount]
    decide +kernel
  refine ⟨h, by decide +kernel, fun stale rounds => ?_⟩
  rcases listFiles_cases h stale with ⟨-, hendless⟩ | ⟨-, hfree, -⟩ | ⟨hover, -⟩
  · exact hendless rounds
  · exact absurd (hfree 1 (by rw [hcount]; decide)) hlive
  · rw [hcount] at hover
    exact absurd hover (by decide)

end RathalOS.FileIteration
