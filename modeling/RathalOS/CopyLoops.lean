import RathalOS.Allocation

/-!
The loops of add_file over the direct pointers, over the entries of a table and
over the indirect pointers. They store in each pointer the low 16 bits of the
block taken for it. First fit takes the free blocks from the lowest on, so the
place of a block in the file tells how many free blocks lie before it.
-/
namespace RathalOS.CopyLoops

open ByteMemory ByteFile Blocks Bitmaps Superblocks Inodes FirstFit Images AddFile Reservations
open Allocation

/-- How many blocks are taken before the k-th data block of a file: the data blocks
before it, and the tables up to the one that lists it. -/
def dataRank (sb : Superblock) (k : ℕ) : ℕ :=
  if k < 4 then k else k + 1 + (k - 4) / (sb.blockSize / 2)

/-- How many blocks are taken before the i-th table. -/
def tableRank (sb : Superblock) (i : ℕ) : ℕ := 4 + i * (sb.blockSize / 2 + 1)

/-- Pointers of which the first ones have been overwritten with the low 16 bits of the
blocks of a list. -/
def overwritten {α : Type} (index : α → ℕ) (old : α → BitVec 16) (l : List ℕ) (k : α) :
    BitVec 16 :=
  if index k < l.length then BitVec.ofNat 16 (l.getD (index k) 0) else old k

/-- The reservations of a copy: one for each block taken, which is the lowest block
that was free then. -/
structure Logged (sb : Superblock) (held : ℕ → Bool) (log : Log) (data tables : List ℕ) :
    Prop where
  perm : log.Perm (data.mapIdx (fun k (b : ℕ) => ⟨filePlace sb k, b⟩) ++
    tables.mapIdx (fun i (b : ℕ) => ⟨.indirect i, b⟩))
  lowest : Lowest held (data ++ tables)
  data_rank : ∀ k < data.length, freeCount held (data.getD k 0) = dataRank sb k
  table_rank : ∀ i < tables.length, freeCount held (tables.getD i 0) = tableRank sb i

section Log

variable {sb : Superblock} {held held' : ℕ → Bool} {log : Log} {data tables : List ℕ} {n blk : ℕ}

theorem Logged.nil (sb : Superblock) (held : ℕ → Bool) : Logged sb held [] [] [] := by
  constructor
  case perm => exact List.Perm.refl _
  case lowest =>
    intro i hi
    simp at hi
  case data_rank =>
    intro k hk
    simp at hk
  case table_rank =>
    intro i hi
    simp at hi

theorem Logged.data_step (h : Logged sb held log data tables)
    (ht : Taken held held' n (data ++ tables)) (hfirst : firstFree held' n = some blk)
    (hrank : data.length + tables.length = dataRank sb data.length) :
    Logged sb held (log ++ [⟨filePlace sb data.length, blk⟩]) (data ++ [blk]) tables := by
  constructor
  case perm =>
    rw [List.mapIdx_concat]
    refine (h.perm.append_right _).trans ?_
    rw [List.append_assoc, List.append_assoc]
    exact List.perm_append_comm.append_left _
  case lowest =>
    apply ht.lowest_of_firstFree h.lowest hfirst
    intro i
    simp only [List.mem_append, List.mem_singleton]
    tauto
  case data_rank =>
    intro k hk
    rw [List.length_append, List.length_singleton] at hk
    rw [getD_concat]
    by_cases hlast : k = data.length
    · rw [if_pos hlast, ht.rank h.lowest hfirst, List.length_append, hrank, hlast]
    · rw [if_neg hlast]
      exact h.data_rank k (by omega)
  case table_rank => exact h.table_rank

theorem Logged.table_step (h : Logged sb held log data tables)
    (ht : Taken held held' n (data ++ tables)) (hfirst : firstFree held' n = some blk)
    (hrank : data.length + tables.length = tableRank sb tables.length) :
    Logged sb held (log ++ [⟨.indirect tables.length, blk⟩]) data (tables ++ [blk]) := by
  constructor
  case perm =>
    rw [List.mapIdx_concat, ← List.append_assoc]
    exact h.perm.append_right _
  case lowest =>
    apply ht.lowest_of_firstFree h.lowest hfirst
    intro i
    simp only [List.mem_append, List.mem_singleton]
    tauto
  case data_rank => exact h.data_rank
  case table_rank =>
    intro i hi
    rw [List.length_append, List.length_singleton] at hi
    rw [getD_concat]
    by_cases hlast : i = tables.length
    · rw [if_pos hlast, ht.rank h.lowest hfirst, List.length_append, hrank, hlast]
    · rw [if_neg hlast]
      exact h.table_rank i (by omega)

/-- The entries of the log: each block taken, with the place that names it. -/
theorem Logged.mem_iff (h : Logged sb held log data tables) (r : Reservation) :
    r ∈ log ↔ (∃ k < data.length, r = ⟨filePlace sb k, data.getD k 0⟩) ∨
      ∃ i < tables.length, r = ⟨.indirect i, tables.getD i 0⟩ := by
  rw [h.perm.mem_iff, List.mem_append, List.mem_mapIdx, List.mem_mapIdx]
  constructor
  · intro hr
    rcases hr with ⟨k, hk, rfl⟩ | ⟨i, hi, rfl⟩
    · exact Or.inl ⟨k, hk, by rw [List.getD_eq_getElem _ 0 hk]⟩
    · exact Or.inr ⟨i, hi, by rw [List.getD_eq_getElem _ 0 hi]⟩
  · intro hr
    rcases hr with ⟨k, hk, rfl⟩ | ⟨i, hi, rfl⟩
    · exact Or.inl ⟨k, hk, by rw [List.getD_eq_getElem _ 0 hk]⟩
    · exact Or.inr ⟨i, hi, by rw [List.getD_eq_getElem _ 0 hi]⟩

end Log

section Loops

variable {stale : Memory} {sb : Superblock} {held : ℕ → Bool} {fs₀ f₀ : File} {n : ℤ}
variable {data tables : List ℕ} {full : ℕ} {s : CopyState} {log : Log}

theorem drop_finRange {n k : ℕ} (hk : k < n) :
    (List.finRange n).drop k = ⟨k, hk⟩ :: (List.finRange n).drop (k + 1) := by
  rw [List.drop_eq_getElem_cons (by simpa using hk), List.getElem_finRange]
  rfl

theorem drop_finRange_self (n : ℕ) : (List.finRange n).drop n = [] :=
  List.drop_eq_nil_of_le (by simp)

section Pointers

variable {α : Type} {index : α → ℕ} {old : α → BitVec 16} {l : List ℕ}

@[simp] theorem overwritten_nil (index : α → ℕ) (old : α → BitVec 16) :
    overwritten index old [] = old := funext fun _ => if_neg (Nat.not_lt_zero _)

/-- Where all pointers were 0, the list is all there is. -/
theorem overwritten_zero (index : α → ℕ) (l : List ℕ) (k : α) :
    overwritten index (fun _ => 0) l k = BitVec.ofNat 16 (l.getD (index k) 0) := by
  unfold overwritten
  split
  · rfl
  · rw [List.getD_eq_default _ 0 (by omega)]
    rfl

/-- Storing the next block in the next pointer keeps its low 16 bits. -/
theorem update_overwritten [DecidableEq α] (hindex : Function.Injective index) {i : α} {blk : ℕ}
    (hi : index i = l.length) :
    Function.update (overwritten index old l) i (BitVec.ofInt 16 (blk : ℤ)) =
      overwritten index old (l ++ [blk]) := by
  funext k
  rw [overwritten, getD_concat, List.length_append, List.length_singleton]
  by_cases hk : k = i
  · rw [hk, Function.update_self, if_pos (by omega), if_pos hi, BitVec.ofInt_natCast]
  · have hne : index k ≠ l.length := fun heq => hk (hindex (heq.trans hi.symm))
    rw [Function.update_of_ne hk, if_neg hne, overwritten]
    exact if_congr (by omega) rfl rfl

/-- Further blocks do not change the pointers that are all overwritten. -/
theorem overwritten_extended {l' : List ℕ} (h : l <+: l') {k : α} (hk : index k < l.length) :
    overwritten index old l' k = overwritten index old l k := by
  have hle := h.length_le
  rw [overwritten, overwritten, if_pos hk, if_pos (by omega), getD_extended h hk]

end Pointers

/-- The direct pointers receive the first four blocks of the contents. -/
theorem directLoopLog_spec (hr : Regions sb) (hn : n < 2 ^ 31) (rest : List (Fin 4))
    (inode : Inode) (old : Fin 4 → BitVec 16)
    (h : Progress stale sb held fs₀ f₀ n data [] 0 s)
    (hlog : Logged sb held log data []) (hle : data.length ≤ 4)
    (hrest : rest = (List.finRange 4).drop data.length) :
    ∃ (s' : CopyState) (log' : Log) (data' : List ℕ),
      directLoopLog stale sb rest { inode with directPtr := overwritten Fin.val old data } s log =
        .ok ({ inode with directPtr := overwritten Fin.val old data' }, s', log') ∧
      Progress stale sb held fs₀ f₀ n data' [] 0 s' ∧ Logged sb held log' data' [] ∧
      data'.length ≤ 4 ∧ (s'.more → data'.length = 4) := by
  induction rest generalizing data s log with
  | nil =>
    refine ⟨s, log, data, rfl, h, hlog, hle, fun _ => ?_⟩
    by_contra hne
    rw [drop_finRange (show data.length < 4 by omega)] at hrest
    exact List.cons_ne_nil _ _ hrest.symm
  | cons i rest ih =>
    by_cases hmore : s.more
    · have hlt : data.length < 4 := by
        by_contra hge
        rw [show data.length = 4 by omega, drop_finRange_self] at hrest
        exact List.cons_ne_nil _ _ hrest
      rw [drop_finRange hlt] at hrest
      obtain ⟨hi, htail⟩ := List.cons.inj hrest
      have hival : (i : ℕ) = data.length := by rw [hi]
      obtain ⟨blk, s₁, halloc, hfirst, h₁⟩ := allocBlockAndCopy_step h hr hn hmore
        (Nat.le_refl _) (Or.inl rfl)
      have hlog₁ := hlog.data_step h.taken hfirst (by simp [dataRank, hlt])
      rw [filePlace, if_pos hlt, ← hival] at hlog₁
      obtain ⟨s', log', data', hloop, hrec⟩ := ih h₁ hlog₁ (by simp; omega) (by simpa using htail)
      refine ⟨s', log', data', ?_, hrec⟩
      rw [directLoopLog, if_pos hmore, halloc, ok_bind]
      simp only [update_overwritten Fin.val_injective hival]
      exact hloop
    · exact ⟨s, log, data, by rw [directLoopLog, if_neg hmore], h, hlog, hle,
        fun hm => absurd hm hmore⟩

/-- The entries of a table receive the next blocks of the contents. -/
theorem entryLoopLog_spec (hr : Regions sb) (hn : n < 2 ^ 31) (j r : ℕ)
    (h : Progress stale sb held fs₀ f₀ n data tables full s)
    (hlog : Logged sb held log data tables) (hfull : tables.length = full + 1)
    (hj : data.length = 4 + full * (sb.blockSize / 2) + j) (hjr : j + r = sb.blockSize / 2) :
    ∃ (s' : CopyState) (log' : Log) (data' : List ℕ),
      entryLoopLog stale sb full j r
          (overwritten (fun k => 4 + full * (sb.blockSize / 2) + k) (fun _ => 0) data) s log =
        .ok (overwritten (fun k => 4 + full * (sb.blockSize / 2) + k) (fun _ => 0) data',
          s', log') ∧
      Progress stale sb held fs₀ f₀ n data' tables full s' ∧ Logged sb held log' data' tables ∧
      data <+: data' ∧ data'.length ≤ data.length + r ∧
      (s'.more → data'.length = data.length + r) := by
  induction r generalizing data j s log with
  | zero =>
    exact ⟨s, log, data, rfl, h, hlog, List.prefix_refl _, Nat.le_refl _, fun _ => rfl⟩
  | succ r ih =>
    by_cases hmore : s.more
    · obtain ⟨blk, s₁, halloc, hfirst, h₁⟩ := allocBlockAndCopy_step h hr hn hmore
        (by omega) (Or.inr (by omega))
      have hlength : (data ++ [blk]).length = data.length + 1 := by simp
      have hplace : filePlace sb data.length = .entry full j := by
        rw [hj]
        exact filePlace_entry (by omega)
      have hrank : data.length + tables.length = dataRank sb data.length := by
        have hdiv : (data.length - 4) / (sb.blockSize / 2) = full := by
          rw [hj, Nat.mul_comm full, show 4 + sb.blockSize / 2 * full + j - 4 =
            sb.blockSize / 2 * full + j by omega, Nat.mul_add_div (by omega),
            Nat.div_eq_of_lt (by omega), Nat.add_zero]
        rw [dataRank, if_neg (by omega), hdiv]
        omega
      have hlog₁ := hlog.data_step h.taken hfirst hrank
      rw [hplace] at hlog₁
      obtain ⟨s', log', data', hloop, hprog, hlog', hpre, hbound, hend⟩ :=
        ih (j + 1) h₁ hlog₁ (by omega) (by omega)
      refine ⟨s', log', data', ?_, hprog, hlog', (List.prefix_append _ _).trans hpre, by omega,
        fun hm => by rw [hend hm]; omega⟩
      rw [entryLoopLog, if_pos hmore, halloc, ok_bind]
      simp only [update_overwritten (add_right_injective (4 + full * (sb.blockSize / 2))) hj.symm]
      exact hloop
    · exact ⟨s, log, data, by rw [entryLoopLog, if_neg hmore], h, hlog, List.prefix_refl _,
        by omega, fun hm => absurd hm hmore⟩

/-- The indirect pointers receive the tables, and the tables the remaining blocks. -/
theorem indirectLoopLog_spec (hr : Regions sb) (hn : n < 2 ^ 31) (rest : List (Fin 9))
    (inode : Inode) (old : Fin 9 → BitVec 16)
    (h : Progress stale sb held fs₀ f₀ n data tables tables.length s)
    (hlog : Logged sb held log data tables) (hle : tables.length ≤ 9)
    (hrest : rest = (List.finRange 9).drop tables.length)
    (hroom : data.length ≤ 4 + tables.length * (sb.blockSize / 2))
    (hmore : s.more → data.length = 4 + tables.length * (sb.blockSize / 2)) :
    ∃ (s' : CopyState) (log' : Log) (data' tables' : List ℕ),
      indirectLoopLog stale sb rest { inode with indirectPtr := overwritten Fin.val old tables }
          s log =
        .ok ({ inode with indirectPtr := overwritten Fin.val old tables' }, s', log') ∧
      Progress stale sb held fs₀ f₀ n data' tables' tables'.length s' ∧
      Logged sb held log' data' tables' ∧ tables'.length ≤ 9 ∧
      data'.length ≤ 4 + tables'.length * (sb.blockSize / 2) ∧
      (s'.more → data'.length = 4 + 9 * (sb.blockSize / 2)) ∧
      data <+: data' ∧ (data.length < 4 → data' = data) := by
  induction rest generalizing data tables s log with
  | nil =>
    refine ⟨s, log, data, tables, rfl, h, hlog, hle, hroom,
      fun hm => ?_, List.prefix_refl _, fun _ => rfl⟩
    have hnine : tables.length = 9 := by
      by_contra hne
      rw [drop_finRange (show tables.length < 9 by omega)] at hrest
      exact List.cons_ne_nil _ _ hrest.symm
    rw [hmore hm, hnine]
  | cons i rest ih =>
    by_cases hm : s.more
    · have hnext := hmore hm
      have hlt : tables.length < 9 := by
        by_contra hge
        rw [show tables.length = 9 by omega, drop_finRange_self] at hrest
        exact List.cons_ne_nil _ _ hrest
      rw [drop_finRange hlt] at hrest
      obtain ⟨hi, htail⟩ := List.cons.inj hrest
      have hival : (i : ℕ) = tables.length := by rw [hi]
      obtain ⟨blk, bitmap, hreserve, hfirst, h₁⟩ :=
        reserveTable_step h hr hm (Nat.le_refl _) hnext
      have hlength : (tables ++ [blk]).length = tables.length + 1 := by simp
      have hlog₁ := hlog.table_step h.taken hfirst (by
        rw [tableRank, hnext, Nat.mul_succ]
        omega)
      obtain ⟨s₂, log₂, data₂, hentries, h₂, hlog₂, hpre₂, hbound₂, hend₂⟩ :=
        entryLoopLog_spec hr hn 0 (sb.blockSize / 2) h₁ hlog₁ hlength (by omega) (by omega)
      have hblank : overwritten (fun k => 4 + tables.length * (sb.blockSize / 2) + k)
          (fun _ => 0) data = fun _ => 0 := by
        funext k
        exact if_neg (show ¬ 4 + tables.length * (sb.blockSize / 2) + k < data.length by omega)
      rw [← hival] at hentries hblank
      rw [hblank] at hentries
      obtain ⟨fs₃, hwrite, h₃⟩ := writeTable_step h₂ hr hlength (getD_concat_self _ _)
        fun j _ => overwritten_zero _ _ _
      rw [← hlength] at h₃
      rw [← hival] at hwrite
      have hsucc : (tables ++ [blk]).length * (sb.blockSize / 2) =
          tables.length * (sb.blockSize / 2) + sb.blockSize / 2 := by
        rw [hlength, Nat.succ_mul]
      obtain ⟨s', log', data', tables', hloop, hprog, hlog', hle', hroom', hend', hpre', -⟩ :=
        ih h₃ hlog₂ (by omega) (by rw [hlength]; exact htail) (by omega)
          (fun hm₃ => by rw [hend₂ hm₃]; omega)
      refine ⟨s', log', data', tables', ?_, hprog, hlog', hle', hroom', hend',
        hpre₂.trans hpre', fun hshort => by omega⟩
      rw [indirectLoopLog, if_pos hm]
      simp only [hreserve, ok_bind, hentries, hwrite,
        update_overwritten Fin.val_injective hival]
      exact hloop
    · exact ⟨s, log, data, tables, by rw [indirectLoopLog, if_neg hm], h, hlog,
        hle, hroom, fun hm' => absurd hm' hm, List.prefix_refl _, fun _ => rfl⟩

end Loops

end RathalOS.CopyLoops
