import RathalOS.Allocation

/-!
The blocks of a file, listed. When the pointers of an inode are exactly a list of
data blocks and a list of tables, all of them different, and each table lists its
share of the data blocks, then every place of the file names its own block.
-/
namespace RathalOS.Placement

open ByteMemory Superblocks Inodes Images Allocation

/-- The pointers of an inode, and the entries of its tables, are these blocks. -/
structure Placed (sb : Superblock) (m : Memory) (inode : Inode) (data tables : List ℕ) :
    Prop where
  direct : ∀ k : Fin 4, (inode.directPtr k).toNat = data.getD k 0
  indirect : ∀ k : Fin 9, (inode.indirectPtr k).toNat = tables.getD k 0
  distinct : (data ++ tables).Nodup
  nonzero : ∀ b ∈ data ++ tables, b ≠ 0
  tables_le : tables.length ≤ 9
  room : data.length ≤ 4 + tables.length * (sb.blockSize / 2)
  listed : ∀ i < tables.length, ∀ j < sb.blockSize / 2,
    (read16 (blockData sb m (tables.getD i 0)) (2 * j)).toNat =
      data.getD (4 + i * (sb.blockSize / 2) + j) 0

variable {sb : Superblock} {m : Memory} {inode : Inode} {data tables : List ℕ}

theorem Placed.directAt (h : Placed sb m inode data tables) {k : ℕ} (hk : k < 4) :
    directAt inode k = data.getD k 0 := by
  rw [Images.directAt, dif_pos hk]
  exact h.direct ⟨k, hk⟩

theorem Placed.indirectAt (h : Placed sb m inode data tables) (k : ℕ) :
    indirectAt inode k = tables.getD k 0 := by
  unfold Images.indirectAt
  by_cases hk : k < 9
  · rw [dif_pos hk]
    exact h.indirect ⟨k, hk⟩
  · rw [dif_neg hk, List.getD_eq_default _ 0 (by have := h.tables_le; omega)]

theorem Placed.entryAt (h : Placed sb m inode data tables) {k j : ℕ}
    (hj : j < sb.blockSize / 2) :
    entryAt sb m inode k j =
      if k < tables.length then data.getD (4 + k * (sb.blockSize / 2) + j) 0 else 0 := by
  unfold Images.entryAt
  rw [h.indirectAt]
  by_cases hk : k < tables.length
  · have hne : tables.getD k 0 ≠ 0 := h.nonzero _ (List.mem_append_right _ (getD_mem hk))
    rw [if_pos ⟨hne, hj⟩, if_pos hk]
    exact h.listed k hk j hj
  · rw [if_neg (by rw [List.getD_eq_default _ 0 (by omega)]; simp), if_neg hk]

/-- The k-th block of the file is the k-th of its data blocks. -/
theorem Placed.fileBlock (h : Placed sb m inode data tables) (hbs : 512 ≤ sb.blockSize)
    {k : ℕ} (hk : k < data.length) :
    fileBlock sb m inode k = data.getD k 0 := by
  unfold Images.fileBlock
  by_cases h4 : k < 4
  · rw [if_pos h4, h.directAt h4]
  · have hmod : (k - 4) % (sb.blockSize / 2) < sb.blockSize / 2 := Nat.mod_lt _ (by omega)
    have hdiv := Nat.div_add_mod (k - 4) (sb.blockSize / 2)
    have htable : (k - 4) / (sb.blockSize / 2) < tables.length := by
      rw [Nat.div_lt_iff_lt_mul (by omega)]
      have := h.room
      omega
    rw [if_neg h4, h.entryAt hmod, if_pos htable]
    congr 1
    rw [Nat.mul_comm] at hdiv
    omega

/-- Every pointer of the file is one of its blocks, named at its own place. -/
theorem Placed.pointer_cases (h : Placed sb m inode data tables) {p : Place}
    (hp : pointer sb m inode p ≠ 0) :
    (∃ k < data.length, pointer sb m inode p = data.getD k 0 ∧ p = filePlace sb k) ∨
    (∃ k < tables.length, pointer sb m inode p = tables.getD k 0 ∧ p = .indirect k) := by
  have hlen : ∀ {l : List ℕ} {k : ℕ}, l.getD k 0 ≠ 0 → k < l.length := by
    intro l k hk
    by_contra hle
    exact hk (List.getD_eq_default _ 0 (by omega))
  cases p with
  | direct k =>
    have h4 := directAt_ne_zero_lt hp
    have hpointer : pointer sb m inode (.direct k) = data.getD k 0 := h.directAt h4
    rw [hpointer] at hp ⊢
    exact Or.inl ⟨k, hlen hp, rfl, by rw [filePlace, if_pos h4]⟩
  | indirect k =>
    have hpointer : pointer sb m inode (.indirect k) = tables.getD k 0 := h.indirectAt k
    rw [hpointer] at hp ⊢
    exact Or.inr ⟨k, hlen hp, rfl, rfl⟩
  | entry k j =>
    have hj : j < sb.blockSize / 2 := by
      by_contra hj
      exact hp (if_neg fun hand => hj hand.2)
    have hpointer := h.entryAt (k := k) hj
    change Images.entryAt sb m inode k j ≠ 0 at hp
    have hk : k < tables.length := by
      by_contra hk
      exact hp (by rw [hpointer, if_neg hk])
    rw [if_pos hk] at hpointer
    rw [hpointer] at hp
    exact Or.inl ⟨_, hlen hp, hpointer, (filePlace_entry hj).symm⟩

/-- The file owns exactly these blocks. -/
theorem Placed.owns_iff (h : Placed sb m inode data tables) (hbs : 512 ≤ sb.blockSize)
    (b : ℕ) : Owns sb m inode b ↔ b ∈ data ++ tables := by
  constructor
  · intro howned
    rcases howned with ⟨hb, p, rfl⟩
    obtain ⟨k, hk, hpk, -⟩ | ⟨k, hk, hpk, -⟩ := h.pointer_cases hb
    · rw [hpk]
      exact List.mem_append_left _ (getD_mem hk)
    · rw [hpk]
      exact List.mem_append_right _ (getD_mem hk)
  · intro hb
    refine ⟨h.nonzero b hb, ?_⟩
    rcases List.mem_append.mp hb with hmem | hmem
    · obtain ⟨k, hk, rfl⟩ := List.getElem_of_mem hmem
      refine ⟨filePlace sb k, ?_⟩
      rw [← fileBlock_eq_pointer, h.fileBlock hbs hk, List.getD_eq_getElem _ 0 hk]
    · obtain ⟨k, hk, rfl⟩ := List.getElem_of_mem hmem
      refine ⟨.indirect k, ?_⟩
      rw [pointer, h.indirectAt, List.getD_eq_getElem _ 0 hk]

/-- No block is named at two places of the file. -/
theorem Placed.pointer_inj (h : Placed sb m inode data tables) {p q : Place}
    (hp : pointer sb m inode p ≠ 0)
    (hpq : pointer sb m inode p = pointer sb m inode q) : p = q := by
  obtain ⟨hdata, htables, hapart⟩ := List.nodup_append.mp h.distinct
  have hq := hp
  rw [hpq] at hq
  obtain ⟨k, hk, hpk, rfl⟩ | ⟨k, hk, hpk, rfl⟩ := h.pointer_cases hp
  · obtain ⟨l, hl, hql, rfl⟩ | ⟨l, hl, hql, rfl⟩ := h.pointer_cases hq
    · rw [getD_inj hdata hk hl (hpk.symm.trans (hpq.trans hql))]
    · exact (hapart _ (getD_mem hk) _ (getD_mem hl) (hpk.symm.trans (hpq.trans hql))).elim
  · obtain ⟨l, hl, hql, rfl⟩ | ⟨l, hl, hql, rfl⟩ := h.pointer_cases hq
    · exact (hapart _ (getD_mem hl) _ (getD_mem hk) (hql.symm.trans (hpq.symm.trans hpk))).elim
    · rw [getD_inj htables hk hl (hpk.symm.trans (hpq.trans hql))]

end RathalOS.Placement
