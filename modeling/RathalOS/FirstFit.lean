import RathalOS.ByteMemory

/-!
First-fit allocation from a finite range of indices. An index is held or free;
a reservation takes the least free index below the bound, and the number of
free indices falls by one with it. Nothing here depends on a particular program.
-/
namespace RathalOS.FirstFit

variable (held : ℕ → Bool)

/-- The least free index of the n indices from i on. -/
def firstFreeFrom : ℕ → ℕ → Option ℕ
  | _, 0 => none
  | i, n + 1 => if held i then firstFreeFrom (i + 1) n else some i

def firstFree (n : ℕ) : Option ℕ := firstFreeFrom held 0 n

/-- How many of the indices below n are free. -/
def freeCount (n : ℕ) : ℕ := Nat.count (fun i => held i = false) n

/-- How many of the indices below n are held. -/
def heldCount (n : ℕ) : ℕ := Nat.count (fun i => held i = true) n

def reserve (i : ℕ) : ℕ → Bool := Function.update held i true

def release (i : ℕ) : ℕ → Bool := Function.update held i false

variable {held}

theorem firstFreeFrom_some {i n j : ℕ} (h : firstFreeFrom held i n = some j) :
    i ≤ j ∧ j < i + n ∧ held j = false ∧ ∀ k, i ≤ k → k < j → held k = true := by
  induction n generalizing i with
  | zero => simp [firstFreeFrom] at h
  | succ n ih =>
    unfold firstFreeFrom at h
    by_cases hi : held i = true
    · simp only [hi, if_true] at h
      obtain ⟨hle, hlt, hfree, hleast⟩ := ih h
      refine ⟨by omega, by omega, hfree, ?_⟩
      intro k hk hkj
      by_cases hki : k = i
      · rw [hki]
        exact hi
      · exact hleast k (by omega) hkj
    · simp only [hi] at h
      cases Option.some.inj h
      refine ⟨Nat.le_refl _, by omega, by simpa using hi, ?_⟩
      intro k hk hkj
      omega

theorem firstFreeFrom_none {i n : ℕ} (h : firstFreeFrom held i n = none) :
    ∀ k, i ≤ k → k < i + n → held k = true := by
  induction n generalizing i with
  | zero =>
    intro k hk hkn
    omega
  | succ n ih =>
    unfold firstFreeFrom at h
    by_cases hi : held i = true
    · simp only [hi, if_true] at h
      intro k hk hkn
      by_cases hki : k = i
      · rw [hki]
        exact hi
      · exact ih h k (by omega) (by omega)
    · simp [hi] at h

/-- The reserved index is free and every smaller one is held. -/
theorem firstFree_some {n j : ℕ} (h : firstFree held n = some j) :
    j < n ∧ held j = false ∧ ∀ k < j, held k = true := by
  obtain ⟨-, hlt, hfree, hleast⟩ := firstFreeFrom_some h
  exact ⟨by omega, hfree, fun k hk => hleast k (by omega) hk⟩

theorem firstFree_none_iff {n : ℕ} : firstFree held n = none ↔ ∀ k < n, held k = true := by
  constructor
  · intro h k hk
    exact firstFreeFrom_none h k (by omega) (by omega)
  · intro h
    cases hf : firstFree held n with
    | none => rfl
    | some j =>
      obtain ⟨hj, hfree, -⟩ := firstFree_some hf
      simp [h j hj] at hfree

theorem firstFree_congr {held' : ℕ → Bool} {n : ℕ} (h : ∀ i < n, held' i = held i) :
    firstFree held' n = firstFree held n := by
  cases hf : firstFree held n with
  | none =>
    rw [firstFree_none_iff] at hf ⊢
    intro k hk
    rw [h k hk, hf k hk]
  | some j =>
    obtain ⟨hj, hfree, hleast⟩ := firstFree_some hf
    cases hf' : firstFree held' n with
    | none =>
      rw [← h j hj, firstFree_none_iff.mp hf' j hj] at hfree
      cases hfree
    | some j' =>
      obtain ⟨hj', hfree', hleast'⟩ := firstFree_some hf'
      rw [h j' hj'] at hfree'
      rcases Nat.lt_trichotomy j' j with hlt | heq | hlt
      · rw [hleast j' hlt] at hfree'
        cases hfree'
      · rw [heq]
      · rw [← h j hj, hleast' j hlt] at hfree
        cases hfree

theorem freeCount_succ (n : ℕ) :
    freeCount held (n + 1) = freeCount held n + if held n = false then 1 else 0 :=
  Nat.count_succ _ n

theorem freeCount_pos_iff {n : ℕ} : 0 < freeCount held n ↔ ∃ i < n, held i = false := by
  induction n with
  | zero => simp [freeCount]
  | succ n ih =>
    rw [freeCount_succ]
    by_cases hn : held n = false
    · rw [if_pos hn]
      exact ⟨fun _ => ⟨n, by omega, hn⟩, fun _ => by omega⟩
    · rw [if_neg hn, Nat.add_zero, ih]
      constructor
      · intro hsome
        rcases hsome with ⟨i, hi, hfree⟩
        exact ⟨i, by omega, hfree⟩
      · intro hsome
        rcases hsome with ⟨i, hi, hfree⟩
        have hne : i ≠ n := by
          intro he
          rw [he] at hfree
          exact hn hfree
        exact ⟨i, by omega, hfree⟩

/-- With a free index left, a reservation succeeds. -/
theorem exists_firstFree {n : ℕ} (h : 0 < freeCount held n) : ∃ j, firstFree held n = some j := by
  obtain ⟨i, hi, hfree⟩ := freeCount_pos_iff.mp h
  cases hf : firstFree held n with
  | some j => exact ⟨j, rfl⟩
  | none =>
    have hheld := firstFree_none_iff.mp hf i hi
    simp [hheld] at hfree

theorem freeCount_congr {held' : ℕ → Bool} {n : ℕ} (h : ∀ i < n, held' i = held i) :
    freeCount held' n = freeCount held n := by
  induction n with
  | zero => rfl
  | succ n ih =>
    rw [freeCount_succ, freeCount_succ, ih (fun i hi => h i (by omega)), h n (by omega)]

/-- Reserving a free index below the bound uses up exactly one. -/
theorem freeCount_reserve {n i : ℕ} (hi : i < n) (hfree : held i = false) :
    freeCount (reserve held i) n + 1 = freeCount held n := by
  induction n with
  | zero => omega
  | succ n ih =>
    rw [freeCount_succ, freeCount_succ]
    by_cases hin : i = n
    · subst i
      have hsame : freeCount (reserve held n) n = freeCount held n :=
        freeCount_congr fun k hk => Function.update_of_ne (by omega) _ _
      have hheld : reserve held n n = true := Function.update_self _ _ _
      rw [hsame, hheld, hfree, if_pos rfl, if_neg (by decide)]
    · have hn : reserve held i n = held n := Function.update_of_ne (by omega) _ _
      rw [hn]
      have hrec := ih (by omega)
      omega

/-- Releasing a held index below the bound frees exactly one. -/
theorem freeCount_release {n i : ℕ} (hi : i < n) (hheld : held i = true) :
    freeCount (release held i) n = freeCount held n + 1 := by
  have hback : reserve (release held i) i = held := by
    rw [reserve, release, Function.update_idem, ← hheld, Function.update_eq_self]
  have hfree : release held i i = false := Function.update_self _ _ _
  rw [← freeCount_reserve hi hfree, hback]

/-- Every index below the bound is free or held. -/
theorem freeCount_add_heldCount (n : ℕ) : freeCount held n + heldCount held n = n := by
  induction n with
  | zero => rfl
  | succ n ih =>
    have hsucc : heldCount held (n + 1) = heldCount held n + if held n = true then 1 else 0 :=
      Nat.count_succ _ n
    rw [freeCount_succ, hsucc]
    cases hheld : held n with
    | false =>
      rw [if_pos rfl, if_neg Bool.false_ne_true]
      omega
    | true =>
      rw [if_neg (Ne.symm Bool.false_ne_true), if_pos rfl]
      omega

/-- A free index lies below a bound exactly when fewer are free before it. -/
theorem lt_iff_freeCount_lt {i n : ℕ} (hfree : held i = false) :
    i < n ↔ freeCount held i < freeCount held n := by
  constructor
  · intro hi
    exact Nat.count_strict_mono hfree hi
  · intro hlt
    by_contra hle
    have hmono : freeCount held n ≤ freeCount held i := Nat.count_monotone _ (by omega)
    omega

/-- There is a free index after any smaller number of free ones. -/
theorem exists_rank {k n : ℕ} (h : k < freeCount held n) :
    ∃ i < n, held i = false ∧ freeCount held i = k := by
  induction n with
  | zero => simp [freeCount] at h
  | succ n ih =>
    by_cases hk : k < freeCount held n
    · obtain ⟨i, hi, hfree, hcount⟩ := ih hk
      exact ⟨i, by omega, hfree, hcount⟩
    · rw [freeCount_succ] at h
      cases hheld : held n with
      | false =>
        rw [hheld, if_pos rfl] at h
        exact ⟨n, by omega, hheld, by omega⟩
      | true =>
        rw [hheld, if_neg (by decide)] at h
        omega

theorem freeCount_eq_zero {n : ℕ} (h : ∀ i < n, held i = true) : freeCount held n = 0 := by
  by_contra hne
  obtain ⟨i, hi, hfree⟩ := freeCount_pos_iff.mp (Nat.pos_of_ne_zero hne)
  rw [h i hi] at hfree
  exact Bool.noConfusion hfree

/-- When the held indices are those below m, the free ones are counted from m. -/
theorem freeCount_of_initial {m n : ℕ} (h : ∀ i < n, held i = true ↔ i < m) {i : ℕ}
    (hi : i ≤ n) : freeCount held i = i - m := by
  induction i with
  | zero => simp [freeCount]
  | succ i ih =>
    have hiff := h i (by omega)
    rw [freeCount_succ, ih (by omega)]
    cases hheld : held i with
    | false =>
      rw [hheld] at hiff
      have hmi : ¬ i < m := fun hlt => Bool.noConfusion (hiff.mpr hlt)
      rw [if_pos rfl]
      omega
    | true =>
      have hmi := hiff.mp hheld
      rw [if_neg (by decide)]
      omega

/-- If nothing below a held index is free, the held indices are those below a bound. -/
theorem exists_initial {n : ℕ} (h : ∀ i < n, held i = true → ∀ k < i, held k = true) :
    ∃ m, ∀ i < n, held i = true ↔ i < m := by
  cases hfirst : firstFree held n with
  | none => exact ⟨n, fun i hi => iff_of_true (firstFree_none_iff.mp hfirst i hi) hi⟩
  | some j =>
    obtain ⟨-, hfree, hleast⟩ := firstFree_some hfirst
    refine ⟨j, fun i hi => ⟨fun hheld => ?_, hleast i⟩⟩
    by_contra hle
    rcases Nat.eq_or_lt_of_le (Nat.le_of_not_lt hle) with rfl | hlt
    · rw [hheld] at hfree
      exact Bool.noConfusion hfree
    · rw [h i hi hheld j hlt] at hfree
      exact Bool.noConfusion hfree

/-- With the indices below m held, a free index lies as far after them as free ones
lie before it. -/
theorem eq_add_of_initial {m n i : ℕ} (h : ∀ i < n, held i = true ↔ i < m) (hi : i < n)
    (hfree : held i = false) : i = m + freeCount held i := by
  have hnot : ¬ i < m := by
    rw [← h i hi, hfree]
    decide
  rw [freeCount_of_initial h (Nat.le_of_lt hi)]
  omega

section Taken

variable {held' : ℕ → Bool} {n : ℕ} {taken : List ℕ}

/-- Of the indices below n, those taken are held now and were free before. -/
structure Taken (held held' : ℕ → Bool) (n : ℕ) (taken : List ℕ) : Prop where
  held_iff : ∀ i < n, held' i = true ↔ held i = true ∨ i ∈ taken
  distinct : taken.Nodup
  fresh : ∀ i ∈ taken, i < n ∧ held i = false

/-- Taking indices uses up exactly as many as are taken. -/
theorem Taken.freeCount (h : Taken held held' n taken) :
    freeCount held n = freeCount held' n + taken.length := by
  induction taken generalizing held with
  | nil =>
    refine freeCount_congr fun i hi => ?_
    have hiff := h.held_iff i hi
    rw [or_iff_left List.not_mem_nil] at hiff
    exact (Bool.eq_iff_iff.mpr hiff).symm
  | cons j rest ih =>
    obtain ⟨hj, hrest⟩ := List.nodup_cons.mp h.distinct
    obtain ⟨hjn, hfree⟩ := h.fresh j List.mem_cons_self
    have hcount := freeCount_reserve hjn hfree
    have hrec : FirstFit.freeCount (reserve held j) n =
        FirstFit.freeCount held' n + rest.length := by
      apply ih
      constructor
      · intro i hi
        rw [h.held_iff i hi, List.mem_cons, reserve]
        by_cases hij : i = j
        · rw [hij, Function.update_self]
          exact iff_of_true (Or.inr (Or.inl rfl)) (Or.inl rfl)
        · rw [Function.update_of_ne hij, or_iff_right hij]
      · exact hrest
      · intro i hi
        have hij : i ≠ j := fun heq => hj (heq ▸ hi)
        rw [reserve, Function.update_of_ne hij]
        exact h.fresh i (List.mem_cons_of_mem _ hi)
    rw [List.length_cons]
    omega

/-- The taken indices are the lowest free ones. -/
def Lowest (held : ℕ → Bool) (taken : List ℕ) : Prop :=
  ∀ i ∈ taken, ∀ k < i, held k = false → k ∈ taken

/-- First fit takes the next of the free indices, counted from the lowest. -/
theorem Taken.rank (h : Taken held held' n taken) (hlow : Lowest held taken) {j : ℕ}
    (hj : firstFree held' n = some j) : FirstFit.freeCount held j = taken.length := by
  obtain ⟨hjn, hfree, hleast⟩ := firstFree_some hj
  have hnew : ¬ (held j = true ∨ j ∈ taken) := by
    rw [← h.held_iff j hjn, hfree]
    decide
  have hbelow : ∀ i ∈ taken, i < j := by
    intro i hi
    by_contra hle
    rcases Nat.eq_or_lt_of_le (Nat.le_of_not_lt hle) with heq | hlt
    · exact hnew (Or.inr (heq ▸ hi))
    · exact hnew (Or.inr (hlow i hi j hlt (by simpa using fun ht => hnew (Or.inl ht))))
  have hrestricted : Taken held held' j taken :=
    { h with
      held_iff := fun i hi => h.held_iff i (by omega)
      fresh := fun i hi => ⟨hbelow i hi, (h.fresh i hi).2⟩ }
  rw [hrestricted.freeCount, freeCount_eq_zero hleast, Nat.zero_add]

/-- Before a taken index fewer are free than are taken. -/
theorem Taken.rank_lt (h : Taken held held' n taken) (hlow : Lowest held taken) {i : ℕ}
    (hi : i ∈ taken) : FirstFit.freeCount held i < taken.length := by
  obtain ⟨hin, hfree⟩ := h.fresh i hi
  have hbelow : Taken held held' (i + 1) (taken.filter fun k => decide (k < i + 1)) := by
    constructor
    · intro k hk
      rw [h.held_iff k (by omega), List.mem_filter, decide_eq_true_eq, and_iff_left hk]
    · exact h.distinct.filter _
    · intro k hk
      rw [List.mem_filter, decide_eq_true_eq] at hk
      exact ⟨hk.2, (h.fresh k hk.1).2⟩
  have hnone : FirstFit.freeCount held' (i + 1) = 0 := by
    refine freeCount_eq_zero fun k hk => (h.held_iff k (by omega)).mpr ?_
    by_cases hki : k = i
    · exact Or.inr (hki ▸ hi)
    · cases hheld : held k with
      | true => exact Or.inl rfl
      | false => exact Or.inr (hlow i hi k (by omega) hheld)
  have hcount := hbelow.freeCount
  have hle := List.length_filter_le (fun k => decide (k < i + 1)) taken
  rw [freeCount_succ, if_pos hfree] at hcount
  omega

/-- The free indices with fewer free ones before them than are taken are taken. -/
theorem Taken.mem_of_rank_lt (h : Taken held held' n taken) (hlow : Lowest held taken) {i : ℕ}
    (hi : i < n) (hfree : held i = false) (hrank : FirstFit.freeCount held i < taken.length) :
    i ∈ taken := by
  by_contra hnot
  have hbelow : Taken held held' i taken :=
    { h with
      held_iff := fun k hk => h.held_iff k (by omega)
      fresh := fun k hk => by
        obtain ⟨-, hk'⟩ := h.fresh k hk
        refine ⟨?_, hk'⟩
        by_contra hle
        rcases Nat.eq_or_lt_of_le (Nat.le_of_not_lt hle) with heq | hlt
        · exact hnot (heq ▸ hk)
        · exact hnot (hlow k hk i hlt hfree) }
  have hcount := hbelow.freeCount
  omega

theorem Taken.lowest_of_firstFree (h : Taken held held' n taken) (hlow : Lowest held taken)
    {j : ℕ} (hj : firstFree held' n = some j) {taken' : List ℕ}
    (hmem : ∀ i, i ∈ taken' ↔ i ∈ taken ∨ i = j) : Lowest held taken' := by
  obtain ⟨hjn, -, hleast⟩ := firstFree_some hj
  intro i hi k hk hfree
  rw [hmem]
  rcases (hmem i).mp hi with hold | rfl
  · exact Or.inl (hlow i hold k hk hfree)
  · rcases (h.held_iff k (by omega)).mp (hleast k hk) with hheld | hold
    · rw [hheld] at hfree
      exact Bool.noConfusion hfree
    · exact Or.inl hold

end Taken

end RathalOS.FirstFit
