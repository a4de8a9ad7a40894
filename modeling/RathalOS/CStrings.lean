import RathalOS.ByteMemory

/-!
The string functions of common/func.c that the file system relies on.
A string argument is the memory its pointer refers to. The characters a bounded
comparison can see are those before the terminator, at most count of them;
strncmp decides equality of these and strncpy stores exactly them.
-/
namespace RathalOS.CStrings

open ByteMemory

/-- The characters of a string before its terminator, at most n of them. -/
def cut : ℕ → Memory → List Byte
  | 0, _ => []
  | n + 1, p => if p 0 = 0 then [] else p 0 :: cut n (advance p 1)

/-- A string in memory: its characters, then a terminator. -/
structure Terminated (p : Memory) (chars : List Byte) : Prop where
  zero_notMem : 0 ∉ chars
  byte : ∀ i ≤ chars.length, p i = chars.getD i 0

/-- The loop of strncmp. The last argument is the difference of the characters
loaded last, which is returned when count runs out. -/
def strncmpLoop : ℕ → Memory → Memory → ℤ → ℤ
  | 0, _, _, diff => diff
  | count + 1, p, q, _ =>
    let c1 := p 0
    let c2 := q 0
    let diff : ℤ := (c1.toNat : ℤ) - c2.toNat
    if c1 = 0 then diff
    else if c1 = c2 then strncmpLoop count (advance p 1) (advance q 1) diff
    else diff

/-- Called with count = 0 the source returns the difference of two variables
that were never assigned; no caller passes 0. -/
def strncmp (p q : Memory) (count : ℕ) : ℤ := strncmpLoop count p q 0

/-- The second loop of strncpy: the rest of dst is cleared. -/
def strncpyFill : ℕ → ℕ → Memory → Memory
  | 0, _, dst => dst
  | count + 1, i, dst => strncpyFill count (i + 1) (Function.update dst i 0)

/-- The first loop of strncpy, at character i with count more allowed. -/
def strncpyLoop (src : Memory) : ℕ → ℕ → Memory → Memory
  | 0, _, dst => dst
  | count + 1, i, dst =>
    let dst := Function.update dst i (src i)
    if src i = 0 then strncpyFill count (i + 1) dst else strncpyLoop src count (i + 1) dst

def strncpy (dst src : Memory) (count : ℕ) : Memory := strncpyLoop src count 0 dst

theorem cut_of_zero {p : Memory} (n : ℕ) (h : p 0 = 0) : cut n p = [] := by
  cases n with
  | zero => rfl
  | succ n => rw [cut, if_pos h]

theorem cut_succ {p : Memory} (n : ℕ) (h : p 0 ≠ 0) :
    cut (n + 1) p = p 0 :: cut n (advance p 1) := by
  rw [cut, if_neg h]

theorem cut_congr {n : ℕ} {p q : Memory} (h : ∀ i < n, p i = q i) : cut n p = cut n q := by
  induction n generalizing p q with
  | zero => rfl
  | succ n ih =>
    have htail : cut n (advance p 1) = cut n (advance q 1) :=
      ih fun i hi => h (1 + i) (by omega)
    simp only [cut, h 0 (by omega), htail]

theorem cut_length_le (n : ℕ) (p : Memory) : (cut n p).length ≤ n := by
  induction n generalizing p with
  | zero => simp [cut]
  | succ n ih =>
    unfold cut
    split
    · simp
    · simpa using ih (advance p 1)

theorem zero_notMem_cut (n : ℕ) (p : Memory) : (0 : Byte) ∉ cut n p := by
  induction n generalizing p with
  | zero => simp [cut]
  | succ n ih =>
    unfold cut
    split
    · simp
    · rename_i hp
      simp only [List.mem_cons, not_or]
      exact ⟨Ne.symm hp, ih (advance p 1)⟩

/-- A memory that holds a list of characters and then zeros is cut to that list. -/
theorem cut_eq_of_getD {n : ℕ} {p : Memory} {l : List Byte} (hlen : l.length ≤ n)
    (hzero : (0 : Byte) ∉ l) (h : ∀ i < n, p i = l.getD i 0) : cut n p = l := by
  induction n generalizing p l with
  | zero => simpa [cut] using (List.length_eq_zero_iff.mp (Nat.le_zero.mp hlen)).symm
  | succ n ih =>
    have h0 := h 0 (by omega)
    cases l with
    | nil => exact cut_of_zero _ h0
    | cons b rest =>
      simp only [List.mem_cons, not_or] at hzero
      simp only [List.length_cons] at hlen
      have hb : p 0 = b := by simpa using h0
      have htail : cut n (advance p 1) = rest := by
        apply ih (by omega) hzero.2
        intro i hi
        have hi' := h (1 + i) (by omega)
        rw [Nat.add_comm 1 i] at hi'
        simpa [Nat.add_comm 1 i] using hi'
      rw [cut_succ _ (fun h => hzero.1 (h.symm.trans hb)), hb, htail]

theorem terminated_getD {chars : List Byte} (h : 0 ∉ chars) :
    Terminated (fun i => chars.getD i 0) chars := ⟨h, fun _ _ => rfl⟩

theorem Terminated.terminator {p : Memory} {chars : List Byte} (h : Terminated p chars) :
    p chars.length = 0 := by
  rw [h.byte _ le_rfl, List.getD_eq_getElem?_getD, List.getElem?_eq_none le_rfl, Option.getD_none]

theorem Terminated.at_nil {p : Memory} {i : ℕ} (h : Terminated (advance p i) []) : p i = 0 :=
  h.terminator

/-- A string that is not empty, at some position of a memory. -/
theorem Terminated.at_cons {p : Memory} {i : ℕ} {c : Byte} {rest : List Byte}
    (h : Terminated (advance p i) (c :: rest)) :
    p i = c ∧ c ≠ 0 ∧ Terminated (advance p (i + 1)) rest := by
  refine ⟨h.byte 0 (Nat.zero_le _), fun hc => h.zero_notMem (hc ▸ List.mem_cons_self),
    fun hmem => h.zero_notMem (List.mem_cons_of_mem c hmem), fun k hk => ?_⟩
  have hbyte := h.byte (k + 1) (Nat.succ_le_succ hk)
  rw [List.getD_cons_succ] at hbyte
  rw [← hbyte, advance_apply, advance_apply, Nat.add_assoc, Nat.add_comm 1 k]

/-- A memory holds one string at most at some position. -/
theorem Terminated.unique {p : Memory} {i : ℕ} {s t : List Byte}
    (hs : Terminated (advance p i) s) (ht : Terminated (advance p i) t) : s = t := by
  induction s generalizing t i with
  | nil =>
    cases t with
    | nil => rfl
    | cons b t => exact absurd (ht.at_cons.1.symm.trans hs.at_nil) ht.at_cons.2.1
  | cons a s ih =>
    obtain ⟨ha, hne, hs'⟩ := hs.at_cons
    cases t with
    | nil => exact absurd (ha.symm.trans ht.at_nil) hne
    | cons b t =>
      obtain ⟨hb, -, ht'⟩ := ht.at_cons
      rw [ha.symm.trans hb, ih hs' ht']

/-- strncmp finds no difference exactly when the first n characters agree. -/
theorem strncmp_eq_zero_iff (p q : Memory) (n : ℕ) : strncmp p q n = 0 ↔ cut n p = cut n q := by
  unfold strncmp
  induction n generalizing p q with
  | zero => simp [strncmpLoop, cut]
  | succ n ih =>
    have hdiff : (((p 0).toNat : ℤ) - (q 0).toNat = 0) ↔ p 0 = q 0 := by
      rw [sub_eq_zero, Nat.cast_inj]
      exact BitVec.toNat_inj
    simp only [strncmpLoop]
    by_cases hp : p 0 = 0
    · rw [if_pos hp, hdiff, cut_of_zero _ hp]
      by_cases hq : q 0 = 0
      · rw [cut_of_zero _ hq, hp, hq]
        exact iff_of_true rfl rfl
      · rw [cut_succ _ hq, hp]
        exact iff_of_false (Ne.symm hq) (List.cons_ne_nil _ _).symm
    · rw [if_neg hp, cut_succ _ hp]
      by_cases hpq : p 0 = q 0
      · have hz : ((p 0).toNat : ℤ) - (q 0).toNat = 0 := hdiff.mpr hpq
        have hq : q 0 ≠ 0 := by rwa [← hpq]
        rw [if_pos hpq, hz, ih, cut_succ _ hq, hpq, List.cons.injEq]
        simp only [true_and]
      · rw [if_neg hpq, hdiff]
        by_cases hq : q 0 = 0
        · rw [cut_of_zero _ hq]
          exact iff_of_false hpq (List.cons_ne_nil _ _)
        · rw [cut_succ _ hq, List.cons.injEq]
          exact iff_of_false hpq (fun h => hpq h.1)

theorem strncpyFill_apply (count i : ℕ) (dst : Memory) (k : ℕ) :
    strncpyFill count i dst k = if i ≤ k ∧ k < i + count then 0 else dst k := by
  induction count generalizing i dst with
  | zero =>
    rw [if_neg (by omega)]
    rfl
  | succ count ih =>
    rw [strncpyFill, ih]
    by_cases hk : k = i
    · subst k
      rw [if_neg (by omega), if_pos (by omega), Function.update_self]
    · rw [Function.update_of_ne hk]
      by_cases hin : i + 1 ≤ k ∧ k < i + 1 + count
      · rw [if_pos hin, if_pos (by omega)]
      · rw [if_neg hin, if_neg (by omega)]

/-- The copy loop changes only the count bytes from i on, which receive the
characters of the source up to its terminator and zeros after it. -/
theorem strncpyLoop_apply (src : Memory) (count i : ℕ) (dst : Memory) (k : ℕ) :
    strncpyLoop src count i dst k =
      if i ≤ k ∧ k < i + count then (cut count (advance src i)).getD (k - i) 0 else dst k := by
  induction count generalizing i dst with
  | zero =>
    rw [if_neg (by omega)]
    rfl
  | succ count ih =>
    have hhead : advance src i 0 = src i := rfl
    rw [strncpyLoop]
    by_cases hs : src i = 0
    · rw [if_pos hs, strncpyFill_apply, cut_of_zero _ (hhead.trans hs)]
      by_cases hk : k = i
      · subst k
        rw [if_neg (by omega), if_pos (by omega), Function.update_self, hs]
        rfl
      · rw [Function.update_of_ne hk]
        by_cases hin : i + 1 ≤ k ∧ k < i + 1 + count
        · rw [if_pos hin, if_pos (by omega)]
          rfl
        · rw [if_neg hin, if_neg (by omega)]
    · rw [if_neg hs, ih, cut_succ _ (fun h => hs (hhead.symm.trans h)), advance_advance, hhead]
      by_cases hk : k = i
      · subst k
        rw [if_neg (by omega), if_pos (by omega), Function.update_self, Nat.sub_self]
        rfl
      · rw [Function.update_of_ne hk]
        by_cases hin : i + 1 ≤ k ∧ k < i + 1 + count
        · rw [if_pos hin, if_pos (by omega), show k - i = k - (i + 1) + 1 by omega,
            List.getD_cons_succ]
        · rw [if_neg hin, if_neg (by omega)]

theorem strncpy_apply (dst src : Memory) (count k : ℕ) :
    strncpy dst src count k = if k < count then (cut count src).getD k 0 else dst k := by
  rw [strncpy, strncpyLoop_apply, advance_zero]
  simp

/-- Cutting what strncpy stored gives the characters that were copied. -/
theorem cut_strncpy (dst src : Memory) (count : ℕ) :
    cut count (strncpy dst src count) = cut count src := by
  apply cut_eq_of_getD (cut_length_le count src) (zero_notMem_cut count src)
  intro i hi
  rw [strncpy_apply, if_pos hi]

end RathalOS.CStrings
