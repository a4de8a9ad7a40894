import RathalOS.CStrings
import Mathlib.Data.List.Lex

/-!
The comparisons of strings of common/func.c. The order of strcmp is the lexicographic one of
unsigned bytes, and strncmp compares what the strings begin with. Both load bytes up to the
first difference or terminator, strncmp of count positions at most.
-/
namespace RathalOS.StringOrder

open ByteMemory CStrings

/-- The loop of strcmp from position i on, if it ends before the fuel does: what it returns,
and the positions at which a byte of each string was loaded. -/
def strcmpLoop (p q : Memory) : ℕ → ℕ → Option (ℤ × List ℕ)
  | 0, _ => none
  | fuel + 1, i =>
    let c1 := p i
    let c2 := q i
    let diff : ℤ := (c1.toNat : ℤ) - c2.toNat
    if c1 = 0 then some (diff, [i])
    else if c1 = c2 then do
      let (ret, loaded) ← strcmpLoop p q fuel (i + 1)
      some (ret, i :: loaded)
    else some (diff, [i])

def strcmp (fuel : ℕ) (p q : Memory) : Option (ℤ × List ℕ) := strcmpLoop p q fuel 0

/-- strcmp returns a value. -/
def Returns (p q : Memory) (ret : ℤ) : Prop := ∃ fuel loaded, strcmp fuel p q = some (ret, loaded)

/-- The loop of strncmp with the positions at which bytes were loaded. -/
def strncmpLog (p q : Memory) : ℕ → ℕ → ℤ → ℤ × List ℕ
  | 0, _, diff => (diff, [])
  | count + 1, i, _ =>
    let c1 := p i
    let c2 := q i
    let diff : ℤ := (c1.toNat : ℤ) - c2.toNat
    if c1 = 0 then (diff, [i])
    else if c1 = c2 then
      let (ret, loaded) := strncmpLog p q count (i + 1) diff
      (ret, i :: loaded)
    else (diff, [i])

/-- The difference of the first characters in which two strings differ, of which one may be
a terminator. -/
def difference : List Byte → List Byte → ℤ
  | [], [] => 0
  | [], b :: _ => -(b.toNat : ℤ)
  | a :: _, [] => a.toNat
  | a :: s, b :: t => if a = b then difference s t else (a.toNat : ℤ) - b.toNat

/-- The characters as the numbers that unsigned bytes are. -/
def codes (s : List Byte) : List ℕ := s.map BitVec.toNat

section Order

variable {s t u : List Byte}

theorem toNat_pos {b : Byte} (h : b ≠ 0) : 0 < b.toNat :=
  Nat.pos_of_ne_zero fun hzero => h (BitVec.eq_of_toNat_eq hzero)

theorem toNat_ne {a b : Byte} (h : a ≠ b) : a.toNat ≠ b.toNat :=
  fun heq => h (BitVec.eq_of_toNat_eq heq)

theorem difference_swap (s t : List Byte) : difference t s = -difference s t := by
  induction s generalizing t with
  | nil =>
    cases t with
    | nil => rfl
    | cons b t => exact (neg_neg _).symm
  | cons a s ih =>
    cases t with
    | nil => rfl
    | cons b t =>
      rw [difference, difference]
      by_cases hab : a = b
      · rw [if_pos hab, if_pos hab.symm, ih]
      · rw [if_neg hab, if_neg (Ne.symm hab), neg_sub]

/-- The difference is negative exactly for a string that comes before the other. -/
theorem difference_neg_iff (hs : 0 ∉ s) (ht : 0 ∉ t) :
    difference s t < 0 ↔ codes s < codes t := by
  induction s generalizing t with
  | nil =>
    cases t with
    | nil => exact iff_of_false (lt_irrefl _) (lt_irrefl _)
    | cons b t =>
      have hb := toNat_pos (List.ne_of_not_mem_cons ht).symm
      rw [difference]
      exact iff_of_true (by omega) (List.nil_lt_cons _ _)
  | cons a s ih =>
    cases t with
    | nil =>
      rw [difference]
      exact iff_of_false (by omega) (List.not_lt_nil _)
    | cons b t =>
      rw [difference, codes, codes, List.map_cons, List.map_cons, List.cons_lt_cons_iff]
      by_cases hab : a = b
      · have hrec := ih (List.not_mem_of_not_mem_cons hs) (List.not_mem_of_not_mem_cons ht)
        rw [if_pos hab, hrec, hab]
        simp [codes]
      · have hne := toNat_ne hab
        rw [if_neg hab]
        omega

theorem difference_eq_zero_iff (hs : 0 ∉ s) (ht : 0 ∉ t) : difference s t = 0 ↔ s = t := by
  induction s generalizing t with
  | nil =>
    cases t with
    | nil => exact iff_of_true rfl rfl
    | cons b t =>
      have hb := toNat_pos (List.ne_of_not_mem_cons ht).symm
      rw [difference]
      exact iff_of_false (by omega) (List.cons_ne_nil b t).symm
  | cons a s ih =>
    cases t with
    | nil =>
      have ha := toNat_pos (List.ne_of_not_mem_cons hs).symm
      rw [difference]
      exact iff_of_false (by omega) (List.cons_ne_nil a s)
    | cons b t =>
      rw [difference]
      by_cases hab : a = b
      · have hrec := ih (List.not_mem_of_not_mem_cons hs) (List.not_mem_of_not_mem_cons ht)
        rw [if_pos hab, hrec, hab, List.cons.injEq]
        simp
      · have hne := toNat_ne hab
        rw [if_neg hab]
        exact iff_of_false (by omega) fun h => hab (List.cons.inj h).1

theorem difference_nonpos_iff (hs : 0 ∉ s) (ht : 0 ∉ t) :
    difference s t ≤ 0 ↔ codes s ≤ codes t := by
  rw [← not_lt, ← not_lt, ← difference_neg_iff ht hs, difference_swap s t, neg_lt_zero]

end Order

section Loops

variable {p q : Memory} {s t : List Byte}

/-- No byte behind the terminator of either string is loaded. -/
def Within (s t : List Byte) (i : ℕ) (loaded : List ℕ) : Prop :=
  ∀ k ∈ loaded, k ≤ i + s.length ∧ k ≤ i + t.length

theorem within_here (s t : List Byte) (i : ℕ) : Within s t i [i] := by
  intro k hk
  rw [List.mem_singleton.mp hk]
  exact ⟨Nat.le_add_right _ _, Nat.le_add_right _ _⟩

theorem Within.cons {a b : Byte} {i : ℕ} {loaded : List ℕ} (h : Within s t (i + 1) loaded) :
    Within (a :: s) (b :: t) i (i :: loaded) := by
  intro k hk
  rcases List.mem_cons.mp hk with rfl | hk
  · exact ⟨Nat.le_add_right _ _, Nat.le_add_right _ _⟩
  · have hle := h k hk
    rw [List.length_cons, List.length_cons]
    omega

/-- The first difference is returned. -/
theorem strcmpLoop_spec {fuel i : ℕ} (hp : Terminated (advance p i) s)
    (hq : Terminated (advance q i) t) (hfuel : s.length < fuel) :
    ∃ loaded, strcmpLoop p q fuel i = some (difference s t, loaded) ∧ Within s t i loaded := by
  induction fuel generalizing s t i with
  | zero => exact absurd hfuel (Nat.not_lt_zero _)
  | succ fuel ih =>
    cases s with
    | nil =>
      refine ⟨[i], ?_, within_here [] t i⟩
      rw [strcmpLoop, hp.at_nil, if_pos rfl]
      cases t with
      | nil =>
        rw [hq.at_nil]
        rfl
      | cons b t =>
        rw [hq.at_cons.1, difference]
        simp
    | cons a s =>
      obtain ⟨hpa, ha, hp'⟩ := hp.at_cons
      rw [strcmpLoop, hpa, if_neg ha]
      cases t with
      | nil =>
        refine ⟨[i], ?_, within_here (a :: s) [] i⟩
        rw [hq.at_nil, if_neg ha, difference]
        simp
      | cons b t =>
        obtain ⟨hqb, -, hq'⟩ := hq.at_cons
        rw [hqb, difference]
        by_cases hab : a = b
        · obtain ⟨loaded, hloop, hwithin⟩ := ih hp' hq' (Nat.lt_of_succ_lt_succ hfuel)
          rw [if_pos hab, if_pos hab, hloop]
          exact ⟨i :: loaded, rfl, hwithin.cons⟩
        · rw [if_neg hab, if_neg hab]
          exact ⟨[i], rfl, within_here (a :: s) (b :: t) i⟩

theorem strcmpLoop_succ {fuel i : ℕ} {r : ℤ × List ℕ} (h : strcmpLoop p q fuel i = some r) :
    strcmpLoop p q (fuel + 1) i = some r := by
  induction fuel generalizing i r with
  | zero => cases h
  | succ fuel ih =>
    rw [strcmpLoop] at h ⊢
    by_cases hzero : p i = 0
    · rw [if_pos hzero] at h ⊢
      exact h
    · by_cases hsame : p i = q i
      · rw [if_neg hzero, if_pos hsame] at h ⊢
        obtain ⟨rest, hrest, hr⟩ := Option.bind_eq_some_iff.mp h
        rw [ih hrest]
        exact hr
      · rw [if_neg hzero, if_neg hsame] at h ⊢
        exact h

theorem strcmp_mono {fuel : ℕ} {r : ℤ × List ℕ} (h : strcmp fuel p q = some r) (n : ℕ) :
    strcmp (fuel + n) p q = some r := by
  induction n with
  | zero => exact h
  | succ n ih => exact strcmpLoop_succ ih

theorem strcmp_spec (hp : Terminated p s) (hq : Terminated q t) {fuel : ℕ}
    (hfuel : s.length < fuel) :
    ∃ loaded, strcmp fuel p q = some (difference s t, loaded) ∧ Within s t 0 loaded := by
  rw [← advance_zero p] at hp
  rw [← advance_zero q] at hq
  exact strcmpLoop_spec hp hq hfuel

/-- What strcmp returns is the difference. -/
theorem returns_iff (hp : Terminated p s) (hq : Terminated q t) (ret : ℤ) :
    Returns p q ret ↔ ret = difference s t := by
  constructor
  · rintro ⟨fuel, loaded, h⟩
    have hfuel : s.length < fuel + (s.length + 1) := by omega
    obtain ⟨loaded', h', -⟩ := strcmp_spec hp hq hfuel
    rw [strcmp_mono h] at h'
    exact congrArg Prod.fst (Option.some.inj h')
  · rintro rfl
    obtain ⟨loaded, h, -⟩ := strcmp_spec hp hq (Nat.lt_succ_self _)
    exact ⟨_, loaded, h⟩

theorem strncmpLog_erase (p q : Memory) (count i : ℕ) (diff : ℤ) :
    (strncmpLog p q count i diff).1 = strncmpLoop count (advance p i) (advance q i) diff := by
  induction count generalizing i diff with
  | zero => rfl
  | succ count ih =>
    rw [strncmpLog, strncmpLoop]
    simp only [advance_apply, Nat.add_zero, advance_advance]
    split
    · rfl
    · split
      · exact ih (i + 1) _
      · rfl

/-- The strings cut to count characters are compared. The loop goes on after a round only if
there was no difference. -/
theorem strncmpLog_spec (count : ℕ) {i : ℕ} {diff : ℤ} (hp : Terminated (advance p i) s)
    (hq : Terminated (advance q i) t) (hdiff : diff = 0) :
    (strncmpLog p q count i diff).1 = difference (s.take count) (t.take count) ∧
      Within s t i (strncmpLog p q count i diff).2 ∧
      ∀ k ∈ (strncmpLog p q count i diff).2, k < i + count := by
  induction count generalizing s t i diff with
  | zero =>
    rw [strncmpLog, List.take_zero, List.take_zero]
    exact ⟨hdiff, fun k hk => absurd hk List.not_mem_nil, fun k hk => absurd hk List.not_mem_nil⟩
  | succ count ih =>
    have hhere : ∀ k ∈ [i], k < i + (count + 1) := by
      intro k hk
      rw [List.mem_singleton.mp hk]
      omega
    cases s with
    | nil =>
      rw [strncmpLog, hp.at_nil, if_pos rfl]
      refine ⟨?_, within_here [] t i, hhere⟩
      cases t with
      | nil =>
        rw [hq.at_nil]
        rfl
      | cons b t =>
        rw [hq.at_cons.1, List.take_nil, List.take_succ_cons, difference]
        simp
    | cons a s =>
      obtain ⟨hpa, ha, hp'⟩ := hp.at_cons
      rw [strncmpLog, hpa, if_neg ha, List.take_succ_cons]
      cases t with
      | nil =>
        rw [hq.at_nil, if_neg ha, List.take_nil, difference]
        exact ⟨by simp, within_here (a :: s) [] i, hhere⟩
      | cons b t =>
        obtain ⟨hqb, -, hq'⟩ := hq.at_cons
        rw [hqb, List.take_succ_cons, difference]
        by_cases hab : a = b
        · have hzero : (a.toNat : ℤ) - b.toNat = 0 := by
            rw [hab, sub_self]
          obtain ⟨hret, hwithin, hlt⟩ := ih hp' hq' hzero
          rw [if_pos hab, if_pos hab]
          refine ⟨hret, hwithin.cons, fun k hk => ?_⟩
          rcases List.mem_cons.mp hk with rfl | hk
          · omega
          · have hk' := hlt k hk
            omega
        · rw [if_neg hab, if_neg hab]
          exact ⟨rfl, within_here (a :: s) (b :: t) i, hhere⟩

end Loops

/-- What strcmp makes of two strings. -/
structure Compares (s t : List Byte) (ret : ℤ) (loaded : List ℕ) : Prop where
  zero_iff : ret = 0 ↔ s = t
  neg_iff : ret < 0 ↔ codes s < codes t
  pos_iff : 0 < ret ↔ codes t < codes s
  within : ∀ k ∈ loaded, k ≤ s.length ∧ k ≤ t.length

section Comparisons

variable {p q r : Memory} {s t u : List Byte}

theorem strcmp_compares (hp : Terminated p s) (hq : Terminated q t) :
    ∃ ret loaded, (∀ fuel, s.length < fuel → strcmp fuel p q = some (ret, loaded)) ∧
      Compares s t ret loaded := by
  have hs := hp.zero_notMem
  have ht := hq.zero_notMem
  obtain ⟨loaded, hresult, hwithin⟩ := strcmp_spec hp hq (Nat.lt_succ_self s.length)
  refine ⟨difference s t, loaded, fun fuel hfuel => ?_, difference_eq_zero_iff hs ht,
    difference_neg_iff hs ht, ?_, fun k hk => ?_⟩
  · obtain ⟨more, rfl⟩ := Nat.exists_eq_add_of_le (Nat.succ_le_of_lt hfuel)
    exact strcmp_mono hresult more
  · rw [← difference_neg_iff ht hs, difference_swap s t, neg_lt_zero]
  · have hle := hwithin k hk
    omega

theorem returns_swap (hp : Terminated p s) (hq : Terminated q t) {a : ℤ} (h : Returns p q a) :
    Returns q p (-a) := by
  rw [returns_iff hp hq] at h
  rw [returns_iff hq hp, h, difference_swap s t]

/-- The order is transitive, and strict where one of the comparisons is. -/
theorem returns_trans (hp : Terminated p s) (hq : Terminated q t) (hr : Terminated r u)
    {a b : ℤ} (hpq : Returns p q a) (hqr : Returns q r b) (ha : a ≤ 0) (hb : b ≤ 0) :
    ∃ c, Returns p r c ∧ c ≤ 0 ∧ (c = 0 → a = 0 ∧ b = 0) := by
  have hs := hp.zero_notMem
  have ht := hq.zero_notMem
  have hu := hr.zero_notMem
  rw [returns_iff hp hq] at hpq
  rw [returns_iff hq hr] at hqr
  subst hpq
  subst hqr
  have hst := (difference_nonpos_iff hs ht).mp ha
  have htu := (difference_nonpos_iff ht hu).mp hb
  refine ⟨difference s u, (returns_iff hp hr _).mpr rfl,
    (difference_nonpos_iff hs hu).mpr (hst.trans htu), fun hzero => ?_⟩
  have hsu := (difference_eq_zero_iff hs hu).mp hzero
  subst hsu
  have hts := (difference_nonpos_iff ht hs).mp hb
  have hle := (difference_nonpos_iff hs ht).mp ha
  have hback := difference_swap s t
  have hnot : ¬ difference s t < 0 := by
    rw [difference_neg_iff hs ht]
    exact not_lt_of_ge hts
  omega

theorem returns_take (hp : Terminated p s) (hq : Terminated q t) (n : ℕ)
    {p' q' : Memory} (hp' : Terminated p' (s.take n)) (hq' : Terminated q' (t.take n)) :
    Returns p' q' (strncmp p q n) := by
  rw [← advance_zero p] at hp
  rw [← advance_zero q] at hq
  rw [returns_iff hp' hq', ← (strncmpLog_spec _ hp hq rfl).1, strncmpLog_erase, advance_zero,
    advance_zero]
  rfl

end Comparisons

/-- The value of strcmp tells whether two strings are equal and which comes first in the
lexicographic order of unsigned bytes; strncmp with count characters, of which there is at
least one, returns what strcmp does for the strings cut to these; and no byte behind a
terminator, nor behind the first count, is loaded. -/
theorem strcmp_order {p q r : Memory} {s t u : List Byte} (hp : Terminated p s)
    (hq : Terminated q t) (hr : Terminated r u) (n : ℕ) :
    (∃ ret loaded, (∀ fuel, s.length < fuel → strcmp fuel p q = some (ret, loaded)) ∧
      Compares s t ret loaded) ∧
    (∀ a, Returns p q a → Returns q p (-a)) ∧
    (∀ a b, Returns p q a → Returns q r b → a ≤ 0 → b ≤ 0 →
      ∃ c, Returns p r c ∧ c ≤ 0 ∧ (c = 0 → a = 0 ∧ b = 0)) ∧
    (∀ p' q', Terminated p' (s.take (n + 1)) → Terminated q' (t.take (n + 1)) →
      Returns p' q' (strncmp p q (n + 1))) ∧
    ∃ loaded, strncmpLog p q (n + 1) 0 0 = (strncmp p q (n + 1), loaded) ∧
      ∀ k ∈ loaded, k < n + 1 ∧ k ≤ s.length ∧ k ≤ t.length := by
  refine ⟨strcmp_compares hp hq, fun a => returns_swap hp hq, fun a b => returns_trans hp hq hr,
    fun p' q' => returns_take hp hq (n + 1), (strncmpLog p q (n + 1) 0 0).2, ?_, fun k hk => ?_⟩
  · refine Prod.ext ?_ rfl
    rw [strncmpLog_erase, advance_zero, advance_zero]
    rfl
  · rw [← advance_zero p] at hp
    rw [← advance_zero q] at hq
    obtain ⟨-, hwithin, hlt⟩ := strncmpLog_spec (n + 1) hp hq rfl
    have hle := hwithin k hk
    have hk' := hlt k hk
    omega

/-- The byte 255 comes after a letter, and the strings agree in one character. -/
theorem strcmp_order_bytes :
    Terminated (fun i => [0x61, 0xff].getD i 0) [0x61, 0xff] ∧
    Terminated (fun i => [0x61, 0x62].getD i 0) [0x61, 0x62] ∧
    Returns (fun i => [0x61, 0x62].getD i 0) (fun i => [0x61, 0xff].getD i 0) (-157) ∧
    ∃ loaded, strncmpLog (fun i => [0x61, 0xff].getD i 0) (fun i => [0x61, 0x62].getD i 0)
      (0 + 1) 0 0 =
      (strncmp (fun i => [0x61, 0xff].getD i 0) (fun i => [0x61, 0x62].getD i 0) 1, loaded) := by
  have hp : Terminated (fun i => [0x61, 0xff].getD i 0) [0x61, 0xff] :=
    terminated_getD (by decide)
  have hq : Terminated (fun i => [0x61, 0x62].getD i 0) [0x61, 0x62] :=
    terminated_getD (by decide)
  obtain ⟨-, hswap, -, -, loaded, hlog, -⟩ := strcmp_order hp hq hp 0
  refine ⟨hp, hq, hswap 157 ?_, loaded, hlog⟩
  exact ⟨2, [0, 1], by decide⟩

end RathalOS.StringOrder
