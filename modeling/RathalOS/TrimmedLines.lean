import RathalOS.CStrings
import Mathlib.Data.List.DropRight

/-!
Lines trimmed by trim of user/wrapper.c. The characters of a string that are no spaces are
gathered in a temporary array as long as the string and copied back. That removes the spaces
inside as well; and where there is no space at all, the terminator has no room in the array.
-/
namespace RathalOS.TrimmedLines

open ByteMemory CStrings

def SPACE : Byte := 0x20

/-- A buffer, with the positions it was written at. -/
structure Buffer where
  bytes : Memory
  written : List ℕ

def Buffer.set (buf : Buffer) (i : ℕ) (c : Byte) : Buffer where
  bytes := Function.update buf.bytes i c
  written := i :: buf.written

/-- Reading and writing tmp, an array of size bytes. -/
def tmpGet (size : ℕ) (tmp : Memory) (i : ℕ) : Except Fault Byte :=
  if i < size then .ok (tmp i) else .error .undefined

def tmpSet (size : ℕ) (tmp : Memory) (i : ℕ) (c : Byte) : Except Fault Memory :=
  if i < size then .ok (Function.update tmp i c) else .error .undefined

/-- The while loop from position i on, with some rounds left: cpt and tmp after it. -/
def gatherLoop (size : ℕ) (buf : Memory) : ℕ → ℕ → ℕ → Memory → Except Fault (ℕ × Memory)
  | 0, _, cpt, tmp => .ok (cpt, tmp)
  | rounds + 1, i, cpt, tmp =>
    if buf i ≠ SPACE then do
      let tmp ← tmpSet size tmp cpt (buf i)
      gatherLoop size buf rounds (i + 1) (cpt + 1) tmp
    else gatherLoop size buf rounds (i + 1) cpt tmp

/-- A for loop that assigns to the buffer from position i on, with some rounds left. -/
def assignLoop (value : ℕ → Except Fault Byte) : ℕ → ℕ → Buffer → Except Fault Buffer
  | 0, _, buf => .ok buf
  | rounds + 1, i, buf => do
    let c ← value i
    assignLoop value rounds (i + 1) (buf.set i c)

/-- The buffer after trim, and the two strings that were printed, each on a line. -/
structure Trimmed where
  buf : Buffer
  printed : List Memory

/-- `trim`, with the length that strlen returns and what the temporary array happens to
hold. -/
def trim (size : ℕ) (tmp : Memory) (buf : Buffer) : Except Fault Trimmed := do
  let (cpt, tmp) ← gatherLoop size buf.bytes size 0 0 tmp
  let tmp ← tmpSet size tmp cpt 0
  let buf ← assignLoop (tmpGet size tmp) cpt 0 buf
  let buf ← assignLoop (fun _ => .ok 0) (size - cpt) cpt buf
  .ok { buf := buf, printed := [tmp, buf.bytes] }

def isSpace (c : Byte) : Bool := decide (c = SPACE)

/-- A string without its leading and trailing spaces. -/
def stripped (chars : List Byte) : List Byte := (chars.dropWhile isSpace).rdropWhile isSpace

/-- A string without all its spaces. -/
def spaceless (chars : List Byte) : List Byte := chars.filter fun c => !isSpace c

/-- trim leaves the string without its leading and trailing spaces, and writes nothing but
the string and its terminator. -/
def Trims (chars : List Byte) (tmp buf : Memory) : Prop :=
  ∃ r, trim chars.length tmp ⟨buf, []⟩ = .ok r ∧ Terminated r.buf.bytes (stripped chars) ∧
    ∀ i ∈ r.buf.written, i ≤ chars.length

section Strings

variable {chars : List Byte}

theorem spaceless_dropWhile (chars : List Byte) :
    spaceless (chars.dropWhile isSpace) = spaceless chars := by
  induction chars with
  | nil => rfl
  | cons c rest ih =>
    by_cases hc : isSpace c = true
    · rw [List.dropWhile_cons_of_pos hc, ih]
      simp [spaceless, hc]
    · rw [List.dropWhile_cons_of_neg hc]

theorem spaceless_rdropWhile (chars : List Byte) :
    spaceless (chars.rdropWhile isSpace) = spaceless chars := by
  have hreverse : spaceless (chars.reverse.dropWhile isSpace) = spaceless chars.reverse :=
    spaceless_dropWhile chars.reverse
  rw [spaceless, spaceless] at hreverse
  rw [List.rdropWhile, spaceless, List.filter_reverse, hreverse, List.filter_reverse,
    List.reverse_reverse, spaceless]

theorem space_notMem_spaceless (chars : List Byte) : SPACE ∉ spaceless chars := by
  intro hmem
  have hnot := (List.mem_filter.mp hmem).2
  simp [isSpace] at hnot

/-- Removing all spaces removes the surrounding ones only when none is inside. -/
theorem spaceless_eq_stripped_iff : spaceless chars = stripped chars ↔ SPACE ∉ stripped chars := by
  have hsame : spaceless (stripped chars) = spaceless chars := by
    rw [stripped, spaceless_rdropWhile, spaceless_dropWhile]
  constructor
  · intro h
    rw [← h]
    exact space_notMem_spaceless chars
  · intro h
    rw [← hsame, spaceless, List.filter_eq_self]
    intro c hc
    have hne : c ≠ SPACE := fun heq => h (heq ▸ hc)
    simp [isSpace, hne]

theorem spaceless_length_lt_iff : (spaceless chars).length < chars.length ↔ SPACE ∈ chars := by
  rw [spaceless, List.length_filter_lt_length_iff_exists]
  simp [isSpace]

end Strings

section Loops

variable {size : ℕ} {chars : List Byte}

/-- The characters that are no spaces are stored from cpt on. -/
theorem gatherLoop_spec {buf : Memory} {i cpt : ℕ} (h : Terminated (advance buf i) chars)
    (hroom : cpt + chars.length ≤ size) (tmp : Memory) :
    gatherLoop size buf chars.length i cpt tmp = .ok (cpt + (spaceless chars).length,
      store tmp cpt (spaceless chars).length fun k => (spaceless chars).getD k 0) := by
  induction chars generalizing i cpt tmp with
  | nil => exact congrArg (fun m => Except.ok (cpt, m)) (store_zero tmp _ cpt).symm
  | cons c rest ih =>
    obtain ⟨hc, -, hrest⟩ := h.at_cons
    rw [List.length_cons] at hroom
    rw [List.length_cons, gatherLoop, hc]
    by_cases hspace : c = SPACE
    · have hsame : spaceless (c :: rest) = spaceless rest := by simp [spaceless, isSpace, hspace]
      rw [if_neg (not_not.mpr hspace), ih hrest (by omega), hsame]
    · have hmore : spaceless (c :: rest) = c :: spaceless rest := by
        simp [spaceless, isSpace, hspace]
      have hstore := store_succ tmp (fun k => (c :: spaceless rest).getD k 0) cpt
        (spaceless rest).length
      have htail : advance (fun k => (c :: spaceless rest).getD k 0) 1 =
          fun k => (spaceless rest).getD k 0 := by
        funext k
        rw [advance_apply, Nat.add_comm, List.getD_cons_succ]
      rw [htail, List.getD_cons_zero] at hstore
      rw [if_pos hspace, tmpSet, if_pos (by omega), ok_bind, ih hrest (by omega), hstore, hmore,
        List.length_cons, Nat.add_assoc, Nat.add_comm 1]

theorem assignLoop_spec {value : ℕ → Except Fault Byte} {f : Memory} {rounds i : ℕ}
    (h : ∀ k, i ≤ k → k < i + rounds → value k = .ok (f k)) (buf : Buffer) :
    ∃ buf', assignLoop value rounds i buf = .ok buf' ∧
      (∀ k, buf'.bytes k = if i ≤ k ∧ k < i + rounds then f k else buf.bytes k) ∧
      ∀ k ∈ buf'.written, k ∈ buf.written ∨ k < i + rounds := by
  induction rounds generalizing i buf with
  | zero =>
    refine ⟨buf, rfl, fun k => ?_, fun k hk => Or.inl hk⟩
    rw [if_neg (by omega)]
  | succ rounds ih =>
    obtain ⟨buf', hloop, hbytes, hwritten⟩ :=
      ih (i := i + 1) (fun k hle hlt => h k (by omega) (by omega)) (buf.set i (f i))
    refine ⟨buf', ?_, fun k => ?_, fun k hk => ?_⟩
    · rw [assignLoop, h i le_rfl (by omega), ok_bind, hloop]
    · rw [hbytes, Buffer.set]
      dsimp only
      by_cases hki : k = i
      · rw [if_neg (by omega), if_pos (by omega), hki, Function.update_self]
      · rw [Function.update_of_ne hki]
        by_cases hin : i + 1 ≤ k ∧ k < i + 1 + rounds
        · rw [if_pos hin, if_pos (by omega)]
        · rw [if_neg hin, if_neg (by omega)]
    · rcases hwritten k hk with hold | hlt
      · rcases List.mem_cons.mp hold with rfl | hold
        · exact Or.inr (by omega)
        · exact Or.inl hold
      · exact Or.inr (by omega)

end Loops

section Trimming

variable {chars : List Byte} {buf : Memory}

theorem gathered (h : Terminated buf chars) (tmp : Memory) :
    gatherLoop chars.length buf chars.length 0 0 tmp = .ok ((spaceless chars).length,
      store tmp 0 (spaceless chars).length fun k => (spaceless chars).getD k 0) := by
  rw [← advance_zero buf] at h
  have hroom : 0 + chars.length ≤ chars.length := (Nat.zero_add _).le
  have hloop := gatherLoop_spec h hroom tmp
  rw [Nat.zero_add] at hloop
  exact hloop

/-- Without a space the temporary array is full before its terminator. -/
theorem trim_undefined (h : Terminated buf chars) (tmp : Memory) (hspace : SPACE ∉ chars) :
    trim chars.length tmp ⟨buf, []⟩ = .error .undefined := by
  have hfull : ¬ (spaceless chars).length < chars.length :=
    fun hlt => hspace (spaceless_length_lt_iff.mp hlt)
  rw [trim, gathered h, ok_bind]
  dsimp only
  rw [tmpSet, if_neg hfull, error_bind]

/-- With one, all spaces are removed, and the rest of the string is cleared. -/
theorem trim_spec (h : Terminated buf chars) (tmp : Memory) (hspace : SPACE ∈ chars) :
    ∃ r, trim chars.length tmp ⟨buf, []⟩ = .ok r ∧ Terminated r.buf.bytes (spaceless chars) ∧
      ∀ i ∈ r.buf.written, i < chars.length := by
  have hroom : (spaceless chars).length < chars.length := spaceless_length_lt_iff.mpr hspace
  rw [trim, gathered h, ok_bind]
  dsimp only
  rw [tmpSet, if_pos hroom, ok_bind]
  set tmp' := Function.update (store tmp 0 (spaceless chars).length
    fun k => (spaceless chars).getD k 0) (spaceless chars).length 0 with htmp'
  have hcopy : ∀ k, 0 ≤ k → k < 0 + (spaceless chars).length →
      tmpGet chars.length tmp' k = .ok (tmp' k) := fun k _ hk => if_pos (by omega)
  obtain ⟨copied, hcopied, hcopiedBytes, hcopiedWritten⟩ := assignLoop_spec hcopy ⟨buf, []⟩
  have hclear : ∀ k, (spaceless chars).length ≤ k →
      k < (spaceless chars).length + (chars.length - (spaceless chars).length) →
      (.ok 0 : Except Fault Byte) = .ok 0 := fun _ _ _ => rfl
  obtain ⟨cleared, hcleared, hclearedBytes, hclearedWritten⟩ := assignLoop_spec hclear copied
  rw [hcopied, ok_bind, hcleared, ok_bind]
  refine ⟨_, rfl, ⟨fun hmem => h.zero_notMem (List.mem_filter.mp hmem).1, fun i hi => ?_⟩,
    fun i hi => ?_⟩
  · dsimp only
    rw [hclearedBytes, hcopiedBytes]
    rcases Nat.lt_or_eq_of_le hi with hlt | rfl
    · rw [if_neg (by omega), if_pos (by omega), htmp', Function.update_of_ne hlt.ne,
        store_inside _ _ (Nat.zero_le i) (by omega), Nat.sub_zero]
    · rw [if_pos (by omega), List.getD_eq_getElem?_getD, List.getElem?_eq_none le_rfl,
        Option.getD_none]
  · rcases hclearedWritten i hi with hi | hi
    · rcases hcopiedWritten i hi with hi | hi
      · exact absurd hi List.not_mem_nil
      · omega
    · omega

end Trimming

/-- trim does what it is for exactly for the strings that have a space, but none inside. -/
theorem trims_iff {chars : List Byte} {buf : Memory} (h : Terminated buf chars) (tmp : Memory) :
    Trims chars tmp buf ↔ SPACE ∈ chars ∧ SPACE ∉ stripped chars := by
  by_cases hspace : SPACE ∈ chars
  · obtain ⟨r, hr, hstring, hwritten⟩ := trim_spec h tmp hspace
    rw [and_iff_right hspace, ← spaceless_eq_stripped_iff]
    constructor
    · rintro ⟨r', hr', hstring', -⟩
      rw [hr] at hr'
      cases hr'
      rw [← advance_zero r.buf.bytes] at hstring hstring'
      exact hstring.unique hstring'
    · intro heq
      exact ⟨r, hr, heq ▸ hstring, fun i hi => (hwritten i hi).le⟩
  · refine iff_of_false ?_ fun hboth => hspace hboth.1
    rintro ⟨r, hr, -⟩
    rw [trim_undefined h tmp hspace] at hr
    cases hr

/-- The string " a". -/
theorem trims_iff_leading : Terminated (fun i => [0x20, 0x61].getD i 0) [0x20, 0x61] ∧
    Trims [0x20, 0x61] (fun _ => 0) fun i => [0x20, 0x61].getD i 0 := by
  have h : Terminated (fun i => [0x20, 0x61].getD i 0) [0x20, 0x61] := terminated_getD (by decide)
  exact ⟨h, (trims_iff h _).mpr ⟨by decide, by decide⟩⟩

/-- "a b" becomes "ab", and "ls" has no space. -/
theorem trim_inner :
    ¬ Trims [0x61, 0x20, 0x62] (fun _ => 0) (fun i => [0x61, 0x20, 0x62].getD i 0) ∧
    trim 2 (fun _ => 0) ⟨fun i => [0x6C, 0x73].getD i 0, []⟩ = .error .undefined ∧
    ¬ Trims [0x6C, 0x73] (fun _ => 0) (fun i => [0x6C, 0x73].getD i 0) := by
  have hfull : trim 2 (fun _ => 0) ⟨fun i => [0x6C, 0x73].getD i 0, []⟩ = .error .undefined := rfl
  refine ⟨?_, hfull, ?_⟩
  · rintro ⟨r, hr, hstring, -⟩
    have hbyte := hstring.byte 1 (by decide)
    cases hr
    exact absurd hbyte (by decide)
  · rintro ⟨r, hr, -⟩
    cases hr

end RathalOS.TrimmedLines
