import RathalOS.StringOrder
import RathalOS.TrimmedLines

/-!
Command lines of the shell, user/shell_bak.c, and starts_with of user/wrapper.c, which tells
commands with an argument. It compares the string with the line from its second character
on, terminator included, so that it finds the lines that are the string without its first
character, and no line that begins with the string.
-/
namespace RathalOS.CommandLines

open ByteMemory CStrings TrimmedLines

/-- The loop of starts_with from position i on, with some rounds left: what it returns, and
the positions at which it read the line. -/
def startsWithLoop (str line : Memory) : ℕ → ℕ → ℤ × List ℕ
  | 0, _ => (1, [])
  | rounds + 1, i =>
    if str (i + 1) ≠ line i then (0, [i])
    else
      let (ret, read) := startsWithLoop str line rounds (i + 1)
      (ret, i :: read)

/-- `starts_with`, with the length of str that strlen returns. -/
def startsWith (size : ℕ) (str line : Memory) : ℤ × List ℕ := startsWithLoop str line size 0

/-- starts_with decides whether the line begins with the string, and reads nothing behind
its terminator. -/
structure Decides (str line : Memory) (s l : List Byte) : Prop where
  ret_iff : (startsWith s.length str line).1 = 1 ↔ s <+: l
  within : ∀ k ∈ (startsWith s.length str line).2, k ≤ l.length

def HELP : List Byte := [0x68, 0x65, 0x6C, 0x70]
def CAT : List Byte := [0x63, 0x61, 0x74, 0x20]
def SLEEP : List Byte := [0x73, 0x6C, 0x65, 0x65, 0x70, 0x20]
def LS : List Byte := [0x6C, 0x73]
def TICKS : List Byte := [0x74, 0x69, 0x63, 0x6B, 0x73]
def RM : List Byte := [0x72, 0x6D, 0x20]
def EXIT : List Byte := [0x65, 0x78, 0x69, 0x74]

def literal (chars : List Byte) : Memory := fun i => chars.getD i 0

/-- The branches of the loop of run. -/
inductive Command
  | again
  | help
  | cat
  | sleep
  | ls
  | ticks
  | rm
  | exit
  | program
  deriving DecidableEq

/-- The branch that the loop of run takes for a line. -/
def command (strcmp : Memory → Memory → ℤ) (line : Memory) : Command :=
  if line 0 = 0 then .again
  else if strcmp (literal HELP) line = 0 then .help
  else if (startsWith CAT.length (literal CAT) line).1 ≠ 0 then .cat
  else if (startsWith SLEEP.length (literal SLEEP) line).1 ≠ 0 then .sleep
  else if strcmp (literal LS) line = 0 then .ls
  else if strcmp (literal TICKS) line = 0 then .ticks
  else if (startsWith RM.length (literal RM) line).1 ≠ 0 then .rm
  else if strcmp (literal EXIT) line = 0 then .exit
  else .program

/-- Exactly the lines that begin with the name of a command go to it. -/
structure Dispatches (strcmp : Memory → Memory → ℤ) (line : Memory) (l : List Byte) : Prop where
  cat_iff : command strcmp line = .cat ↔ CAT <+: l
  sleep_iff : command strcmp line = .sleep ↔ SLEEP <+: l
  rm_iff : command strcmp line = .rm ↔ RM <+: l

/-- The line begins with the name of a command that has an argument. -/
def HasArgument (l : List Byte) : Prop := CAT <+: l ∨ SLEEP <+: l ∨ RM <+: l

/-- The line is the name of such a command without its first character, and no comparison
before takes it. -/
def Mistaken (strcmp : Memory → Memory → ℤ) (line : Memory) (l : List Byte) : Prop :=
  strcmp (literal HELP) line ≠ 0 ∧ (l = CAT.tail ∨ l = SLEEP.tail ∨
    (l = RM.tail ∧ strcmp (literal LS) line ≠ 0 ∧ strcmp (literal TICKS) line ≠ 0))

section Prefixes

variable {str line : Memory} {s l : List Byte}

/-- The rest of the line is the rest of the string without its first character. -/
theorem startsWithLoop_spec {i : ℕ} (hs : Terminated (advance str i) s)
    (hl : Terminated (advance line i) l) :
    (startsWithLoop str line s.length i).1 = (if s = [] ∨ l = s.tail then 1 else 0) ∧
      ∀ k ∈ (startsWithLoop str line s.length i).2, k ≤ i + l.length := by
  induction s generalizing l i with
  | nil => exact ⟨rfl, fun k hk => absurd hk List.not_mem_nil⟩
  | cons c rest ih =>
    have hhere : ∀ k ∈ [i], k ≤ i + l.length := by
      intro k hk
      rw [List.mem_singleton.mp hk]
      exact Nat.le_add_right _ _
    obtain ⟨-, -, hs'⟩ := hs.at_cons
    rw [List.length_cons, startsWithLoop, List.tail_cons]
    cases rest with
    | nil =>
      -- The terminator of the string is compared with the line.
      cases l with
      | nil =>
        rw [hs'.at_nil, hl.at_nil, if_neg (not_not.mpr rfl), if_pos (Or.inr rfl)]
        exact ⟨rfl, hhere⟩
      | cons b l =>
        obtain ⟨hb, hne, -⟩ := hl.at_cons
        rw [hs'.at_nil, hb, if_pos hne.symm, if_neg (by simp)]
        exact ⟨rfl, hhere⟩
    | cons c' rest =>
      obtain ⟨hc', hne, -⟩ := hs'.at_cons
      cases l with
      | nil =>
        rw [hc', hl.at_nil, if_pos hne, if_neg (by simp)]
        exact ⟨rfl, hhere⟩
      | cons b l =>
        obtain ⟨hb, -, hl'⟩ := hl.at_cons
        rw [hc', hb]
        by_cases hsame : c' = b
        · obtain ⟨hret, hread⟩ := ih hs' hl'
          rw [if_neg (not_not.mpr hsame)]
          refine ⟨?_, fun k hk => ?_⟩
          · rw [hret, hsame]
            simp
          · rcases List.mem_cons.mp hk with rfl | hk
            · exact Nat.le_add_right _ _
            · have hle := hread k hk
              rw [List.length_cons]
              omega
        · rw [if_pos hsame, if_neg (by simp [Ne.symm hsame])]
          exact ⟨rfl, hhere⟩

theorem startsWith_spec (hs : Terminated str s) (hl : Terminated line l) :
    (startsWith s.length str line).1 = (if s = [] ∨ l = s.tail then 1 else 0) ∧
      ∀ k ∈ (startsWith s.length str line).2, k ≤ l.length := by
  rw [← advance_zero str] at hs
  rw [← advance_zero line] at hl
  obtain ⟨hret, hread⟩ := startsWithLoop_spec hs hl
  refine ⟨hret, fun k hk => ?_⟩
  rw [← Nat.zero_add l.length]
  exact hread k hk

/-- A string that is not empty begins no line that is its rest. -/
theorem not_prefix_tail (hne : s ≠ []) : ¬ s <+: s.tail := by
  intro hprefix
  have hle := hprefix.length_le
  rw [List.length_tail] at hle
  have hpos := List.length_pos_iff.mpr hne
  omega

theorem decides_iff (hs : Terminated str s) (hl : Terminated line l) :
    Decides str line s l ↔ s = [] ∨ (¬ s <+: l ∧ l ≠ s.tail) := by
  obtain ⟨hret, hread⟩ := startsWith_spec hs hl
  have hone : (startsWith s.length str line).1 = 1 ↔ s = [] ∨ l = s.tail := by
    rw [hret]
    split
    · exact iff_of_true rfl (by assumption)
    · exact iff_of_false (by decide) (by assumption)
  have hsame : Decides str line s l ↔ (s = [] ∨ l = s.tail ↔ s <+: l) :=
    ⟨fun h => hone.symm.trans h.ret_iff, fun h => ⟨hone.trans h, hread⟩⟩
  rw [hsame]
  by_cases hempty : s = []
  · subst hempty
    exact iff_of_true (iff_of_true (Or.inl rfl) List.nil_prefix) (Or.inl rfl)
  · rw [or_iff_right hempty, or_iff_right hempty]
    constructor
    · intro h
      have hnot : l ≠ s.tail := fun heq =>
        not_prefix_tail hempty (heq ▸ h.mp heq)
      exact ⟨fun hprefix => hnot (h.mpr hprefix), hnot⟩
    · intro h
      exact iff_of_false h.2 h.1

end Prefixes

section Dispatch

variable {strcmp : Memory → Memory → ℤ} {line : Memory} {s l : List Byte}

theorem literal_terminated (h : 0 ∉ s) : Terminated (literal s) s := terminated_getD h

/-- What the test of a branch with an argument finds. -/
theorem startsWith_literal (hs : 0 ∉ s) (hne : s ≠ []) (hl : Terminated line l) :
    (startsWith s.length (literal s) line).1 ≠ 0 ↔ l = s.tail := by
  rw [(startsWith_spec (literal_terminated hs) hl).1]
  by_cases htail : l = s.tail
  · rw [if_pos (Or.inr htail)]
    exact iff_of_true one_ne_zero htail
  · rw [if_neg (not_or.mpr ⟨hne, htail⟩)]
    exact iff_of_false (not_not.mpr rfl) htail

theorem first_eq_zero_iff (hl : Terminated line l) : line 0 = 0 ↔ l = [] := by
  rw [← advance_zero line] at hl
  cases l with
  | nil => exact iff_of_true hl.at_nil rfl
  | cons b rest =>
    obtain ⟨hb, hne, -⟩ := hl.at_cons
    exact iff_of_false (fun hzero => hne (hb.symm.trans hzero)) (List.cons_ne_nil b rest)

theorem command_cases (hl : Terminated line l) (strcmp : Memory → Memory → ℤ) :
    (command strcmp line = .cat ↔ strcmp (literal HELP) line ≠ 0 ∧ l = CAT.tail) ∧
    (command strcmp line = .sleep ↔ strcmp (literal HELP) line ≠ 0 ∧ l = SLEEP.tail) ∧
    (command strcmp line = .rm ↔ strcmp (literal HELP) line ≠ 0 ∧ l = RM.tail ∧
      strcmp (literal LS) line ≠ 0 ∧ strcmp (literal TICKS) line ≠ 0) := by
  have hempty := first_eq_zero_iff hl
  have hcat := startsWith_literal (s := CAT) (by decide) (by decide) hl
  have hsleep := startsWith_literal (s := SLEEP) (by decide) (by decide) hl
  have hrm := startsWith_literal (s := RM) (by decide) (by decide) hl
  have hcatNe : CAT.tail ≠ [] ∧ CAT.tail ≠ SLEEP.tail ∧ CAT.tail ≠ RM.tail := by decide
  have hsleepNe : SLEEP.tail ≠ [] ∧ SLEEP.tail ≠ RM.tail := by decide
  have hrmNe : RM.tail ≠ [] := by decide
  -- The tails differ, so that at most one of the tests with an argument succeeds.
  unfold command
  simp only [hempty, hcat, hsleep, hrm]
  split_ifs <;> grind

/-- A branch that is taken for one kind of lines only, and never for those it is for. -/
theorem taken_iff {taken other : Prop} (begins : Prop) (h : taken ↔ other)
    (hnot : begins → ¬ other) : (taken ↔ begins) ↔ ¬ begins ∧ ¬ other := by
  rw [h]
  constructor
  · intro hiff
    have hbegins : ¬ begins := fun hb => hnot hb (hiff.mpr hb)
    exact ⟨hbegins, fun ho => hbegins (hiff.mp ho)⟩
  · intro hneither
    exact iff_of_false hneither.2 hneither.1

/-- A line that begins with the name of a command is not the rest of it. -/
theorem ne_tail_of_prefix (hne : s ≠ []) (h : s <+: l) : l ≠ s.tail :=
  fun heq => not_prefix_tail hne (heq ▸ h)

theorem dispatches_iff (hl : Terminated line l) :
    Dispatches strcmp line l ↔ ¬ HasArgument l ∧ ¬ Mistaken strcmp line l := by
  obtain ⟨hcat, hsleep, hrm⟩ := command_cases hl strcmp
  have hcat' := taken_iff (CAT <+: l) hcat
    fun h hother => ne_tail_of_prefix (by decide) h hother.2
  have hsleep' := taken_iff (SLEEP <+: l) hsleep
    fun h hother => ne_tail_of_prefix (by decide) h hother.2
  have hrm' := taken_iff (RM <+: l) hrm
    fun h hother => ne_tail_of_prefix (by decide) h hother.2.1
  have hparts : Dispatches strcmp line l ↔ (command strcmp line = .cat ↔ CAT <+: l) ∧
      (command strcmp line = .sleep ↔ SLEEP <+: l) ∧ (command strcmp line = .rm ↔ RM <+: l) :=
    ⟨fun h => ⟨h.cat_iff, h.sleep_iff, h.rm_iff⟩, fun h => ⟨h.1, h.2.1, h.2.2⟩⟩
  rw [hparts, hcat', hsleep', hrm']
  constructor
  · rintro ⟨⟨hcat, hcat'⟩, ⟨hsleep, hsleep'⟩, hrm, hrm'⟩
    constructor
    · rintro (h | h | h)
      · exact hcat h
      · exact hsleep h
      · exact hrm h
    · rintro ⟨hhelp, h | h | ⟨h, hbefore⟩⟩
      · exact hcat' ⟨hhelp, h⟩
      · exact hsleep' ⟨hhelp, h⟩
      · exact hrm' ⟨hhelp, h, hbefore⟩
  · rintro ⟨hnone, hnot⟩
    exact ⟨⟨fun h => hnone (Or.inl h), fun h => hnot ⟨h.1, Or.inl h.2⟩⟩,
      ⟨fun h => hnone (Or.inr (Or.inl h)), fun h => hnot ⟨h.1, Or.inr (Or.inl h.2)⟩⟩,
      fun h => hnone (Or.inr (Or.inr h)), fun h => hnot ⟨h.1, Or.inr (Or.inr h.2)⟩⟩

/-- No line that trim passes on goes to a command with an argument: the space is removed. -/
theorem command_of_trimmed {chars : List Byte} {buf : Memory} (h : Terminated buf chars)
    {tmp : Memory} {r : Trimmed} (hr : trim chars.length tmp ⟨buf, []⟩ = .ok r) :
    command strcmp r.buf.bytes ≠ .cat ∧ command strcmp r.buf.bytes ≠ .sleep ∧
      command strcmp r.buf.bytes ≠ .rm := by
  have hspace : SPACE ∈ chars := by
    by_contra hnone
    rw [trim_undefined h tmp hnone] at hr
    cases hr
  obtain ⟨r', hr', hline, -⟩ := trim_spec h tmp hspace
  rw [hr] at hr'
  cases hr'
  have hnone : ∀ l, SPACE ∈ l → spaceless chars ≠ l := fun l hl heq =>
    space_notMem_spaceless chars (heq ▸ hl)
  obtain ⟨hcat, hsleep, hrm⟩ := command_cases hline strcmp
  exact ⟨fun hc => hnone _ (by decide) (hcat.mp hc).2,
    fun hc => hnone _ (by decide) (hsleep.mp hc).2, fun hc => hnone _ (by decide) (hrm.mp hc).2.1⟩

end Dispatch

/-- starts_with decides the prefix relation exactly for the empty string, and for lines that
neither begin with the string nor are the rest of it; the commands with an argument are told
exactly from lines that are no such command and no rest of the name of one. -/
theorem startsWith_iff {str line : Memory} {s l : List Byte} (hs : Terminated str s)
    (hl : Terminated line l) (strcmp : Memory → Memory → ℤ) :
    (Decides str line s l ↔ s = [] ∨ (¬ s <+: l ∧ l ≠ s.tail)) ∧
      (Dispatches strcmp line l ↔ ¬ HasArgument l ∧ ¬ Mistaken strcmp line l) :=
  ⟨decides_iff hs hl, dispatches_iff hl⟩

/-- The strcmp of the kernel, for a first string of five characters at most. -/
def kernelStrcmp (p q : Memory) : ℤ := ((StringOrder.strcmp 6 p q).map Prod.fst).getD 0

/-- The string "cat " and a line without it. -/
theorem startsWith_iff_other : Terminated (literal CAT) CAT ∧
    Terminated (literal LS) LS ∧ Decides (literal CAT) (literal LS) CAT LS ∧
    Dispatches kernelStrcmp (literal LS) LS := by
  have hs : Terminated (literal CAT) CAT := literal_terminated (by decide)
  have hl : Terminated (literal LS) LS := literal_terminated (by decide)
  obtain ⟨hdecides, hdispatches⟩ := startsWith_iff hs hl kernelStrcmp
  exact ⟨hs, hl, hdecides.mpr (Or.inr ⟨by decide, by decide⟩),
    hdispatches.mpr ⟨by unfold HasArgument; decide, by unfold Mistaken; decide⟩⟩

/-- The line "cat a" is not found, and "at " is taken for it. -/
theorem startsWith_cat :
    (startsWith 4 (literal CAT) (literal (CAT ++ [0x61]))).1 = 0 ∧
    ¬ Decides (literal CAT) (literal (CAT ++ [0x61])) CAT (CAT ++ [0x61]) ∧
    (startsWith 4 (literal CAT) (literal CAT.tail)).1 = 1 ∧
    command kernelStrcmp (literal (CAT ++ [0x61])) = .program ∧
    command kernelStrcmp (literal CAT.tail) = .cat := by
  have hzero : (startsWith 4 (literal CAT) (literal (CAT ++ [0x61]))).1 = 0 := by decide
  refine ⟨hzero, fun h => ?_, by decide, by decide, by decide⟩
  have hone := h.ret_iff.mpr (List.prefix_append _ _)
  exact absurd (hzero.symm.trans hone) (by decide)

end RathalOS.CommandLines
