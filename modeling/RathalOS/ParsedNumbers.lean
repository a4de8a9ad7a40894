import RathalOS.CStrings
import RathalOS.PrintedNumbers

/-!
Numbers parsed by atoi of user/wrapper.c. The loop takes the digits from the first one on,
with arithmetic that wraps around: adding a character before subtracting '0' may leave the
range of an int, but comes out right. The parser undoes what print_int displays.
-/
namespace RathalOS.ParsedNumbers

open ByteMemory CStrings Screen PrintedNumbers

/-- `res*10 + str[i] - '0'`, where a char is signed. -/
def atoiRound (res : BitVec 32) (c : Byte) : BitVec 32 := res * 10 + c.signExtend 32 - 0x30

/-- The loop of atoi from position i on, if it ends before the fuel does. -/
def atoiLoop (str : Memory) : ℕ → ℕ → BitVec 32 → Option (BitVec 32)
  | 0, _, _ => none
  | fuel + 1, i, res =>
    if str i = 0 then some res else atoiLoop str fuel (i + 1) (atoiRound res (str i))

def atoi (fuel : ℕ) (str : Memory) : Option (BitVec 32) := atoiLoop str fuel 0 0

section Loop

variable {str : Memory} {chars : List Byte}

theorem atoiLoop_spec {fuel i : ℕ} {res : BitVec 32} (h : Terminated (advance str i) chars)
    (hfuel : chars.length < fuel) :
    atoiLoop str fuel i res = some (chars.foldl atoiRound res) := by
  induction fuel generalizing chars i res with
  | zero => exact absurd hfuel (Nat.not_lt_zero _)
  | succ fuel ih =>
    rw [atoiLoop]
    cases chars with
    | nil => rw [if_pos h.at_nil, List.foldl_nil]
    | cons c rest =>
      obtain ⟨hc, hne, hrest⟩ := h.at_cons
      rw [hc, if_neg hne, ih hrest (Nat.lt_of_succ_lt_succ hfuel), List.foldl_cons]

theorem atoi_spec {fuel : ℕ} (h : Terminated str chars) (hfuel : chars.length < fuel) :
    atoi fuel str = some (chars.foldl atoiRound 0) := by
  rw [← advance_zero str] at h
  exact atoiLoop_spec h hfuel

end Loop

section Digits

theorem numeralChar_ne_zero {digit : ℕ} (h : digit < 10) : numeralChar digit ≠ 0 := by
  interval_cases digit <;> decide

/-- A round over the character of a digit. -/
theorem atoiRound_digit {digit : ℕ} (h : digit < 10) (n : ℕ) :
    atoiRound (BitVec.ofNat 32 n) (numeralChar digit) = BitVec.ofNat 32 (digit + 10 * n) := by
  have hchar : (numeralChar digit).signExtend 32 = BitVec.ofNat 32 digit + 0x30 := by
    interval_cases digit <;> decide
  have hten : BitVec.ofNat 32 10 = 10 := rfl
  rw [atoiRound, hchar, ← BitVec.add_assoc, BitVec.add_sub_cancel, Nat.add_comm, BitVec.ofNat_add,
    BitVec.ofNat_mul, BitVec.mul_comm, hten]

/-- The digits are read from the last one of the list on. -/
theorem foldr_atoiRound {digits : List ℕ} (h : ∀ digit ∈ digits, digit < 10) :
    digits.foldr (fun digit res => atoiRound res (numeralChar digit)) 0 =
      BitVec.ofNat 32 (Nat.ofDigits 10 digits) := by
  induction digits with
  | nil => rfl
  | cons digit rest ih =>
    have hrest := ih fun d hd => h d (List.mem_cons_of_mem digit hd)
    rw [List.foldr_cons, hrest, atoiRound_digit (h digit List.mem_cons_self), Nat.ofDigits_cons]

theorem foldl_numeral (n : ℕ) : (numeral 10 n).foldl atoiRound 0 = BitVec.ofNat 32 n := by
  rw [numeral]
  by_cases hzero : n = 0
  · rw [if_pos hzero, hzero]
    decide
  · have hdigits : ∀ digit ∈ Nat.digits 10 n, digit < 10 := fun digit hdigit =>
      Nat.digits_lt_base (by decide) hdigit
    rw [if_neg hzero, List.foldl_map, List.foldl_reverse, foldr_atoiRound hdigits,
      Nat.ofDigits_digits]

theorem zero_notMem_numeral (n : ℕ) : (0 : Byte) ∉ numeral 10 n := by
  rw [numeral]
  split
  · decide
  · intro hmem
    obtain ⟨digit, hdigit, hzero⟩ := List.mem_map.mp hmem
    have hlt := Nat.digits_lt_base (by decide) (List.mem_reverse.mp hdigit)
    exact numeralChar_ne_zero hlt hzero

end Digits

/-- What print_int displays of a number that is not negative is parsed as this number, when
the terminator it also displays is left out. -/
theorem atoi_printInt {n : BitVec 32} (hn : 0 ≤ n.toInt) : ∃ output,
    printIntOutput n 10 = .ok output ∧ ∀ str fuel, Terminated str (output.filter (· ≠ 0)) →
      output.length ≤ fuel → atoi fuel str = some n := by
  have hbase : (10 : BitVec 32).toInt = (10 : ℕ) := by decide
  refine ⟨0x00 :: numeral 10 n.toInt.natAbs,
    printIntOutput_of_nonneg hbase le_rfl (by decide) hn, fun str fuel hstr hfuel => ?_⟩
  have hchars : (0x00 :: numeral 10 n.toInt.natAbs).filter (· ≠ 0) =
      numeral 10 n.toInt.natAbs := by
    rw [List.filter_cons_of_neg (by decide), List.filter_eq_self]
    intro c hc
    exact decide_eq_true fun hzero => zero_notMem_numeral _ (hzero ▸ hc)
  rw [hchars] at hstr
  have hvalue : BitVec.ofNat 32 n.toInt.natAbs = n := by
    rw [natAbs_toInt hn, BitVec.ofNat_toNat, BitVec.setWidth_eq]
  rw [atoi_spec hstr hfuel, foldl_numeral, hvalue]

/-- The largest int. -/
theorem atoi_printInt_max : 0 ≤ (0x7FFFFFFF : BitVec 32).toInt ∧ ∃ output str,
    printIntOutput 0x7FFFFFFF 10 = .ok output ∧ Terminated str (output.filter (· ≠ 0)) ∧
      atoi output.length str = some 0x7FFFFFFF := by
  have hn : 0 ≤ (0x7FFFFFFF : BitVec 32).toInt := by decide
  obtain ⟨output, hprint, hparse⟩ := atoi_printInt hn
  have hzero : (0 : Byte) ∉ output.filter (· ≠ 0) := fun hmem =>
    absurd rfl (of_decide_eq_true (List.mem_filter.mp hmem).2)
  have hstr := terminated_getD hzero
  exact ⟨hn, output, _, hprint, hstr, hparse _ _ hstr le_rfl⟩

end RathalOS.ParsedNumbers
