import RathalOS.ScreenRuns
import Mathlib.Data.Nat.Digits.Lemmas

/-!
Numbers displayed by print_int of kernel/display/display.c. The digits are computed from
the last one on and displayed in reverse; the loop that does it starts at the terminator,
which is displayed first. What follows it is the numeral of a number that is not
negative, and of no other.
-/
namespace RathalOS.PrintedNumbers

open ByteMemory Screen ScreenRuns

/-- The characters print_int hands to display_carac. -/
def printIntOutput (num base : BitVec 32) : Except Fault (List Byte) := do
  let ret ← intDigits num base
  .ok (0x00 :: ret.reverse)

theorem printInt_eq (d : Display) (num base : BitVec 32) :
    printInt d num base =
      (printIntOutput num base).map fun output => output.foldl displayCarac d := by
  rw [printInt, printIntOutput]
  cases intDigits num base with
  | error e => rfl
  | ok ret => rfl

/-- The character of a digit. -/
def numeralChar (digit : ℕ) : Byte :=
  if digit < 10 then BitVec.ofNat 8 (0x30 + digit) else BitVec.ofNat 8 (0x61 + (digit - 10))

/-- The numeral of a number, without leading zeros. -/
def numeral (base n : ℕ) : List Byte :=
  if n = 0 then [0x30] else (Nat.digits base n).reverse.map numeralChar

def decimal (num : BitVec 32) : List Byte :=
  if num.toInt < 0 then 0x2D :: numeral 10 num.toInt.natAbs else numeral 10 num.toInt.natAbs

def hexadecimal (num : BitVec 32) : List Byte := numeral 16 num.toNat

/-- print_int displays the numeral of the number and nothing else, and its digits and their
terminator fit its buffer. -/
structure Canonical (num : BitVec 32) : Prop where
  decimal : printIntOutput num 10 = .ok (decimal num)
  hexadecimal : printIntOutput num 16 = .ok (hexadecimal num)
  inside : ∀ base, base = 10 ∨ base = 16 → ∃ ret, intDigits num base = .ok ret ∧ ret.length < 11

section Digits

variable {base room : ℕ}

theorem digitChar_natCast {digit : ℕ} (h : digit < 16) : digitChar digit = numeralChar digit := by
  interval_cases digit <;> rfl

/-- The digits of a number that is not negative, the last one first. -/
theorem digitsLoop_natCast (hbase : 1 < base) (hbase' : base ≤ 16) {n : ℕ}
    (h : n < base ^ room) :
    digitsLoop base (room + 1) n = .ok ((Nat.digits base n).map numeralChar) := by
  induction room generalizing n with
  | zero =>
    have hzero : n = 0 := by
      rw [pow_zero] at h
      omega
    rw [hzero, digitsLoop, if_pos Nat.cast_zero, Nat.digits_zero, List.map_nil]
  | succ room ih =>
    rw [digitsLoop]
    by_cases hzero : n = 0
    · rw [hzero, if_pos Nat.cast_zero, Nat.digits_zero, List.map_nil]
    · have hdiv : n / base < base ^ room :=
        Nat.div_lt_of_lt_mul (by rw [mul_comm, ← pow_succ]; exact h)
      have hdigit : n % base < 16 := (Nat.mod_lt n (by omega)).trans_le hbase'
      have hquot : (n : ℤ).tdiv base = ((n / base : ℕ) : ℤ) := rfl
      have hrem : (n : ℤ).tmod base = ((n % base : ℕ) : ℤ) := rfl
      rw [if_neg (by omega), if_neg (by omega), hquot, hrem, ih hdiv, ok_bind,
        Nat.digits_def' hbase (Nat.pos_of_ne_zero hzero), List.map_cons,
        digitChar_natCast hdigit]

/-- However the number is signed, it has as many digits as its absolute value. -/
theorem digitsLoop_length (hbase : 1 < base) {num : ℤ} {ret : List Byte}
    (h : digitsLoop base room num = .ok ret) :
    ret.length = (Nat.digits base num.natAbs).length := by
  induction room generalizing num ret with
  | zero => cases h
  | succ room ih =>
    rw [digitsLoop] at h
    by_cases hzero : num = 0
    · rw [if_pos hzero] at h
      cases h
      rw [hzero, Int.natAbs_zero, Nat.digits_zero]
      rfl
    · rw [if_neg hzero, if_neg (by omega)] at h
      obtain ⟨rest, hrest, h⟩ := bind_eq_ok h
      cases h
      have hdiv : (num.tdiv base).natAbs = num.natAbs / base := Int.natAbs_tdiv num base
      rw [Nat.digits_def' hbase (Int.natAbs_pos.mpr hzero), List.length_cons, List.length_cons,
        ih hrest, hdiv]

/-- The digits of a negative number are characters up to '0'. -/
theorem digitsLoop_neg_le (hbase : 1 < base) (hbase' : base ≤ 16) {n : ℕ} {ret : List Byte}
    (h : digitsLoop base room (-n) = .ok ret) : ∀ carac ∈ ret, carac.toNat ≤ 0x30 := by
  induction room generalizing n ret with
  | zero => cases h
  | succ room ih =>
    rw [digitsLoop] at h
    by_cases hzero : -(n : ℤ) = 0
    · rw [if_pos hzero] at h
      cases h
      exact fun carac hmem => absurd hmem List.not_mem_nil
    · have hquot : (-(n : ℤ)).tdiv base = -((n / base : ℕ) : ℤ) := Int.neg_tdiv n base
      have hrem : (-(n : ℤ)).tmod base = -((n % base : ℕ) : ℤ) := Int.neg_tmod n base
      rw [if_neg hzero, if_neg (by omega), hquot, hrem] at h
      obtain ⟨rest, hrest, h⟩ := bind_eq_ok h
      cases h
      have hdigit : n % base < 16 := (Nat.mod_lt n (by omega)).trans_le hbase'
      intro carac hmem
      rcases List.mem_cons.mp hmem with rfl | hmem
      · generalize n % base = digit at hdigit
        interval_cases digit <;> decide
      · exact ih hrest carac hmem

end Digits

section Numerals

variable {num base : BitVec 32} {b : ℕ}

/-- A number that is not negative means the same unsigned. -/
theorem natAbs_toInt (hnum : 0 ≤ num.toInt) : num.toInt.natAbs = num.toNat := by
  rw [BitVec.toInt_eq_toNat_cond] at hnum ⊢
  split at hnum
  · rename_i hlow
    rw [if_pos hlow]
    exact Int.natAbs_natCast _
  · have hlt := num.isLt
    omega

theorem numeral_length {n : ℕ} (h : n ≠ 0) :
    (numeral b n).length = (Nat.digits b n).length := by
  rw [numeral, if_neg h, List.length_map, List.length_reverse]

/-- A numeral other than '0' has a character above '0', its first one. -/
theorem exists_numeral_gt (hbase : 1 < b) (hbase' : b ≤ 16) {n : ℕ} (h : n ≠ 0) :
    ∃ carac ∈ numeral b n, 0x30 < carac.toNat := by
  have hne : Nat.digits b n ≠ [] := Nat.digits_ne_nil_iff_ne_zero.mpr h
  have hlast := Nat.getLast_digit_ne_zero b h
  have hmem := List.getLast_mem hne
  have hlt := (Nat.digits_lt_base hbase hmem).trans_le hbase'
  refine ⟨numeralChar ((Nat.digits b n).getLast hne), ?_, ?_⟩
  · rw [numeral, if_neg h]
    exact List.mem_map_of_mem (List.mem_reverse.mpr hmem)
  · generalize (Nat.digits b n).getLast hne = digit at hlast hlt
    interval_cases digit
    · exact absurd rfl hlast
    all_goals decide

theorem intDigits_of_nonneg (hbase : base.toInt = b) (hlow : 10 ≤ b) (hhigh : b ≤ 16)
    (hnum : 0 ≤ num.toInt) :
    intDigits num base = .ok (numeral b num.toInt.natAbs).reverse := by
  rw [intDigits, numeral]
  by_cases hzero : num = 0
  · rw [if_pos hzero, hzero, if_pos (by decide)]
    rfl
  · have hne : num.toInt ≠ 0 := fun h => hzero (BitVec.eq_of_toInt_eq h)
    have hpow : 10 ^ 10 ≤ b ^ 10 := Nat.pow_le_pow_left hlow 10
    have hlt := BitVec.toInt_lt (x := num)
    have hcast : num.toInt = (num.toInt.natAbs : ℤ) := (Int.natAbs_of_nonneg hnum).symm
    have hdigits : digitsLoop b (10 + 1) (num.toInt.natAbs : ℕ) =
        .ok ((Nat.digits b num.toInt.natAbs).map numeralChar) :=
      digitsLoop_natCast (by omega) hhigh (by omega)
    rw [if_neg hzero, if_neg (Int.natAbs_ne_zero.mpr hne), hbase, hcast, hdigits,
      Int.natAbs_natCast, List.map_reverse, List.reverse_reverse]

/-- A number that is not negative is displayed with its numeral behind the terminator. -/
theorem printIntOutput_of_nonneg (hbase : base.toInt = b) (hlow : 10 ≤ b) (hhigh : b ≤ 16)
    (hnum : 0 ≤ num.toInt) :
    printIntOutput num base = .ok (0x00 :: numeral b num.toInt.natAbs) := by
  rw [printIntOutput, intDigits_of_nonneg hbase hlow hhigh hnum, ok_bind, List.reverse_reverse]

/-- What is displayed of a negative number. -/
theorem printIntOutput_neg (hbase : base.toInt = b) (hlow : 10 ≤ b) (hhigh : b ≤ 16)
    (hnum : num.toInt < 0) {output : List Byte}
    (h : printIntOutput num base = .ok (0x00 :: output)) :
    output.length = (Nat.digits b num.toInt.natAbs).length ∧
      ∀ carac ∈ output, carac.toNat ≤ 0x30 := by
  have hzero : num ≠ 0 := by
    rintro rfl
    exact absurd hnum (by decide)
  have hcast : num.toInt = -(num.toInt.natAbs : ℤ) := by omega
  obtain ⟨ret, hret, h⟩ := bind_eq_ok h
  have houtput : output = ret.reverse := (List.cons.inj (Except.ok.inj h)).2.symm
  rw [intDigits, if_neg hzero, hbase] at hret
  have hlength := digitsLoop_length (by omega) hret
  rw [hcast] at hret
  have hle := digitsLoop_neg_le (by omega) hhigh hret
  rw [houtput, List.length_reverse]
  exact ⟨hlength, fun carac hmem => hle carac (List.mem_reverse.mp hmem)⟩

/-- Behind the terminator the decimal numeral follows if the number is not negative. -/
theorem printIntOutput_decimal_iff (num : BitVec 32) :
    printIntOutput num 10 = .ok (0x00 :: decimal num) ↔ 0 ≤ num.toInt := by
  have hbase : (10 : BitVec 32).toInt = (10 : ℕ) := by decide
  constructor
  · intro h
    by_contra hneg
    have hnum : num.toInt < 0 := Int.not_le.mp hneg
    obtain ⟨hlength, -⟩ := printIntOutput_neg hbase le_rfl (by decide) hnum h
    rw [decimal, if_pos hnum, List.length_cons,
      numeral_length (Int.natAbs_ne_zero.mpr hnum.ne)] at hlength
    omega
  · intro hnum
    rw [decimal, if_neg (Int.not_lt.mpr hnum)]
    exact printIntOutput_of_nonneg hbase le_rfl (by decide) hnum

/-- And likewise the hexadecimal one. -/
theorem printIntOutput_hexadecimal_iff (num : BitVec 32) :
    printIntOutput num 16 = .ok (0x00 :: hexadecimal num) ↔ 0 ≤ num.toInt := by
  have hbase : (16 : BitVec 32).toInt = (16 : ℕ) := by decide
  constructor
  · intro h
    by_contra hneg
    have hnum : num.toInt < 0 := Int.not_le.mp hneg
    have hne : num.toNat ≠ 0 := by
      intro hzero
      rw [BitVec.eq_of_toNat_eq (y := 0) hzero] at hnum
      exact absurd hnum (by decide)
    obtain ⟨-, hle⟩ := printIntOutput_neg hbase (by decide) le_rfl hnum h
    obtain ⟨carac, hmem, hgt⟩ := exists_numeral_gt (b := 16) (by decide) le_rfl hne
    exact absurd (hle carac hmem) (Nat.not_le.mpr hgt)
  · intro hnum
    rw [hexadecimal, ← natAbs_toInt hnum]
    exact printIntOutput_of_nonneg hbase (by decide) le_rfl hnum

/-- The terminator is displayed and is no character of a numeral. -/
theorem not_canonical (num : BitVec 32) : ¬ Canonical num := by
  intro h
  have houtput := h.decimal
  rcases Int.lt_or_le num.toInt 0 with hneg | hnum
  · rw [decimal, if_pos hneg] at houtput
    obtain ⟨ret, -, hret⟩ := bind_eq_ok houtput
    have hhead : (0x00 : Byte) = 0x2D := (List.cons.inj (Except.ok.inj hret)).1
    exact absurd hhead (by decide)
  · rw [(printIntOutput_decimal_iff num).mpr hnum] at houtput
    exact List.cons_ne_self _ _ (Except.ok.inj houtput)

/-- The digits and the terminator fit the buffer in a base from ten on. -/
theorem intDigits_length (num : BitVec 32) (hbase : base.toInt = b) (hlow : 10 ≤ b) :
    ∃ ret, intDigits num base = .ok ret ∧ ret.length < 11 := by
  have hfits : DigitsFit num base := digitsFit_of_le num (by omega)
  by_cases hzero : num = 0
  · exact ⟨[0x30], if_pos hzero, by decide⟩
  · have hpow : 10 ^ 10 ≤ b ^ 10 := Nat.pow_le_pow_left hlow 10
    have hlt := BitVec.toInt_lt (x := num)
    have hle := BitVec.le_toInt num
    obtain ⟨ret, hret⟩ := digitsLoop_returns (hfits.resolve_left hzero)
    refine ⟨ret, ?_, ?_⟩
    · rw [intDigits, if_neg hzero, hret]
    · rw [hbase] at hret
      rw [digitsLoop_length (by omega) hret]
      exact Nat.lt_succ_of_le ((Nat.digits_length_le_iff (by omega) _).mpr (by omega))

end Numerals

/-- print_int displays the terminator before the digits, so that no number is displayed as
its numeral alone. What follows the terminator is the numeral of every number that is not
negative, and of no other. -/
theorem printInt_never_canonical (num : BitVec 32) :
    ¬ Canonical num ∧
      (printIntOutput num 10 = .ok (0x00 :: decimal num) ↔ 0 ≤ num.toInt) ∧
      (printIntOutput num 16 = .ok (0x00 :: hexadecimal num) ↔ 0 ≤ num.toInt) ∧
      ∀ base, base = 10 ∨ base = 16 → ∃ ret, intDigits num base = .ok ret ∧ ret.length < 11 := by
  refine ⟨not_canonical num, printIntOutput_decimal_iff num, printIntOutput_hexadecimal_iff num,
    ?_⟩
  rintro base (rfl | rfl)
  · exact intDigits_length num (by decide : (10 : BitVec 32).toInt = (10 : ℕ)) le_rfl
  · exact intDigits_length num (by decide : (16 : BitVec 32).toInt = (16 : ℕ)) (by decide)

/-- The number 7. -/
theorem printInt_seven :
    printIntOutput 7 10 = .ok [0x00, 0x37] ∧ ¬ Canonical 7 := by
  refine ⟨by decide, not_canonical 7⟩

end RathalOS.PrintedNumbers
