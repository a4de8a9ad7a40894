import RathalOS.ByteMemory

/-!
A stack kept in memory, below a pointer that wraps around with the addresses, refines
a list of words. Straight-line programs push, pop and move registers of any type; a
program that runs on a list runs in memory in the same way, whatever else the list
holds. As the list may be all of memory but the words pushed, this says as well that
nothing else is written. Nothing here depends on a particular program.
-/
namespace RathalOS.MemoryStacks

open ByteMemory

/-- An address, and what a slot of the stack holds. -/
abbrev Word := BitVec 32

def loadWord (m : Word → Byte) (a : Word) : Word := read32 (fun k => m (a + BitVec.ofNat 32 k)) 0

def storeWord (m : Word → Byte) (a v : Word) : Word → Byte :=
  fun b => if (b - a).toNat < 4 then byteAt v.toNat (b - a).toNat else m b

theorem loadWord_congr {m m' : Word → Byte} {a a' : Word}
    (h : ∀ k < 4, m (a + BitVec.ofNat 32 k) = m' (a' + BitVec.ofNat 32 k)) :
    loadWord m a = loadWord m' a' :=
  read32_congr (by simpa using h)

theorem offset_toNat (a : Word) {k : ℕ} (hk : k < 2 ^ 32) :
    (a + BitVec.ofNat 32 k - a).toNat = k := by
  rw [BitVec.add_comm, BitVec.add_sub_cancel, BitVec.toNat_ofNat, Nat.mod_eq_of_lt hk]

@[simp] theorem loadWord_storeWord (m : Word → Byte) (a v : Word) :
    loadWord (storeWord m a v) a = v := by
  apply read32_byteAt
  intro k hk
  have hoff : (a + BitVec.ofNat 32 (0 + k) - a).toNat = k := by
    rw [Nat.zero_add]
    exact offset_toNat a (by omega)
  simp only [storeWord, hoff, if_pos hk]

/-- The words at an address and above are these. -/
def Holds (m : Word → Byte) : Word → List Word → Prop
  | _, [] => True
  | a, v :: vs => loadWord m a = v ∧ Holds m (a + 4) vs

/-- The words at an address and above, so many of them. -/
def wordsAt (m : Word → Byte) : Word → ℕ → List Word
  | _, 0 => []
  | a, n + 1 => loadWord m a :: wordsAt m (a + 4) n

theorem holds_wordsAt (m : Word → Byte) (a : Word) (n : ℕ) : Holds m a (wordsAt m a n) := by
  induction n generalizing a with
  | zero => trivial
  | succ n ih => exact ⟨rfl, ih (a + 4)⟩

section Holds

variable {m m' : Word → Byte} {a v : Word} {vs ws : List Word}

/-- The bytes a list of words takes decide whether it is held. -/
theorem Holds.congr (h : Holds m a vs) {b : Word}
    (heq : ∀ k < 4 * vs.length, m' (b + BitVec.ofNat 32 k) = m (a + BitVec.ofNat 32 k)) :
    Holds m' b vs := by
  induction vs generalizing a b with
  | nil => trivial
  | cons w ws ih =>
    obtain ⟨hload, hrest⟩ := h
    rw [List.length_cons] at heq
    have hnext : ∀ (c : Word) (k : ℕ), c + 4 + BitVec.ofNat 32 k = c + BitVec.ofNat 32 (4 + k) := by
      intro c k
      rw [BitVec.ofNat_add, ← BitVec.add_assoc]
      rfl
    refine ⟨?_, ih hrest fun k hk => ?_⟩
    · rw [← hload]
      exact loadWord_congr fun k hk => heq k (by omega)
    · rw [hnext, hnext]
      exact heq (4 + k) (by omega)

theorem holds_append : Holds m a (vs ++ ws) ↔
    Holds m a vs ∧ Holds m (a + BitVec.ofNat 32 (4 * vs.length)) ws := by
  induction vs generalizing a with
  | nil => simp [Holds]
  | cons w vs ih =>
    have hnext : a + 4 + BitVec.ofNat 32 (4 * vs.length) =
        a + BitVec.ofNat 32 (4 * (w :: vs).length) := by
      rw [List.length_cons, Nat.mul_add, Nat.add_comm, BitVec.ofNat_add, ← BitVec.add_assoc]
      rfl
    simp only [List.cons_append, Holds, ih, hnext, and_assoc]

theorem Holds.get (h : Holds m a vs) {i : ℕ} (hi : vs[i]? = some v) :
    loadWord m (a + BitVec.ofNat 32 (4 * i)) = v := by
  have hlt : i < vs.length := (List.getElem?_eq_some_iff.mp hi).choose
  have hsplit : vs = vs.take i ++ v :: vs.drop (i + 1) := by
    rw [← (List.getElem?_eq_some_iff.mp hi).choose_spec, List.getElem_cons_drop,
      List.take_append_drop]
  rw [hsplit, holds_append, List.length_take, min_eq_left hlt.le] at h
  exact h.2.1

theorem Holds.drop (h : Holds m a vs) {i : ℕ} (hi : i ≤ vs.length) :
    Holds m (a + BitVec.ofNat 32 (4 * i)) (vs.drop i) := by
  rw [← List.take_append_drop i vs, holds_append, List.length_take, min_eq_left hi] at h
  exact h.2

/-- A word pushed is apart from the words held above, as long as memory has room. -/
theorem Holds.push (h : Holds m a vs) (hroom : 4 * (vs.length + 1) ≤ 2 ^ 32) :
    Holds (storeWord m (a - 4) v) (a - 4) (v :: vs) := by
  refine ⟨loadWord_storeWord _ _ _, ?_⟩
  rw [BitVec.sub_add_cancel]
  refine h.congr fun k hk => ?_
  have hshift : a + BitVec.ofNat 32 k = a - 4 + BitVec.ofNat 32 (4 + k) := by
    rw [BitVec.ofNat_add, ← BitVec.add_assoc]
    exact congrArg (· + BitVec.ofNat 32 k) (BitVec.sub_add_cancel a 4).symm
  have hoff : ¬ (a + BitVec.ofNat 32 k - (a - 4)).toNat < 4 := by
    rw [hshift, offset_toNat _ (by omega)]
    omega
  exact if_neg hoff

end Holds

/-- One instruction of a machine with registers of type F that works on its stack.
Besides the registers it sees the stack pointer. -/
inductive Instr (F : Type)
  | push (value : Word → F → Word)
  | pop (write : Word → F → F)
  | mov (f : Word → F → F)
  | load (address : F → Word) (write : Word → F → F)
  | release (words : ℕ)
  | setSp (address : F → Word)

def Instr.isPush {F : Type} : Instr F → Bool
  | push _ => true
  | _ => false

/-- How many words a program pushes. -/
def pushes {F : Type} (program : List (Instr F)) : ℕ := program.countP Instr.isPush

/-- Registers, and the stack pointer into memory. -/
structure Machine (F : Type) where
  file : F
  sp : Word
  mem : Word → Byte

/-- The same with the stack as a list, the top first. -/
structure ListMachine (F : Type) where
  file : F
  sp : Word
  stack : List Word

section Machines

variable {F : Type}

def Machine.step (m : Machine F) : Instr F → Machine F
  | .push value =>
    { m with
      sp := m.sp - 4
      mem := storeWord m.mem (m.sp - 4) (value m.sp m.file) }
  | .pop write =>
    { m with
      file := write (loadWord m.mem m.sp) m.file
      sp := m.sp + 4 }
  | .mov f => { m with file := f m.sp m.file }
  | .load address write => { m with file := write (loadWord m.mem (address m.file)) m.file }
  | .release words => { m with sp := m.sp + BitVec.ofNat 32 (4 * words) }
  | .setSp address => { m with sp := address m.file }

def Machine.run (m : Machine F) (program : List (Instr F)) : Machine F :=
  program.foldl Machine.step m

/-- The slot of the stack that an address is of. -/
def ListMachine.slot (a : ListMachine F) (address : Word) : Option ℕ :=
  if (address - a.sp).toNat % 4 = 0 then some ((address - a.sp).toNat / 4) else none

/-- None where the program leaves what is known of the stack. -/
def ListMachine.step (a : ListMachine F) : Instr F → Option (ListMachine F)
  | .push value =>
    some { a with
      sp := a.sp - 4
      stack := value a.sp a.file :: a.stack }
  | .pop write =>
    match a.stack with
    | [] => none
    | v :: vs => some ⟨write v a.file, a.sp + 4, vs⟩
  | .mov f => some { a with file := f a.sp a.file }
  | .load address write => do
    let slot ← a.slot (address a.file)
    let v ← a.stack[slot]?
    some { a with file := write v a.file }
  | .release words =>
    if words ≤ a.stack.length then
      some { a with
        sp := a.sp + BitVec.ofNat 32 (4 * words)
        stack := a.stack.drop words }
    else none
  | .setSp address => do
    let slot ← a.slot (address a.file)
    if slot ≤ a.stack.length then
      some { a with
        sp := address a.file
        stack := a.stack.drop slot }
    else none

def ListMachine.run (a : ListMachine F) (program : List (Instr F)) : Option (ListMachine F) :=
  program.foldlM ListMachine.step a

/-- The machine keeps in memory what the other has in its list. -/
structure Represents (m : Machine F) (a : ListMachine F) : Prop where
  file : m.file = a.file
  sp : m.sp = a.sp
  stack : Holds m.mem m.sp a.stack

variable {m : Machine F} {a a' : ListMachine F} {i : Instr F}

theorem ListMachine.address_of_slot {address : Word} {slot : ℕ} (h : a.slot address = some slot) :
    address = a.sp + BitVec.ofNat 32 (4 * slot) := by
  unfold ListMachine.slot at h
  split at h
  · rename_i hmod
    cases h
    rw [Nat.mul_div_cancel' (Nat.dvd_of_mod_eq_zero hmod), BitVec.ofNat_toNat, BitVec.setWidth_eq,
      BitVec.add_comm, BitVec.sub_add_cancel]
  · cases h

theorem Represents.eq (h : Represents m a) : m = ⟨a.file, a.sp, m.mem⟩ := by
  rw [← h.file, ← h.sp]

/-- A step adds a word at most, and only where it pushes one. -/
theorem ListMachine.length_step_le (h : a.step i = some a') :
    a'.stack.length ≤ a.stack.length + if i.isPush then 1 else 0 := by
  cases i with
  | push value =>
    cases h
    exact le_rfl
  | pop write =>
    cases hstack : a.stack with
    | nil => simp [ListMachine.step, hstack] at h
    | cons v vs =>
      simp only [ListMachine.step, hstack, Option.some.injEq] at h
      subst h
      exact (Nat.le_succ _).trans (Nat.le_add_right _ _)
  | mov f =>
    cases h
    exact Nat.le_add_right _ _
  | load address write =>
    simp only [ListMachine.step, Option.bind_eq_bind, Option.bind_eq_some_iff] at h
    obtain ⟨slot, -, v, -, heq⟩ := h
    cases heq
    exact Nat.le_add_right _ _
  | release words =>
    simp only [ListMachine.step] at h
    split at h
    · cases h
      rw [List.length_drop]
      omega
    · cases h
  | setSp address =>
    simp only [ListMachine.step, Option.bind_eq_bind, Option.bind_eq_some_iff] at h
    obtain ⟨slot, -, heq⟩ := h
    split at heq
    · cases heq
      rw [List.length_drop]
      omega
    · cases heq

/-- What a step does to the list it does in memory. -/
theorem Represents.step (hrep : Represents m a) (h : a.step i = some a')
    (hroom : 4 * (a.stack.length + if i.isPush then 1 else 0) ≤ 2 ^ 32) :
    Represents (m.step i) a' := by
  obtain ⟨hfile, hsp, hstack⟩ := hrep
  cases i with
  | push value =>
    cases h
    simp only [Instr.isPush, if_true] at hroom
    refine ⟨hfile, congrArg (· - 4) hsp, ?_⟩
    rw [← hsp, ← hfile]
    exact hstack.push hroom
  | pop write =>
    cases hlist : a.stack with
    | nil => simp [ListMachine.step, hlist] at h
    | cons v vs =>
      simp only [ListMachine.step, hlist, Option.some.injEq] at h
      subst h
      rw [hlist] at hstack
      exact ⟨congrArg₂ write hstack.1 hfile, congrArg (· + 4) hsp, hstack.2⟩
  | mov f =>
    cases h
    exact ⟨congrArg₂ f hsp hfile, hsp, hstack⟩
  | load address write =>
    simp only [ListMachine.step, Option.bind_eq_bind, Option.bind_eq_some_iff] at h
    obtain ⟨slot, hslot, v, hv, heq⟩ := h
    cases heq
    have hload : loadWord m.mem (address m.file) = v := by
      rw [hfile, ListMachine.address_of_slot hslot, ← hsp]
      exact hstack.get hv
    exact ⟨congrArg₂ write hload hfile, hsp, hstack⟩
  | release words =>
    simp only [ListMachine.step] at h
    split at h
    · rename_i hle
      cases h
      exact ⟨hfile, congrArg (· + _) hsp, hstack.drop hle⟩
    · cases h
  | setSp address =>
    simp only [ListMachine.step, Option.bind_eq_bind, Option.bind_eq_some_iff] at h
    obtain ⟨slot, hslot, heq⟩ := h
    split at heq
    · rename_i hle
      cases heq
      refine ⟨hfile, congrArg address hfile, ?_⟩
      change Holds m.mem (address m.file) _
      rw [hfile, ListMachine.address_of_slot hslot, ← hsp]
      exact hstack.drop hle
    · cases heq

/-- A program that runs on the list runs in memory and does the same. -/
theorem Represents.run {program : List (Instr F)} (hrep : Represents m a)
    (h : a.run program = some a') (hroom : 4 * (a.stack.length + pushes program) ≤ 2 ^ 32) :
    Represents (m.run program) a' := by
  induction program generalizing m a with
  | nil =>
    cases h
    exact hrep
  | cons i program ih =>
    simp only [ListMachine.run, List.foldlM_cons, Option.bind_eq_bind,
      Option.bind_eq_some_iff] at h
    obtain ⟨mid, hstep, hrest⟩ := h
    have hlen := ListMachine.length_step_le hstep
    have hpushes : pushes (i :: program) = pushes program + if i.isPush then 1 else 0 :=
      List.countP_cons
    rw [hpushes] at hroom
    exact ih (hrep.step hstep (by omega)) hrest (by omega)

theorem ListMachine.slot_of_offset {address : Word} {k : ℕ}
    (h : address = a.sp + BitVec.ofNat 32 (4 * k)) (hk : 4 * k < 2 ^ 32) :
    a.slot address = some k := by
  unfold ListMachine.slot
  rw [h, offset_toNat _ hk, if_pos (Nat.mul_mod_right 4 k), Nat.mul_div_cancel_left k (by omega)]

/-- A load from the stack, by the distance of its address from the top. -/
theorem ListMachine.run_load {address : F → Word} {write : Word → F → F} {rest : List (Instr F)}
    {k : ℕ} {v : Word} (h : address a.file = a.sp + BitVec.ofNat 32 (4 * k))
    (hk : 4 * k < 2 ^ 32) (hv : a.stack[k]? = some v) :
    a.run (.load address write :: rest) = { a with file := write v a.file }.run rest := by
  simp [ListMachine.run, ListMachine.step, slot_of_offset h hk, hv]

theorem ListMachine.run_setSp {address : F → Word} {rest : List (Instr F)} {k : ℕ}
    (h : address a.file = a.sp + BitVec.ofNat 32 (4 * k)) (hk : 4 * k < 2 ^ 32)
    (hlen : k ≤ a.stack.length) :
    a.run (.setSp address :: rest) =
      { a with
        sp := address a.file
        stack := a.stack.drop k }.run rest := by
  simp [ListMachine.run, ListMachine.step, slot_of_offset h hk, hlen]

theorem Machine.run_append (m : Machine F) (p q : List (Instr F)) :
    m.run (p ++ q) = (m.run p).run q := List.foldl_append

theorem ListMachine.run_append (a : ListMachine F) (p q : List (Instr F)) :
    a.run (p ++ q) = (a.run p).bind fun mid => mid.run q := List.foldlM_append

theorem pushes_append (p q : List (Instr F)) : pushes (p ++ q) = pushes p + pushes q :=
  List.countP_append

/-- Only a push writes to memory. -/
theorem Machine.run_mem {program : List (Instr F)} (h : pushes program = 0) (m : Machine F) :
    (m.run program).mem = m.mem := by
  induction program generalizing m with
  | nil => rfl
  | cons i program ih =>
    obtain ⟨hi, hrest⟩ := Nat.add_eq_zero_iff.mp ((List.countP_cons).symm.trans h)
    change ((m.step i).run program).mem = _
    rw [ih hi]
    cases i with
    | push value => simp [Instr.isPush] at hrest
    | _ => rfl

/-- A program that neither pops nor moves the stack pointer otherwise. -/
def Descends (program : List (Instr F)) : Prop :=
  ∀ i ∈ program, i.isPush ∨ ∃ f, i = .mov f

theorem Descends.append {p q : List (Instr F)} (hp : Descends p) (hq : Descends q) :
    Descends (p ++ q) := by
  intro i hi
  rcases List.mem_append.mp hi with h | h
  · exact hp i h
  · exact hq i h

/-- Such a program writes nothing but the words it pushes. -/
theorem Descends.run {program : List (Instr F)} (h : Descends program) (m : Machine F) :
    (m.run program).sp = m.sp - BitVec.ofNat 32 (4 * pushes program) ∧
      ∀ b : Word, 4 * pushes program ≤ (b - (m.run program).sp).toNat →
        (m.run program).mem b = m.mem b := by
  induction program generalizing m with
  | nil => exact ⟨by simp [Machine.run, pushes], fun _ _ => rfl⟩
  | cons i program ih =>
    obtain ⟨hsp, hmem⟩ := ih (fun j hj => h j (List.mem_cons_of_mem _ hj)) (m.step i)
    change ((m.step i).run program).sp = _ ∧
      ∀ b, _ ≤ (b - ((m.step i).run program).sp).toNat → ((m.step i).run program).mem b = _
    have hpushes : pushes (i :: program) = pushes program + if i.isPush then 1 else 0 :=
      List.countP_cons
    rw [hpushes]
    rcases h i List.mem_cons_self with hpush | ⟨f, rfl⟩
    · cases i with
      | push value =>
        simp only [Instr.isPush, if_true]
        change ((m.step _).run program).sp = m.sp - 4 - _ at hsp
        refine ⟨?_, fun b hb => ?_⟩
        · rw [hsp, Nat.mul_add, Nat.add_comm, BitVec.ofNat_add]
          bv_omega
        · rw [hmem b (by omega)]
          refine if_neg fun hlt => ?_
          -- the word pushed first lies right above those pushed after it
          rw [hsp] at hb
          bv_omega
      | _ => cases hpush
    · simp only [Instr.isPush, Bool.false_eq_true, if_false, Nat.add_zero]
      exact ⟨hsp, hmem⟩

end Machines

end RathalOS.MemoryStacks
