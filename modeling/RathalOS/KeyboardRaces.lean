import RathalOS.InterruptHandling
import RathalOS.InterruptedProofs

/-!
getc of kernel/drivers/keyboard.c, interrupted by keyboard_handler between any two of its
accesses to the variables that they share. No character is lost, returned twice or out of
order. But size-- loads the size and stores it again: a character that the handler stores in
between is never counted, and at the end getc waits with that many characters in the buffer.
-/
namespace RathalOS.KeyboardRaces

open ByteMemory BoundedFifo Keyboard InterruptHandling InterruptedPrograms

section Programs

/-- An access of getc to a variable of the driver. Nothing is optimised, so that each use of
a variable is one. -/
inductive Variable
  | loadSize
  | storeSize (size : Byte)
  | loadTail
  | storeTail (tail : Byte)
  | loadBuffer (index : Byte)

abbrev Variable.Result : Variable → Type
  | storeSize _ => Unit
  | storeTail _ => Unit
  | _ => Byte

def Variable.exec : (a : Variable) → Driver → a.Result × Driver
  | loadSize, s => (s.size, s)
  | storeSize size, s => ((), { s with size := size })
  | loadTail, s => (s.tail, s)
  | storeTail tail, s => ((), { s with tail := tail })
  | loadBuffer index, s => (s.fifoBuffer index, s)

abbrev GetcProgram (α : Type) := Program Variable Variable.Result α

/-- The loop of getc, for some number of tests; is it left by then? -/
def waitProgram : ℕ → GetcProgram Bool
  | 0 => .done false
  | tests + 1 => (Program.op Variable.loadSize).bind fun size : Byte =>
    if size = 0 then waitProgram tests else .done true

/-- The statements after the loop. -/
def takeProgram : GetcProgram Byte :=
  (Program.op Variable.loadTail).bind fun tail : Byte =>
  (Program.op (Variable.storeTail (tail + 1))).bind fun _ =>
  (Program.op (Variable.loadBuffer tail)).bind fun ret : Byte =>
  (Program.op Variable.loadTail).bind fun tail : Byte =>
  (Program.op (Variable.storeTail (BitVec.ofNat 8 (tail.toNat % KEY_BUFFER_SIZE)))).bind fun _ =>
  (Program.op Variable.loadSize).bind fun size : Byte =>
  (Program.op (Variable.storeSize (size - 1))).bind fun _ =>
  .done ret

/-- `getc`, followed for some number of tests. It returns nothing when it still waits. -/
def getcProgram (tests : ℕ) : GetcProgram (Option Byte) :=
  (waitProgram tests).bind fun ready =>
    if ready = true then takeProgram.bind fun ret => .done (some ret) else .done none

/-- The characters returned by calls of getc one after the other. A call that still waits is
gone on with. -/
def getcsProgram : List ℕ → GetcProgram (List Byte)
  | [] => .done []
  | tests :: rest => (getcProgram tests).bind fun ret =>
    (getcsProgram rest).bind fun rets => .done (ret.toList ++ rets)

theorem run_waitProgram (tests : ℕ) (s : Driver) :
    (waitProgram (tests + 1)).run Variable.exec s = (decide (s.size ≠ 0), s) := by
  induction tests with
  | zero =>
    rw [waitProgram, Program.run_bind, Program.run_op, Variable.exec]
    by_cases hsize : s.size = 0
    · rw [if_pos hsize, decide_eq_false (not_not.mpr hsize)]
      rfl
    · rw [if_neg hsize, decide_eq_true hsize]
      rfl
  | succ tests ih =>
    rw [waitProgram, Program.run_bind, Program.run_op, Variable.exec]
    by_cases hsize : s.size = 0
    · rw [if_pos hsize, ih]
    · rw [if_neg hsize, decide_eq_true hsize]
      rfl

/-- Undisturbed, the accesses do what getc was modelled to do, however long it waits. -/
theorem run_getcProgram (tests : ℕ) (s : Driver) :
    (getcProgram (tests + 1)).run Variable.exec s =
      ((match (getc s).2 with
        | .returned c => some c
        | _ => none), (getc s).1) := by
  rw [getcProgram, Program.run_bind, run_waitProgram]
  by_cases hsize : s.size = 0
  · rw [getc_empty hsize, decide_eq_false (not_not.mpr hsize)]
    rfl
  · rw [getc, if_neg hsize, decide_eq_true hsize]
    rfl

end Programs

section Interrupts

/-- An interrupt, with what the keyboard handler did. One of another device is as one of the
keyboard that finds no data. -/
def handled (o : Observation Byte) (s s' : Driver) : Prop :=
  ∃ state scanCode, keyboardHandler s state scanCode = .ok (s', o)

variable {o : Observation Byte} {s s' : Driver}

theorem handled_cases (h : handled o s s') :
    (∃ c, o = .stored c ∧ s'.ring = s.ring.push c) ∨ o = .ignored ∧ s'.ring = s.ring := by
  obtain ⟨state, scanCode, hok⟩ := h
  by_cases hordinary : OrdinaryPress state scanCode
  · obtain ⟨s'', hok', hring, -⟩ := keyboardHandler_ordinary s hordinary
    rw [hok'] at hok
    cases hok
    exact .inl ⟨_, rfl, hring⟩
  · obtain ⟨s'', hok', hring⟩ := keyboardHandler_other s hordinary
    rw [hok'] at hok
    cases hok
    exact .inr ⟨rfl, hring⟩

/-- The interrupt brings a character. -/
def Brings (i : Irq) : Prop := i.number = 1 ∧ OrdinaryPress i.state i.scanCode

instance (i : Irq) : Decidable (Brings i) := by
  unfold Brings
  infer_instance

/-- Whatever interrupts the kernel, irq_handler does this to the driver. -/
theorem handled_of_types {i : Irq} (h : types i s s') :
    ∃ o, ((∃ c, o = .stored c) ↔ Brings i) ∧ handled o s s' := by
  unfold types at h
  split at h
  · rename_i hone
    obtain ⟨o, hok⟩ := h
    refine ⟨o, ?_, i.state, i.scanCode, hok⟩
    by_cases hordinary : OrdinaryPress i.state i.scanCode
    · obtain ⟨s'', hok', -⟩ := keyboardHandler_ordinary s hordinary
      rw [hok'] at hok
      cases hok
      exact iff_of_true ⟨_, rfl⟩ ⟨hone, hordinary⟩
    · obtain ⟨s'', hok', -⟩ := keyboardHandler_other s hordinary
      rw [hok'] at hok
      cases hok
      exact iff_of_false (by simp) fun h => hordinary h.2
  · rename_i hother
    subst h
    exact ⟨.ignored, iff_of_false (by simp) fun h => hother h.1, 0, 0, rfl⟩

/-- What an onlooker has seen: the characters in the buffer and those taken out of it, how
many came since the size was loaded, and how many came between a load of the size and the
store that follows it. -/
structure Log where
  unread : List Byte
  taken : List Byte
  since : ℕ
  uncounted : ℕ

def Log.start (unread : List Byte) : Log := ⟨unread, [], 0, 0⟩

/-- The onlooker gives up when a character comes that the buffer has no room for. -/
def watch (l : Log) : Variable ⊕ Observation Byte → Option Log
  | .inr (.stored c) =>
    if l.unread.length < KEY_BUFFER_SIZE then
      some { l with
        unread := l.unread ++ [c]
        since := l.since + 1 }
    else none
  | .inr _ => some l
  | .inl (.loadBuffer _) =>
    some { l with
      unread := l.unread.tail
      taken := l.taken ++ l.unread.head?.toList }
  | .inl .loadSize => some { l with since := 0 }
  | .inl (.storeSize _) => some { l with uncounted := l.uncounted + l.since }
  | .inl _ => some l

abbrev Trace := List (Variable ⊕ Observation Byte)

/-- The characters that the handler stored. -/
def typed (trace : Trace) : List Byte :=
  trace.filterMap fun
    | .inr (.stored c) => some c
    | _ => none

variable {l l' : Log} {trace : Trace}

/-- Nothing gets out of the onlooker's sight. -/
theorem taken_unread (h : trace.foldlM watch l = some l') :
    l'.taken ++ l'.unread = l.taken ++ l.unread ++ typed trace := by
  induction trace generalizing l with
  | nil =>
    cases h
    simp [typed]
  | cons event rest ih =>
    rw [List.foldlM_cons, Option.bind_eq_bind, Option.bind_eq_some_iff] at h
    obtain ⟨mid, hfirst, hrest⟩ := h
    rw [ih hrest]
    cases event with
    | inl access =>
      cases access <;> cases hfirst <;> try rfl
      cases l.unread <;> simp [typed]
    | inr o =>
      cases o <;> try (cases hfirst; rfl)
      rw [watch] at hfirst
      split at hfirst
      · cases hfirst
        simp [typed]
      · cases hfirst

/-- The onlooker does not give up as long as not too many characters come in all. -/
theorem watch_room (h : l.unread.length + (typed trace).length ≤ KEY_BUFFER_SIZE) :
    ∃ l', trace.foldlM watch l = some l' := by
  induction trace generalizing l with
  | nil => exact ⟨l, rfl⟩
  | cons event rest ih =>
    have hstep : ∃ mid, watch l event = some mid ∧
        mid.unread.length + (typed rest).length ≤ KEY_BUFFER_SIZE := by
      cases event with
      | inl access =>
        change l.unread.length + (typed rest).length ≤ KEY_BUFFER_SIZE at h
        cases access <;> refine ⟨_, rfl, ?_⟩ <;> try exact h
        have htail := List.length_tail (l := l.unread)
        change l.unread.tail.length + _ ≤ _
        omega
      | inr o =>
        cases o <;> try exact ⟨l, rfl, h⟩
        rename_i c
        change l.unread.length + (c :: typed rest).length ≤ KEY_BUFFER_SIZE at h
        rw [List.length_cons] at h
        refine ⟨_, if_pos (by omega), ?_⟩
        simp only [List.length_append, List.length_singleton]
        omega
    obtain ⟨mid, hwatch, hmid⟩ := hstep
    obtain ⟨l', hrest⟩ := ih hmid
    refine ⟨l', ?_⟩
    rw [List.foldlM_cons, hwatch]
    exact hrest

end Interrupts

section Assertions

/-- The characters are in the buffer from some index on. -/
def Queued (first : Byte) (unread : List Byte) (r : Ring 8 Byte) : Prop :=
  Holds ⟨r.cells, r.head, first, BitVec.ofNat 8 unread.length⟩ unread

theorem Queued.push {first : Byte} {unread : List Byte} {r : Ring 8 Byte} {c : Byte}
    (h : Queued first unread r) (hlt : unread.length < KEY_BUFFER_SIZE) :
    Queued first (unread ++ [c]) (r.push c) := by
  have hpush := Holds.push (a := c) h hlt
  simpa [Queued, Ring.push, BitVec.ofNat_add] using hpush

theorem Queued.pop {first c : Byte} {rest : List Byte} {r : Ring 8 Byte}
    (h : Queued first (c :: rest) r) : Queued (first + 1) rest r := by
  have hpop := Holds.pop h
  have hcount : BitVec.ofNat 8 (rest.length + 1) - 1 = BitVec.ofNat 8 rest.length := by
    rw [BitVec.ofNat_add]
    exact BitVec.add_sub_cancel _ _
  rw [Ring.pop, List.length_cons] at hpop
  dsimp only at hpop
  rw [hcount] at hpop
  exact hpop

/-- A point of getc: what was taken until then, the index of the next character, the value
of tail, how many more characters than those not counted are in the buffer at least, and by
how much the size is ahead of it. -/
structure Point (taken : List Byte) (first tail : Byte) (more ahead : ℕ) (l : Log)
    (r : Ring 8 Byte) : Prop where
  taken : l.taken = taken
  queued : Queued first l.unread r
  tail : r.tail = tail
  size : r.size + BitVec.ofNat 8 l.uncounted = BitVec.ofNat 8 (l.unread.length + ahead)
  more : l.uncounted + more ≤ l.unread.length

variable {taken : List Byte} {first tail : Byte} {more ahead : ℕ} {l l' : Log} {r : Ring 8 Byte}
  {o : Observation Byte} {s s' : Driver}

/-- An interrupt that the onlooker gets over. -/
theorem watch_handled (h : handled o s s') (hwatch : watch l (.inr o) = some l') :
    (∃ c, l.unread.length < KEY_BUFFER_SIZE ∧ s'.ring = s.ring.push c ∧
      l' = { l with
        unread := l.unread ++ [c]
        since := l.since + 1 }) ∨ s'.ring = s.ring ∧ l' = l := by
  obtain ⟨c, rfl, hring⟩ | ⟨rfl, hring⟩ := handled_cases h
  · rw [watch] at hwatch
    split at hwatch
    · cases hwatch
      exact .inl ⟨c, ‹_›, hring, rfl⟩
    · cases hwatch
  · cases hwatch
    exact .inr ⟨hring, rfl⟩

theorem Point.push {c : Byte} (h : Point taken first tail more ahead l r)
    (hlt : l.unread.length < KEY_BUFFER_SIZE) :
    Point taken first tail more ahead
      { l with
        unread := l.unread ++ [c]
        since := l.since + 1 } (r.push c) where
  taken := h.taken
  queued := h.queued.push hlt
  tail := h.tail
  size := by
    have hsize := h.size
    simp only [Ring.push, List.length_append, List.length_singleton, BitVec.ofNat_add] at hsize ⊢
    calc r.size + 1 + BitVec.ofNat 8 l.uncounted
        = r.size + BitVec.ofNat 8 l.uncounted + 1 := by ac_rfl
      _ = BitVec.ofNat 8 l.unread.length + BitVec.ofNat 8 ahead + 1 := by rw [hsize]
      _ = BitVec.ofNat 8 l.unread.length + 1 + BitVec.ofNat 8 ahead := by ac_rfl
  more := by
    have hmore := h.more
    simp only [List.length_append, List.length_singleton]
    omega

theorem stable_point :
    Stable handled watch fun l s => Point taken first tail more ahead l s.ring := by
  rintro l s o s' l' h hhandled hwatch
  obtain ⟨c, hlt, hring, rfl⟩ | ⟨hring, rfl⟩ := watch_handled hhandled hwatch
  · rw [hring]
    exact h.push hlt
  · rw [hring]
    exact h

/-- Between two calls. -/
def Rest (taken : List Byte) (l : Log) (s : Driver) : Prop :=
  ∃ first, Point taken first first 0 0 l s.ring

/-- After the loop: a character is there that the size counts. -/
def Ready (taken : List Byte) (l : Log) (s : Driver) : Prop :=
  ∃ first, Point taken first first 1 0 l s.ring

theorem stable_rest : Stable handled watch (Rest taken) :=
  .exists fun _ => stable_point

theorem stable_ready : Stable handled watch (Ready taken) :=
  .exists fun _ => stable_point

/-- A size other than 0 counts a character. -/
theorem Point.ready (h : Point taken first tail 0 0 l r) (hsize : r.size ≠ 0) :
    Point taken first tail 1 0 l r where
  taken := h.taken
  queued := h.queued
  tail := h.tail
  size := h.size
  more := by
    have hmore := h.more
    by_contra hall
    have hlength : l.unread.length = l.uncounted := by omega
    have hcount := h.size
    rw [Nat.add_zero, hlength] at hcount
    exact hsize (by simpa using hcount)

/-- With the character at its front taken out, the size is one ahead. -/
theorem Point.take (h : Point taken first tail 1 0 l r) :
    ∃ c, r.cells first = c ∧ Point (taken ++ [c]) (first + 1) tail 0 1
      { l with
        unread := l.unread.tail
        taken := l.taken ++ l.unread.head?.toList } r := by
  have hmore := h.more
  have hqueued := h.queued
  have hsize := h.size
  cases hunread : l.unread with
  | nil =>
    rw [hunread, List.length_nil] at hmore
    omega
  | cons c rest =>
    rw [hunread] at hmore hqueued hsize
    refine ⟨c, Holds.front hqueued, ?_⟩
    rw [List.length_cons] at hmore
    refine ⟨congrArg (· ++ [c]) h.taken, ?_, h.tail, ?_, ?_⟩
    · exact Queued.pop hqueued
    · exact hsize
    · change l.uncounted + 0 ≤ rest.length
      omega

/-- Between the load of the size and its store. -/
structure Loaded (taken : List Byte) (size : Byte) (l : Log) (s : Driver) : Prop where
  point : ∃ first, Point taken first first 0 1 l s.ring
  size : s.size = size + BitVec.ofNat 8 l.since
  since : l.uncounted + l.since ≤ l.unread.length

theorem stable_loaded {size : Byte} : Stable handled watch (Loaded taken size) := by
  rintro l s o s' l' ⟨⟨first, hpoint⟩, hsize, hsince⟩ hhandled hwatch
  have hpoint' := stable_point l s o s' l' hpoint hhandled hwatch
  obtain ⟨c, hlt, hring, rfl⟩ | ⟨hring, rfl⟩ := watch_handled hhandled hwatch
  · refine ⟨⟨first, hpoint'⟩, ?_, ?_⟩
    · have hsize' : s'.size = s.size + 1 := congrArg Ring.size hring
      rw [hsize', hsize, BitVec.ofNat_add, BitVec.add_assoc]
      rfl
    · simp only [List.length_append, List.length_singleton]
      omega
  · exact ⟨⟨first, hpoint'⟩, (congrArg Ring.size hring).trans hsize, hsince⟩

/-- The store takes back what the handler counted since the load. -/
theorem Loaded.store {size : Byte} (h : Loaded taken size l s) :
    Rest taken { l with uncounted := l.uncounted + l.since } { s with size := size - 1 } := by
  obtain ⟨⟨first, hpoint⟩, hsize, hsince⟩ := h
  have hcount := hpoint.size
  refine ⟨first, hpoint.taken, hpoint.queued, hpoint.tail, ?_, hsince⟩
  change s.size + BitVec.ofNat 8 l.uncounted = BitVec.ofNat 8 (l.unread.length + 1) at hcount
  change size - 1 + BitVec.ofNat 8 (l.uncounted + l.since) = BitVec.ofNat 8 (l.unread.length + 0)
  rw [hsize, BitVec.ofNat_add] at hcount
  rw [BitVec.ofNat_add, Nat.add_zero]
  generalize BitVec.ofNat 8 l.uncounted = uncounted at hcount ⊢
  generalize BitVec.ofNat 8 l.since = since at hcount ⊢
  generalize BitVec.ofNat 8 l.unread.length = length at hcount ⊢
  bv_omega

end Assertions

section Calls

variable {taken : List Byte}

theorem meets_wait (tests : ℕ) :
    Meets Variable.exec handled watch (Rest taken) (waitProgram tests)
      fun ready => if ready = true then Ready taken else Rest taken := by
  induction tests with
  | zero => exact meets_done stable_rest fun _ _ h => h
  | succ tests ih =>
    refine Meets.bind (R := fun (size : Byte) => if size = 0 then Rest taken else Ready taken)
      (meets_op stable_rest ?_ ?_) fun size => ?_
    · rintro l s l' ⟨first, hpoint⟩ hwatch
      cases hwatch
      change (if s.size = 0 then Rest taken else Ready taken) _ s
      split
      · exact ⟨first, hpoint.taken, hpoint.queued, hpoint.tail, hpoint.size, hpoint.more⟩
      · have hready := hpoint.ready ‹_›
        exact ⟨first, hready.taken, hready.queued, hready.tail, hready.size, hready.more⟩
    · intro size
      split
      · exact stable_rest
      · exact stable_ready
    · split
      · exact ih
      · exact meets_done stable_ready fun _ _ h => h

theorem meets_take : Meets Variable.exec handled watch (Ready taken) takeProgram
    fun c => Rest (taken ++ [c]) := by
  refine Meets.bind (R := fun tail l s => Point taken tail tail 1 0 l s.ring)
    (meets_op stable_ready ?_ fun _ => stable_point) fun tail => ?_
  · rintro l s l' ⟨first, hpoint⟩ hwatch
    cases hwatch
    obtain rfl : s.ring.tail = first := hpoint.tail
    exact hpoint
  refine Meets.bind (R := fun _ l s => Point taken tail (tail + 1) 1 0 l s.ring)
    (meets_op stable_point ?_ fun _ => stable_point) fun _ => ?_
  · rintro l s l' hpoint hwatch
    cases hwatch
    exact ⟨hpoint.taken, hpoint.queued, rfl, hpoint.size, hpoint.more⟩
  refine Meets.bind (R := fun ret l s => Point (taken ++ [ret]) (tail + 1) (tail + 1) 0 1 l s.ring)
    (meets_op stable_point ?_ fun _ => stable_point) fun ret => ?_
  · rintro l s l' hpoint hwatch
    cases hwatch
    obtain ⟨c, rfl, htake⟩ := hpoint.take
    exact htake
  refine Meets.bind (R := fun tail l s => Point (taken ++ [ret]) tail tail 0 1 l s.ring)
    (meets_op stable_point ?_ fun _ => stable_point) fun tail => ?_
  · rintro l s l' hpoint hwatch
    cases hwatch
    change Point _ s.ring.tail s.ring.tail 0 1 l s.ring
    rw [hpoint.tail]
    exact hpoint
  refine Meets.bind (R := fun _ l s => Point (taken ++ [ret]) tail tail 0 1 l s.ring)
    (meets_op stable_point ?_ fun _ => stable_point) fun _ => ?_
  · rintro l s l' hpoint hwatch
    cases hwatch
    exact ⟨hpoint.taken, hpoint.queued, ofNat_mod_bufferSize tail, hpoint.size, hpoint.more⟩
  refine Meets.bind (R := Loaded (taken ++ [ret]))
    (meets_op stable_point ?_ fun _ => stable_loaded) fun size => ?_
  · rintro l s l' hpoint hwatch
    cases hwatch
    exact ⟨⟨tail, hpoint.taken, hpoint.queued, hpoint.tail, hpoint.size, hpoint.more⟩,
      (BitVec.add_zero _).symm, hpoint.more⟩
  refine Meets.bind (R := fun _ => Rest (taken ++ [ret]))
    (meets_op stable_loaded ?_ fun _ => stable_rest) fun _ => ?_
  · rintro l s l' hloaded hwatch
    cases hwatch
    exact hloaded.store
  · exact meets_done stable_rest fun _ _ h => h

theorem meets_getc (tests : ℕ) :
    Meets Variable.exec handled watch (Rest taken) (getcProgram tests)
      fun ret => Rest (taken ++ ret.toList) := by
  refine (meets_wait tests).bind fun ready => ?_
  cases ready with
  | false =>
    refine meets_done stable_rest fun l s h => ?_
    rw [Option.toList_none, List.append_nil]
    exact h
  | true => exact meets_take.bind fun ret => meets_done stable_rest fun _ _ h => h

theorem meets_getcs (tests : List ℕ) :
    Meets Variable.exec handled watch (Rest taken) (getcsProgram tests)
      fun rets => Rest (taken ++ rets) := by
  induction tests generalizing taken with
  | nil =>
    refine meets_done stable_rest fun l s h => ?_
    rw [List.append_nil]
    exact h
  | cons first rest ih =>
    refine (meets_getc first).bind fun ret => ih.bind fun rets => ?_
    refine meets_done stable_rest fun l s h => ?_
    rw [← List.append_assoc]
    exact h

variable {s s' : Driver} {unread rets : List Byte} {l : Log} {trace : Trace} {tests : List ℕ}

theorem rest_start (h : Holds s.ring unread) : Rest [] (Log.start unread) s := by
  refine ⟨s.tail, rfl, ?_, rfl, ?_, Nat.zero_le _⟩
  · have hsize : BitVec.ofNat 8 unread.length = s.ring.size := h.size.symm
    unfold Queued Log.start
    dsimp only
    rw [hsize]
    exact h
  · have hsize : s.ring.size = BitVec.ofNat 8 unread.length := h.size
    rw [hsize]
    exact BitVec.add_zero _

theorem rest_getcs (hholds : Holds s.ring unread)
    (hrun : Traced Variable.exec handled (getcsProgram tests) s trace (rets, s'))
    (hroom : trace.foldlM watch (Log.start unread) = some l) : Rest rets l s' :=
  meets_getcs tests _ _ _ _ _ (rest_start hholds) hrun hroom

/-- An a in the buffer is taken, and a b is typed while size-- is under way. -/
def raceTrace : Trace :=
  [.inr (.stored 0x61), .inl .loadSize, .inl .loadTail, .inl (.storeTail 1),
    .inl (.loadBuffer 0), .inl .loadTail, .inl (.storeTail 1), .inl .loadSize,
    .inr (.stored 0x62), .inl (.storeSize 0)]

theorem raceTrace_run : ∃ s', Traced Variable.exec handled (getcsProgram [1])
    (keyboardInit zeroDriver) raceTrace ([0x61], s') :=
  ⟨_, .interrupted ⟨1, 0x1e, rfl⟩ <| .perform <| .perform <| .perform <| .perform <| .perform <|
    .perform <| .perform <| .interrupted ⟨1, 0x30, rfl⟩ <| .perform <| .done _ _⟩

/-- However often keyboard_handler interrupts calls of getc, and wherever: as long as there
is room for each character, those returned and those still in the buffer are those that were
there and those that came, in their order. The size counts them but for those that came
between its load and its store in size--. -/
theorem getcs_fifo (hholds : Holds s.ring unread)
    (hrun : Traced Variable.exec handled (getcsProgram tests) s trace (rets, s'))
    (hroom : trace.foldlM watch (Log.start unread) = some l) :
    rets ++ l.unread = unread ++ typed trace ∧ l.uncounted ≤ l.unread.length ∧
      Holds { s'.ring with size := s'.ring.size + BitVec.ofNat 8 l.uncounted } l.unread := by
  obtain ⟨first, hpoint⟩ := rest_getcs hholds hrun hroom
  have htaken := taken_unread hroom
  rw [hpoint.taken] at htaken
  refine ⟨htaken, hpoint.more, ?_⟩
  have hcells := hpoint.queued
  rw [← hpoint.tail] at hcells
  rw [hpoint.size]
  exact hcells

theorem getcs_fifo_race : ∃ (s' : Driver) (l : Log), Traced Variable.exec handled (getcsProgram [1])
    (keyboardInit zeroDriver) raceTrace ([0x61], s') ∧ l.unread = [0x62] ∧
    l.uncounted ≤ l.unread.length := by
  obtain ⟨s', hrun⟩ := raceTrace_run
  have hroom : raceTrace.foldlM watch (Log.start []) = some ⟨[0x62], [0x61], 1, 1⟩ := rfl
  exact ⟨s', _, hrun, rfl, (getcs_fifo (holds_nil rfl rfl) hrun hroom).2.1⟩

/-- After such calls another one waits exactly when no characters are left but as many as
were not counted, or when the buffer is full: these are not returned before others come. -/
theorem getcs_waits_iff (hholds : Holds s.ring unread)
    (hrun : Traced Variable.exec handled (getcsProgram tests) s trace (rets, s'))
    (hroom : trace.foldlM watch (Log.start unread) = some l) :
    (getc s').2 = .blocked ↔ l.unread.length = l.uncounted ∨
      l.unread.length = l.uncounted + KEY_BUFFER_SIZE := by
  obtain ⟨first, hpoint⟩ := rest_getcs hholds hrun hroom
  have hle := hpoint.queued.length_le
  have hmore := hpoint.more
  have hcount := congrArg BitVec.toNat hpoint.size
  have hsize : (getc s').2 = .blocked ↔ s'.ring.size.toNat = 0 := by
    by_cases hzero : s'.size = 0
    · rw [getc_empty hzero]
      exact iff_of_true rfl (congrArg BitVec.toNat hzero)
    · rw [(getc_ready hzero).1]
      refine iff_of_false (by simp) fun h => hzero (BitVec.eq_of_toNat_eq h)
  have hlt := s'.ring.size.isLt
  rw [BitVec.toNat_add, BitVec.toNat_ofNat, BitVec.toNat_ofNat] at hcount
  rw [hsize, KEY_BUFFER_SIZE]
  omega

theorem getcs_waits_iff_race : ∃ s', Traced Variable.exec handled (getcsProgram [1])
    (keyboardInit zeroDriver) raceTrace ([0x61], s') ∧ (getc s').2 = .blocked := by
  obtain ⟨s', hrun⟩ := raceTrace_run
  have hroom : raceTrace.foldlM watch (Log.start []) = some ⟨[0x62], [0x61], 1, 1⟩ := rfl
  exact ⟨s', hrun, (getcs_waits_iff (holds_nil rfl rfl) hrun hroom).mpr (.inl rfl)⟩

/-- An access in the state that irq_handler works on. -/
def Variable.onKernel (a : Variable) (k : Kernel) : a.Result × Kernel :=
  ((a.exec k.keyboard).1, { k with keyboard := (a.exec k.keyboard).2 })

theorem length_typed {is : List Irq}
    (h : List.Forall₂ (fun i o => (∃ c, o = .stored c) ↔ Brings i) is
      (trace.filterMap Sum.getRight?)) :
    (typed trace).length = is.countP fun i => Brings i := by
  induction trace generalizing is with
  | nil =>
    cases h
    rfl
  | cons event rest ih =>
    cases event with
    | inl access => exact ih h
    | inr o =>
      cases h with
      | @cons i _ is _ heffect hrest =>
        have hcount := ih hrest
        rw [List.countP_cons, ← hcount]
        cases o with
        | stored c => simp [typed, heffect.mp ⟨c, rfl⟩]
        | _ =>
          have hnot : ¬ Brings i := fun h => by simpa using heffect.mpr h
          simp [typed, hnot]

/-- So it is in the kernel, whatever else interrupts it. -/
theorem kernel_getcs {k k' : Kernel} {is : List Irq} (hholds : Holds k.keyboard.ring unread)
    (hroom : unread.length + is.countP (fun i => Brings i) ≤ KEY_BUFFER_SIZE)
    (hrun : Interrupted Variable.onKernel irq (getcsProgram tests) k is (rets, k')) :
    ∃ came left, came.length = is.countP (fun i => Brings i) ∧ rets ++ left = unread ++ came := by
  have hirq : ∀ i k k', irq i k k' → ∃ o, ((∃ c, o = .stored c) ↔ Brings i) ∧
      handled o k.keyboard k'.keyboard :=
    fun i k k' h => handled_of_types (irqHandler_eq h).2.1
  obtain ⟨trace, htrace, heffects⟩ :=
    hrun.project Kernel.keyboard (fun _ _ => rfl) (fun _ _ => rfl) hirq
  have hcount := length_typed heffects
  obtain ⟨l, hwatch⟩ := watch_room (l := Log.start unread) (hcount ▸ hroom)
  exact ⟨typed trace, l.unread, hcount, (getcs_fifo hholds htrace hwatch).1⟩

end Calls

end RathalOS.KeyboardRaces
