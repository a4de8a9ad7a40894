import RathalOS.Bitmaps
import RathalOS.Histories
import RathalOS.Runs

/-!
Runs of an allocation bitmap, common/fs/bitmap.c: reservations of the first available bit,
and releases of bits that are set. The bits that are set are those the history of the run
says, and the number of free bits keeps in step with it.
-/
namespace RathalOS.BitmapRuns

open ByteMemory FirstFit Bitmaps Histories Runs

inductive BitmapCall
  | reserve
  | release (index : ℕ)

/-- A bitmap, with what the reservations have returned and what was released. -/
structure Session where
  bitmap : Bitmap
  history : List (Event ℤ Unit)

def step (s : Session) : BitmapCall → Except Fault Session
  | .reserve => do
    let (ret, bitmap) ← bitmapReserveFirstAvailableBit s.bitmap
    .ok { bitmap := bitmap, history := s.history ++ [.put ret ()] }
  | .release index => do
    let bitmap ← bitmapSet s.bitmap index false
    .ok { bitmap := bitmap, history := s.history ++ [.erase index] }

def started (bitmap : Bitmap) : Session where
  bitmap := bitmap
  history := []

/-- Only indices that are reserved are released. -/
def Allowed (s : Session) : BitmapCall → Prop
  | .reserve => True
  | .release index => index < s.bitmap.count ∧ s.bitmap.test index = true

/-- What a reservation makes of a bitmap with some free bits: nothing, or the least clear
index, which is not one that was returned before and not released since, is set. -/
structure Reserves (s : Session) (free : ℕ) (ret : ℤ) (bitmap' : Bitmap) : Prop where
  refused_iff : ret = -1 ↔ free = 0
  unchanged : ret = -1 → bitmap' = s.bitmap
  least : ret ≠ -1 → ∃ i : ℕ, ret = i ∧ i < s.bitmap.count ∧ s.bitmap.test i = false ∧
    (∀ j < i, s.bitmap.test j = true) ∧ bitmap'.test = Function.update s.bitmap.test i true
  fresh : ret ≠ -1 → ¬ Kept ret s.history
  free : ret ≠ -1 → ∃ free', bitmapGetFreeBits bitmap' = .ok free' ∧ free' + 1 = free

/-- What a release makes of it. -/
structure Releases (s : Session) (index free : ℕ) (bitmap' : Bitmap) : Prop where
  cleared : bitmap'.test = Function.update s.bitmap.test index false
  free : bitmapGetFreeBits bitmap' = .ok (free + 1)

/-- The call returns, and does what it is for. -/
def Serves (s : Session) : BitmapCall → Prop
  | .reserve => ∃ free ret bitmap', bitmapGetFreeBits s.bitmap = .ok free ∧
    bitmapReserveFirstAvailableBit s.bitmap = .ok (ret, bitmap') ∧ Reserves s free ret bitmap'
  | .release index => ∃ free bitmap', bitmapGetFreeBits s.bitmap = .ok free ∧
    bitmapSet s.bitmap index false = .ok bitmap' ∧ Releases s index free bitmap'

/-- The bits of a bitmap as a store. -/
def setBits (bitmap : Bitmap) : ℤ → Option Unit := fun index =>
  if 0 ≤ index ∧ bitmap.test index.toNat = true then some () else none

/-- The bitmap agrees with the history of a session that began with another one. -/
structure Tracks (initial : Bitmap) (s : Session) : Prop where
  sized : s.bitmap.Sized
  count : s.bitmap.count = initial.count
  test_iff : ∀ i : ℕ, s.bitmap.test i = true ↔ replay (setBits initial) s.history i ≠ none

section Calls

variable {initial bitmap bitmap' : Bitmap} {s s' : Session}

theorem sized_congr (h : bitmap.Sized) (hcount : bitmap'.count = bitmap.count)
    (hsize : bitmap'.size = bitmap.size) : bitmap'.Sized where
  count_lt := hcount ▸ h.count_lt
  count_le := by
    rw [hcount, hsize]
    exact h.count_le

theorem started_tracks (h : initial.Sized) : Tracks initial (started initial) where
  sized := h
  count := rfl
  test_iff := by
    intro i
    change initial.test i = true ↔ setBits initial i ≠ none
    by_cases htest : initial.test i = true
    · have hset : setBits initial i = some () := if_pos ⟨Int.natCast_nonneg i, htest⟩
      rw [hset]
      exact iff_of_true htest (Option.some_ne_none ())
    · have hclear : setBits initial i = none := if_neg fun hboth => htest hboth.2
      rw [hclear]
      exact iff_of_false htest fun h => h rfl

/-- The bits of the history after one more event. -/
theorem Tracks.test_iff_concat (h : Tracks initial s) (e : Event ℤ Unit) (i : ℕ) :
    replay (setBits initial) (s.history ++ [e]) i ≠ none ↔
      if e.key = i then e.result ≠ none else s.bitmap.test i = true := by
  rw [replay_concat, apply]
  by_cases hkey : e.key = i
  · rw [if_pos hkey, hkey, Function.update_self]
  · rw [if_neg hkey, Function.update_of_ne (Ne.symm hkey), h.test_iff]

/-- A reservation that finds no clear bit changes nothing. -/
theorem Tracks.refused (h : Tracks initial s) :
    Tracks initial ⟨s.bitmap, s.history ++ [.put (-1) ()]⟩ where
  sized := h.sized
  count := h.count
  test_iff := by
    intro i
    have hne : (Event.put (-1 : ℤ) ()).key ≠ i := by
      change (-1 : ℤ) ≠ i
      omega
    rw [h.test_iff_concat, if_neg hne]

/-- An event that puts or erases the one bit that is changed. -/
theorem Tracks.changed (h : Tracks initial s) {index : ℕ} {value : Bool} {e : Event ℤ Unit}
    (hcount : bitmap'.count = s.bitmap.count) (hsize : bitmap'.size = s.bitmap.size)
    (htest : bitmap'.test = Function.update s.bitmap.test index value) (hkey : e.key = index)
    (hresult : e.result ≠ none ↔ value = true) :
    Tracks initial ⟨bitmap', s.history ++ [e]⟩ where
  sized := sized_congr h.sized hcount hsize
  count := hcount.trans h.count
  test_iff := by
    intro i
    rw [h.test_iff_concat, hkey, htest]
    by_cases hi : i = index
    · rw [hi, Function.update_self, if_pos rfl, hresult]
    · have hne : (index : ℤ) ≠ i := by omega
      rw [Function.update_of_ne hi, if_neg hne]

theorem Tracks.reserve (h : Tracks initial s) : ∃ free ret bitmap',
    bitmapGetFreeBits s.bitmap = .ok free ∧
      bitmapReserveFirstAvailableBit s.bitmap = .ok (ret, bitmap') ∧
      Reserves s free ret bitmap' ∧ Tracks initial ⟨bitmap', s.history ++ [.put ret ()]⟩ := by
  have hfree := bitmapGetFreeBits_spec h.sized
  rcases bitmapReserveFirstAvailableBit_spec h.sized with
    ⟨j, bitmap', hfirst, hreserve, hcount, hsize, htest⟩ | ⟨hnone, hreserve⟩
  · obtain ⟨hlt, hclear, hleast⟩ := firstFree_some hfirst
    have hpos : 0 < freeCount s.bitmap.test s.bitmap.count :=
      freeCount_pos_iff.mpr ⟨j, hlt, hclear⟩
    have hnext : Tracks initial ⟨bitmap', s.history ++ [.put j ()]⟩ :=
      h.changed hcount hsize htest rfl (iff_of_true (Option.some_ne_none ()) rfl)
    refine ⟨_, j, bitmap', hfree, hreserve, ?_, hnext⟩
    constructor
    · exact iff_of_false (by omega) (by omega)
    · intro hret
      omega
    · exact fun _ => ⟨j, rfl, hlt, hclear, hleast, htest⟩
    · intro _ hkept
      have hheld := (h.test_iff j).mpr (replay_of_kept _ hkept)
      rw [hclear] at hheld
      exact Bool.false_ne_true hheld
    · intro _
      refine ⟨_, bitmapGetFreeBits_spec hnext.sized, ?_⟩
      rw [htest, hcount]
      exact freeCount_reserve hlt hclear
  · have hzero : freeCount s.bitmap.test s.bitmap.count = 0 :=
      freeCount_eq_zero (firstFree_none_iff.mp hnone)
    refine ⟨_, -1, s.bitmap, hfree, hreserve, ?_, h.refused⟩
    exact ⟨iff_of_true rfl hzero, fun _ => rfl, fun hne => absurd rfl hne,
      fun hne => absurd rfl hne, fun hne => absurd rfl hne⟩

theorem Tracks.release (h : Tracks initial s) {index : ℕ} (hlt : index < s.bitmap.count)
    (hheld : s.bitmap.test index = true) : ∃ free bitmap',
    bitmapGetFreeBits s.bitmap = .ok free ∧ bitmapSet s.bitmap index false = .ok bitmap' ∧
      Releases s index free bitmap' ∧
      Tracks initial ⟨bitmap', s.history ++ [.erase index]⟩ := by
  have hcount := h.sized.count_lt
  have hroom := h.sized.count_le
  obtain ⟨bitmap', hset, hcount', hsize', htest⟩ :=
    bitmapSet_spec s.bitmap index false (by omega) (by omega)
  have hnext : Tracks initial ⟨bitmap', s.history ++ [.erase index]⟩ :=
    h.changed hcount' hsize' htest rfl (iff_of_false (fun hne => hne rfl) Bool.false_ne_true)
  refine ⟨_, bitmap', bitmapGetFreeBits_spec h.sized, hset, ⟨htest, ?_⟩, hnext⟩
  rw [bitmapGetFreeBits_spec hnext.sized]
  change Except.ok (freeCount bitmap'.test bitmap'.count) = _
  rw [htest, hcount']
  exact congrArg Except.ok (freeCount_release hlt hheld)

theorem Tracks.serves (h : Tracks initial s) {call : BitmapCall} (hcall : Allowed s call) :
    Serves s call := by
  cases call with
  | reserve =>
    obtain ⟨free, ret, bitmap', hfree, hreserve, hserves, -⟩ := h.reserve
    exact ⟨free, ret, bitmap', hfree, hreserve, hserves⟩
  | release index =>
    obtain ⟨free, bitmap', hfree, hset, hserves, -⟩ := h.release hcall.1 hcall.2
    exact ⟨free, bitmap', hfree, hset, hserves⟩

/-- An allowed call returns and preserves the agreement. -/
theorem Tracks.step (h : Tracks initial s) {call : BitmapCall} (hcall : Allowed s call) :
    ∃ s', step s call = .ok s' ∧ Tracks initial s' := by
  cases call with
  | reserve =>
    obtain ⟨free, ret, bitmap', -, hreserve, -, hnext⟩ := h.reserve
    exact ⟨_, bind_of_ok hreserve _, hnext⟩
  | release index =>
    obtain ⟨free, bitmap', -, hset, -, hnext⟩ := h.release hcall.1 hcall.2
    exact ⟨_, bind_of_ok hset _, hnext⟩

/-- The free bits are those that are not set. -/
theorem Tracks.free (h : Tracks initial s) : bitmapGetFreeBits s.bitmap =
    .ok (initial.count - heldCount s.bitmap.test initial.count) := by
  have hall : freeCount s.bitmap.test s.bitmap.count + heldCount s.bitmap.test s.bitmap.count =
      s.bitmap.count := freeCount_add_heldCount _
  rw [bitmapGetFreeBits_spec h.sized, ← h.count]
  exact congrArg Except.ok (Nat.eq_sub_of_add_eq hall)

end Calls

/-- In every run a bit is set if it was put last, or set at the start and not released
since; the free bits are counted; and every call does what it is for. -/
theorem bitmap_of_run {bitmap : Bitmap} (h : bitmap.Sized) {calls : List BitmapCall}
    (hcalls : Each step Allowed (started bitmap) calls) :
    Always step (fun s => s.bitmap.count = bitmap.count ∧
      (∀ i : ℕ, s.bitmap.test i = true ↔ replay (setBits bitmap) s.history i ≠ none) ∧
      bitmapGetFreeBits s.bitmap = .ok (bitmap.count - heldCount s.bitmap.test bitmap.count))
      (started bitmap) calls ∧
    Each step Serves (started bitmap) calls := by
  constructor
  · exact always_of_each (fun s hs => ⟨hs.count, hs.test_iff, hs.free⟩)
      (fun s call hs hcall => hs.step hcall) (started_tracks h) hcalls
  · refine each_of_each (fun s call hs hcall => hs.serves hcall)
      (fun s call s' hs hcall hok => ?_) (started_tracks h) hcalls
    obtain ⟨t, ht, htracks⟩ := hs.step hcall
    rw [ht] at hok
    cases hok
    exact htracks

/-- Five bits, of which three are set. -/
def fiveBits : Bitmap where
  count := 5
  size := 1
  bits := fun _ => 0x15

/-- Bit 1 is reserved, bit 0 released and reserved again. -/
theorem bitmap_of_run_five : fiveBits.Sized ∧
    Each step Allowed (started fiveBits) [.reserve, .release 0, .reserve] ∧
    Each step Serves (started fiveBits) [.reserve, .release 0, .reserve] := by
  have hsized : fiveBits.Sized := ⟨by decide, by decide⟩
  have hallowed : Each step Allowed (started fiveBits) [.reserve, .release 0, .reserve] := by
    refine ⟨trivial, fun s' hok => ?_⟩
    cases hok
    exact ⟨⟨by decide, by decide⟩, fun s'' _ => ⟨trivial, fun _ _ => trivial⟩⟩
  exact ⟨hsized, hallowed, (bitmap_of_run hsized hallowed).2⟩

end RathalOS.BitmapRuns
