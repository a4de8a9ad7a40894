import Mathlib.Data.Nat.Notation
import Mathlib.Algebra.Order.Group.Nat
import Mathlib.Data.List.Basic
import Mathlib.Logic.Function.Iterate

/-!
Text consoles. A console is a grid of cells, row after row, with a cursor that stays below
a limit. A character is put under the cursor, which moves on; a cursor that would reach
the limit scrolls the grid by a row and goes to the start of the last one. The limit may
leave the end of the last row out. Nothing here depends on a particular program.
-/
namespace RathalOS.Consoles

variable {α : Type}

/-- A grid of cells with the positions the cursor may take. -/
structure Geometry where
  width : ℕ
  rows : ℕ
  limit : ℕ
  two_le_width : 2 ≤ width
  two_le_rows : 2 ≤ rows
  lastRow_lt : (rows - 1) * width + 1 < limit
  limit_le : limit ≤ rows * width

structure Console (α : Type) where
  cells : ℕ → α
  cursor : ℕ

namespace Geometry

/-- The number of cells. -/
def size (g : Geometry) : ℕ := g.rows * g.width

/-- The first cell of the last row. -/
def lastRow (g : Geometry) : ℕ := (g.rows - 1) * g.width

/-- Where the cursor goes when it is sent to p. -/
def land (g : Geometry) (p : ℕ) : ℕ := if p < g.limit then p else g.lastRow

/-- The cursor after a character. -/
def advance (g : Geometry) (p : ℕ) : ℕ := g.land (p + 1)

/-- The cursor after a newline. -/
def nextRow (g : Geometry) (p : ℕ) : ℕ := g.land (p + (g.width - p % g.width))

theorem lastRow_succ_lt (g : Geometry) : g.lastRow + 1 < g.limit := g.lastRow_lt

theorem limit_le_size (g : Geometry) : g.limit ≤ g.size := g.limit_le

theorem size_eq (g : Geometry) : g.size = g.lastRow + g.width := by
  have hrows := g.two_le_rows
  rw [size, lastRow, ← Nat.succ_mul, show (g.rows - 1).succ = g.rows by omega]

theorem width_le_lastRow (g : Geometry) : g.width ≤ g.lastRow :=
  Nat.le_mul_of_pos_left g.width (Nat.sub_pos_of_lt g.two_le_rows)

theorem land_lt (g : Geometry) (p : ℕ) : g.land p < g.limit := by
  unfold land
  split
  · assumption
  · exact lt_of_le_of_lt (Nat.le_succ _) g.lastRow_succ_lt

theorem land_of_lt {g : Geometry} {p : ℕ} (h : p < g.limit) : g.land p = p := if_pos h

theorem land_of_le {g : Geometry} {p : ℕ} (h : g.limit ≤ p) : g.land p = g.lastRow :=
  if_neg (Nat.not_lt.mpr h)

theorem advance_lt (g : Geometry) (p : ℕ) : g.advance p < g.limit := g.land_lt _

theorem advance_ne {g : Geometry} {p : ℕ} (hp : p < g.limit) : g.advance p ≠ p := by
  have hrow := g.lastRow_succ_lt
  unfold advance land
  split <;> omega

theorem iterate_advance_lt {g : Geometry} {p : ℕ} (hp : p < g.limit) (n : ℕ) :
    g.advance^[n] p < g.limit := by
  cases n with
  | zero => exact hp
  | succ n =>
    rw [Function.iterate_succ_apply']
    exact g.advance_lt _

theorem iterate_advance_succ_ne {g : Geometry} {p : ℕ} (hp : p < g.limit) (n : ℕ) :
    g.advance^[n] (g.advance p) ≠ g.advance^[n] p := by
  rw [← Function.iterate_succ_apply, Function.iterate_succ_apply']
  exact advance_ne (iterate_advance_lt hp n)

theorem nextRow_congr {g : Geometry} {p q : ℕ} (h : p / g.width = q / g.width) :
    g.nextRow p = g.nextRow q := by
  have hwidth : 0 < g.width := lt_of_lt_of_le Nat.zero_lt_two g.two_le_width
  have hrow : ∀ r, r + (g.width - r % g.width) = (r / g.width + 1) * g.width := by
    intro r
    have hdiv := Nat.div_add_mod r g.width
    have hmod := Nat.mod_lt r hwidth
    rw [Nat.add_mul, one_mul, mul_comm (r / g.width)]
    omega
  rw [nextRow, nextRow, hrow p, hrow q, h]

/-- From its first cell to the limit, the last row is one row. -/
theorem row_of_lastRow_le {g : Geometry} {p : ℕ} (hlow : g.lastRow ≤ p) (hp : p < g.limit) :
    p / g.width = g.rows - 1 := by
  have hlimit := g.limit_le_size
  have hsize := g.size_eq
  refine Nat.div_eq_of_lt_le hlow ?_
  rw [Nat.add_mul, one_mul]
  exact lt_of_lt_of_le hp (hlimit.trans hsize.le)

/-- A character moves the cursor into another row at most every second time. -/
theorem row_advance_or {g : Geometry} {p : ℕ} (hp : p < g.limit) :
    p / g.width = g.advance p / g.width ∨
      g.advance p / g.width = g.advance (g.advance p) / g.width := by
  have hwidth : 0 < g.width := lt_of_lt_of_le Nat.zero_lt_two g.two_le_width
  by_cases hlow : g.lastRow ≤ g.advance p
  · right
    have hnext : g.lastRow ≤ g.advance (g.advance p) := by
      rw [advance, land]
      split
      · exact hlow.trans (Nat.le_succ _)
      · exact le_rfl
    rw [row_of_lastRow_le hlow (g.advance_lt p), row_of_lastRow_le hnext (g.advance_lt _)]
  · have hrow := g.lastRow_succ_lt
    have hone : g.advance p = p + 1 := by
      unfold advance land at hlow ⊢
      split at hlow <;> split <;> omega
    have htwo : g.advance (g.advance p) = p + 1 + 1 := by
      rw [hone] at hlow ⊢
      exact land_of_lt (by omega)
    rw [htwo, hone]
    by_cases hlast : g.width ∣ p + 1
    · right
      obtain ⟨k, hk⟩ := hlast
      rw [hk, Nat.mul_div_cancel_left k hwidth, Nat.mul_add_div hwidth,
        Nat.div_eq_of_lt g.two_le_width, Nat.add_zero]
    · left
      exact (Nat.succ_div_of_not_dvd hlast).symm

/-- However many characters follow, some cursor ends up in the same row as the one after
it. -/
theorem exists_same_row (g : Geometry) (n : ℕ) : ∃ p < g.limit,
    g.advance^[n] p / g.width = g.advance^[n] (g.advance p) / g.width := by
  have hzero : 0 < g.limit := lt_of_le_of_lt (Nat.zero_le _) g.lastRow_succ_lt
  rcases row_advance_or (iterate_advance_lt hzero n) with hrow | hrow
  · refine ⟨0, hzero, ?_⟩
    rw [← Function.iterate_succ_apply, Function.iterate_succ_apply']
    exact hrow
  · refine ⟨g.advance 0, g.advance_lt 0, ?_⟩
    rw [← Function.iterate_succ_apply, ← Function.iterate_succ_apply,
      ← Function.iterate_succ_apply, Function.iterate_succ_apply',
      Function.iterate_succ_apply', Function.iterate_succ_apply']
    exact hrow

end Geometry

/-- The grid scrolled by a row. -/
def scrolled (g : Geometry) (blank : α) (cells : ℕ → α) : ℕ → α := fun i =>
  if i < g.lastRow then cells (i + g.width) else if i < g.size then blank else cells i

/-- The cursor sent to p. -/
def settle (g : Geometry) (blank : α) (c : Console α) (p : ℕ) : Console α :=
  { cells := if p < g.limit then c.cells else scrolled g blank c.cells
    cursor := g.land p }

def put (g : Geometry) (blank : α) (c : Console α) (a : α) : Console α :=
  settle g blank { c with cells := Function.update c.cells c.cursor a } (c.cursor + 1)

def newline (g : Geometry) (blank : α) (c : Console α) : Console α :=
  settle g blank c (c.cursor + (g.width - c.cursor % g.width))

section Writing

variable {g : Geometry} {blank : α} {c : Console α}

@[simp] theorem put_cursor (a : α) : (put g blank c a).cursor = g.advance c.cursor := rfl

@[simp] theorem newline_cursor : (newline g blank c).cursor = g.nextRow c.cursor := rfl

theorem foldl_put_cursor (text : List α) :
    (text.foldl (put g blank) c).cursor = g.advance^[text.length] c.cursor := by
  induction text generalizing c with
  | nil => rfl
  | cons a rest ih => rw [List.foldl_cons, ih, put_cursor, List.length_cons,
      Function.iterate_succ_apply]

/-- Text that ends before the limit is laid out from the cursor on. -/
theorem foldl_put_of_fits (blank : α) {text : List α} (h : c.cursor + text.length < g.limit) :
    (text.foldl (put g blank) c).cursor = c.cursor + text.length ∧
      ∀ i, (text.foldl (put g blank) c).cells i =
        if c.cursor ≤ i then text.getD (i - c.cursor) (c.cells i) else c.cells i := by
  induction text generalizing c with
  | nil => exact ⟨rfl, fun i => by simp⟩
  | cons a rest ih =>
    rw [List.length_cons] at h
    have hfits : c.cursor + 1 < g.limit := by omega
    have hcursor : (put g blank c a).cursor = c.cursor + 1 := Geometry.land_of_lt hfits
    have hcells : (put g blank c a).cells = Function.update c.cells c.cursor a := if_pos hfits
    obtain ⟨hend, hlaid⟩ := ih (by rw [hcursor]; omega)
    rw [List.foldl_cons]
    refine ⟨by rw [hend, hcursor, List.length_cons]; omega, fun i => ?_⟩
    rw [hlaid i, hcursor, hcells]
    rcases Nat.lt_trichotomy i c.cursor with hi | hi | hi
    · rw [if_neg (by omega), if_neg (by omega), Function.update_of_ne (by omega)]
    · subst hi
      rw [if_neg (by omega), if_pos le_rfl, Function.update_self, Nat.sub_self,
        List.getD_cons_zero]
    · obtain ⟨k, rfl⟩ := Nat.exists_eq_add_of_lt hi
      rw [if_pos (by omega), if_pos (by omega), Function.update_of_ne (by omega),
        show c.cursor + k + 1 - (c.cursor + 1) = k by omega,
        show c.cursor + k + 1 - c.cursor = k + 1 by omega, List.getD_cons_succ]

/-- The cells from the limit on, and the ones above them, which they were scrolled to. -/
structure Cornered (g : Geometry) (B : α → Prop) (c : Console α) : Prop where
  lastRow_le : g.lastRow ≤ c.cursor
  cursor_lt : c.cursor < g.limit
  beyond : ∀ i, g.limit ≤ i → i < g.size → B (c.cells i)
  above : ∀ i, g.limit ≤ i → i < g.size → B (c.cells (i - g.width))

variable {B : α → Prop}

/-- What the cells from the limit on hold is never written over, only scrolled. -/
theorem beyond_put (hblank : B blank) (hcursor : c.cursor < g.limit)
    (h : ∀ i, g.limit ≤ i → i < g.size → B (c.cells i)) (a : α) :
    ∀ i, g.limit ≤ i → i < g.size → B ((put g blank c a).cells i) := by
  intro i hlow hi
  have hrow := g.lastRow_succ_lt
  unfold put settle
  dsimp only
  split
  · rw [Function.update_of_ne (by omega)]
    exact h i hlow hi
  · rw [scrolled, if_neg (by omega), if_pos hi]
    exact hblank

/-- The first scroll moves the cells from the limit on up by a row. -/
theorem cornered_of_scroll (hblank : B blank) (hcursor : c.cursor < g.limit)
    (hscroll : g.limit ≤ c.cursor + 1)
    (h : ∀ i, g.limit ≤ i → i < g.size → B (c.cells i)) (a : α) :
    Cornered g B (put g blank c a) := by
  have hrow := g.lastRow_succ_lt
  refine ⟨?_, g.advance_lt _, beyond_put hblank hcursor h a, fun i hlow hi => ?_⟩
  · rw [put_cursor, Geometry.advance, Geometry.land_of_le hscroll]
  · have hsize := g.size_eq
    have hwidth := g.width_le_lastRow
    have hcells : (put g blank c a).cells =
        scrolled g blank (Function.update c.cells c.cursor a) := if_neg (Nat.not_lt.mpr hscroll)
    have hlast : i - g.width < g.lastRow := by omega
    have hle : g.width ≤ i := by omega
    rw [hcells, scrolled, if_pos hlast, Nat.sub_add_cancel hle, Function.update_of_ne (by omega)]
    exact h i hlow hi

theorem Cornered.put (hblank : B blank) (h : Cornered g B c) (a : α) :
    Cornered g B (put g blank c a) := by
  by_cases hscroll : g.limit ≤ c.cursor + 1
  · exact cornered_of_scroll hblank h.cursor_lt hscroll h.beyond a
  · have hfits : c.cursor + 1 < g.limit := Nat.lt_of_not_le hscroll
    have hcells : (Consoles.put g blank c a).cells = Function.update c.cells c.cursor a :=
      if_pos hfits
    refine ⟨?_, g.advance_lt _, beyond_put hblank h.cursor_lt h.beyond a, fun i hlow hi => ?_⟩
    · rw [put_cursor, Geometry.advance, Geometry.land_of_lt hfits]
      exact h.lastRow_le.trans (Nat.le_succ _)
    · have hsize := g.size_eq
      have hwidth := g.width_le_lastRow
      have hrow := h.lastRow_le
      rw [hcells, Function.update_of_ne (by omega)]
      exact h.above i hlow hi

theorem Cornered.foldl_put (hblank : B blank) (h : Cornered g B c) (text : List α) :
    Cornered g B (text.foldl (Consoles.put g blank) c) := by
  induction text generalizing c with
  | nil => exact h
  | cons a rest ih => exact ih (h.put hblank a)

/-- Text that reaches the limit leaves the cells from there on as they were before it, in
the last row and in the row above. -/
theorem cornered_foldl_put (hblank : B blank) (hcursor : c.cursor < g.limit)
    (h : ∀ i, g.limit ≤ i → i < g.size → B (c.cells i)) {text : List α}
    (hlong : g.limit ≤ c.cursor + text.length) :
    Cornered g B (text.foldl (Consoles.put g blank) c) := by
  induction text generalizing c with
  | nil => exact absurd hcursor (Nat.not_lt.mpr hlong)
  | cons a rest ih =>
    rw [List.foldl_cons]
    by_cases hscroll : g.limit ≤ c.cursor + 1
    · exact (cornered_of_scroll hblank hcursor hscroll h a).foldl_put hblank rest
    · have hnext : (put g blank c a).cursor = c.cursor + 1 :=
        Geometry.land_of_lt (Nat.lt_of_not_le hscroll)
      refine ih (g.advance_lt _) (beyond_put hblank hcursor h a) ?_
      rw [hnext, Nat.add_assoc, Nat.add_comm 1, ← List.length_cons (a := a)]
      exact hlong

end Writing

/-- Copying cells in place to cells before them, in ascending order. -/
theorem foldl_copy (cells : ℕ → α) (start : ℕ) {width : ℕ} (hwidth : 0 < width) (n : ℕ) :
    (List.range n).foldl (fun cells x =>
      Function.update cells (start + x) (cells (start + width + x))) cells =
      fun i => if start ≤ i ∧ i < start + n then cells (i + width) else cells i := by
  induction n with
  | zero =>
    funext i
    rw [if_neg (by omega)]
    rfl
  | succ n ih =>
    rw [List.range_succ, List.foldl_append, ih, List.foldl_cons, List.foldl_nil]
    funext i
    by_cases hi : i = start + n
    · subst hi
      dsimp only
      rw [Function.update_self, if_neg (by omega), if_pos (by omega),
        Nat.add_right_comm start width n]
    · rw [Function.update_of_ne hi]
      by_cases hin : start ≤ i ∧ i < start + n
      · rw [if_pos hin, if_pos (by omega)]
      · rw [if_neg hin, if_neg (by omega)]

end RathalOS.Consoles
