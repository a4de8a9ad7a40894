import Mathlib.Data.Set.Function

/-!
Programs that stop in the middle of their writes. A store is a map from
positions to values and a program takes it through a list of states. It may stop
at any time; between two states any sectors of the later one may have been
stored. Nothing here depends on a particular program.
-/
namespace RathalOS.TornWrites

variable {α : Type}

/-- Some sectors hold the new values, the others still the old ones. -/
def torn (size : ℕ) (reached : ℕ → Bool) (old new : ℕ → α) : ℕ → α :=
  fun a => if reached (a / size) then new a else old a

/-- What may be stored when a program stops that goes through the listed states. -/
inductive Stop (size : ℕ) : List (ℕ → α) → (ℕ → α) → Prop
  | last (s : ℕ → α) : Stop size [s] s
  | during (old new : ℕ → α) (rest : List (ℕ → α)) (reached : ℕ → Bool) :
      Stop size (old :: new :: rest) (torn size reached old new)
  | later {first s : ℕ → α} {rest : List (ℕ → α)} (h : Stop size rest s) :
      Stop size (first :: rest) s

variable {size : ℕ} {old new base s mid : ℕ → α} {l l' : List (ℕ → α)} {S : Set ℕ}

theorem torn_all (size : ℕ) (old new : ℕ → α) : torn size (fun _ => true) old new = new := rfl

theorem torn_cases (size : ℕ) (reached : ℕ → Bool) (old new : ℕ → α) (a : ℕ) :
    torn size reached old new a = new a ∨ torn size reached old new a = old a := by
  unfold torn
  split
  · exact Or.inl rfl
  · exact Or.inr rfl

/-- Where both states agree with a third one, so does what lies between them. -/
theorem torn_eqOn (reached : ℕ → Bool) (hold : Set.EqOn old base S) (hnew : Set.EqOn new base S) :
    Set.EqOn (torn size reached old new) base S := by
  intro a ha
  rcases torn_cases size reached old new a with h | h
  · rw [h, hnew ha]
  · rw [h, hold ha]

/-- Positions of one sector are all old or all new. -/
theorem torn_sector (reached : ℕ → Bool) (old new : ℕ → α) {c : ℕ} (hS : ∀ a ∈ S, a / size = c) :
    Set.EqOn (torn size reached old new) old S ∨ Set.EqOn (torn size reached old new) new S := by
  cases hc : reached c with
  | false =>
    refine Or.inl fun a ha => ?_
    simp [torn, hS a ha, hc]
  | true =>
    refine Or.inr fun a ha => ?_
    simp [torn, hS a ha, hc]

/-- A program that writes nothing leaves its only state. -/
theorem Stop.of_single (h : Stop size [mid] s) : s = mid := by
  cases h with
  | last => rfl
  | later h => cases h

/-- A program may stop in each of its states. -/
theorem stop_of_mem (size : ℕ) (hs : s ∈ l) : Stop size l s := by
  induction l with
  | nil => exact absurd hs List.not_mem_nil
  | cons first rest ih =>
    rcases List.mem_cons.mp hs with rfl | hs
    · cases rest with
      | nil => exact Stop.last _
      | cons new rest => exact Stop.during s new rest fun _ => false
    · exact Stop.later (ih hs)

/-- What holds in every state, and between two states in which it holds, holds
wherever the program stops. -/
theorem Stop.of_forall {P : (ℕ → α) → Prop} (h : Stop size l s) (hstates : ∀ t ∈ l, P t)
    (htorn : ∀ old new reached, P old → P new → P (torn size reached old new)) : P s := by
  induction h with
  | last s => exact hstates s List.mem_cons_self
  | during old new rest reached =>
    exact htorn old new reached (hstates old (by simp)) (hstates new (by simp))
  | later h ih => exact ih fun t ht => hstates t (List.mem_cons_of_mem _ ht)

/-- A stop is before some state of the program or after it. -/
theorem Stop.split (h : Stop size (l ++ mid :: l') s) :
    Stop size (l ++ [mid]) s ∨ Stop size (mid :: l') s := by
  induction l with
  | nil => exact Or.inr h
  | cons first rest ih =>
    cases rest with
    | nil =>
      cases h with
      | during old new rest reached => exact Or.inl (Stop.during first mid [] reached)
      | later h => exact Or.inr h
    | cons second rest =>
      cases h with
      | during old new rest reached => exact Or.inl (Stop.during first second _ reached)
      | later h =>
        rcases ih h with h | h
        · exact Or.inl (Stop.later h)
        · exact Or.inr h

/-- A stop is before the last write of the program, or during it. -/
theorem Stop.last_write (h : Stop size (l ++ [old, new]) s) :
    Stop size (l ++ [old]) s ∨ ∃ reached, s = torn size reached old new := by
  rcases h.split with h | h
  · exact Or.inl h
  · cases h with
    | during old new rest reached => exact Or.inr ⟨reached, rfl⟩
    | later h =>
      rw [h.of_single]
      exact Or.inr ⟨fun _ => true, (torn_all size old new).symm⟩

end RathalOS.TornWrites
