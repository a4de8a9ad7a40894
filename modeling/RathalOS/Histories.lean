import Mathlib.Logic.Function.Basic
import Mathlib.Data.List.Induction
import Mathlib.Data.List.Nodup
import Mathlib.Data.List.Perm.Basic

/-!
Histories of a store. A store maps keys to values; an event puts a value under a
key or erases a key. What a key holds after a history is decided by the last
event on it alone. Nothing here depends on a particular program.
-/
namespace RathalOS.Histories

variable {κ ν : Type} [DecidableEq κ]

inductive Event (κ ν : Type)
  | put (key : κ) (value : ν)
  | erase (key : κ)

def Event.key : Event κ ν → κ
  | .put key _ => key
  | .erase key => key

/-- What the key of an event holds after it. -/
def Event.result : Event κ ν → Option ν
  | .put _ value => some value
  | .erase _ => none

def apply (store : κ → Option ν) (e : Event κ ν) : κ → Option ν :=
  Function.update store e.key e.result

def replay (store : κ → Option ν) (history : List (Event κ ν)) : κ → Option ν :=
  history.foldl apply store

/-- The last event on a key. -/
def lastOn (key : κ) (history : List (Event κ ν)) : Option (Event κ ν) :=
  history.reverse.find? fun e => decide (e.key = key)

theorem replay_concat (store : κ → Option ν) (history : List (Event κ ν)) (e : Event κ ν) :
    replay store (history ++ [e]) = apply (replay store history) e := by
  simp [replay, List.foldl_append]

theorem lastOn_concat (key : κ) (history : List (Event κ ν)) (e : Event κ ν) :
    lastOn key (history ++ [e]) = if e.key = key then some e else lastOn key history := by
  simp only [lastOn, List.reverse_append, List.reverse_singleton, List.singleton_append,
    List.find?_cons]
  by_cases h : e.key = key <;> simp [h]

/-- A key holds what the last event on it left, or what it held before. -/
theorem replay_eq (store : κ → Option ν) (history : List (Event κ ν)) (key : κ) :
    replay store history key =
      match lastOn key history with
      | some e => e.result
      | none => store key := by
  induction history using List.reverseRecOn with
  | nil => rfl
  | append_singleton history e ih =>
    rw [replay_concat, lastOn_concat, apply]
    by_cases h : e.key = key
    · rw [if_pos h, ← h, Function.update_self]
    · rw [if_neg h, Function.update_of_ne (Ne.symm h), ih]

/-- Something has been put under a key and not been erased since. -/
def Kept (key : κ) (history : List (Event κ ν)) : Prop :=
  ∃ before value after, history = before ++ .put key value :: after ∧ .erase key ∉ after

theorem kept_concat (key : κ) (history : List (Event κ ν)) (e : Event κ ν) :
    Kept key (history ++ [e]) ↔ if e.key = key then e.result ≠ none else Kept key history := by
  constructor
  · rintro ⟨before, value, after, heq, hnot⟩
    rcases List.eq_nil_or_concat after with rfl | ⟨after, last, rfl⟩
    · obtain ⟨-, hlast⟩ := List.append_inj' heq rfl
      cases hlast
      rw [if_pos (show (Event.put key value).key = key from rfl)]
      exact Option.some_ne_none value
    · rw [List.concat_eq_append] at heq hnot
      rw [← List.cons_append, ← List.append_assoc] at heq
      obtain ⟨hhistory, hlast⟩ := List.append_inj' heq rfl
      cases hlast
      split
      · rename_i hkey
        cases e with
        | put key' value' => exact Option.some_ne_none value'
        | erase key' =>
          cases hkey
          exact absurd (List.mem_append_right _ List.mem_cons_self) hnot
      · exact ⟨before, value, after, hhistory,
          fun hmem => hnot (List.mem_append_left _ hmem)⟩
  · intro h
    split at h
    · rename_i hkey
      cases e with
      | put key' value =>
        cases hkey
        exact ⟨history, value, [], rfl, List.not_mem_nil⟩
      | erase key' => exact absurd rfl h
    · rename_i hkey
      obtain ⟨before, value, after, rfl, hnot⟩ := h
      refine ⟨before, value, after ++ [e], by simp, fun hmem => ?_⟩
      rcases List.mem_append.mp hmem with hmem | hmem
      · exact hnot hmem
      · cases List.mem_singleton.mp hmem
        exact hkey rfl

/-- A key that is kept holds something, whatever the store held before. -/
theorem replay_of_kept (store : κ → Option ν) {key : κ} {history : List (Event κ ν)}
    (h : Kept key history) : replay store history key ≠ none := by
  induction history using List.reverseRecOn with
  | nil =>
    rcases h with ⟨before, value, after, heq, -⟩
    exact absurd heq.symm (by simp)
  | append_singleton history e ih =>
    rw [kept_concat] at h
    rw [replay_concat, apply]
    by_cases hkey : e.key = key
    · rw [if_pos hkey] at h
      rw [← hkey, Function.update_self]
      exact h
    · rw [if_neg hkey] at h
      rw [Function.update_of_ne (Ne.symm hkey)]
      exact ih h

/-- A store that was empty holds what is kept. -/
theorem kept_iff (key : κ) (history : List (Event κ ν)) :
    Kept key history ↔ replay (fun _ => none) history key ≠ none := by
  induction history using List.reverseRecOn with
  | nil =>
    refine iff_of_false ?_ fun h => h rfl
    rintro ⟨before, value, after, heq, -⟩
    exact absurd heq.symm (by simp)
  | append_singleton history e ih =>
    rw [kept_concat, replay_concat, apply]
    by_cases h : e.key = key
    · rw [if_pos h, ← h, Function.update_self]
    · rw [if_neg h, Function.update_of_ne (Ne.symm h), ih]

/-- After a history of puts a key is vacant if it was before and no event is on it. -/
theorem replay_eq_none_iff (store : κ → Option ν) {history : List (Event κ ν)}
    (hputs : ∀ e ∈ history, e.result ≠ none) (key : κ) :
    replay store history key = none ↔ store key = none ∧ ∀ e ∈ history, e.key ≠ key := by
  induction history using List.reverseRecOn with
  | nil => simp [replay]
  | append_singleton history e ih =>
    have hlast : e.result ≠ none := hputs e (by simp)
    have hrec := ih fun e' he' => hputs e' (List.mem_append_left _ he')
    rw [replay_concat, apply]
    by_cases h : e.key = key
    · rw [← h, Function.update_self]
      exact iff_of_false hlast fun hvacant => hvacant.2 e (by simp) rfl
    · rw [Function.update_of_ne (Ne.symm h), hrec]
      refine and_congr_right fun _ => ?_
      constructor
      · intro hall e' he'
        rcases List.mem_append.mp he' with he' | he'
        · exact hall e' he'
        · rw [List.mem_singleton.mp he']
          exact h
      · intro hall e' he'
        exact hall e' (List.mem_append_left _ he')

/-- The order of events on different keys does not matter. -/
theorem replay_perm (store : κ → Option ν) {history history' : List (Event κ ν)}
    (hperm : history.Perm history') (hkeys : (history.map Event.key).Nodup) :
    replay store history = replay store history' := by
  refine hperm.foldl_eq' (fun e he e' he' s => ?_) store
  by_cases h : e.key = e'.key
  · rw [List.inj_on_of_nodup_map hkeys he he' h]
  · exact Function.update_comm h _ _ _

end RathalOS.Histories
