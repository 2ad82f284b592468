import Mathlib.Data.List.Basic
import Mathlib.Tactic.Common

/-!
# Traces

A trace is the list of what has been done, oldest first.  A condition on each
entry and on what came before it goes on to hold when entries that meet it are
added.
-/

namespace Vetro.Trace

open List

variable {A : Type*} {p : List A → A → Prop} {log : List A} {entry : A}

/-- Every entry meets `p` with the entries before it. -/
def Always (p : List A → A → Prop) (log : List A) : Prop :=
  ∀ k entry, log[k]? = some entry → p (log.take k) entry

theorem always_nil : Always p [] := fun _ _ hget => by simp at hget

theorem Always.append (halways : Always p log) (hentry : p log entry) :
    Always p (log ++ [entry]) := by
  intro k other hget
  rcases Nat.lt_trichotomy k log.length with hlt | heq | hgt
  · rw [getElem?_append_left hlt] at hget
    rw [take_append_of_le_length (Nat.le_of_lt hlt)]
    exact halways k other hget
  · subst heq
    rw [getElem?_concat_length] at hget
    rw [take_left, ← Option.some.inj hget]
    exact hentry
  · have hlength : (log ++ [entry]).length ≤ k := by
      rw [length_append, length_singleton]
      exact hgt
    rw [getElem?_eq_none hlength] at hget
    cases hget

/-- The condition at the last entry. -/
theorem Always.last (halways : Always p (log ++ [entry])) : p log entry := by
  have hlast := halways log.length entry getElem?_concat_length
  rwa [take_left] at hlast

/-- The condition at an entry in the middle. -/
theorem Always.at_append {before after : List A} (halways : Always p log)
    (hlog : log = before ++ entry :: after) : p before entry := by
  have hget : log[before.length]? = some entry := by
    rw [hlog, getElem?_append_right (Nat.le_refl _), Nat.sub_self]
    rfl
  have hentry := halways before.length entry hget
  rwa [hlog, take_left] at hentry

end Vetro.Trace
