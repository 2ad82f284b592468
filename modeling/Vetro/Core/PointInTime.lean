import Mathlib.Tactic

/-!
# The values of an instant, read later

A table is read piece by piece while it changes.  An entry that is still to be
read is `pending` as long as it is unchanged; the first change keeps its old
value.  So each entry is read as it was at the start, from the table if it is
pending and from the kept values if it is not.
-/

namespace Vetro.PointInTime

variable {I A : Type*} {image table : I → A} {pending : I → Bool} {kept : I → Option A}
  {left : I → Prop}

/-- The entries that are left to read can all be read as they were. -/
def Holds (image table : I → A) (pending : I → Bool) (kept : I → Option A) (left : I → Prop) :
    Prop :=
  ∀ i, left i → if pending i then table i = image i else kept i = some (image i)

theorem Holds.start (image : I → A) (kept : I → Option A) (hpending : ∀ i, left i → pending i) :
    Holds image image pending kept left := by
  intro i hleft
  rw [if_pos (hpending i hleft)]

variable (hholds : Holds image table pending kept left)
include hholds

theorem Holds.mono {left' : I → Prop} (hsub : ∀ i, left' i → left i) :
    Holds image table pending kept left' :=
  fun i hleft => hholds i (hsub i hleft)

/-- Only the entries that are left matter. -/
theorem Holds.congr {pending' : I → Bool} {kept' : I → Option A}
    (hpending : ∀ i, left i → pending' i = pending i) (hkept : ∀ i, left i → kept' i = kept i) :
    Holds image table pending' kept' left := by
  intro i hleft
  rw [hpending i hleft, hkept i hleft]
  exact hholds i hleft

/-- A change of entries that are not pending. -/
theorem Holds.change {table' : I → A} (hsame : ∀ i, pending i = true → table' i = table i) :
    Holds image table' pending kept left := by
  intro i hleft
  have hentry := hholds i hleft
  by_cases hpending : pending i = true
  · rw [if_pos hpending] at hentry ⊢
    rw [hsame i hpending, hentry]
  · rw [if_neg hpending] at hentry ⊢
    exact hentry

/-- The old value of a pending entry is kept. -/
theorem Holds.keep [DecidableEq I] {pending' : I → Bool} {i : I} (hi : pending i = true)
    (hpending : ∀ j, pending' j = (pending j && decide (j ≠ i))) :
    Holds image table pending' (Function.update kept i (some (table i))) left := by
  intro j hleft
  have hentry := hholds j hleft
  by_cases hji : j = i
  · subst hji
    rw [if_pos hi] at hentry
    rw [hpending, if_neg (by simp), Function.update_self, hentry]
  · rw [hpending, decide_eq_true hji, Bool.and_true, Function.update_of_ne hji]
    exact hentry

/-- What is read of an entry. -/
theorem Holds.read {i : I} (hi : left i) :
    (if pending i then some (table i) else kept i) = some (image i) := by
  have hentry := hholds i hi
  by_cases hpending : pending i = true
  · rw [if_pos hpending] at hentry ⊢
    rw [hentry]
  · rwa [if_neg hpending] at hentry ⊢

end Vetro.PointInTime
