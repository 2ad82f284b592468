import Mathlib.Tactic

/-!
# Outcomes of fallible code

A function of the source returns a value, returns an error, panics (an index
past the end, a subtraction below zero, a failed assertion) or loops for ever.
The last two are outcomes of the model too, so that a result stated as `ok`
also says that none of them happens.
-/

namespace Vetro.Outcome

/-- Why a run ends without a value. -/
inductive Stop (E : Type) where
  | error (value : E)
  | panic
  | hang
  deriving Repr, DecidableEq

abbrev Result (E A : Type) := Except (Stop E) A

variable {E A B : Type}

/-- An `Err` returned to the caller. -/
def fail (value : E) : Result E A := .error (.error value)

def panic : Result E A := .error .panic

def hang : Result E A := .error .hang

/-- A condition whose failure is a panic of the source. -/
def require (condition : Prop) [Decidable condition] : Result E Unit :=
  if condition then .ok () else panic

@[simp]
theorem ok_bind (value : A) (next : A → Result E B) :
    (Except.ok value >>= next) = next value := rfl

@[simp]
theorem require_eq_ok {condition : Prop} [Decidable condition]
    (hholds : condition) : require (E := E) condition = .ok () := by
  simp [require, hholds]

theorem bind_eq_ok {first : Result E A} {next : A → Result E B} {value : B} :
    (first >>= next) = .ok value ↔
      ∃ middle, first = .ok middle ∧ next middle = .ok value := by
  cases first with
  | error stop => simp [bind, Except.bind]
  | ok middle => simp [bind, Except.bind]

/-! ## Runs that do not panic -/

/-- The run returns a value with `post`, or an error. -/
def Safe (result : Result E A) (post : A → Prop) : Prop :=
  match result with
  | .ok value => post value
  | .error (.error _) => True
  | .error _ => False

theorem Safe.bind {first : Result E A} {next : A → Result E B} {middle : A → Prop}
    {post : B → Prop} (hfirst : Safe first middle)
    (hnext : ∀ value, middle value → Safe (next value) post) : Safe (first >>= next) post := by
  cases first with
  | ok value => exact hnext value hfirst
  | error stop =>
    cases stop with
    | error value => trivial
    | panic => exact hfirst
    | hang => exact hfirst

/-- A check whose failure is an error. -/
theorem Safe.unless {condition : Prop} [Decidable condition] {value : E} {next : Result E A}
    {post : A → Prop} (hnext : ¬condition → Safe next post) :
    Safe (if condition then fail value else next) post := by
  split_ifs with hfails
  · trivial
  · exact hnext hfails

/-- Every element of a list is mapped. -/
theorem Safe.mapM {C : Type} {act : C → Result E A} {post : C → A → Prop} {items : List C}
    (hact : ∀ item ∈ items, Safe (act item) (post item)) :
    Safe (items.mapM act) (List.Forall₂ post items) := by
  induction items with
  | nil => exact List.Forall₂.nil
  | cons item items ih =>
    rw [List.mapM_cons]
    refine (hact item List.mem_cons_self).bind fun value hvalue => ?_
    refine (ih fun other hother => hact other (List.mem_cons_of_mem _ hother)).bind ?_
    exact fun values hvalues => List.Forall₂.cons hvalue hvalues

end Vetro.Outcome
