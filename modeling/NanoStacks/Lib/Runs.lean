import Mathlib.Tactic.Common

/-!
# Runs

A machine is a step function from a state and an action to the next state. `run` takes it through a
list of actions, and `run_invariant` is the one induction every statement about whole runs uses:
what holds at the start and is kept by each step holds at the end. `run_invariant_of_allMeet` is the
same for steps that keep it under a condition.
-/

namespace NanoStacks.Runs

universe u v

variable {S : Type u} {A : Type v} (step : S → A → S)

/-- The state after a list of actions. -/
def run (s : S) (actions : List A) : S := actions.foldl step s

@[simp] theorem run_nil (s : S) : run step s [] = s := rfl

@[simp] theorem run_cons (s : S) (a : A) (actions : List A) :
    run step s (a :: actions) = run step (step s a) actions := rfl

theorem run_append (s : S) (first second : List A) :
    run step s (first ++ second) = run step (run step s first) second :=
  List.foldl_append

variable {step}

theorem run_invariant (Inv : S → Prop) (hstep : ∀ s a, Inv s → Inv (step s a)) {s : S} (hs : Inv s)
    (actions : List A) : Inv (run step s actions) := by
  induction actions generalizing s with
  | nil => exact hs
  | cons a actions ih => exact ih (hstep s a hs)

/-- A run relates its two ends by any reflexive and transitive relation its steps respect, as long as
`Stays` holds of every state on the way. -/
theorem run_relation {Inv Stays : S → Prop} (R : S → S → Prop) (hrefl : ∀ s, R s s)
    (htrans : ∀ a b c, R a b → R b c → R a c) (hinv : ∀ s a, Inv s → Inv (step s a))
    (hstep : ∀ s a, Inv s → Stays s → Stays (step s a) → R s (step s a)) {s : S} (hs : Inv s)
    {actions : List A} (hstays : ∀ k ≤ actions.length, Stays (run step s (actions.take k))) :
    R s (run step s actions) := by
  induction actions generalizing s with
  | nil => exact hrefl s
  | cons a actions ih =>
    have hnow : Stays s := hstays 0 (Nat.zero_le _)
    have hnext : Stays (step s a) := hstays 1 (by simp)
    refine htrans _ _ _ (hstep s a hs hnow hnext) (ih (hinv s a hs) fun k hk => ?_)
    exact hstays (k + 1) (by simpa using hk)

/-- Every step of a run is made under a condition on the state before it. -/
def AllMeet (step : S → A → S) (Meets : S → A → Prop) : S → List A → Prop
  | _, [] => True
  | s, a :: actions => Meets s a ∧ AllMeet step Meets (step s a) actions

theorem run_invariant_of_allMeet {Meets : S → A → Prop} (Inv : S → Prop)
    (hstep : ∀ s a, Inv s → Meets s a → Inv (step s a)) {s : S} (hs : Inv s) {actions : List A}
    (hmeets : AllMeet step Meets s actions) : Inv (run step s actions) := by
  induction actions generalizing s with
  | nil => exact hs
  | cons a actions ih => exact ih (hstep s a hs hmeets.1) hmeets.2

end NanoStacks.Runs
