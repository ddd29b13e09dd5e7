import Mathlib

/-!
# Runs of a machine

A machine is a function from a state and an action to a state. A run is a list of actions,
and a condition on actions, in the state each finds, holds along a run when every action
meets it. What the actions that meet a condition keep, a run of them keeps; a run whose
actions all lower a measure is bounded by it.
-/

namespace Machine

variable {S A : Type*} (next : S → A → S)

def run (s : S) (actions : List A) : S := actions.foldl next s

def Along (P : S → A → Prop) : S → List A → Prop
  | _, [] => True
  | s, a :: actions => P s a ∧ Along P (next s a) actions

instance instDecidableAlong {P : S → A → Prop} [∀ s a, Decidable (P s a)] :
    ∀ (s : S) (actions : List A), Decidable (Along next P s actions)
  | _, [] => isTrue trivial
  | s, a :: actions =>
    @instDecidableAnd (P s a) (Along next P (next s a) actions) inferInstance
      (instDecidableAlong (next s a) actions)

variable {next} {P : S → A → Prop} {s : S} {actions : List A}

theorem Along.keeps {I : S → Prop} (hstep : ∀ s a, I s → P s a → I (next s a))
    (h : Along next P s actions) (hs : I s) : I (run next s actions) := by
  induction actions generalizing s with
  | nil => exact hs
  | cons a actions ih => exact ih h.2 (hstep s a hs h.1)

theorem Along.length_le {m : S → Nat} (hlt : ∀ s a, P s a → m (next s a) < m s)
    (h : Along next P s actions) : actions.length ≤ m s := by
  induction actions generalizing s with
  | nil => exact Nat.zero_le _
  | cons a actions ih =>
    have hrest := ih h.2
    have ha := hlt s a h.1
    rw [List.length_cons]
    omega

end Machine
