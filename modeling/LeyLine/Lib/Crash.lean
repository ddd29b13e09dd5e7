import Mathlib

/-!
# Programs that may stop

A program is the list of its effects. Stopped after `k` of them it has done the first
`k`, and whatever is observed then was left by one of these effects or was there before.
A file replaced through a temporary one is observed through a name that only the rename
changes.
-/

namespace Crash

variable {S E O : Type*} (apply : E → S → S)

def after (es : List E) (s : S) : S := es.foldl (fun s e => apply e s) s

@[simp] theorem after_nil (s : S) : after apply [] s = s := rfl

@[simp] theorem after_cons (e : E) (es : List E) (s : S) :
    after apply (e :: es) s = after apply es (apply e s) := rfl

theorem after_append (es es' : List E) (s : S) :
    after apply (es ++ es') s = after apply es' (after apply es s) := List.foldl_append

def Silent (obs : S → O) (e : E) : Prop := ∀ s, obs (apply e s) = obs s

variable {apply}

theorem after_silent {obs : S → O} {es : List E} (h : ∀ e ∈ es, Silent apply obs e) (s : S) :
    obs (after apply es s) = obs s := by
  induction es generalizing s with
  | nil => rfl
  | cons e es ih =>
    rw [List.forall_mem_cons] at h
    rw [after_cons, ih h.2, h.1]

/-- Only one effect is not silent: stopped anywhere, the program has done nothing that is
observed, or that effect, in the state the effects before it led to. -/
theorem stopped {obs : S → O} {before : List E} {e : E} {rest : List E}
    (hbefore : ∀ x ∈ before, Silent apply obs x) (hrest : ∀ x ∈ rest, Silent apply obs x) (k : Nat)
    (s : S) :
    obs (after apply ((before ++ e :: rest).take k) s) = obs s ∨
      obs (after apply ((before ++ e :: rest).take k) s) =
      obs (apply e (after apply before s)) := by
  rcases Nat.lt_or_ge before.length k with hlt | hle
  · -- the effect is among the first `k`
    obtain ⟨n, hn⟩ : ∃ n, k - before.length = n + 1 := ⟨k - before.length - 1, by omega⟩
    rw [List.take_append, List.take_of_length_le hlt.le, hn, List.take_succ_cons, after_append,
      after_cons]
    exact .inr (after_silent (fun x hx => hrest x (List.mem_of_mem_take hx)) _)
  · rw [List.take_append_of_le_length hle]
    exact .inl (after_silent (fun x hx => hbefore x (List.mem_of_mem_take hx)) s)

end Crash
