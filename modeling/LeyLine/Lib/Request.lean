import Mathlib.Logic.Relation

/-!
# Requests over a state

A request answers a value or an error and, either way, leaves a state: an error
does not undo what was done before it. `Req` is that reading as a monad.

Three kinds of statement are made about a request and all are compositional. What
it does to the state is a preorder every primitive step stays inside (`Moves`).
How it ends, from one state, is a postcondition on answer and state (`Ends`). What
it reveals is a relation between two states from which it answers alike and stays
related (`Alike`).
-/

/-- A request: from a state to an answer and the state after it. -/
def Req (ε W α : Type) : Type := W → Except ε α × W

namespace Req

variable {ε W α β : Type}

def andThen (r : Except ε α × W) (f : α → Req ε W β) : Except ε β × W :=
  match r with
  | (.ok a, w) => f a w
  | (.error e, w) => (.error e, w)

instance : Monad (Req ε W) where
  pure a := fun w => (.ok a, w)
  bind m f := fun w => andThen (m w) f

def fail (e : ε) : Req ε W α := fun w => (.error e, w)

def read (f : W → α) : Req ε W α := fun w => (.ok (f w), w)

def update (f : W → W) : Req ε W Unit := fun w => (.ok (), f w)

def require (c : Prop) [Decidable c] (e : ε) : Req ε W Unit := if c then pure () else fail e

def check (c : W → Prop) [DecidablePred c] (e : ε) : Req ε W Unit := fun w =>
  (if c w then .ok () else .error e, w)

def onlyIf (c : Prop) [Decidable c] (m : Req ε W Unit) : Req ε W Unit := if c then m else pure ()

def ofOption (e : ε) : Option α → Req ε W α
  | some a => pure a
  | none => fail e

def ofExcept : Except ε α → Req ε W α
  | .ok a => pure a
  | .error e => fail e

/-- Run a request for what it does to the state, and answer how it ended. -/
def attempt (m : Req ε W α) : Req ε W (Except ε α) := fun w => (.ok (m w).1, (m w).2)

def withError {ε' : Type} (f : ε → ε') (m : Req ε W α) : Req ε' W α :=
  fun w => ((m w).1.mapError f, (m w).2)

/-- A request on the first part of a state. -/
def onFst {V : Type} (m : Req ε W α) : Req ε (W × V) α := fun w => ((m w.1).1, (m w.1).2, w.2)

/-- A request that also has a variable of its own, and answers what is in it at the end. -/
def withLocal {V : Type} (v : V) (m : Req ε (W × V) α) : Req ε W (α × V) := fun w =>
  ((m (w, v)).1.map fun a => (a, (m (w, v)).2.2), (m (w, v)).2.1)

def collect (f : α → Req ε W (Option β)) : List α → Req ε W (List β)
  | [] => pure []
  | a :: as => do
    let b ← f a
    let bs ← collect f as
    pure (b.toList ++ bs)

@[simp] theorem pure_apply (a : α) (w : W) : (pure a : Req ε W α) w = (.ok a, w) := rfl

theorem bind_apply (m : Req ε W α) (f : α → Req ε W β) (w : W) :
    (m >>= f) w = andThen (m w) f := rfl

variable {m : Req ε W α}

variable {w' w : W} {a : α}

theorem bind_ok {f : α → Req ε W β} (h : m w = (.ok a, w')) : (m >>= f) w = f a w' := by
  rw [bind_apply, h]
  rfl

theorem withLocal_ok {V : Type} {v v' : V} {m : Req ε (W × V) α} (h : m (w, v) = (.ok a, w', v')) :
    withLocal v m w = (.ok (a, v'), w') := by
  rw [withLocal, h]
  rfl

theorem bind_eq_ok_iff {f : α → Req ε W β} {b : β} :
    (m >>= f) w = (.ok b, w') ↔ ∃ a w₁, m w = (.ok a, w₁) ∧ f a w₁ = (.ok b, w') := by
  rw [bind_apply]
  rcases hm : m w with ⟨e | a, w₁⟩
  · simp [andThen]
  · constructor
    · exact fun h => ⟨a, w₁, rfl, h⟩
    · rintro ⟨_, _, heq, h⟩
      cases heq
      exact h

@[simp] theorem fail_apply (e : ε) (w : W) : (fail e : Req ε W α) w = (.error e, w) := rfl

@[simp] theorem read_apply (f : W → α) (w : W) : (read f : Req ε W α) w = (.ok (f w), w) := rfl

@[simp] theorem update_apply (f : W → W) (w : W) :
    (update f : Req ε W Unit) w = (.ok (), f w) := rfl

@[simp] theorem attempt_apply (m : Req ε W α) (w : W) : attempt m w = (.ok (m w).1, (m w).2) := rfl

variable {c : Prop}

theorem require_of [Decidable c] (h : c) (e : ε) (w : W) :
    (require c e : Req ε W Unit) w = (.ok (), w) := by
  rw [require, if_pos h]
  rfl

theorem read_eq_ok_iff {f : W → α} : (read f : Req ε W α) w = (.ok a, w') ↔ f w = a ∧ w = w' := by
  simp [read]

theorem update_eq_ok_iff {f : W → W} {u : Unit} :
    (update f : Req ε W Unit) w = (.ok u, w') ↔ f w = w' := by
  simp [update]

theorem ofOption_eq_ok_iff {e : ε} {o : Option α} :
    (ofOption e o : Req ε W α) w = (.ok a, w') ↔ o = some a ∧ w = w' := by
  cases o with
  | none | some b => simp [ofOption]

/-! ## What a request does to the state -/

/-- Reflexive and transitive: what any sequence of steps stays inside. -/
class Closed (T : W → W → Prop) : Prop where
  refl : ∀ w, T w w
  trans : ∀ {w₁ w₂ w₃}, T w₁ w₂ → T w₂ w₃ → T w₁ w₃

/-- However it ends, the request moves the state inside `T`. -/
def Moves (T : W → W → Prop) (m : Req ε W α) : Prop := ∀ w, T w (m w).2

theorem Closed.keeps {V : Type} (f : W → V) : Closed fun w w' : W => f w' = f w :=
  ⟨fun _ => rfl, fun h₁ h₂ => h₂.trans h₁⟩

namespace Moves

variable {T U : W → W → Prop}

theorem mono (h : Moves T m) (hTU : ∀ w w', T w w' → U w w') : Moves U m := fun w => hTU _ _ (h w)

theorem update {f : W → W} (h : ∀ w, T w (f w)) : Moves T (update f : Req ε W Unit) := h

theorem attempt {m : Req ε W α} (h : Moves T m) : Moves T (attempt m) := h

theorem ite [Decidable c] {m n : Req ε W α} (hm : Moves T m) (hn : Moves T n) :
    Moves T (if c then m else n) := by
  split
  · exact hm
  · exact hn

variable [hT : Closed T]

theorem pure (a : α) : Moves T (pure a : Req ε W α) := hT.refl

theorem fail (e : ε) : Moves T (fail e : Req ε W α) := hT.refl

theorem read (f : W → α) : Moves T (read f : Req ε W α) := hT.refl

theorem bind {f : α → Req ε W β} (hm : Moves T m) (hf : ∀ a, Moves T (f a)) :
    Moves T (m >>= f) := by
  intro w
  rw [bind_apply]
  have hfst := hm w
  rcases h : m w with ⟨e | a, w₁⟩
  · rw [h] at hfst
    exact hfst
  · rw [h] at hfst
    exact hT.trans hfst (hf a w₁)

theorem map {f : α → β} (hm : Moves T m) : Moves T (m >>= fun a => Pure.pure (f a)) :=
  bind hm fun _ => pure _

theorem reads {f : W → α} {g : α → Req ε W β} (hg : ∀ a, Moves T (g a)) :
    Moves T (Req.read f >>= g) :=
  bind (read f) hg

theorem require (c : Prop) [Decidable c] (e : ε) : Moves T (require c e : Req ε W Unit) :=
  ite (pure ()) (fail e)

theorem requires [Decidable c] {e : ε} {g : Unit → Req ε W β} (hg : ∀ u, Moves T (g u)) :
    Moves T (Req.require c e >>= g) := bind (require c e) hg

theorem onlyIf {c : Prop} [Decidable c] {m : Req ε W Unit} (h : Moves T m) :
    Moves T (onlyIf c m) := ite h (pure ())

theorem ofOption (e : ε) (o : Option α) : Moves T (ofOption e o : Req ε W α) := by
  cases o with
  | none => exact fail e
  | some a => exact pure a

theorem ofExcept (x : Except ε α) : Moves T (ofExcept x : Req ε W α) := by
  cases x with
  | error e => exact fail e
  | ok a => exact pure a

theorem collect {f : α → Req ε W (Option β)} (hf : ∀ a, Moves T (f a)) :
    ∀ as, Moves T (collect f as)
  | [] => pure []
  | a :: as => bind (hf a) fun _ => bind (collect hf as) fun _ => pure _

end Moves

/-! ## How a request ends -/

/-- What holds of the answer, and of the state after it, when the request is made
in `w`. -/
def Ends (m : Req ε W α) (w : W) (Q : Except ε α → W → Prop) : Prop := Q (m w).1 (m w).2

namespace Ends

variable {T : W → W → Prop} {w u : W} {Q : Except ε β → W → Prop}

theorem bind {f : α → Req ε W β} {R : Except ε α → W → Prop} (hm : Ends m w R)
    (he : ∀ e w', R (.error e) w' → Q (.error e) w')
    (hf : ∀ a w', R (.ok a) w' → Ends (f a) w' Q) : Ends (m >>= f) w Q := by
  unfold Ends at hm ⊢
  rw [bind_apply]
  rcases h : m w with ⟨e | a, w₁⟩
  · rw [h] at hm
    exact he e w₁ hm
  · rw [h] at hm
    exact hf a w₁ hm

theorem read {f : W → α} {g : α → Req ε W β} (h : Ends (g (f w)) w Q) :
    Ends (Req.read f >>= g) w Q := h

theorem update {f : W → W} {g : Unit → Req ε W β} (h : Ends (g ()) (f w) Q) :
    Ends (Req.update f >>= g) w Q := h

theorem mono {m : Req ε W β} {R : Except ε β → W → Prop} (h : Ends m w R)
    (hQ : ∀ r w', R r w' → Q r w') : Ends m w Q := hQ _ _ h

theorem attempt {m : Req ε W α} {f : Except ε α → Req ε W β}
    (h : Ends m w fun r w' => Ends (f r) w' Q) : Ends (attempt m >>= f) w Q := h

theorem onFst {V : Type} {v : V} {R : Except ε α → W × V → Prop}
    (h : Ends m w fun r w' => R r (w', v)) :
    Ends (onFst m) (w, v) R := h

theorem check {c : W → Prop} [DecidablePred c] {e : ε} {f : Unit → Req ε W β}
    (he : ¬ c w → Q (.error e) w) (hf : c w → Ends (f ()) w Q) : Ends (check c e >>= f) w Q := by
  unfold Ends
  rw [bind_apply, Req.check]
  by_cases hc : c w
  · rw [if_pos hc]
    exact hf hc
  · rw [if_neg hc]
    exact he hc

theorem ofOption {e : ε} {o : Option α} {f : α → Req ε W β} (he : o = none → Q (.error e) w)
    (hf : ∀ a, o = some a → Ends (f a) w Q) : Ends (ofOption e o >>= f) w Q := by
  cases o with
  | none => exact he rfl
  | some a => exact hf a rfl

theorem require {c : Prop} [Decidable c] {e : ε} {f : Unit → Req ε W β}
    (he : ¬ c → Q (.error e) w) (hf : c → Ends (f ()) w Q) : Ends (require c e >>= f) w Q := by
  unfold Req.require
  split
  · rename_i h
    exact hf h
  · rename_i h
    exact he h

theorem ite [Decidable c] {m n : Req ε W β} (hm : c → Ends m w Q)
    (hn : ¬ c → Ends n w Q) : Ends (if c then m else n) w Q := by
  split
  · rename_i h
    exact hm h
  · rename_i h
    exact hn h

end Ends

end Req
