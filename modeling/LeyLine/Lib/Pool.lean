import Mathlib

/-!
# Calls over shared state

Any number of callers run one program over shared state. What a caller does between two
accesses to the state is its own, so a run is a list of actions: a call arrives, or one
caller takes its next step with what the environment answers it there. What holds of the
shared state, of each caller and of each two callers is kept by a run when each step keeps
it.
-/

/-- Shared state, and the callers in the order they arrived. -/
structure Pool (S T : Type*) where
  shared : S
  callers : List T

namespace Pool

open Pool

variable {S T C A : Type*}

/-- A call arrives, or a caller steps. -/
inductive Action (C A : Type*) where
  | call (c : C)
  | step (i : Nat) (answer : A)

/-- How a call begins, and what a step does to the state and the caller. -/
structure Program (S T C A : Type*) where
  enter : C → T
  advance : A → S → T → S × T

def next (prog : Program S T C A) (w : Pool S T) : Action C A → Pool S T
  | .call c => { w with callers := w.callers ++ [prog.enter c] }
  | .step i answer =>
    match w.callers[i]? with
    | none => w
    | some t =>
      ⟨(prog.advance answer w.shared t).1, w.callers.set i (prog.advance answer w.shared t).2⟩

def run (prog : Program S T C A) (w : Pool S T) (actions : List (Action C A)) : Pool S T :=
  actions.foldl (next prog) w

variable {prog : Program S T C A}

theorem run_concat (w : Pool S T) (actions : List (Action C A)) (a : Action C A) :
    run prog w (actions ++ [a]) = next prog (run prog w actions) a := by
  rw [run, List.foldl_append]
  rfl

variable {w : Pool S T} {i : Nat} {t : T}

theorem next_step (h : w.callers[i]? = some t) (answer : A) : next prog w (.step i answer) =
      ⟨(prog.advance answer w.shared t).1, w.callers.set i (prog.advance answer w.shared t).2⟩ := by
  rw [next, h]

theorem next_cases {motive : Pool S T → Prop} (w : Pool S T) (a : Action C A)
    (hcall : ∀ c, a = .call c → motive { w with callers := w.callers ++ [prog.enter c] })
    (hstep : ∀ i answer t, a = .step i answer → w.callers[i]? = some t →
      motive ⟨(prog.advance answer w.shared t).1,
      w.callers.set i (prog.advance answer w.shared t).2⟩)
    (hnone : motive w) : motive (next prog w a) := by
  cases a with
  | call c => exact hcall c rfl
  | step i answer =>
    rcases hi : w.callers[i]? with _ | t
    · rw [next, hi]
      exact hnone
    · rw [next_step hi]
      exact hstep i answer t rfl hi

/-- The shared state is good, and each caller in it, and each two callers beside each
other. -/
structure Inv (G : S → Prop) (L : S → T → Prop) (D : T → T → Prop) (w : Pool S T) : Prop where
  shared : G w.shared
  each : ∀ (i : Nat) (t : T), w.callers[i]? = some t → L w.shared t
  pairs : ∀ (i j : Nat) (t u : T), i ≠ j → w.callers[i]? = some t → w.callers[j]? = some u → D t u

/-- What a program must do for `Inv` to be kept. -/
structure Keeps (prog : Program S T C A) (G : S → Prop) (L : S → T → Prop) (D : T → T → Prop) :
    Prop where
  enter : ∀ c s, G s → L s (prog.enter c)
  enterPair : ∀ c u, D (prog.enter c) u ∧ D u (prog.enter c)
  shared : ∀ a s t, G s → L s t → G (prog.advance a s t).1
  own : ∀ a s t, G s → L s t → L (prog.advance a s t).1 (prog.advance a s t).2
  other : ∀ a s t u, G s → L s t → L s u → D t u → D u t → L (prog.advance a s t).1 u
  pair : ∀ a s t u, G s → L s t → L s u → D t u → D u t →
    D (prog.advance a s t).2 u ∧ D u (prog.advance a s t).2

variable {G : S → Prop} {L : S → T → Prop} {D : T → T → Prop} {t' : T}

theorem getElem?_set_cases {l : List T} {i j : Nat} {u : T} (h : (l.set i t')[j]? = some u) :
    i = j ∧ u = t' ∨ i ≠ j ∧ l[j]? = some u := by
  rw [List.getElem?_set] at h
  split_ifs at h with heq hlt
  · exact .inl ⟨heq, (Option.some.inj h).symm⟩
  · exact .inr ⟨heq, h⟩

theorem getElem?_concat_cases {l : List T} {j : Nat} {t u : T} (h : (l ++ [t])[j]? = some u) :
    j = l.length ∧ u = t ∨ l[j]? = some u := by
  rcases Nat.lt_trichotomy j l.length with hlt | rfl | hgt
  · exact .inr (by rwa [List.getElem?_append_left hlt] at h)
  · exact .inl ⟨rfl, by simpa using h.symm⟩
  · rw [List.getElem?_eq_none (by simpa using hgt)] at h
    simp at h

theorem Inv.concat (h : Inv G L D w) (hown : L w.shared t') (hpair : ∀ u, D t' u ∧ D u t') :
    Inv G L D { w with callers := w.callers ++ [t'] } := by
  refine ⟨h.shared, fun i t hi => ?_, fun i j t u hij hi hj => ?_⟩
  · rcases getElem?_concat_cases hi with ⟨-, rfl⟩ | hi
    · exact hown
    · exact h.each i t hi
  · rcases getElem?_concat_cases hi with ⟨-, rfl⟩ | hi
    · exact (hpair u).1
    · rcases getElem?_concat_cases hj with ⟨-, rfl⟩ | hj
      · exact (hpair t).2
      · exact h.pairs i j t u hij hi hj

theorem Inv.set (h : Inv G L D w) {s' : S} (hshared : G s') (hown : L s' t')
    (hother : ∀ j u, i ≠ j → w.callers[j]? = some u → L s' u)
    (hpair : ∀ j u, i ≠ j → w.callers[j]? = some u → D t' u ∧ D u t') :
    Inv G L D ⟨s', w.callers.set i t'⟩ := by
  refine ⟨hshared, fun j u hj => ?_, fun j k u v hjk hj hk => ?_⟩
  · rcases getElem?_set_cases hj with ⟨-, rfl⟩ | ⟨hne, hj⟩
    · exact hown
    · exact hother j u hne hj
  · rcases getElem?_set_cases hj with ⟨rfl, rfl⟩ | ⟨hne, hju⟩
    · rcases getElem?_set_cases hk with ⟨rfl, -⟩ | ⟨hne, hkv⟩
      · exact absurd rfl hjk
      · exact (hpair k v hne hkv).1
    · rcases getElem?_set_cases hk with ⟨-, rfl⟩ | ⟨-, hkv⟩
      · exact (hpair j u hne hju).2
      · exact h.pairs j k u v hjk hju hkv

/-! ## Runs whose actions all meet a condition -/

def Along (prog : Program S T C A) (P : Pool S T → Action C A → Prop) :
    Pool S T → List (Action C A) → Prop
  | _, [] => True
  | w, a :: actions => P w a ∧ Along prog P (next prog w a) actions

instance instDecidableAlong {P : Pool S T → Action C A → Prop} [∀ w a, Decidable (P w a)] :
    ∀ (w : Pool S T) (actions : List (Action C A)), Decidable (Along prog P w actions)
  | _, [] => isTrue trivial
  | w, a :: actions =>
    @instDecidableAnd (P w a) (Along prog P (Pool.next prog w a) actions) inferInstance
      (instDecidableAlong (Pool.next prog w a) actions)

variable {actions : List (Action C A)} {P : Pool S T → Action C A → Prop} {I : Pool S T → Prop}

theorem Along.run (hstep : ∀ w a, I w → P w a → I (next prog w a)) (h : Along prog P w actions)
    (hw : I w) : I (run prog w actions) := by
  induction actions generalizing w with
  | nil => exact hw
  | cons a actions ih => exact ih h.2 (hstep w a hw h.1)

variable {Q : Pool S T → Action C A → Prop}

theorem Along.within (hstep : ∀ w a, I w → P w a → I (next prog w a))
    (hQ : ∀ w a, I w → P w a → Q w a)
    (h : Along prog P w actions) (hw : I w) : Along prog Q w actions := by
  induction actions generalizing w with
  | nil => trivial
  | cons a actions ih => exact ⟨hQ w a hw h.1, ih h.2 (hstep w a hw h.1)⟩

theorem Along.and
    (h : Along prog P w actions) (h' : Along prog Q w actions) :
    Along prog (fun w a => P w a ∧ Q w a) w actions := by
  induction actions generalizing w with
  | nil => trivial
  | cons a actions ih => exact ⟨⟨h.1, h'.1⟩, ih h.2 h'.2⟩

/-- What a program must do for `Inv` to be kept by the steps that meet `P`. -/
structure KeepsWhen (prog : Program S T C A) (P : A → S → T → Prop) (G : S → Prop)
    (L : S → T → Prop) (D : T → T → Prop) : Prop where
  enter : ∀ c s, G s → L s (prog.enter c)
  enterPair : ∀ c u, D (prog.enter c) u ∧ D u (prog.enter c)
  shared : ∀ a s t, P a s t → G s → L s t → G (prog.advance a s t).1
  own : ∀ a s t, P a s t → G s → L s t → L (prog.advance a s t).1 (prog.advance a s t).2
  other : ∀ a s t u, P a s t → G s → L s t → L s u → D t u → D u t → L (prog.advance a s t).1 u
  pair : ∀ a s t u, P a s t → G s → L s t → L s u → D t u → D u t →
    D (prog.advance a s t).2 u ∧ D u (prog.advance a s t).2

/-- A step's condition, as one of the action: every step of a caller that is there meets it. -/
def Meets (P : A → S → T → Prop) (w : Pool S T) : Action C A → Prop
  | .call _ => True
  | .step i answer => ∀ t, w.callers[i]? = some t → P answer w.shared t

instance decidableForallSome {α : Type*} {p : α → Prop} [DecidablePred p] :
    ∀ o : Option α, Decidable (∀ a, o = some a → p a)
  | none => isTrue nofun
  | some a => decidable_of_iff (p a) ⟨fun h _ hb => Option.some.inj hb ▸ h, fun h => h a rfl⟩

instance {P : A → S → T → Prop} [∀ a s t, Decidable (P a s t)] (w : Pool S T) :
    ∀ a : Action C A, Decidable (Meets P w a)
  | .call _ => isTrue trivial
  | .step i answer => decidableForallSome (p := fun t => P answer w.shared t) w.callers[i]?

theorem Inv.nextWhen {P : A → S → T → Prop} (hkeeps : KeepsWhen prog P G L D) (h : Inv G L D w)
    {a : Action C A} (hmeets : Meets P w a) : Inv G L D (next prog w a) := by
  refine next_cases w a (fun c _ => ?_) (fun i answer t ha hi => ?_) h
  · exact h.concat (hkeeps.enter c _ h.shared) (hkeeps.enterPair c)
  · subst ha
    have hP := hmeets t hi
    have ht := h.each i t hi
    refine h.set (hkeeps.shared answer _ t hP h.shared ht) (hkeeps.own answer _ t hP h.shared ht)
      (fun j u hne hj => ?_) fun j u hne hj => ?_
    · exact hkeeps.other answer _ t u hP h.shared ht (h.each j u hj) (h.pairs i j t u hne hi hj)
        (h.pairs j i u t hne.symm hj hi)
    · exact hkeeps.pair answer _ t u hP h.shared ht (h.each j u hj) (h.pairs i j t u hne hi hj)
        (h.pairs j i u t hne.symm hj hi)

theorem Inv.along {P : A → S → T → Prop} (hkeeps : KeepsWhen prog P G L D) (h : Inv G L D w)
    (hmeets : Along prog (Meets P) w actions) : Inv G L D (run prog w actions) :=
  hmeets.run (fun _ _ hw ha => hw.nextWhen hkeeps ha) h

theorem Keeps.always (h : Keeps prog G L D) : KeepsWhen prog (fun _ _ _ => True) G L D :=
  ⟨h.enter, h.enterPair, fun a s t _ => h.shared a s t, fun a s t _ => h.own a s t,
    fun a s t u _ => h.other a s t u, fun a s t u _ => h.pair a s t u⟩

theorem Inv.next (hkeeps : Keeps prog G L D) {w : Pool S T} (h : Inv G L D w) (a : Action C A) :
    Inv G L D (next prog w a) :=
  h.nextWhen hkeeps.always (by cases a <;> simp [Meets])

theorem Inv.run (hkeeps : Keeps prog G L D) {w : Pool S T} (h : Inv G L D w)
    (actions : List (Action C A)) : Inv G L D (run prog w actions) := by
  induction actions generalizing w with
  | nil => exact h
  | cons a actions ih => exact ih (h.next hkeeps a)

theorem along_congr
    (hiff : ∀ w a, I w → (P w a ↔ Q w a)) (hstep : ∀ w a, I w → P w a → I (next prog w a))
    (hw : I w) (actions : List (Action C A)) : Along prog P w actions ↔ Along prog Q w actions := by
  induction actions generalizing w with
  | nil => exact Iff.rfl
  | cons a actions ih =>
    constructor
    · rintro ⟨hP, hrest⟩
      exact ⟨(hiff w a hw).mp hP, (ih (hstep w a hw hP)).mp hrest⟩
    · rintro ⟨hQ, hrest⟩
      have hP := (hiff w a hw).mpr hQ
      exact ⟨hP, (ih (hstep w a hw hP)).mpr hrest⟩

theorem along_append {l l' : List (Action C A)} :
    Along prog P w (l ++ l') ↔ Along prog P w l ∧ Along prog P (run prog w l) l' := by
  induction l generalizing w with
  | nil => simp [Along, run]
  | cons a l ih =>
    change P w a ∧ Along prog P (next prog w a) (l ++ l') ↔
      (P w a ∧ Along prog P (next prog w a) l) ∧ Along prog P (run prog (next prog w a) l) l'
    rw [ih, and_assoc]

/-! ## One caller, alone -/

/-- A caller whose own steps lower a measure until it is done gets done when it steps alone, and
keeps what its own steps keep. -/
theorem steps_reach {a : A} {done P : T → Prop} (m : T → Nat)
    (hI : ∀ w, I w → I (next prog w (.step i a))) (hP : ∀ s t, P t → P (prog.advance a s t).2)
    (hlt : ∀ w t, I w → w.callers[i]? = some t → ¬ done t → m (prog.advance a w.shared t).2 < m t)
    (hw : I w) (hi : w.callers[i]? = some t) (ht : P t) :
    ∃ n t', (run prog w (List.replicate n (.step i a))).callers[i]? = some t' ∧ done t' ∧ P t' ∧
      I (run prog w (List.replicate n (.step i a))) := by
  induction hm : m t using Nat.strong_induction_on generalizing w t with
  | _ k ih =>
    by_cases hdone : done t
    · exact ⟨0, t, hi, hdone, ht, hw⟩
    · have hstep : (next prog w (.step i a)).callers[i]? = some (prog.advance a w.shared t).2 := by
        obtain ⟨hlt', -⟩ := List.getElem?_eq_some_iff.mp hi
        rw [next_step hi]
        exact List.getElem?_set_self hlt'
      obtain ⟨n, t', hreach⟩ := ih _ (hm ▸ hlt w t hw hi hdone) (hI w hw) hstep (hP _ t ht) rfl
      exact ⟨n + 1, t', hreach⟩

theorem run_append (w : Pool S T) (l l' : List (Action C A)) :
    run prog w (l ++ l') = run prog (run prog w l) l' := List.foldl_append

end Pool
