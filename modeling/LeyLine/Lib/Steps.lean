import Mathlib

/-!
# Runs through a list

`Steps R σ l σ'` says that taking the elements of `l` one after another, each by
a step of `R`, leads from the state `σ` to `σ'`. A loop that cannot fail
(`List.foldl`) and one that can (`List.foldlM` in `Except`) both run this way, so
what is proved of `Steps` by induction holds of either.
-/

universe u v

variable {ε : Type u} {α β : Type v} {f : α → Except ε β} {x : Except ε α}

theorem Except.bind_eq_ok_iff {b : β} : (x >>= f) = .ok b ↔ ∃ a, x = .ok a ∧ f a = .ok b := by
  cases x with
  | error e | ok a => simp [bind, Except.bind]

variable {e : ε}

/-- Fail with `e` unless the condition holds. -/
def Except.require {ε : Type u} (c : Bool) (e : ε) : Except ε Unit :=
  if c then .ok () else .error e

theorem Except.require_eq_ok_iff {c : Bool} {x : Unit} : Except.require c e = .ok x ↔ c = true := by
  cases c <;> simp [Except.require]

theorem Except.mapError_eq_ok_iff {ε' : Type u} {f : ε → ε'}
    {a : α} : x.mapError f = .ok a ↔ x = .ok a := by
  cases x <;> simp [Except.mapError]

theorem Except.elim_eq_ok_iff {o : Option α} {a : α} :
    o.elim (Except.error e) Except.ok = .ok a ↔ o = some a := by
  cases o <;> simp

theorem Except.mapM_eq_ok_iff :
    ∀ {l : List α} {l' : List β}, l.mapM f = .ok l' ↔ List.Forall₂ (fun a b => f a = .ok b) l l'
  | [], l' => by
    rw [List.mapM_nil, List.forall₂_nil_left_iff]
    exact ⟨fun h => (Except.ok.inj h).symm, fun h => congrArg Except.ok h.symm⟩
  | a :: l, l' => by
    rw [List.mapM_cons, Except.bind_eq_ok_iff, List.forall₂_cons_left_iff]
    simp only [Except.bind_eq_ok_iff, mapM_eq_ok_iff]
    constructor
    · rintro ⟨b, hb, bs, hbs, heq⟩
      exact ⟨b, bs, hb, hbs, (Except.ok.inj heq).symm⟩
    · rintro ⟨b, bs, hb, hbs, rfl⟩
      exact ⟨b, hb, bs, hbs, rfl⟩

theorem Except.forM_eq_ok_iff {f : β → Except ε PUnit} {x : PUnit} :
    ∀ {l : List β}, l.forM f = .ok x ↔ ∀ y ∈ l, f y = .ok x
  | [] => by simp [pure, Except.pure]
  | y :: l => by
    rw [show (y :: l).forM f = (f y >>= fun _ => l.forM f) from rfl,
      Except.bind_eq_ok_iff, List.forall_mem_cons, ← forM_eq_ok_iff]
    exact ⟨fun ⟨_, hy, hl⟩ => ⟨hy, hl⟩, fun ⟨hy, hl⟩ => ⟨x, hy, hl⟩⟩

/-- A run through a list. -/
inductive Steps {S β : Type*} (R : S → β → S → Prop) : S → List β → S → Prop where
  | nil (σ : S) : Steps R σ [] σ
  | cons {σ : S} {x : β} {σ₁ : S} {l : List β} {σ' : S} : R σ x σ₁ → Steps R σ₁ l σ' →
      Steps R σ (x :: l) σ'

namespace Steps

variable {S β : Type*}

theorem foldl (f : S → β → S) :
    ∀ (l : List β) (σ : S), Steps (fun σ x σ' => σ' = f σ x) σ l (l.foldl f σ)
  | [], σ => .nil σ
  | x :: l, σ => .cons rfl (foldl f l (f σ x))

theorem foldlM {ε : Type*} {f : S → β → Except ε S} :
    ∀ {l : List β} {σ σ' : S}, l.foldlM f σ = .ok σ' → Steps (fun σ x σ' => f σ x = .ok σ') σ l σ'
  | [], σ, σ', h => by
    cases h
    exact .nil σ
  | x :: l, σ, σ', h => by
    obtain ⟨σ₁, hx, h⟩ := Except.bind_eq_ok_iff.mp h
    exact .cons hx (foldlM h)

theorem foldlM_some {f : S → β → Option S} :
    ∀ {l : List β} {σ σ' : S}, l.foldlM f σ = some σ' → Steps (fun σ x σ' => f σ x = some σ') σ l σ'
  | [], σ, σ', h => by
    cases h
    exact .nil σ
  | x :: l, σ, σ', h => by
    obtain ⟨σ₁, hx, h⟩ := Option.bind_eq_some_iff.mp h
    exact .cons hx (foldlM_some h)

variable {R : S → β → S → Prop} {l l' : List β} {σ' σ : S}

theorem append {σ₁ : S} (h : Steps R σ l σ₁) (h' : Steps R σ₁ l' σ') : Steps R σ (l ++ l') σ' := by
  induction h with
  | nil σ => exact h'
  | cons hx _ ih => exact .cons hx (ih h')

theorem mono {R R' : S → β → S → Prop}
    (hR : ∀ x ∈ l, ∀ σ σ', R σ x σ' → R' σ x σ') (h : Steps R σ l σ') : Steps R' σ l σ' := by
  induction h with
  | nil σ => exact .nil σ
  | cons hx _ ih =>
    rw [List.forall_mem_cons] at hR
    exact .cons (hR.1 _ _ hx) (ih hR.2)

theorem foldlM_iff {ε : Type*} {f : S → β → Except ε S} :
    l.foldlM f σ = .ok σ' ↔ Steps (fun σ x σ' => f σ x = .ok σ') σ l σ' := by
  refine ⟨foldlM, fun h => ?_⟩
  induction h with
  | nil σ => rfl
  | cons hx _ ih => rw [List.foldlM_cons, hx]; exact ih

theorem foldlM_bind {ε α : Type u} {T γ : Type v} {read : α → Except ε γ}
    {add : T → γ → Except ε T} :
    ∀ {l : List α} {σ σ' : T}, l.foldlM (fun σ x => read x >>= add σ) σ = .ok σ' →
      ∃ l', List.Forall₂ (fun x y => read x = .ok y) l l' ∧ l'.foldlM add σ = .ok σ'
  | [], σ, σ', h => ⟨[], .nil, h⟩
  | x :: l, σ, σ', h => by
    obtain ⟨σ₁, hx, h⟩ := Except.bind_eq_ok_iff.mp h
    obtain ⟨y, hy, hadd⟩ := Except.bind_eq_ok_iff.mp hx
    obtain ⟨l', hl', hrest⟩ := foldlM_bind h
    refine ⟨y :: l', .cons hy hl', ?_⟩
    rw [List.foldlM_cons, hadd]
    exact hrest

/-- A loop that can fail does not, if each step succeeds where `P` holds of what is
left and of the state, and leaves `P` of the rest. -/
theorem foldlM_ok {ε : Type*} {f : S → β → Except ε S} {P : List β → S → Prop}
    (hstep : ∀ x l σ, P (x :: l) σ → ∃ σ', f σ x = .ok σ' ∧ P l σ') :
    ∀ {l : List β} {σ : S}, P l σ → ∃ σ', l.foldlM f σ = .ok σ' ∧ P [] σ'
  | [], σ, h => ⟨σ, rfl, h⟩
  | x :: l, σ, h => by
    obtain ⟨σ₁, hx, h⟩ := hstep x l σ h
    obtain ⟨σ', hl, h⟩ := foldlM_ok hstep h
    refine ⟨σ', ?_, h⟩
    rw [List.foldlM_cons, hx]
    exact hl

theorem perm (hcomm : ∀ σ x y σ₁ σ₂, R σ x σ₁ → R σ₁ y σ₂ → ∃ σ₁', R σ y σ₁' ∧ R σ₁' x σ₂)
    (hl : l.Perm l') : ∀ {σ σ' : S}, Steps R σ l σ' → Steps R σ l' σ' := by
  induction hl with
  | nil => exact fun h => h
  | cons x _ ih => exact fun (.cons hx h) => .cons hx (ih h)
  | swap x y l =>
    intro σ σ' (.cons hy (.cons hx h))
    obtain ⟨σ₁, hx', hy'⟩ := hcomm _ _ _ _ _ hy hx
    exact .cons hx' (.cons hy' h)
  | trans _ _ ih₁ ih₂ => exact fun h => ih₂ (ih₁ h)

theorem invariant {P : S → Prop} (hstep : ∀ σ x σ', R σ x σ' → P σ → P σ') {σ σ' : S} {l : List β}
    (h : Steps R σ l σ') (hP : P σ) : P σ' := by
  induction h with
  | nil σ => exact hP
  | cons hR _ ih => exact ih (hstep _ _ _ hR hP)

/-- What the step for an element brings about and every step keeps holds of each
element after the run. -/
theorem establish {P : β → S → Prop} (hstep : ∀ σ x σ', R σ x σ' → P x σ')
    (hkeep : ∀ x σ y σ', R σ y σ' → P x σ → P x σ') (h : Steps R σ l σ') : ∀ x ∈ l, P x σ' := by
  induction h with
  | nil σ => simp
  | @cons σ x σ₁ l σ' hR hrun ih =>
    rw [List.forall_mem_cons]
    exact ⟨hrun.invariant (hkeep x) (hstep σ x σ₁ hR), ih⟩

end Steps
