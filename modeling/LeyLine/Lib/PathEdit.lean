import LeyLine.Lib.PathTree

/-!
# Edits of a tree

An edit set names at each path one of three changes: put a leaf, make a
directory, or remove what is there. `edited` is the tree the edits ask for,
stated without an order: each path as its edit says, and a directory at every
missing path above an entry.

`Fits` is what makes an edit set apply to a tree: nothing is put below a file
that stays or arrives, and a directory whose removal takes what is below it is
removed together with all of that. For such a set the ordered pass of `PathTree`
(removals, directories, leaves) leaves `applied`: each path as its edit says, and
a directory above what is added. That is `edited`, and well formed, exactly when
no entry stays below a directory that goes (`Leaves`).
-/

namespace PathTree

open SepPath

variable {α N : Type*}

/-- One change at a path. -/
inductive Edit (N : Type*) where
  | put (n : N)
  | makeDir
  | remove

abbrev Edits (α N : Type*) := List α → Option (Edit N)

section Edited

variable (s : α) (takes : List α → Prop) (dir : N)

def Edits.core (e : Edits α N) (t : Tree α N) : Tree α N := fun p =>
  match e p with
  | some (.put n) => some n
  | some .makeDir => some dir
  | some .remove => none
  | none => t p

open Classical in
/-- The tree the edits ask for. -/
noncomputable def edited (e : Edits α N) (t : Tree α N) : Tree α N := fun p =>
  (e.core dir t p).or (if ∃ q, e.core dir t q ≠ none ∧ Under s p q then some dir else none)

def Edits.Adds (e : Edits α N) (p : List α) : Prop :=
  e p = some .makeDir ∨ ∃ n, e p = some (.put n)

open Classical in
/-- Each path as its edit says, and a directory above everything that is added. -/
noncomputable def applied (e : Edits α N) (t : Tree α N) : Tree α N := fun p =>
  (e.core dir t p).or (if ∃ q, e.Adds q ∧ Under s p q then some dir else none)

/-- An entry stays below a path that goes only where something is added below
that path, which makes it again. -/
def Edits.Leaves (e : Edits α N) (t : Tree α N) : Prop :=
  ∀ d q, e d = some .remove → Under s d q → e q = none → t q ≠ none → ∃ p, e.Adds p ∧ Under s d p

/-- An edit set applies to a tree. -/
structure Edits.Fits (plain : List α → Prop) (e : Edits α N) (t : Tree α N) : Prop where
  put_ne_dir : ∀ p, e p ≠ some (.put dir)
  put_at : ∀ p n, e p = some (.put n) → t p ≠ some dir
  makeDir_at : ∀ p, e p = some .makeDir → t p = none
  remove_at : ∀ p, e p = some .remove → t p ≠ none
  plain_new : ∀ p, e.Adds p → t p = none → plain p
  above_new : ∀ d p, e.Adds p → t p = none → Under s d p →
    (∀ n, e d ≠ some (.put n)) ∧ (t d = none ∨ t d = some dir ∨ e d = some .remove)
  below_removed : ∀ d p, e d = some .remove → t d = some dir → Under s d p → takes d →
    ¬ e.Adds p ∧ (t p ≠ none → e p = some .remove)

variable {s takes dir} {plain : List α → Prop} {e : Edits α N} {t : Tree α N}

variable {p : List α}

theorem Edits.Adds.core_ne (h : e.Adds p) : e.core dir t p ≠ none := by
  rcases h with h | ⟨n, h⟩ <;> simp [Edits.core, h]

theorem Edits.core_of_kept (h : e p = none) : e.core dir t p = t p := by
  simp [Edits.core, h]

theorem Edits.core_ne_iff : e.core dir t p ≠ none ↔ e.Adds p ∨ (e p = none ∧ t p ≠ none) := by
  rw [Edits.core, Edits.Adds]
  cases h : e p with
  | none => simp
  | some c => cases c <;> simp

namespace Edits.Fits

variable (ht : WellFormed s dir plain t) (h : e.Fits s takes dir plain t)

include ht h

/-- An added path whose old entry is a file has directories above it; an added
path that is new may also have missing or removed ones. -/
theorem above_adds {d p : List α} (hp : e.Adds p) (hd : Under s d p) :
    (∀ n, e d ≠ some (.put n)) ∧ (t d = none ∨ t d = some dir ∨ e d = some .remove) := by
  by_cases htp : t p = none
  · exact h.above_new d p hp htp hd
  · have htd := (ht p htp).2 d hd
    exact ⟨fun n hn => h.put_at d n hn htd, .inr (.inl htd)⟩

theorem core_above {d p : List α} (hp : e.Adds p) (hd : Under s d p) :
    e.core dir t d = none ∨ e.core dir t d = some dir := by
  obtain ⟨hput, hheld⟩ := above_adds ht h hp hd
  rw [Edits.core]
  cases hed : e d with
  | none =>
    rcases hheld with htd | htd | hrm
    · exact .inl htd
    · exact .inr htd
    · rw [hrm] at hed
      simp at hed
  | some c =>
    cases c with
    | put n => exact absurd hed (hput n)
    | makeDir => exact .inr rfl
    | remove => exact .inl rfl

theorem applied_above {d p : List α} (hp : e.Adds p) (hd : Under s d p) :
    applied s dir e t d = some dir := by
  rw [applied, if_pos ⟨p, hp, hd⟩]
  rcases core_above ht h hp hd with hc | hc
  · rw [hc, Option.none_or]
  · rw [hc, Option.some_or]

omit ht h in
theorem applied_off (hp : ∀ q, e.Adds q → ¬ Under s p q) :
    applied s dir e t p = e.core dir t p := by
  rw [applied, if_neg fun ⟨q, hq, hu⟩ => hp q hq hu, Option.or_none]

/-- Above an entry that stays stands a directory, unless that one goes. -/
theorem applied_above_kept (hl : e.Leaves s t) {d p : List α} (hp : e p = none) (htp : t p ≠ none)
    (hd : Under s d p) : applied s dir e t d = some dir := by
  by_cases hadd : ∃ q, e.Adds q ∧ Under s d q
  · obtain ⟨q, hq, hu⟩ := hadd
    exact applied_above ht h hq hu
  · have htd := (ht p htp).2 d hd
    rw [applied_off fun q hq hu => hadd ⟨q, hq, hu⟩]
    cases hed : e d with
    | none => rw [Edits.core_of_kept hed, htd]
    | some c =>
      cases c with
      | put n => exact absurd htd (h.put_at d n hed)
      | makeDir => rw [Edits.core, hed]
      | remove => exact absurd (hl d p hed hd hp htp) hadd

/-- **The tree that edits leave is well formed exactly when** nothing stays below
what goes. -/
theorem applied_wellFormed_iff (hplain : ∀ d p, Under s d p → plain p → plain d) :
    WellFormed s dir plain (applied s dir e t) ↔ e.Leaves s t := by
  constructor
  · intro hwf d q hrm hdq hkept htq
    by_contra hnone
    have hd : applied s dir e t d = none := by
      rw [applied_off fun p hp hu => hnone ⟨p, hp, hu⟩, Edits.core, hrm]
    have hq : applied s dir e t q ≠ none := by
      rw [applied, Edits.core_of_kept hkept, ne_eq, Option.or_eq_none_iff]
      exact fun hor => htq hor.1
    rw [(hwf q hq).2 d hdq] at hd
    simp at hd
  · intro hl p hp
    by_cases hadd : ∃ q, e.Adds q ∧ AtOrUnder s p q
    · obtain ⟨q, hq, hpq⟩ := hadd
      have hqplain : plain q := by
        by_cases htq : t q = none
        · exact h.plain_new q hq htq
        · exact (ht q htq).1
      refine ⟨?_, fun d hd => applied_above ht h hq (hd.trans_atOrUnder hpq)⟩
      rcases hpq with rfl | hpq
      · exact hqplain
      · exact hplain p q hpq hqplain
    · push Not at hadd
      rw [applied_off fun q hq hu => hadd q hq hu.atOrUnder] at hp
      rcases Edits.core_ne_iff.mp hp with hpadd | ⟨hkept, htp⟩
      · exact absurd (AtOrUnder.refl p) (hadd p hpadd)
      · exact ⟨(ht p htp).1, fun d hd => applied_above_kept ht h hl hkept htp hd⟩

/-- Where nothing stays below what goes, the edits leave the tree they ask for. -/
theorem applied_eq_edited (hl : e.Leaves s t) : applied s dir e t = edited s dir e t := by
  funext p
  by_cases hq : ∃ q, e.core dir t q ≠ none ∧ Under s p q
  · obtain ⟨q, hcq, hpq⟩ := hq
    have happ : applied s dir e t p = some dir := by
      rcases Edits.core_ne_iff.mp hcq with hadd | ⟨hkept, htq⟩
      · exact applied_above ht h hadd hpq
      · exact applied_above_kept ht h hl hkept htq hpq
    rw [happ, edited, if_pos ⟨q, hcq, hpq⟩]
    rcases Option.or_eq_some_iff.mp happ with hc | ⟨hc, -⟩
    · rw [hc, Option.some_or]
    · rw [hc, Option.none_or]
  · rw [applied_off fun q hadd hu => hq ⟨q, hadd.core_ne, hu⟩, edited, if_neg hq, Option.or_none]

end Edits.Fits

/-! ## The ordered pass -/

def Edits.leaf (e : Edits α N) (p : List α) : Option N :=
  match e p with
  | some (.put n) => some n
  | _ => none

theorem Edits.leaf_eq_some {n : N} : e.leaf p = some n ↔ e p = some (.put n) := by
  rw [Edits.leaf]
  cases he : e p with
  | none => simp
  | some c => cases c <;> simp

theorem Edits.leaf_ne_none : e.leaf p ≠ none ↔ ∃ n, e p = some (.put n) := by
  rw [Option.ne_none_iff_exists']
  exact exists_congr fun n => Edits.leaf_eq_some

namespace Edits.Fits

variable (ht : WellFormed s dir plain t) (h : e.Fits s takes dir plain t)

include ht h

theorem not_below_removed {g p : List α} (hp : e p = none) (htp : t p ≠ none)
    (hg : e g = some .remove) : ¬ Drops s takes g p := by
  rintro (rfl | ⟨hu, htakes⟩)
  · rw [hg] at hp
    simp at hp
  · have hrm := (h.below_removed g p hg ((ht p htp).2 g hu) hu htakes).2 htp
    rw [hrm] at hp
    simp at hp

theorem swept_put {n : N} (hp : e p = some (.put n)) :
    swept s takes dir {g | e g = some .remove} {d | e d = some .makeDir} t p = t p := by
  have hdirs : ∀ d ∈ {d | e d = some .makeDir}, ¬ AtOrUnder s p d := by
    rintro d hd (rfl | hu)
    · cases hp.symm.trans hd
    · exact (h.above_new p d (.inl hd) (h.makeDir_at d hd) hu).1 n hp
  by_cases htp : t p = none
  · rw [htp]
    by_contra hne
    exact ((swept_off_dirs hdirs).mp hne).1 htp
  · refine swept_same ?_ hdirs
    rintro g hg (rfl | ⟨hu, htakes⟩)
    · cases hp.symm.trans hg
    · exact (h.below_removed g p hg ((ht p htp).2 g hu) hu htakes).1 (.inr ⟨n, hp⟩)

theorem swept_eq_core (hlow : ∀ q, e.Adds q → ¬ Under s p q) (hleaf : e.leaf p = none) :
    swept s takes dir {g | e g = some .remove} {d | e d = some .makeDir} t p = e.core dir t p := by
  have hdirs : e p ≠ some .makeDir → ∀ d ∈ {d | e d = some .makeDir}, ¬ AtOrUnder s p d := by
    rintro hp d hd (rfl | hu)
    · exact hp hd
    · exact hlow d (.inl hd) hu
  rw [Edits.core]
  cases hep : e p with
  | none =>
    have hd := hdirs (by simp [hep])
    by_cases htp : t p = none
    · rw [htp]
      by_contra hne
      exact ((swept_off_dirs hd).mp hne).1 htp
    · exact swept_same (fun g hg => not_below_removed ht h hep htp hg) hd
  | some c =>
    cases c with
    | put n => rw [Edits.leaf, hep] at hleaf; simp at hleaf
    | makeDir => exact swept_dir hep (AtOrUnder.refl p)
    | remove => exact swept_gone hep (.inl rfl) (hdirs (by simp [hep]))

/-- **The pass leaves the tree the edits leave.** -/
theorem passed_eq_applied :
    passed s takes dir {g | e g = some .remove}
    {d | e d = some .makeDir} e.leaf t = applied s dir e t := by
  funext p
  by_cases hr : ∃ r, e.leaf r ≠ none ∧ Under s p r
  · obtain ⟨r, hr, hpr⟩ := hr
    rw [passed_above_leaf hr hpr, applied_above ht h (.inr (Edits.leaf_ne_none.mp hr)) hpr]
  · push Not at hr
    cases hl : e.leaf p with
    | some n =>
      have hp := Edits.leaf_eq_some.mp hl
      rw [passed_at_leaf hl hr, applied, Edits.core, hp, Option.some_or]
    | none =>
      rw [passed_off_leaf hl hr]
      by_cases hd : ∃ d, e d = some .makeDir ∧ Under s p d
      · obtain ⟨d, hd, hpd⟩ := hd
        rw [swept_dir hd hpd.atOrUnder, applied_above ht h (.inl hd) hpd]
      · have hlow : ∀ q, e.Adds q → ¬ Under s p q := by
          rintro q (hq | hq) hu
          · exact hd ⟨q, hq, hu⟩
          · exact hr q (Edits.leaf_ne_none.mpr hq) hu
        rw [applied_off hlow, swept_eq_core ht h hlow hl]

end Edits.Fits

end Edited

end PathTree
