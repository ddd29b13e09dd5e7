import LeyLine.Lib.SepPath
import LeyLine.Lib.Steps

/-!
# Trees over separated paths

A tree is a partial function from paths to nodes, one of which, `dir`, is the
directory. Three updates act on it: dropping a path, making a directory with
everything above it, and putting a leaf, which also makes everything above it a
directory. A drop takes what is below the path where the path is one that
`takes`; at another path it leaves what is below.

A *pass* applies many of each, in that order, and may look at the tree it has
built so far to decide what to do next. For each of the three loops there is a
closed form that speaks of the tree the loop started from only. `passed` is
what the three leave together, and `passed_wellFormed_iff` says exactly when it
is again well formed.
-/

namespace PathTree

open SepPath

variable {α N : Type*}

/-- A tree: what is held at each path. -/
abbrev Tree (α N : Type*) := List α → Option N

section Updates

variable [DecidableEq α] (s : α) (takes : List α → Prop) (dir : N)

omit [DecidableEq α] in
/-- What goes with `g`: itself, and all below it if it takes that. -/
def Drops (g p : List α) : Prop := g = p ∨ Under s g p ∧ takes g

instance [DecidablePred takes] : DecidableRel (Drops s takes) :=
  fun _ _ => inferInstanceAs (Decidable (_ ∨ _))

def dropTree [DecidablePred takes] (g : List α) (t : Tree α N) : Tree α N :=
  fun p => if Drops s takes g p then none else t p

/-- A directory at `d` and at every path above it. -/
def makeDir (d : List α) (t : Tree α N) : Tree α N :=
  fun p => if AtOrUnder s p d then some dir else t p

/-- A leaf at `r`, and a directory at every path above it. -/
def putLeaf (r : List α) (n : N) (t : Tree α N) : Tree α N :=
  fun p => if r = p then some n else if Under s p r then some dir else t p

end Updates

/-! ## What a pass leaves

`gone` are the subtree roots a pass drops, `dirs` the directories it makes and
`leaf` what it puts. -/

section Pass

variable (s : α) (takes : List α → Prop) (dir : N)

variable {s takes} in
theorem Drops.trans {a b c : List α} (hab : Drops s takes a b) (hbc : Drops s takes b c) :
    Drops s takes a c := by
  rcases hab with rfl | ⟨hab, ha⟩
  · exact hbc
  · rcases hbc with rfl | ⟨hbc, -⟩
    · exact .inr ⟨hab, ha⟩
    · exact .inr ⟨hab.trans hbc, ha⟩

/-- Every path satisfies `plain`, and every proper ancestor of an entry is a
directory. -/
def WellFormed (plain : List α → Prop) (t : Tree α N) : Prop :=
  ∀ p, t p ≠ none → plain p ∧ ∀ d, Under s d p → t d = some dir

open Classical in
/-- The tree after the drops and the directories. -/
noncomputable def swept (gone dirs : Set (List α)) (t : Tree α N) : Tree α N := fun p =>
  if ∃ d ∈ dirs, AtOrUnder s p d then some dir
  else if ∃ g ∈ gone, Drops s takes g p then none else t p

open Classical in
/-- The tree after the whole pass. -/
noncomputable def passed (gone dirs : Set (List α)) (leaf : List α → Option N)
    (t : Tree α N) : Tree α N := fun p =>
  if ∃ r, leaf r ≠ none ∧ Under s p r then some dir
  else (leaf p).or (swept s takes dir gone dirs t p)

variable {s takes dir} {gone dirs : Set (List α)} {leaf : List α → Option N} {t : Tree α N}
  {p : List α}

theorem passed_above_leaf {r : List α} (hr : leaf r ≠ none) (h : Under s p r) :
    passed s takes dir gone dirs leaf t p = some dir :=
  if_pos ⟨r, hr, h⟩

theorem passed_at_leaf {n : N} (hp : leaf p = some n) (h : ∀ r, leaf r ≠ none → ¬ Under s p r) :
    passed s takes dir gone dirs leaf t p = some n := by
  rw [passed, if_neg (fun ⟨r, hr, hu⟩ => h r hr hu), hp, Option.some_or]

theorem passed_off_leaf (hp : leaf p = none) (h : ∀ r, leaf r ≠ none → ¬ Under s p r) :
    passed s takes dir gone dirs leaf t p = swept s takes dir gone dirs t p := by
  rw [passed, if_neg (fun ⟨r, hr, hu⟩ => h r hr hu), hp, Option.none_or]

theorem swept_dir {d : List α} (hd : d ∈ dirs) (h : AtOrUnder s p d) :
    swept s takes dir gone dirs t p = some dir :=
  if_pos ⟨d, hd, h⟩

theorem swept_off_dirs (h : ∀ d ∈ dirs, ¬ AtOrUnder s p d) :
    swept s takes dir gone dirs t p ≠ none ↔ t p ≠ none ∧ ∀ g ∈ gone, ¬ Drops s takes g p := by
  rw [swept, if_neg (fun ⟨d, hd, hu⟩ => h d hd hu)]
  by_cases hg : ∃ g ∈ gone, Drops s takes g p
  · rw [if_pos hg]
    obtain ⟨g, hg, hu⟩ := hg
    exact ⟨fun h => absurd rfl h, fun h => absurd hu (h.2 g hg)⟩
  · rw [if_neg hg]
    push Not at hg
    exact ⟨fun h => ⟨h, hg⟩, fun h => h.1⟩

theorem swept_gone {g : List α} (hg : g ∈ gone) (h : Drops s takes g p)
    (hd : ∀ d ∈ dirs, ¬ AtOrUnder s p d) : swept s takes dir gone dirs t p = none := by
  rw [swept, if_neg (fun ⟨d, hd', hu⟩ => hd d hd' hu), if_pos ⟨g, hg, h⟩]

theorem swept_same (hg : ∀ g ∈ gone, ¬ Drops s takes g p)
    (hd : ∀ d ∈ dirs, ¬ AtOrUnder s p d) : swept s takes dir gone dirs t p = t p := by
  rw [swept, if_neg (fun ⟨d, hd', hu⟩ => hd d hd' hu), if_neg (fun ⟨g, hg', hu⟩ => hg g hg' hu)]

theorem swept_removals {n : N} (h : swept s takes dir gone ∅ t p = some n) : t p = some n := by
  rw [swept, if_neg (by simp)] at h
  split at h
  · simp at h
  · exact h

theorem swept_kept (h : ∀ g ∈ gone, ¬ Drops s takes g p) (hp : t p = some dir) :
    swept s takes dir gone dirs t p = some dir := by
  have hn : ¬ ∃ g ∈ gone, Drops s takes g p := fun ⟨g, hg, hu⟩ => h g hg hu
  rw [swept, if_neg hn, hp, ite_self]

variable {plain : List α → Prop}

/-- Above an entry stands a directory, but for a dropped path that takes nothing. -/
theorem swept_above (ht : WellFormed s dir plain t) {d : List α}
    (hp : swept s takes dir gone dirs t p ≠ none) (hd : Under s d p)
    (hkept : d ∈ gone → t p ≠ none → (∀ g ∈ gone, ¬ Drops s takes g p) →
      ∃ e ∈ dirs, AtOrUnder s d e) : swept s takes dir gone dirs t d = some dir := by
  by_cases hdirs : ∃ e ∈ dirs, AtOrUnder s d e
  · obtain ⟨e, he, hde⟩ := hdirs
    exact swept_dir he hde
  · have hpdirs : ∀ e ∈ dirs, ¬ AtOrUnder s p e := fun e he hpe =>
      hdirs ⟨e, he, (hd.trans_atOrUnder hpe).atOrUnder⟩
    obtain ⟨htp, hgone⟩ := (swept_off_dirs hpdirs).mp hp
    refine swept_kept (fun g hg hgd => ?_) ((ht p htp).2 d hd)
    rcases hgd with rfl | ⟨hgd, htakes⟩
    · exact hdirs (hkept hg htp hgone)
    · exact hgone g hg (.inr ⟨hgd.trans hd, htakes⟩)

theorem swept_clear_iff {r : List α} : (∀ q, Under s r q → swept s takes dir gone dirs t q = none) ↔
      (∀ d ∈ dirs, ¬ Under s r d) ∧ ∀ q, t q ≠ none → Under s r q → ∃ g ∈ gone,
      Drops s takes g q := by
  constructor
  · intro h
    have hd : ∀ d ∈ dirs, ¬ Under s r d := fun d hd hu => by
      have hnone := h d hu
      rw [swept_dir hd (AtOrUnder.refl d)] at hnone
      simp at hnone
    refine ⟨hd, fun q hq hu => ?_⟩
    by_contra hg
    push Not at hg
    have hsame : swept s takes dir gone dirs t q = t q :=
      swept_same hg fun d hd' hqd => hd d hd' (hu.trans_atOrUnder hqd)
    exact hq (hsame.symm.trans (h q hu))
  · rintro ⟨hd, hg⟩ q hu
    have hdirs : ∀ d ∈ dirs, ¬ AtOrUnder s q d := fun d hd' hqd =>
      hd d hd' (hu.trans_atOrUnder hqd)
    by_contra hne
    obtain ⟨htq, hgone⟩ := (swept_off_dirs hdirs).mp hne
    obtain ⟨g, hg, hgq⟩ := hg q htq hu
    exact hgone g hg hgq

/-- **A pass over a well-formed tree leaves one exactly when** every path it
makes is plain; below a leaf it puts, with no leaf put below it, it makes no
directory and drops every entry; and a path it drops while an entry stays below
is made a directory again. -/
theorem passed_wellFormed_iff
    (hplain : ∀ d p, Under s d p → plain p → plain d) (ht : WellFormed s dir plain t)
    (hleaf : ∀ r, leaf r ≠ some dir) :
    WellFormed s dir plain (passed s takes dir gone dirs leaf t) ↔
      (∀ r, leaf r ≠ none → plain r) ∧ (∀ d ∈ dirs, plain d) ∧
      (∀ r, leaf r ≠ none → (∀ r', leaf r' ≠ none → ¬ Under s r r') → (∀ d ∈ dirs, ¬ Under s r d) ∧
          ∀ q, t q ≠ none → Under s r q → ∃ g ∈ gone, Drops s takes g q) ∧
      ∀ g ∈ gone, ∀ q, t q ≠ none → Under s g q → (∀ g' ∈ gone, ¬ Drops s takes g' q) →
        (∃ d ∈ dirs, AtOrUnder s g d) ∨ ∃ r, leaf r ≠ none ∧ Under s g r := by
  constructor
  · intro h
    -- a path that is a leaf, or is made a directory, is held afterwards
    have hheld : ∀ p, leaf p ≠ none ∨ swept s takes dir gone dirs t p ≠ none →
        passed s takes dir gone dirs leaf t p ≠ none := by
      intro p hp
      by_cases hab : ∃ r, leaf r ≠ none ∧ Under s p r
      · obtain ⟨r, hr, hu⟩ := hab
        rw [passed_above_leaf hr hu]
        simp
      · rw [passed, if_neg hab]
        rw [ne_eq, Option.or_eq_none_iff, not_and_or]
        exact hp
    refine ⟨fun r hr => (h r (hheld r (.inl hr))).1, fun d hd => ?_, ?_, ?_⟩
    · refine (h d (hheld d (.inr ?_))).1
      rw [swept_dir hd (AtOrUnder.refl d)]
      simp
    · intro r hr hlow
      refine swept_clear_iff.mp (fun q hrq => ?_ : ∀ q, Under s r q →
        swept s takes dir gone dirs t q = none)
      by_contra hq
      have hdir := (h q (hheld q (.inr hq))).2 r hrq
      obtain ⟨n, hn⟩ := Option.ne_none_iff_exists'.mp hr
      rw [passed_at_leaf hn hlow] at hdir
      exact hleaf r (hn.trans hdir)
    · intro g hg q hq hgq hkept
      by_contra hmade
      obtain ⟨hdirs, hlow⟩ := not_or.mp hmade
      push Not at hdirs hlow
      have hqdirs : ∀ d ∈ dirs, ¬ AtOrUnder s q d := fun d hd hqd =>
        hdirs d hd (hgq.trans_atOrUnder hqd).atOrUnder
      have hdir := (h q (hheld q (.inr ((swept_off_dirs hqdirs).mpr ⟨hq, hkept⟩)))).2 g hgq
      cases hlg : leaf g with
      | none =>
        rw [passed_off_leaf hlg hlow, swept_gone hg (.inl rfl) hdirs] at hdir
        simp at hdir
      | some n =>
        rw [passed_at_leaf hlg hlow] at hdir
        exact hleaf g (hlg.trans hdir)
  · rintro ⟨hl, hd, hclear, hmade⟩ p hp
    have hlow : ∀ r, leaf r ≠ none → (∀ r', leaf r' ≠ none → ¬ Under s r r') →
        ∀ q, Under s r q → swept s takes dir gone dirs t q = none :=
      fun r hr hb => swept_clear_iff.mpr (hclear r hr hb)
    by_cases hab : ∃ r, leaf r ≠ none ∧ AtOrUnder s p r
    · obtain ⟨r, hr, hu⟩ := hab
      refine ⟨?_, fun d hdp => passed_above_leaf hr (hdp.trans_atOrUnder hu)⟩
      rcases hu with rfl | hu
      · exact hl p hr
      · exact hplain p r hu (hl r hr)
    · push Not at hab
      have hpleaf : leaf p = none := by
        by_contra hne
        exact hab p hne (AtOrUnder.refl p)
      rw [passed_off_leaf hpleaf (fun r hr hu => hab r hr hu.atOrUnder)] at hp
      constructor
      · by_cases hdirs : ∃ e ∈ dirs, AtOrUnder s p e
        · obtain ⟨e, he, hpe⟩ := hdirs
          rcases hpe with rfl | hpe
          · exact hd p he
          · exact hplain p e hpe (hd e he)
        · push Not at hdirs
          exact (ht p ((swept_off_dirs hdirs).mp hp).1).1
      · intro d hdp
        by_cases habd : ∃ r, leaf r ≠ none ∧ Under s d r
        · obtain ⟨r, hr, hu⟩ := habd
          exact passed_above_leaf hr hu
        · push Not at habd
          have hdleaf : leaf d = none := by
            by_contra hne
            exact hp (hlow d hne habd p hdp)
          rw [passed_off_leaf hdleaf habd]
          refine swept_above ht hp hdp fun hg htp hkept => ?_
          rcases hmade d hg p htp hdp hkept with hdirs | ⟨r, hr, hu⟩
          · exact hdirs
          · exact absurd hu (habd r hr)

theorem swept_swept (G D : Set (List α)) :
    swept s takes dir ∅ D (swept s takes dir G ∅ t) = swept s takes dir G D t := by
  funext p
  simp [swept]

theorem passed_swept (G D : Set (List α)) :
    passed s takes dir ∅ ∅ leaf (swept s takes dir G D t) = passed s takes dir G D leaf t := by
  funext p
  have hsame : swept s takes dir ∅ ∅ (swept s takes dir G D t) p = swept s takes dir G D t p :=
    swept_same (by simp) (by simp)
  simp only [passed, hsame]

end Pass

/-! ## Closed forms of the three loops

Each is stated for a run through a list over any state that carries a tree,
`view`. A loop may ask the tree it has built so far whether to act. -/

section Loops

variable [DecidableEq α] {s : α} {takes : List α → Prop} {dir : N} {S β : Type*}
  {R : S → β → S → Prop} (view : S → Tree α N) (path : β → List α)

variable {l : List β} {σ' σ : S} {c : β → Option N → Prop}

omit [DecidableEq α] in
open Classical in
/-- Write `v` over everything that a chosen path reaches. Chosen is what the *first* tree
says: a path reached before its turn comes was reached by one that reaches all that it does. -/
theorem Steps.overwrite_at {v : Option N} (reach : List α → List α → Prop) [DecidableRel reach]
    (htrans : ∀ {a b d}, reach a b → reach b d → reach a d) (p : List α)
    (hact : ∀ σ x σ', R σ x σ' → c x (view σ (path x)) → ∀ q,
      view σ' q = if reach (path x) q then v else view σ q)
    (hskip : ∀ σ x σ', R σ x σ' → ¬ c x (view σ (path x)) → view σ' = view σ) (h : Steps R σ l σ') :
    view σ' p = if ∃ x ∈ l, c x (view σ (path x)) ∧ reach (path x) p then v else view σ p := by
  induction h with
  | nil σ => simp
  | @cons σ x σ₁ l σ' hR _ ih =>
    rw [ih]
    by_cases hc : c x (view σ (path x))
    · have hview := hact _ _ _ hR hc
      by_cases hxp : reach (path x) p
      · simp [hview p, hxp, hc]
      · rw [hview p, if_neg hxp]
        refine if_congr ?_ rfl rfl
        -- a later path that reaches `p` is not reached from `path x`, so it is as it was
        have hsame : ∀ y, reach (path y) p → view σ₁ (path y) = view σ (path y) := fun y hy =>
          (hview _).trans (if_neg fun hxy => hxp (htrans hxy hy))
        simp only [List.mem_cons, exists_eq_or_imp, hxp, and_false, false_or]
        exact exists_congr fun y => and_congr_right fun _ => and_congr_left fun hy =>
          by rw [hsame y hy]
    · rw [hskip _ _ _ hR hc]
      simp [hc]

open Classical in
/-- Put leaves in an order in which nothing stands above an earlier one (path
order is such an order). `act` says what to put at a listed path, given what
the tree holds there when its turn comes; it may be nothing. -/
theorem Steps.putLeaf_at (act : β → Option N → Option N) (p : List α)
    (hact : ∀ σ x σ' n, R σ x σ' → act x (view σ (path x)) = some n →
      view σ' = PathTree.putLeaf s dir (path x) n (view σ))
    (hskip : ∀ σ x σ', R σ x σ' → act x (view σ (path x)) = none → view σ' = view σ)
    (hord : l.Pairwise fun x y => path x ≠ path y ∧ ¬ Under s (path y) (path x))
    (h : Steps R σ l σ') :
    view σ' p = if ∃ x ∈ l, act x (view σ (path x)) ≠ none ∧ Under s p (path x) then some dir
      else ((l.find? fun x => decide (path x = p)).bind fun x =>
        act x (view σ (path x))).or (view σ p) := by
  induction h with
  | nil σ => simp
  | @cons σ x σ₁ l σ' hR _ ih =>
    obtain ⟨hx, hl⟩ := List.pairwise_cons.mp hord
    have hfree : path x = p → l.find? (fun y => decide (path y = p)) = none := by
      intro hxp
      rw [List.find?_eq_none]
      intro y hy hyp
      exact (hx y hy).1 (hxp.trans (of_decide_eq_true hyp).symm)
    rw [ih hl]
    cases hax : act x (view σ (path x)) with
    | none =>
      rw [hskip _ _ _ hR hax]
      refine if_congr (by simp [hax]) rfl ?_
      by_cases hxp : path x = p
      · simp [hxp, hfree hxp, hxp ▸ hax]
      · simp [hxp]
    | some n =>
      have hview := hact _ _ _ n hR hax
      -- the head leaves every later path as it was
      have hkeep : ∀ y ∈ l, view σ₁ (path y) = view σ (path y) := by
        intro y hy
        rw [hview]
        simp [PathTree.putLeaf, (hx y hy).1, (hx y hy).2]
      have hlist : (∃ y ∈ l, act y (view σ₁ (path y)) ≠ none ∧ Under s p (path y)) ↔
          ∃ y ∈ l, act y (view σ (path y)) ≠ none ∧ Under s p (path y) :=
        exists_congr fun y => and_congr_right fun hy => by rw [hkeep y hy]
      have hfind : ((l.find? fun y => decide (path y = p)).bind fun y =>
          act y (view σ₁ (path y))) =
          (l.find? fun y => decide (path y = p)).bind fun y => act y (view σ (path y)) := by
        cases hf : l.find? (fun y => decide (path y = p)) with
        | none => rfl
        | some y => simp [hkeep y (List.mem_of_find?_eq_some hf)]
      have hp := congrFun hview p
      simp only [hlist, hfind, List.mem_cons, exists_eq_or_imp, hax, ne_eq, reduceCtorEq,
        not_false_eq_true, true_and, List.find?_cons]
      by_cases hl' : ∃ y ∈ l, act y (view σ (path y)) ≠ none ∧ Under s p (path y)
      · rw [if_pos hl', if_pos (.inr hl')]
      · rw [if_neg hl']
        by_cases hxp : path x = p
        · have hnu : ¬ Under s p (path x) := fun h => h.ne hxp.symm
          rw [if_neg (not_or.mpr ⟨hnu, hl'⟩), hfree hxp, hp]
          simp [hxp, PathTree.putLeaf, hxp ▸ hax]
        · by_cases hup : Under s p (path x)
          · have hnone : l.find? (fun y => decide (path y = p)) = none := by
              rw [List.find?_eq_none]
              intro y hy hyp
              exact (hx y hy).2 ((of_decide_eq_true hyp).symm ▸ hup)
            rw [if_pos (.inl hup), hnone, hp]
            simp [hup, PathTree.putLeaf, hxp]
          · rw [if_neg (not_or.mpr ⟨hup, hl'⟩), hp]
            simp [hup, hxp, PathTree.putLeaf]

variable {G : Set (List α)}

omit [DecidableEq α] in
theorem exists_path_iff {Q : β → Prop} (hG : ∀ g, g ∈ G ↔ ∃ x ∈ l, Q x ∧ path x = g)
    (r : List α → Prop) : (∃ x ∈ l, Q x ∧ r (path x)) ↔ ∃ g ∈ G, r g := by
  constructor
  · rintro ⟨x, hx, hQ, hr⟩
    exact ⟨_, (hG _).mpr ⟨x, hx, hQ, rfl⟩, hr⟩
  · rintro ⟨g, hg, hr⟩
    obtain ⟨x, hx, hQ, rfl⟩ := (hG g).mp hg
    exact ⟨x, hx, hQ, hr⟩

open Classical in
theorem Steps.swept_gone [DecidablePred takes]
    (hact : ∀ σ x σ', R σ x σ' → c x (view σ (path x)) →
      view σ' = dropTree s takes (path x) (view σ))
    (hskip : ∀ σ x σ', R σ x σ' → ¬ c x (view σ (path x)) → view σ' = view σ)
    (hG : ∀ g, g ∈ G ↔ ∃ x ∈ l, c x (view σ (path x)) ∧ path x = g) (h : Steps R σ l σ') :
    view σ' = swept s takes dir G ∅ (view σ) := by
  funext p
  rw [Steps.overwrite_at view path (Drops s takes) Drops.trans p
      (fun _ _ _ hR hc => congrFun (hact _ _ _ hR hc)) hskip h,
    if_congr (exists_path_iff path hG (Drops s takes · p)) rfl rfl]
  simp [swept]

open Classical in
theorem Steps.swept_dirs {D : Set (List α)}
    (hact : ∀ σ x σ', R σ x σ' → c x (view σ (path x)) → view σ' = makeDir s dir (path x) (view σ))
    (hskip : ∀ σ x σ', R σ x σ' → ¬ c x (view σ (path x)) → view σ' = view σ)
    (hD : ∀ d, d ∈ D ↔ ∃ x ∈ l, c x (view σ (path x)) ∧ path x = d) (h : Steps R σ l σ') :
    view σ' = swept s takes dir ∅ D (view σ) := by
  funext p
  rw [Steps.overwrite_at view path (fun a b => AtOrUnder s b a) (fun hab hbd => hbd.trans hab) p
    (fun _ _ _ hR hc => congrFun (hact _ _ _ hR hc)) hskip h,
    if_congr (exists_path_iff path hD (AtOrUnder s p)) rfl rfl]
  simp [swept]

theorem Steps.passed (act : β → Option N → Option N) {leaf : List α → Option N}
    (hact : ∀ σ x σ' n, R σ x σ' → act x (view σ (path x)) = some n →
      view σ' = putLeaf s dir (path x) n (view σ))
    (hskip : ∀ σ x σ', R σ x σ' → act x (view σ (path x)) = none → view σ' = view σ)
    (hord : l.Pairwise fun x y => path x ≠ path y ∧ ¬ Under s (path y) (path x))
    (hin : ∀ x ∈ l, leaf (path x) = act x (view σ (path x)))
    (hout : ∀ r, leaf r ≠ none → ∃ x ∈ l, path x = r) (h : Steps R σ l σ') :
    view σ' = PathTree.passed s takes dir ∅ ∅ leaf (view σ) := by
  funext p
  rw [Steps.putLeaf_at view path act p hact hskip hord h]
  by_cases hp : ∃ x ∈ l, act x (view σ (path x)) ≠ none ∧ Under s p (path x)
  · rw [if_pos hp]
    obtain ⟨x, hx, hc, hxp⟩ := hp
    exact (passed_above_leaf (hin x hx ▸ hc) hxp).symm
  · rw [if_neg hp]
    have hlow : ∀ r, leaf r ≠ none → ¬ Under s p r := by
      intro r hr hpr
      obtain ⟨x, hx, rfl⟩ := hout r hr
      exact hp ⟨x, hx, hin x hx ▸ hr, hpr⟩
    have hsame : swept s takes dir ∅ ∅ (view σ) p = view σ p := swept_same (by simp) (by simp)
    have hfind : ((l.find? fun x => decide (path x = p)).bind fun x =>
        act x (view σ (path x))) = leaf p := by
      cases hf : l.find? (fun x => decide (path x = p)) with
      | none =>
        rw [Option.bind_none, eq_comm]
        by_contra hne
        obtain ⟨x, hx, hxp⟩ := hout p hne
        exact List.find?_eq_none.mp hf x hx (decide_eq_true hxp)
      | some x =>
        have hxp : path x = p := by simpa using List.find?_some hf
        rw [Option.bind_some, ← hin x (List.mem_of_find?_eq_some hf), hxp]
    rw [hfind]
    cases hleaf : leaf p with
    | none => rw [passed_off_leaf hleaf hlow, hsame, Option.none_or]
    | some n => rw [passed_at_leaf hleaf hlow, Option.some_or]

end Loops

end PathTree
