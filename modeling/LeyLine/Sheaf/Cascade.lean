import LeyLine.Lib.GatedSearch
import LeyLine.Sheaf.Cache

/-!
# What the invalidation cascade reaches

`on_change` means to return the changed regions and every region a path of changed
restriction edges leads to. Its loop is the eager search of `GatedSearch`: a
neighbour counts as visited before its edge is checked, so a region that is first
looked at over an unchanged edge is not looked at again over a changed one.
-/

namespace LeyLine.Sheaf

open Std (ExtTreeMap ExtTreeSet)
open GatedSearch (FirstMetOpen found_step mem_seen_eager run run_nil step step_cons)

namespace SheafCache

variable {S V : Type} [StalkHash S]

def ChangedEdge (c : SheafCache S V) (a b : RegionId) : Prop :=
  ∃ edge, c.restrictions[(a, b)]? = some edge ∧ c.checkBoundaryChanged a b edge = true

/-- A path of `n` changed edges. -/
inductive ChangedPath (c : SheafCache S V) (r : RegionId) : Nat → RegionId → Prop
  | nil : ChangedPath c r 0 r
  | snoc {n : Nat} {a b : RegionId} : ChangedPath c r n a → c.ChangedEdge a b →
      ChangedPath c r (n + 1) b

/-- What the cascade is for: the regions that changed edges lead to from the ones
reported, within three edges where no complex is attached. -/
def Affected (c : SheafCache S V) (changed : List RegionId) (v : RegionId) : Prop :=
  ∃ r ∈ changed, ∃ n, (c.complex = none → n ≤ heuristicCascadeDepth) ∧ c.ChangedPath r n v

def changedEdge (c : SheafCache S V) (a b : RegionId) : Bool :=
  c.restrictions[(a, b)]?.any (c.checkBoundaryChanged a b)

theorem changedEdge_iff (c : SheafCache S V) (a b : RegionId) :
    c.changedEdge a b = true ↔ c.ChangedEdge a b := by
  unfold changedEdge ChangedEdge
  cases c.restrictions[(a, b)]? <;> simp

omit [StalkHash S] in
theorem mem_neighbours (c : SheafCache S V) {a b : RegionId} :
    b ∈ c.neighbours a ↔ (a, b) ∈ c.restrictions := by
  unfold neighbours
  rw [List.mem_map]
  constructor
  · rintro ⟨⟨x, y⟩, hk, rfl⟩
    rw [List.mem_filter, ExtTreeMap.mem_keys, decide_eq_true_eq] at hk
    obtain ⟨hk, rfl⟩ := hk
    exact hk
  · intro h
    exact ⟨(a, b), List.mem_filter.mpr ⟨ExtTreeMap.mem_keys.mpr h, by simp⟩, rfl⟩

omit [StalkHash S] in
theorem neighbours_nodup (c : SheafCache S V) (a : RegionId) : (c.neighbours a).Nodup := by
  have hkeys : c.restrictions.keys.Nodup := by
    refine c.restrictions.distinct_keys.imp ?_
    rintro x y hne rfl
    exact hne Std.ReflOrd.compare_self
  refine (hkeys.filter _).map_on ?_
  intro x hx y hy h
  rw [List.mem_filter, decide_eq_true_eq] at hx hy
  exact Prod.ext (hx.2.trans hy.2.symm) h

def graph (c : SheafCache S V) : GatedSearch.Graph RegionId where
  next := c.neighbours
  gate := c.changedEdge
  expands depth := c.complex.isSome || Decidable.decide (depth < heuristicCascadeDepth)
  nodup := c.neighbours_nodup

/-- The affected regions in the order a breadth-first walk over the changed edges
alone meets them, each with its distance. -/
def changedOrder (c : SheafCache S V) (changed : List RegionId) : List (RegionId × Nat) :=
  (GatedSearch.patient c.graph (c.cascadeFuel changed) changed).found

/-- Every affected region that was not reported is a neighbour, first in the order
of the walk, of a region with a changed edge to it. -/
def FirstMetChanged (c : SheafCache S V) (changed : List RegionId) : Prop :=
  FirstMetOpen c.graph changed (c.changedOrder changed)

instance (c : SheafCache S V) (changed : List RegionId) : Decidable (c.FirstMetChanged changed) :=
  inferInstanceAs (Decidable (FirstMetOpen _ _ _))

theorem reach_iff (c : SheafCache S V) (changed : List RegionId) (n : Nat) (v : RegionId) :
    GatedSearch.Reach c.graph changed n v ↔ ∃ r ∈ changed, c.ChangedPath r n v := by
  constructor
  · intro h
    induction h with
    | root hr => exact ⟨_, hr, .nil⟩
    | cross _ _ hgate ih =>
      obtain ⟨r, hr, hpath⟩ := ih
      exact ⟨r, hr, hpath.snoc ((c.changedEdge_iff _ _).mp hgate)⟩
  · rintro ⟨r, hr, hpath⟩
    induction hpath with
    | nil => exact .root hr
    | snoc _ hedge ih =>
      obtain ⟨edge, hget, hchanged⟩ := hedge
      refine .cross ih (c.mem_neighbours.mpr ?_)
        ((c.changedEdge_iff _ _).mpr ⟨edge, hget, hchanged⟩)
      exact (Table.mem_iff _ _).mpr (by simp [hget])

theorem reachable_iff_affected (c : SheafCache S V) (changed : List RegionId) (v : RegionId) :
    GatedSearch.Reachable c.graph changed v ↔ c.Affected changed v := by
  have hdepth : ∀ n, (∀ m < n, c.graph.expands m = true) ↔
      (c.complex = none → n ≤ heuristicCascadeDepth) := by
    intro n
    cases hcx : c.complex with
    | some cx => simp [graph, hcx]
    | none =>
      simp only [graph, hcx, Option.isSome_none, Bool.false_or, decide_eq_true_eq, forall_const]
      constructor
      · intro h
        by_contra hlt
        exact lt_irrefl _ (h heuristicCascadeDepth (not_le.mp hlt))
      · exact fun h m hm => lt_of_lt_of_le hm h
  constructor
  · rintro ⟨n, hin, hreach⟩
    obtain ⟨r, hr, hpath⟩ := (c.reach_iff changed n v).mp hreach
    exact ⟨r, hr, n, (hdepth n).mp hin, hpath⟩
  · rintro ⟨r, hr, n, hin, hpath⟩
    exact ⟨n, (hdepth n).mpr hin, (c.reach_iff changed n v).mpr ⟨r, hr, hpath⟩⟩

/-! ## The loop is the eager search -/

/-- The loop variables agree with a state of the search. -/
structure Follows (st : Cascade V) (s : GatedSearch.State RegionId) : Prop where
  frontier : st.frontier = s.queue
  invalidated : st.invalidated = s.found.map Prod.fst
  visited : ∀ v, v ∈ st.visited ↔ v ∈ s.seen

variable {st : Cascade V} {v : RegionId}

theorem visit_of_mem (c : SheafCache S V) {region : RegionId} {depth : Nat}
    (h : v ∈ st.visited) : c.visit region depth st v = st := by
  unfold visit
  rw [if_pos h]

theorem visit_of_not_mem (c : SheafCache S V) (region : RegionId) (depth : Nat)
    (h : v ∉ st.visited) :
    (c.visit region depth st v).frontier =
        st.frontier ++ ([v].filter (c.changedEdge region)).map (fun v => (v, depth + 1)) ∧
      (c.visit region depth st v).invalidated = st.invalidated ++
      [v].filter (c.changedEdge region) ∧
      (c.visit region depth st v).visited = st.visited.insert v ∧
      (c.visit region depth st v).expansions = st.expansions := by
  unfold visit
  rw [if_neg h]
  cases hget : c.restrictions[(region, v)]? with
  | none => simp [changedEdge, hget]
  | some edge =>
    by_cases hchanged : c.checkBoundaryChanged region v edge = true
    · simp [changedEdge, hget, hchanged, Cascade.invalidate]
    · simp [changedEdge, hget, hchanged]

theorem foldl_visit (c : SheafCache S V) (region : RegionId) (depth : Nat) :
    ∀ (vs : List RegionId) (st : Cascade V), vs.Nodup →
      let fresh := vs.filter fun v => v ∉ st.visited
      let st' := vs.foldl (c.visit region depth) st
      st'.frontier = st.frontier ++
        (fresh.filter (c.changedEdge region)).map (fun v => (v, depth + 1)) ∧
        st'.invalidated = st.invalidated ++ fresh.filter (c.changedEdge region) ∧
        (∀ v, v ∈ st'.visited ↔ v ∈ st.visited ∨ v ∈ vs) ∧
        st'.expansions = st.expansions
  | [], st, _ => by simp
  | w :: vs, st, hnodup => by
    obtain ⟨hw, hvs⟩ := List.nodup_cons.mp hnodup
    intro fresh st'
    by_cases hmem : w ∈ st.visited
    · obtain ⟨hf, hi, hv, he⟩ := c.foldl_visit region depth vs st hvs
      have hst' : st' = vs.foldl (c.visit region depth) st :=
        congrArg (vs.foldl _) (c.visit_of_mem hmem)
      have hfresh : fresh = vs.filter fun v => v ∉ st.visited :=
        List.filter_cons_of_neg (by simp [hmem])
      rw [hst', hfresh]
      refine ⟨hf, hi, fun v => ?_, he⟩
      rw [hv, List.mem_cons]
      constructor
      · exact Or.imp_right .inr
      · rintro (h | rfl | h)
        exacts [.inl h, .inl hmem, .inr h]
    · obtain ⟨hf₀, hi₀, hv₀, he₀⟩ := c.visit_of_not_mem region depth hmem
      obtain ⟨hf, hi, hv, he⟩ := c.foldl_visit region depth vs (c.visit region depth st w) hvs
      have hrest : (vs.filter fun v => v ∉ (c.visit region depth st w).visited) =
          vs.filter fun v => v ∉ st.visited := by
        refine List.filter_congr fun v hmem' => ?_
        rw [hv₀]
        have hne : w ≠ v := fun h => hw (h ▸ hmem')
        simp [ExtTreeSet.mem_insert, hne]
      have hfresh : fresh = [w] ++ vs.filter fun v => v ∉ st.visited :=
        List.filter_cons_of_pos (by simp [hmem])
      rw [hrest] at hf hi
      refine ⟨?_, ?_, fun v => ?_, he.trans he₀⟩
      · rw [hfresh, List.filter_append, List.map_append, ← List.append_assoc, ← hf₀]
        exact hf
      · rw [hfresh, List.filter_append, ← List.append_assoc, ← hi₀]
        exact hi
      · refine (hv v).trans ?_
        rw [hv₀, ExtTreeSet.mem_insert, List.mem_cons, Std.LawfulEqOrd.compare_eq_iff_eq]
        tauto

variable {s : GatedSearch.State RegionId} {rest : List (RegionId × Nat)} {c : SheafCache S V}
  {u : RegionId}

theorem Follows.expand
    (h : Follows st s) {d : Nat}
    (hq : s.queue = (u, d) :: rest) (hd : c.graph.expands d = true) (n : Nat) :
    Follows (c.expand u d { st with frontier := rest, expansions := n })
      (step c.graph (fun _ _ => true) s) := by
  obtain ⟨hf, hi, hv, -⟩ := c.foldl_visit u d (c.neighbours u)
    { st with frontier := rest, expansions := n } (c.neighbours_nodup u)
  have hfresh : ((c.neighbours u).filter fun v => v ∉ st.visited) = c.graph.met s u d := by
    unfold GatedSearch.Graph.met
    rw [if_pos hd]
    exact List.filter_congr fun v _ => decide_eq_decide.mpr (not_congr (h.visited v))
  rw [hfresh] at hf hi
  constructor
  · rw [step_cons hq]
    exact hf
  · rw [found_step hq, List.map_append, ← h.invalidated, List.map_map]
    refine hi.trans (congrArg (st.invalidated ++ ·) ?_)
    exact (List.map_id _).symm
  · intro v
    rw [mem_seen_eager hq, hd, ← h.visited]
    exact (hv v).trans (or_congr_right (by simp [graph]))

theorem Follows.pop (h : Follows st s) {d : Nat} (hq : s.queue = (u, d) :: rest)
    (hd : c.graph.expands d = false) :
    Follows { st with frontier := rest } (step c.graph (fun _ _ => true) s) := by
  have hmet : c.graph.met s u d = [] := by
    unfold GatedSearch.Graph.met
    rw [hd]
    rfl
  constructor
  · simp [step_cons hq, GatedSearch.Graph.crossed, hmet]
  · simp [found_step hq, GatedSearch.Graph.crossed, hmet, h.invalidated]
  · intro v
    rw [mem_seen_eager hq, hd]
    simp [h.visited]

def others (c : SheafCache S V) : Finset RegionId :=
  (c.restrictions.keys.map Prod.snd).toFinset

omit [StalkHash S] in
theorem card_others_le (c : SheafCache S V) : c.others.card ≤ c.restrictions.size := by
  refine (List.toFinset_card_le _).trans ?_
  rw [List.length_map, ExtTreeMap.length_keys]

theorem next_mem_others (c : SheafCache S V) (u : RegionId) :
    ∀ v ∈ c.graph.next u, v ∈ c.others := by
  intro v hv
  rw [others, List.mem_toFinset, List.mem_map]
  exact ⟨(u, v), ExtTreeMap.mem_keys.mpr (c.mem_neighbours.mp hv), rfl⟩

theorem cascade_follows (c : SheafCache S V) (fuel : Nat) :
    ∀ (st : Cascade V) (s : GatedSearch.State RegionId), Follows st s →
      (c.complex.isSome → st.expansions + GatedSearch.pending c.others s ≤ c.cascadeBudget) →
      Follows (c.cascade fuel st) (run c.graph (fun _ _ => true) fuel s) := by
  induction fuel with
  | zero => exact fun st s h _ => h
  | succ fuel ih =>
    intro st s h hbudget
    cases hq : s.queue with
    | nil =>
      rw [run_nil hq]
      unfold cascade
      rw [h.frontier, hq]
      exact h
    | cons x rest =>
      obtain ⟨u, d⟩ := x
      have hless : GatedSearch.pending c.others
          (step c.graph (fun _ _ => true) s) + 1 ≤ GatedSearch.pending c.others s :=
        GatedSearch.pending_step c.next_mem_others (fun _ _ _ => rfl) hq
      unfold cascade run
      rw [h.frontier, hq]
      dsimp only
      split
      · rename_i hcx
        have hroom := hbudget hcx
        rw [if_neg (by omega)]
        refine ih _ _ (h.expand hq (by simp [graph, hcx]) _) fun _ => ?_
        have hexp := (c.foldl_visit u d (c.neighbours u)
          { st with frontier := rest, expansions := st.expansions + 1 }
          (c.neighbours_nodup u)).2.2.2
        unfold expand
        rw [hexp]
        show st.expansions + 1 + _ ≤ _
        omega
      · rename_i hcx
        rw [Bool.not_eq_true, Option.isSome_eq_false_iff, Option.isNone_iff_eq_none] at hcx
        split
        · rename_i hdepth
          refine ih _ _ (h.pop hq (by simp [graph, hcx, hdepth])) fun h => ?_
          rw [hcx] at h
          exact absurd h Bool.false_ne_true
        · rename_i hdepth
          refine ih _ _ (h.expand hq (by simp [graph, hcx, not_le.mp hdepth]) _) fun h => ?_
          rw [hcx] at h
          exact absurd h Bool.false_ne_true

omit [StalkHash S] in
theorem follows_roots (c : SheafCache S V) (changed : List RegionId) :
    Follows (c.roots changed) (GatedSearch.start changed) ∧ (c.roots changed).expansions = 0 := by
  have hfold : ∀ (l : List RegionId) (st : Cascade V),
      (l.foldl Cascade.invalidate st).frontier = st.frontier ∧
        (l.foldl Cascade.invalidate st).invalidated = st.invalidated ++ l ∧
        (l.foldl Cascade.invalidate st).visited = st.visited ∧
        (l.foldl Cascade.invalidate st).expansions = st.expansions := by
    intro l
    induction l with
    | nil => simp
    | cons r l ih =>
      intro st
      obtain ⟨hf, hi, hv, he⟩ := ih (st.invalidate r)
      refine ⟨hf, ?_, hv, he⟩
      rw [List.foldl_cons, hi]
      simp [Cascade.invalidate]
  obtain ⟨hf, hi, hv, he⟩ := hfold changed _
  refine ⟨⟨hf, hi.trans ?_, fun v => ?_⟩, he⟩
  · simp [GatedSearch.start, GatedSearch.State.found, Function.comp_def]
  · rw [roots, hv, ExtTreeSet.mem_ofList]
    simp [GatedSearch.start]

theorem onChange_eq_eager (c : SheafCache S V) (changed : List RegionId)
    (hbudget : c.complex.isSome → c.cascadeFuel changed ≤ c.cascadeBudget) :
    (c.onChange changed).2 =
      (GatedSearch.eager c.graph (c.cascadeFuel changed) changed).found.map Prod.fst := by
  obtain ⟨hroots, hzero⟩ := c.follows_roots changed
  refine (c.cascade_follows _ _ _ hroots fun hcx => ?_).invalidated
  rw [hzero, Nat.zero_add]
  refine (GatedSearch.pending_start _ _).trans (le_trans ?_ (hbudget hcx))
  exact Nat.add_le_add_left c.card_others_le _

/-- For every restriction graph and every assignment of digests, boundary hashes and
verdicts: without a budget that cuts it short, `on_change` returns exactly the
affected regions iff each of them is first met over a changed edge. -/
theorem onChange_affected_iff (c : SheafCache S V) (changed : List RegionId)
    (hbudget : c.complex.isSome → c.cascadeFuel changed ≤ c.cascadeBudget) :
    (∀ v, v ∈ (c.onChange changed).2 ↔ c.Affected changed v) ↔ c.FirstMetChanged changed := by
  rw [c.onChange_eq_eager changed hbudget]
  simp only [← c.reachable_iff_affected]
  exact GatedSearch.eager_complete_iff c.next_mem_others (Nat.add_le_add_left c.card_others_le _)

/-- Three regions and a complex attached. The content of `1` is unknown, so both its
edges count as changed; the edge `0 – 2` holds. -/
def diamond : SheafCache StalkDigest Unit where
  stalks := ((∅ : ExtTreeMap RegionId StalkDigest).insert 0 (.hash 5)).insert 1 .changed
    |>.insert 2 (.hash 6)
  restrictions := ((((((∅ : ExtTreeMap (RegionId × RegionId) RestrictionEdge).insert (0, 1) ⟨0⟩)
    |>.insert (1, 0) ⟨0⟩) |>.insert (0, 2) ⟨3⟩) |>.insert (2, 0) ⟨3⟩) |>.insert (1, 2) ⟨0⟩)
    |>.insert (2, 1) ⟨0⟩
  entries := ∅
  generation := 0
  complex := some (.new ⟨fun _ incidence => incidence.toList, fun _ _ => .refl _⟩ 1)
  deltaZeroBaseline := ∅
  cascadeBudget := usizeMax
  cascadeTruncations := 0

/-- Reported alone, `0` hides `2`: it is first looked at over the edge that holds.
Reported with `1`, it is found or not depending on which of the two comes first. -/
theorem onChange_misses_diamond : ¬ (∀ v, v ∈ (diamond.onChange [0]).2 ↔ diamond.Affected [0] v) ∧
      (diamond.onChange [0, 1]).2 = [0, 1] ∧ (diamond.onChange [1, 0]).2 = [1, 0, 2] := by
  refine ⟨fun h => ?_, by decide, by decide⟩
  have hedge : ∀ a b, diamond.changedEdge a b = true → diamond.ChangedEdge a b := fun a b =>
    (diamond.changedEdge_iff a b).mp
  have hpath : diamond.ChangedPath 0 2 2 :=
    (ChangedPath.nil.snoc (hedge 0 1 (by decide))).snoc (hedge 1 2 (by decide))
  have hmem : 2 ∈ (diamond.onChange [0]).2 :=
    (h 2).mpr ⟨0, List.mem_singleton.mpr rfl, 2, fun _ => by decide, hpath⟩
  exact absurd hmem (by decide)

/-- From `1`, every region is first looked at over a changed edge. -/
theorem onChange_affected_iff_diamond :
    1 ∈ (diamond.onChange [1]).2 ∧ ∀ v, v ∈ (diamond.onChange [1]).2 ↔ diamond.Affected [1] v :=
  ⟨by decide, (diamond.onChange_affected_iff [1] fun _ => by decide).mpr (by decide)⟩

end SheafCache

end LeyLine.Sheaf
