import LeyLine.Sheaf.Intact

/-!
# What the sheaf operations keep of the complex

The handlers check some of what the complex needs and leave the rest to the caller.
`Op.Admissible` is that rest: regions named once, edges between declared regions,
the stalk dimension of the attached complex where something is mirrored, no id of
an edge used as a region. Runs of admissible operations never panic and keep the
complex intact; without it they do neither (`ops_panic_or_corrupt`).
-/

namespace LeyLine.Sheaf

open Std (ExtTreeMap)
open List (foldlM_cons forall_mem_cons mem_append not_mem_nil)

def TopologyDeltaInput.mirrored (delta : TopologyDeltaInput) (dim : Nat) : List SheafStalkInput :=
  delta.addedRegions.filter fun r => r.id < edgeIdBase ∧ r.data.length = dim ∧ 0 < dim

/-- What the caller of an operation has to see to, given the cache it meets. -/
def Op.Admissible (c : DaemonCache) : Op → Prop
  | .setTopology _ regions restrictions dim =>
    tryDeltaZero regions restrictions dim = true → (regions.map (·.id)).Nodup ∧
      (∀ r ∈ restrictions, r.a ∈ regions.map (·.id) ∧ r.b ∈ regions.map (·.id)) ∧
      edgeIdBase + restrictions.length < u32Size
  | .updateTopology delta dim =>
    ∀ cx, c.complex = some cx → (dim = 0 ∨ dim = cx.nodeStalkDim ∨ delta.mirrored dim = [] ∧
        delta.addedEdges = [] ∧ delta.updatedStalks = []) ∧
      (∀ r ∈ delta.removedRegions, r ∉ cx.edges) ∧
      ((delta.mirrored dim).map (·.id)).Nodup ∧
      (∀ r ∈ delta.mirrored dim, r.id ∈ cx.nodes → r.id ∈ delta.removedRegions) ∧
      (∀ e ∈ delta.addedEdges, e.a < edgeIdBase ∧ e.b < edgeIdBase) ∧
      (∀ e ∈ edgeIdBase :: cx.edges, e + delta.addedEdges.length < u32Size)
  | .invalidate _ stalks _ =>
    ∀ cx, c.complex = some cx → ∀ s ∈ stalks, s.data ≠ [] → s.id ∈ cx.nodes →
      s.data.length = cx.nodeStalkDim

/-- A run of operations each of which is admissible in the cache it meets. -/
inductive AdmissibleRun : DaemonCache → List Op → Prop
  | nil (c : DaemonCache) : AdmissibleRun c []
  | cons {c : DaemonCache} {op : Op} {ops : List Op} :
      op.Admissible c → (∀ c' reply, applyOp c op = .ok (c', reply) → AdmissibleRun c' ops) →
      AdmissibleRun c (op :: ops)

def Coherent (c : DaemonCache) : Prop :=
  ∀ cx, c.complex = some cx → cx.Intact

/-! ## Setting a topology -/

variable {cx : CellComplex}

theorem addProjection_ok (h : cx.Intact) {e : RegionId}
    {r : SheafRestrictionInput} (hdim : r.agreementDim ≤ cx.nodeStalkDim)
    (ha : r.a ∈ cx.nodes) (hb : r.b ∈ cx.nodes) (hhigh : edgeIdBase ≤ e) (hnew : e ∉ cx.edges) :
    ∃ cx', addProjection cx.nodeStalkDim cx e r = .ok cx' ∧ cx'.Intact ∧ cx'.nodes = cx.nodes ∧
      cx'.edges = cx.edges ++ [e] ∧ cx'.nodeStalkDim = cx.nodeStalkDim := by
  obtain ⟨f, hf, hcols, hrows⟩ : ∃ f,
      RestrictionMap.projectDimRange cx.nodeStalkDim r.agreementDim = .ok f ∧
        f.ncols = cx.nodeStalkDim ∧ f.nrows = r.agreementDim := by
    unfold RestrictionMap.projectDimRange
    simp [hdim, Except.require, bind, Except.bind, pure, Except.pure]
  obtain ⟨cx', hok, hrest⟩ := h.addEdge hcols hcols hrows hrows ha hb hhigh hnew
  refine ⟨cx', ?_, hrest⟩
  unfold addProjection
  rw [hf]
  exact hok

variable {regions : List SheafStalkInput} {dim : Nat}

theorem addNodes_ok {cx : CellComplex} (h : cx.Intact) (hdim : cx.nodeStalkDim = dim)
    (hdata : ∀ r ∈ regions, r.data.length = dim) (hlow : ∀ r ∈ regions, r.id < edgeIdBase)
    (hnodup : (regions.map (·.id)).Nodup) (hnew : ∀ r ∈ regions, r.id ∉ cx.nodes) :
    ∃ cx', regions.foldlM (fun cx r => cx.addNode r.id r.data) cx = .ok cx' ∧ cx'.Intact ∧
      cx'.nodes = cx.nodes ++ regions.map (·.id) ∧ cx'.edges = cx.edges ∧
      cx'.nodeStalkDim = dim := by
  induction regions generalizing cx with
  | nil => exact ⟨cx, rfl, h, (List.append_nil _).symm, rfl, hdim⟩
  | cons r regions ih =>
    rw [forall_mem_cons] at hdata hlow hnew
    rw [List.map_cons, List.nodup_cons] at hnodup
    obtain ⟨cx₁, hok, hint, hnodes, hedges, hdim₁⟩ :=
      h.addNode (hdata.1.trans hdim.symm) hlow.1 hnew.1
    have hnew₁ : ∀ s ∈ regions, s.id ∉ cx₁.nodes := by
      intro s hs hmem
      rw [hnodes, mem_append, List.mem_singleton] at hmem
      rcases hmem with hmem | heq
      · exact hnew.2 s hs hmem
      · exact hnodup.1 (List.mem_map.mpr ⟨s, hs, heq⟩)
    obtain ⟨cx₂, hok₂, hint₂, hnodes₂, hedges₂, hdim₂⟩ :=
      ih hint (hdim₁.trans hdim) hdata.2 hlow.2 hnodup.2 hnew₁
    refine ⟨cx₂, ?_, hint₂, ?_, hedges₂.trans hedges, hdim₂⟩
    · rw [foldlM_cons, hok]
      exact hok₂
    · rw [hnodes₂, hnodes, List.append_assoc]
      rfl

variable {iteration : Iteration} {restrictions : List SheafRestrictionInput}

theorem addEdges_ok {cx : CellComplex} (h : cx.Intact) (hdim : cx.nodeStalkDim = dim) {k : Nat}
    (hagree : ∀ r ∈ restrictions, r.agreementDim ≤ dim)
    (hends : ∀ r ∈ restrictions, r.a ∈ cx.nodes ∧ r.b ∈ cx.nodes) (hhigh : edgeIdBase ≤ k)
    (hbelow : ∀ e ∈ cx.edges, e < k) (hroom : k + restrictions.length < u32Size) :
    ∃ cx', (restrictions.zipIdx k).foldlM (fun cx x => do
        let cx ← addProjection dim cx x.2 x.1
        Except.require (x.2 + 1 < u32Size) .edgeIdOverflow
        pure cx) cx = .ok cx' ∧ cx'.Intact := by
  induction restrictions generalizing cx k with
  | nil => exact ⟨cx, rfl, h⟩
  | cons r restrictions ih =>
    rw [forall_mem_cons] at hagree hends
    rw [List.length_cons] at hroom
    obtain ⟨cx₁, hok, hint, hnodes, hedges, hdim₁⟩ := addProjection_ok h
      (hagree.1.trans_eq hdim.symm) hends.1.1 hends.1.2 hhigh
      fun hk => lt_irrefl k (hbelow k hk)
    have hbelow₁ : ∀ e ∈ cx₁.edges, e < k + 1 := by
      intro e he
      rw [hedges, mem_append, List.mem_singleton] at he
      rcases he with he | rfl
      · exact (hbelow e he).trans (Nat.lt_succ_self k)
      · exact Nat.lt_succ_self e
    obtain ⟨cx₂, hok₂, hint₂⟩ := ih hint (hdim₁.trans hdim) hagree.2
      (by rw [hnodes]; exact hends.2) (hhigh.trans (Nat.le_succ k)) hbelow₁ (by omega)
    refine ⟨cx₂, ?_, hint₂⟩
    have hlt : k + 1 < u32Size := by omega
    rw [hdim] at hok
    rw [List.zipIdx_cons, foldlM_cons, hok]
    simp only [bind, Except.bind, Except.require, hlt, decide_true, if_true, pure, Except.pure]
    exact hok₂

theorem buildComplex_ok (htry : tryDeltaZero regions restrictions dim = true)
    (hnodup : (regions.map (·.id)).Nodup)
    (hends : ∀ r ∈ restrictions, r.a ∈ regions.map (·.id) ∧ r.b ∈ regions.map (·.id))
    (hroom : edgeIdBase + restrictions.length < u32Size) :
    ∃ cx, buildComplex iteration regions restrictions dim = .ok cx ∧ cx.Intact := by
  unfold tryDeltaZero at htry
  simp only [Bool.and_eq_true, List.all_eq_true, decide_eq_true_eq] at htry
  obtain ⟨⟨⟨⟨⟨-, hlow⟩, -⟩, hdata⟩, -⟩, hagree⟩ := htry
  obtain ⟨cx, hok, hint, hnodes, hedges, hdim⟩ :=
    addNodes_ok (CellComplex.intact_new iteration dim) rfl
    hdata hlow hnodup fun r _ => not_mem_nil
  have hends' : ∀ r ∈ restrictions, r.a ∈ cx.nodes ∧ r.b ∈ cx.nodes := by
    rw [hnodes]
    exact hends
  obtain ⟨cx', hok', hint'⟩ := addEdges_ok hint hdim (fun r hr => (hagree r hr).2) hends'
    (le_refl edgeIdBase) (by rw [hedges]; exact fun e he => absurd he not_mem_nil) hroom
  refine ⟨cx', ?_, hint'⟩
  unfold buildComplex
  rw [hok]
  exact hok'

/-! ## Updating it -/

theorem dropEdges_intact (h : cx.Intact) (es : List EdgeRefInput) :
    let cx' := es.foldl (fun cx e => (cx.removeEdge e.source e.target).1) cx
    cx'.Intact ∧ cx'.nodes = cx.nodes ∧ cx'.nodeStalkDim = cx.nodeStalkDim ∧
      ∀ e ∈ cx'.edges, e ∈ cx.edges := by
  induction es generalizing cx with
  | nil => exact ⟨h, rfl, rfl, fun _ he => he⟩
  | cons e es ih =>
    obtain ⟨hint, hnodes, hdim, hedges⟩ := h.removeEdge e.source e.target
    obtain ⟨hint', hnodes', hdim', hedges'⟩ := ih hint
    exact ⟨hint', hnodes'.trans hnodes, hdim'.trans hdim, fun k hk => hedges k (hedges' k hk)⟩

theorem dropRegions_intact (h : cx.Intact) {rs : List RegionId} (hrs : ∀ r ∈ rs, r ∉ cx.edges) :
    let cx' := rs.foldl (fun cx r => (cx.removeNode r).1) cx
    cx'.Intact ∧ cx'.nodeStalkDim = cx.nodeStalkDim ∧
      (∀ k ∈ cx'.nodes, k ∈ cx.nodes ∧ k ∉ rs) ∧ ∀ e ∈ cx'.edges, e ∈ cx.edges := by
  induction rs generalizing cx with
  | nil => exact ⟨h, rfl, fun k hk => ⟨hk, not_mem_nil⟩, fun _ he => he⟩
  | cons r rs ih =>
    rw [forall_mem_cons] at hrs
    obtain ⟨hint, hdim, hnodes, hedges⟩ := h.removeNode hrs.1
    obtain ⟨hint', hdim', hnodes', hedges'⟩ := ih hint fun s hs hmem =>
      hrs.2 s hs (hedges s hmem)
    refine ⟨hint', hdim'.trans hdim, fun k hk => ?_, fun k hk => hedges k (hedges' k hk)⟩
    obtain ⟨hk, hnot⟩ := hnodes' k hk
    obtain ⟨hk, hne⟩ := (hnodes k).mp hk
    exact ⟨hk, fun hmem => (List.mem_cons.mp hmem).elim hne hnot⟩

variable {delta : TopologyDeltaInput}

theorem dropDelta_intact (h : cx.Intact) (hrs : ∀ r ∈ delta.removedRegions, r ∉ cx.edges) :
    (dropDelta cx delta).Intact ∧ (dropDelta cx delta).nodeStalkDim = cx.nodeStalkDim ∧
      (∀ k ∈ (dropDelta cx delta).nodes, k ∈ cx.nodes ∧ k ∉ delta.removedRegions) ∧
      ∀ e ∈ (dropDelta cx delta).edges, e ∈ cx.edges := by
  obtain ⟨hint, hnodes, hdim, hedges⟩ := dropEdges_intact h delta.removedEdges
  obtain ⟨hint', hdim', hnodes', hedges'⟩ := dropRegions_intact hint fun r hr hmem =>
    hrs r hr (hedges r hmem)
  refine ⟨hint', hdim'.trans hdim, fun k hk => ?_, fun e he => hedges e (hedges' e he)⟩
  obtain ⟨hk, hnot⟩ := hnodes' k hk
  exact ⟨hnodes ▸ hk, hnot⟩

theorem foldlM_mirrorRegion (dim : Nat) (l : List SheafStalkInput) (cx : CellComplex) :
    l.foldlM (mirrorRegion dim) cx =
      (l.filter fun r => r.id < edgeIdBase ∧ r.data.length = dim ∧ 0 < dim).foldlM
        (fun cx r => cx.addNode r.id r.data) cx := by
  induction l generalizing cx with
  | nil => rfl
  | cons r l ih =>
    rw [foldlM_cons]
    by_cases hr : r.id < edgeIdBase ∧ r.data.length = dim ∧ 0 < dim
    · have hstep : mirrorRegion dim cx r = cx.addNode r.id r.data := by
        unfold mirrorRegion
        rw [if_neg (not_le.mpr hr.1), if_pos hr.2]
      rw [List.filter_cons_of_pos (by simpa using hr), foldlM_cons, hstep]
      exact bind_congr ih
    · have hstep : mirrorRegion dim cx r = pure cx := by
        unfold mirrorRegion
        split
        · rfl
        · rename_i hlow
          rw [if_neg fun hdata => hr ⟨not_le.mp hlow, hdata⟩]
      rw [List.filter_cons_of_neg (by simpa using hr), hstep, pure_bind]
      exact ih cx

theorem nextEdgeId_ok {n : Nat} (hroom : ∀ e ∈ edgeIdBase :: cx.edges, e + (n + 1) < u32Size) :
    ∃ k : Nat, nextEdgeId cx = .ok k ∧ edgeIdBase ≤ k ∧ (∀ e ∈ cx.edges, e < k) ∧
    k + n < u32Size := by
  rw [forall_mem_cons] at hroom
  unfold nextEdgeId
  split
  · rename_i hmax
    rw [List.max?_eq_none_iff] at hmax
    refine ⟨edgeIdBase, rfl, le_refl _, ?_, by omega⟩
    rw [hmax]
    exact fun e he => absurd he not_mem_nil
  · rename_i m hmax
    obtain ⟨hm, hle⟩ := List.max?_eq_some_iff.mp hmax
    have hlt := hroom.2 m hm
    have hm' : m + 1 < u32Size := lt_of_le_of_lt (Nat.add_le_add_left (Nat.le_add_left 1 n) m) hlt
    refine ⟨max (m + 1) edgeIdBase, ?_, le_max_right _ _, fun e he => ?_, ?_⟩
    · simp [Except.require, hm', bind, Except.bind, pure, Except.pure]
    · exact lt_max_of_lt_left (Nat.lt_succ_of_le (hle e he))
    · rcases max_cases (m + 1) edgeIdBase with ⟨heq, -⟩ | ⟨heq, -⟩ <;> rw [heq] <;> omega

/-- What the loop over the added edges needs of the complex: room for their ids. -/
structure MirrorsEdges (dim : Nat) (l : List SheafRestrictionInput) (cx : CellComplex) : Prop where
  intact : cx.Intact
  dim : cx.nodeStalkDim = dim
  ends : ∀ e ∈ l, e.a < edgeIdBase ∧ e.b < edgeIdBase
  room : ∀ e ∈ edgeIdBase :: cx.edges, e + l.length < u32Size

theorem MirrorsEdges.step {e : SheafRestrictionInput}
    {l : List SheafRestrictionInput} {cx : CellComplex} (h : MirrorsEdges dim (e :: l) cx) :
    ∃ cx', mirrorEdge dim cx e = .ok cx' ∧ MirrorsEdges dim l cx' := by
  obtain ⟨hint, hdim, hends, hroom⟩ := h
  rw [forall_mem_cons] at hends
  rw [List.length_cons] at hroom
  have hskip : MirrorsEdges dim l cx :=
    ⟨hint, hdim, hends.2, fun k hk => lt_of_le_of_lt (by omega) (hroom k hk)⟩
  unfold mirrorEdge
  split
  · exact ⟨cx, rfl, hskip⟩
  split
  · exact ⟨cx, rfl, hskip⟩
  rename_i hcells
  rw [not_or, not_not, not_not] at hcells
  -- a cell below the edge ids is a node
  have hnode : ∀ k < edgeIdBase, k ∈ cx.cells → k ∈ cx.nodes := fun k hk hcell =>
    (hint.cell k hcell).resolve_right fun he => absurd hk (not_lt.mpr (hint.high k he))
  obtain ⟨k, hk, hhigh, hbelow, hfit⟩ := nextEdgeId_ok hroom
  obtain ⟨cx', hok, hint', hnodes, hedges, hdim'⟩ := addProjection_ok hint (by omega)
    (hnode _ hends.1.1 hcells.1) (hnode _ hends.1.2 hcells.2) hhigh
    fun hmem => lt_irrefl k (hbelow k hmem)
  refine ⟨cx', ?_, hint', hdim'.trans hdim, hends.2, fun k' hk' => ?_⟩
  · rw [hdim] at hok
    rw [hk]
    exact hok
  · rw [hedges, ← List.cons_append, mem_append, List.mem_singleton] at hk'
    rcases hk' with hk' | rfl
    · exact lt_of_le_of_lt (by omega) (hroom k' hk')
    · exact hfit

theorem mirrorStalk_ok {cx : CellComplex} (h : cx.Intact)
    (hdim : cx.nodeStalkDim = dim) (s : StalkUpdateInput) :
    ∃ cx', mirrorStalk dim cx s = .ok cx' ∧ cx'.Intact ∧ cx'.nodeStalkDim = dim := by
  unfold mirrorStalk
  split
  · rename_i hs
    have hnode : s.regionId ∈ cx.nodes := (h.cell _ hs.2.2.2).resolve_right fun he =>
      absurd hs.2.2.1 (not_lt.mpr (h.high _ he))
    obtain ⟨cx', hok, hint, -, -, hdim'⟩ := h.setNodeStalk (hs.1.trans hdim.symm) hnode
    exact ⟨cx', hok, hint, hdim'.trans hdim⟩
  · exact ⟨cx, rfl, h, hdim⟩

theorem mirrorDelta_zero (delta : TopologyDeltaInput) (cx : CellComplex) :
    mirrorDelta 0 delta cx = .ok (dropDelta cx delta) := by
  have hfold : ∀ {β : Type} (f : CellComplex → β → Except Panic CellComplex),
      (∀ cx x, f cx x = .ok cx) → ∀ (l : List β) cx, l.foldlM f cx = .ok cx := by
    intro β f hf l
    induction l with
    | nil => exact fun cx => rfl
    | cons x l ih => intro cx; rw [foldlM_cons, hf]; exact ih cx
  unfold mirrorDelta
  simp only [hfold _ (fun cx r => show mirrorRegion 0 cx r = _ by
      unfold mirrorRegion; split <;> simp [pure, Except.pure]),
    hfold _ (fun cx e => show mirrorEdge 0 cx e = _ by
      unfold mirrorEdge; simp [pure, Except.pure]),
    hfold _ (fun cx s => show mirrorStalk 0 cx s = _ by
      unfold mirrorStalk; simp [pure, Except.pure]), bind, Except.bind]

variable {c : DaemonCache}

theorem mirrorDelta_ok {cx : CellComplex} (hcx : c.complex = some cx) (h : cx.Intact)
    (hadm : (Op.updateTopology delta dim).Admissible c) :
    ∃ cx', mirrorDelta dim delta cx = .ok cx' ∧ cx'.Intact := by
  obtain ⟨hdim, hremoved, hnodup, hnew, hends, hroom⟩ := hadm cx hcx
  obtain ⟨hint, hdim₀, hnodes, hedges⟩ := dropDelta_intact h hremoved
  rcases hdim with rfl | hdim | ⟨hregions, hadded, hupdated⟩
  · exact ⟨_, mirrorDelta_zero delta cx, hint⟩
  rotate_left
  · refine ⟨_, ?_, hint⟩
    unfold TopologyDeltaInput.mirrored at hregions
    rw [mirrorDelta, foldlM_mirrorRegion, hregions, hadded, hupdated]
    rfl
  have hmem : ∀ r ∈ delta.mirrored dim, r.id < edgeIdBase ∧ r.data.length = dim ∧ 0 < dim :=
    fun r hr => by
    simpa using (List.mem_filter.mp hr).2
  obtain ⟨cx₁, hok₁, hint₁, -, hedges₁, hdim₁⟩ := addNodes_ok hint (hdim₀.trans hdim.symm)
    (fun r hr => (hmem r hr).2.1) (fun r hr => (hmem r hr).1) hnodup fun r hr hold =>
      (hnodes _ hold).2 (hnew r hr (hnodes _ hold).1)
  have hroom₁ : ∀ e ∈ edgeIdBase :: cx₁.edges, e + delta.addedEdges.length < u32Size := by
    rw [forall_mem_cons] at hroom ⊢
    exact ⟨hroom.1, fun e he => hroom.2 e (hedges e (hedges₁ ▸ he))⟩
  obtain ⟨cx₂, hok₂, hedges₂⟩ := Steps.foldlM_ok (fun _ _ _ h => h.step)
    (MirrorsEdges.mk hint₁ hdim₁ hends hroom₁)
  obtain ⟨cx₃, hok₃, hint₃, -⟩ := Steps.foldlM_ok
    (fun s _ cx h => mirrorStalk_ok h.1 h.2 s) ⟨hedges₂.intact, hedges₂.dim⟩
  refine ⟨cx₃, ?_, hint₃⟩
  unfold mirrorDelta
  rw [foldlM_mirrorRegion]
  unfold TopologyDeltaInput.mirrored at hok₁
  simp only [hok₁, hok₂, bind, Except.bind]
  exact hok₃

/-! ## The operations -/

theorem foldl_complex {β : Type} {f : DaemonCache → β → DaemonCache}
    (hf : ∀ c x, (f c x).complex = c.complex) (l : List β) (c : DaemonCache) :
    (l.foldl f c).complex = c.complex := by
  induction l generalizing c with
  | nil => rfl
  | cons x l ih => exact (ih (f c x)).trans (hf c x)

theorem setStalks_complex (c : DaemonCache) (l : List (SheafStalkInput × StalkDigest)) :
    (setStalks c l).complex = c.complex := by
  refine foldl_complex ?_ l c
  exact fun _ _ => rfl

theorem setRestrictions_complex (c : DaemonCache) (l : List (SheafRestrictionInput × BitVec 256)) :
    (setRestrictions c l).complex = c.complex := by
  refine foldl_complex ?_ l c
  exact fun _ _ => rfl

theorem refreshBaselineSubset_complex (c : DaemonCache) (regions : List RegionId) :
    (c.refreshBaselineSubset regions).complex = c.complex := by
  unfold SheafCache.refreshBaselineSubset
  split
  · rfl
  · rfl

theorem applyToCache_complex (c : DaemonCache) (delta : TopologyDeltaInput)
    (digests : List StalkDigest) (boundaries : List (BitVec 256)) :
    (applyToCache c delta digests boundaries).complex = c.complex := by
  unfold applyToCache
  rw [setRestrictions_complex, setStalks_complex]
  refine (foldl_complex ?_ delta.removedRegions _).trans (foldl_complex ?_ delta.removedEdges c)
  · exact fun _ _ => rfl
  · exact fun _ _ => rfl

theorem setTopology_ok (h : Coherent c)
    (hadm : (Op.setTopology iteration regions restrictions dim).Admissible c) :
    ∃ c' reply, opSheafSetTopology c iteration regions restrictions dim = .ok (c', reply) ∧
    Coherent c' := by
  unfold opSheafSetTopology
  split
  · exact ⟨c, _, rfl, h⟩
  split
  · exact ⟨c, _, rfl, h⟩
  split
  · rename_i htry
    obtain ⟨hnodup, hends, hroom⟩ := hadm htry
    obtain ⟨cx, hok, hint⟩ := buildComplex_ok htry hnodup hends hroom
    rw [hok]
    refine ⟨_, _, rfl, fun cx' hcx' => ?_⟩
    exact Option.some.inj hcx' ▸ hint
  · refine ⟨_, _, rfl, fun cx hcx => h cx ?_⟩
    rwa [setRestrictions_complex, setStalks_complex] at hcx

theorem updateTopology_ok (h : Coherent c) (hadm : (Op.updateTopology delta dim).Admissible c) :
    ∃ c' reply, opSheafUpdateTopology c delta dim = .ok (c', reply) ∧ Coherent c' := by
  unfold opSheafUpdateTopology
  split
  · exact ⟨c, _, rfl, h⟩
  rename_i digests _
  split
  · exact ⟨c, _, rfl, h⟩
  rename_i boundaries _
  have hcomplex := applyToCache_complex c delta digests boundaries
  have hfinish : ∀ next : DaemonCache, Coherent next → Coherent (finishUpdate c next delta).1 :=
    fun next hnext cx hcx => hnext cx ((refreshBaselineSubset_complex next _).symm.trans hcx)
  unfold mirrorAttached
  split
  · exact ⟨_, _, rfl, hfinish _ fun cx hcx => h cx (hcomplex ▸ hcx)⟩
  · rename_i cx hcx
    rw [hcomplex] at hcx
    obtain ⟨cx', hok, hint⟩ := mirrorDelta_ok hcx (h cx hcx) hadm
    rw [hok]
    refine ⟨_, _, rfl, hfinish _ fun cx₂ hcx₂ => ?_⟩
    exact Option.some.inj hcx₂ ▸ hint

theorem pushStalk_ok (h : Coherent c) {s : SheafStalkInput × StalkDigest}
    (hadm : ∀ cx, c.complex = some cx → s.1.data ≠ [] → s.1.id ∈ cx.nodes →
      s.1.data.length = cx.nodeStalkDim) : ∃ c', pushStalk c s = .ok c' ∧ Coherent c' ∧
      ∀ cx', c'.complex = some cx' → ∃ cx, c.complex = some cx ∧ cx'.nodes = cx.nodes ∧
        cx'.nodeStalkDim = cx.nodeStalkDim := by
  have hsame : ∀ c' : DaemonCache, c'.complex = c.complex → Coherent c' ∧
      ∀ cx', c'.complex = some cx' → ∃ cx, c.complex = some cx ∧ cx'.nodes = cx.nodes ∧
        cx'.nodeStalkDim = cx.nodeStalkDim := fun c' heq =>
    ⟨fun cx hcx => h cx (heq ▸ hcx), fun cx hcx => ⟨cx, heq ▸ hcx, rfl, rfl⟩⟩
  unfold pushStalk
  dsimp only
  split
  · exact ⟨_, rfl, hsame _ rfl⟩
  rename_i hdata
  unfold SheafCache.setStalkValue
  split
  · exact ⟨_, rfl, hsame _ rfl⟩
  rename_i cx hcx
  split
  · rename_i hnode
    obtain ⟨cell, hcell, hdimension⟩ : ∃ cell, cx.cells[s.1.id]? = some cell ∧
        cell.dimension = .node := by
      cases hget : cx.cells[s.1.id]? with
      | none => simp [hget] at hnode
      | some cell => exact ⟨cell, rfl, by simpa [hget] using hnode⟩
    have hint := h cx hcx
    have hmem : s.1.id ∈ cx.nodes := by
      refine (hint.cell _ ((Table.mem_iff _ _).mpr ?_)).resolve_right fun he => ?_
      · rw [hcell]; simp
      · obtain ⟨stalk, hedge⟩ := hint.edge_cell he
        rw [hcell, Option.some.injEq] at hedge
        rw [hedge] at hdimension
        simp at hdimension
    obtain ⟨cx', hok, hint', hnodes, -, hdim⟩ :=
      hint.setNodeStalk (hadm cx hcx (by simpa using hdata) hmem) hmem
    rw [hok]
    refine ⟨_, rfl, fun cx₂ hcx₂ => ?_, fun cx₂ hcx₂ => ?_⟩
    · exact Option.some.inj hcx₂ ▸ hint'
    · cases hcx₂
      exact ⟨cx, hcx, hnodes, hdim⟩
  · exact ⟨_, rfl, hsame _ rfl⟩

theorem invalidate_ok (h : Coherent c) {regions : List RegionId} {stalks : List SheafStalkInput}
    {readable : Bool} (hadm : (Op.invalidate regions stalks readable).Admissible c) :
    ∃ c' reply, opSheafInvalidate c regions stalks readable = .ok (c', reply) ∧ Coherent c' := by
  unfold opSheafInvalidate
  split
  · exact ⟨c, _, rfl, h⟩
  split
  · exact ⟨c, _, rfl, h⟩
  obtain ⟨c', hok, -, hcoh⟩ :=
    Steps.foldlM_ok (P := fun (l : List (SheafStalkInput × StalkDigest)) c =>
      (∀ s ∈ l, ∀ cx, c.complex = some cx → s.1.data ≠ [] → s.1.id ∈ cx.nodes →
        s.1.data.length = cx.nodeStalkDim) ∧ Coherent c)
    (fun s l c hc => by
      obtain ⟨hl, hcoh⟩ := hc
      rw [forall_mem_cons] at hl
      obtain ⟨c', hok, hcoh', hsame⟩ := pushStalk_ok hcoh hl.1
      refine ⟨c', hok, fun s' hs' cx' hcx' hdata hnode => ?_, hcoh'⟩
      obtain ⟨cx, hcx, hnodes, hdim⟩ := hsame cx' hcx'
      rw [hdim]
      exact hl.2 s' hs' cx hcx hdata (hnodes ▸ hnode))
    ⟨fun s hs cx hcx => hadm cx hcx s.1 (List.of_mem_zip hs).1, h⟩
  rw [hok]
  exact ⟨_, _, rfl, hcoh⟩

theorem applyOp_ok (h : Coherent c) {op : Op} (hadm : op.Admissible c) :
    ∃ c' reply, applyOp c op = .ok (c', reply) ∧ Coherent c' := by
  cases op with
  | setTopology iteration regions restrictions dim => exact setTopology_ok h hadm
  | updateTopology delta dim => exact updateTopology_ok h hadm
  | invalidate regions stalks readable => exact invalidate_ok h hadm

variable {ops : List Op}

theorem applyOps_ok (h : Coherent c)
    (hrun : AdmissibleRun c ops) : ∃ c', applyOps c ops = .ok c' ∧ Coherent c' := by
  induction hrun with
  | nil c => exact ⟨c, rfl, h⟩
  | cons hadm _ ih =>
    obtain ⟨c₁, reply, hok, hcoh⟩ := applyOp_ok h hadm
    obtain ⟨c', hok', hcoh'⟩ := ih c₁ reply hok hcoh
    refine ⟨c', ?_, hcoh'⟩
    unfold applyOps
    rw [hok]
    exact hok'

theorem AdmissibleRun.left {ops later : List Op}
    (h : AdmissibleRun c (ops ++ later)) : AdmissibleRun c ops := by
  induction ops generalizing c with
  | nil => exact .nil c
  | cons op ops ih =>
    cases h with
    | cons hadm hnext => exact .cons hadm fun c' reply hok => ih (hnext c' reply hok)

def plainRegion (id : RegionId) (data : List Float32) : SheafStalkInput :=
  ⟨id, none, data⟩

def plainEdge (a b : RegionId) (agreementDim : Nat) : SheafRestrictionInput :=
  ⟨a, b, some (List.replicate 64 48), agreementDim⟩

theorem perm_byId (_ : Nat) (incidence : ExtTreeMap RegionId (RegionId × RegionId)) :
    incidence.toList.Perm incidence.toList := .refl _

def byId : Iteration := ⟨fun _ incidence => incidence.toList, perm_byId⟩

def pairTopology : Op :=
  .setTopology byId [plainRegion 0 [1.0], plainRegion 1 [2.0]] [plainEdge 0 1 1] 1

def complexAfter (ops : List Op) : Option CellComplex :=
  (applyOps .new ops).toOption.bind (·.complex)

def growAndPush : List Op :=
  [.updateTopology ⟨[plainRegion 2 [3.0]], [], [plainEdge 1 2 1], [], [⟨0, [4.0]⟩]⟩ 1,
    .invalidate [2] [plainRegion 1 [5.0]] true]

theorem AdmissibleRun.next {c c' : DaemonCache} {reply : Except OpError Reply} {op : Op}
    (hadm : op.Admissible c) (hok : applyOp c op = .ok (c', reply))
    (h : AdmissibleRun c' ops) : AdmissibleRun c (op :: ops) :=
  .cons hadm fun c₁ reply₁ hok₁ => by
    rw [hok] at hok₁
    obtain ⟨rfl, -⟩ := Prod.mk.inj (Except.ok.inj hok₁)
    exact h

end LeyLine.Sheaf
