import LeyLine.Sheaf.Ops

/-!
# The complex stays intact

`Intact` is what the sheaf operations mean to keep of the attached complex: node
ids below the edge ids, every cell listed once, every edge between nodes with maps
of the right shape. This module proves it of the library calls, each under the
conditions its caller must see to, and that the coboundary matrix of an intact
complex can be built.
-/

namespace LeyLine.Sheaf

open Std (ExtTreeMap)
open Table (get_erase get_insert mem_iff)
open List (forall_mem_cons mem_append mem_append_left mem_cons mem_singleton)

/-- An edge's endpoints are nodes and its maps take the nodes' stalks to its own. -/
structure CellComplex.Joins (cx : CellComplex) (e u v : RegionId) : Prop where
  source : u ∈ cx.nodes
  target : v ∈ cx.nodes
  maps : ∃ stalk f g, cx.cells[e]? = some ⟨.edge, stalk⟩ ∧
    cx.restrictionMaps[(u, e)]? = some f ∧ cx.restrictionMaps[(v, e)]? = some g ∧
    f.nrows = stalk.length ∧ g.nrows = stalk.length ∧
    f.ncols = cx.nodeStalkDim ∧ g.ncols = cx.nodeStalkDim

structure CellComplex.Intact (cx : CellComplex) : Prop where
  nodes_nodup : cx.nodes.Nodup
  edges_nodup : cx.edges.Nodup
  low : ∀ id ∈ cx.nodes, id < edgeIdBase
  high : ∀ e ∈ cx.edges, edgeIdBase ≤ e
  node : ∀ id ∈ cx.nodes, ∃ stalk, cx.cells[id]? = some ⟨.node, stalk⟩ ∧
    stalk.length = cx.nodeStalkDim
  cell : ∀ id ∈ cx.cells, id ∈ cx.nodes ∨ id ∈ cx.edges
  joined : ∀ e ∈ cx.edges, ∃ u v, cx.incidence[e]? = some (u, v)
  joins : ∀ e u v, cx.incidence[e]? = some (u, v) → e ∈ cx.edges ∧ cx.Joins e u v

namespace CellComplex

theorem intact_new (iteration : Iteration) (dim : Nat) : (new iteration dim).Intact := by
  constructor <;> simp [new]

variable {cx : CellComplex}

variable {id e : RegionId}

theorem Intact.node_ne_edge (h : cx.Intact) (hid : id ∈ cx.nodes) (he : e ∈ cx.edges) : id ≠ e :=
  (lt_of_lt_of_le (h.low id hid) (h.high e he)).ne

theorem Intact.edge_cell (h : cx.Intact) (he : e ∈ cx.edges) :
    ∃ stalk, cx.cells[e]? = some ⟨.edge, stalk⟩ := by
  obtain ⟨u, v, hinc⟩ := h.joined e he
  obtain ⟨stalk, f, g, hcell, -⟩ := (h.joins e u v hinc).2.maps
  exact ⟨stalk, hcell⟩

/-- What `Intact` says of one cell. -/
structure CellOk (cx : CellComplex) (k : RegionId) : Prop where
  node : k ∈ cx.nodes → k < edgeIdBase ∧ ∃ stalk, cx.cells[k]? = some ⟨.node, stalk⟩ ∧
    stalk.length = cx.nodeStalkDim
  edge : k ∈ cx.edges → edgeIdBase ≤ k ∧ ∃ u v, cx.incidence[k]? = some (u, v)
  cell : k ∈ cx.cells → k ∈ cx.nodes ∨ k ∈ cx.edges
  joins : ∀ u v, cx.incidence[k]? = some (u, v) → k ∈ cx.edges ∧ cx.Joins k u v

/-- The complexes differ at one cell only. -/
structure SameOff (cx cx' : CellComplex) (id : RegionId) : Prop where
  cells : ∀ k, k ≠ id → cx'.cells[k]? = cx.cells[k]?
  incidence : ∀ k, k ≠ id → cx'.incidence[k]? = cx.incidence[k]?
  maps : ∀ x k : RegionId, k ≠ id → cx'.restrictionMaps[(x, k)]? = cx.restrictionMaps[(x, k)]?
  nodes : ∀ k, k ≠ id → (k ∈ cx'.nodes ↔ k ∈ cx.nodes)
  edges : ∀ k, k ≠ id → (k ∈ cx'.edges ↔ k ∈ cx.edges)
  dim : cx'.nodeStalkDim = cx.nodeStalkDim

theorem Intact.change {cx' : CellComplex} (h : cx.Intact) (id : RegionId)
    (hsame : SameOff cx cx' id) (hnodes : cx'.nodes.Nodup)
    (hedges : cx'.edges.Nodup) (hid : cx'.CellOk id) (hends : id ∈ cx.nodes →
      (∃ e u v : RegionId, cx'.incidence[e]? = some (u, v) ∧ (u = id ∨ v = id)) →
      id ∈ cx'.nodes) : cx'.Intact := by
  have hall : ∀ k, cx'.CellOk k := by
    intro k
    by_cases hk : k = id
    · exact hk ▸ hid
    constructor
    · rw [hsame.nodes k hk, hsame.cells k hk, hsame.dim]
      exact fun hn => ⟨h.low k hn, h.node k hn⟩
    · rw [hsame.edges k hk, hsame.incidence k hk]
      exact fun he => ⟨h.high k he, h.joined k he⟩
    · rw [mem_iff, hsame.cells k hk, ← mem_iff, hsame.nodes k hk, hsame.edges k hk]
      exact h.cell k
    · intro u v hinc
      obtain ⟨he, hjoins⟩ := h.joins k u v (hsame.incidence k hk ▸ hinc)
      -- an end of the edge that is the changed cell is still a node
      have hend : ∀ w ∈ cx.nodes, w = u ∨ w = v → w ∈ cx'.nodes := by
        intro w hw hwuv
        by_cases hwid : w = id
        · subst hwid
          exact hends hw ⟨k, u, v, hinc, hwuv.imp Eq.symm Eq.symm⟩
        · exact (hsame.nodes w hwid).mpr hw
      refine ⟨(hsame.edges k hk).mpr he, hend u hjoins.source (.inl rfl),
        hend v hjoins.target (.inr rfl), ?_⟩
      rw [hsame.cells k hk, hsame.maps u k hk, hsame.maps v k hk, hsame.dim]
      exact hjoins.maps
  exact ⟨hnodes, hedges, fun k hk => ((hall k).node hk).1, fun k hk => ((hall k).edge hk).1,
    fun k hk => ((hall k).node hk).2, fun k => (hall k).cell, fun k hk => ((hall k).edge hk).2,
    fun k => (hall k).joins⟩

variable {data : List Float32}

theorem addNode_eq (hdim : data.length = cx.nodeStalkDim) (hfree : cx.cells[id]? = none) :
    cx.addNode id data = .ok { cx with
      cells := cx.cells.insert id ⟨.node, data⟩
      nodes := cx.nodes ++ [id] } := by
  unfold addNode
  simp [hdim, hfree, Except.require, bind, Except.bind, pure, Except.pure]

theorem Intact.addNode (h : cx.Intact)
    (hdim : data.length = cx.nodeStalkDim) (hlow : id < edgeIdBase) (hnew : id ∉ cx.nodes) :
    ∃ cx', cx.addNode id data = .ok cx' ∧ cx'.Intact ∧ cx'.nodes = cx.nodes ++ [id] ∧
      cx'.edges = cx.edges ∧ cx'.nodeStalkDim = cx.nodeStalkDim := by
  have hedge : id ∉ cx.edges := fun he => absurd hlow (not_lt.mpr (h.high id he))
  have hfree : cx.cells[id]? = none := by
    by_contra hsome
    exact (h.cell id ((mem_iff _ _).mpr hsome)).elim hnew hedge
  refine ⟨_, addNode_eq hdim hfree, ?_, rfl, rfl, rfl⟩
  refine h.change id ⟨fun k hk => ?_, fun _ _ => rfl, fun _ _ _ => rfl, fun k hk => ?_,
    fun _ _ => .rfl, rfl⟩
    (h.nodes_nodup.append (List.nodup_singleton id) (List.disjoint_singleton.mpr hnew))
      h.edges_nodup
    ⟨fun _ => ⟨hlow, data, ?_, hdim⟩, fun he => absurd he hedge, fun _ => .inl (by simp),
      fun u v hinc => absurd (h.joins id u v hinc).1 hedge⟩ fun _ _ => by simp
  · rw [get_insert, if_neg (Ne.symm hk)]
  · simp [hk]
  · rw [get_insert, if_pos rfl]

theorem addEdge_eq {e u v : RegionId} {agreementDim : Nat} {f g : RestrictionMap}
    (hf : f.ncols = cx.nodeStalkDim) (hg : g.ncols = cx.nodeStalkDim)
    (hf' : f.nrows = agreementDim) (hg' : g.nrows = agreementDim) (hfree : cx.cells[e]? = none) :
    cx.addEdge e u v agreementDim f g = .ok { cx with
      cells := cx.cells.insert e ⟨.edge, List.replicate agreementDim 0.0⟩
      edges := cx.edges ++ [e]
      incidence := cx.incidence.insert e (u, v)
      changes := cx.changes + 1
      restrictionMaps := (cx.restrictionMaps.insert (u, e) f).insert (v, e) g } := by
  unfold addEdge
  simp [hf, hg, hf', hg', hfree, Except.require, bind, Except.bind, pure, Except.pure]

theorem Intact.addEdge (h : cx.Intact) {e u v : RegionId} {agreementDim : Nat}
    {f g : RestrictionMap} (hf : f.ncols = cx.nodeStalkDim) (hg : g.ncols = cx.nodeStalkDim)
    (hf' : f.nrows = agreementDim) (hg' : g.nrows = agreementDim)
    (hu : u ∈ cx.nodes) (hv : v ∈ cx.nodes) (hhigh : edgeIdBase ≤ e) (hnew : e ∉ cx.edges) :
    ∃ cx', cx.addEdge e u v agreementDim f g = .ok cx' ∧ cx'.Intact ∧ cx'.nodes = cx.nodes ∧
      cx'.edges = cx.edges ++ [e] ∧ cx'.nodeStalkDim = cx.nodeStalkDim := by
  have hnode : e ∉ cx.nodes := fun he => absurd (h.low e he) (not_lt.mpr hhigh)
  have hfree : cx.cells[e]? = none := by
    by_contra hsome
    exact (h.cell e ((mem_iff _ _).mpr hsome)).elim hnode hnew
  refine ⟨_, addEdge_eq hf hg hf' hg' hfree, ?_, rfl, rfl, rfl⟩
  refine h.change e ⟨fun k hk => ?_, fun k hk => ?_, fun x k hk => ?_, fun _ _ => .rfl,
    fun k hk => ?_, rfl⟩
    h.nodes_nodup (h.edges_nodup.append (List.nodup_singleton e) (List.disjoint_singleton.mpr hnew))
    ⟨fun hn => absurd hn hnode, fun _ => ⟨hhigh, u, v, ?_⟩, fun _ => .inr (by simp),
      fun x y hinc => ?_⟩
    fun hn => absurd hn hnode
  · rw [get_insert, if_neg (Ne.symm hk)]
  · rw [get_insert, if_neg (Ne.symm hk)]
  · rw [get_insert, get_insert, if_neg (by simp [Ne.symm hk]), if_neg (by simp [Ne.symm hk])]
  · simp [hk]
  · rw [get_insert, if_pos rfl]
  · obtain ⟨rfl, rfl⟩ : u = x ∧ v = y := by simpa using hinc
    refine ⟨List.mem_append_right _ (mem_singleton.mpr rfl), hu, hv, ?_⟩
    -- at a loop the second map replaces the first; both have the right shape
    have hsource : ∃ f', ((cx.restrictionMaps.insert (u, e) f).insert (v, e) g)[(u, e)]? = some f' ∧
        f'.nrows = agreementDim ∧ f'.ncols = cx.nodeStalkDim := by
      rw [get_insert, get_insert, if_pos rfl]
      split
      · exact ⟨g, rfl, hg', hg⟩
      · exact ⟨f, rfl, hf', hf⟩
    obtain ⟨f', hget, hrows, hcols⟩ := hsource
    refine ⟨_, f', g, by rw [get_insert, if_pos rfl], hget,
      by rw [get_insert, if_pos rfl], ?_, ?_, hcols, hg⟩
    · rw [hrows, List.length_replicate]
    · rw [hg', List.length_replicate]

theorem Intact.removeEdgeById (h : cx.Intact) (hnode : e ∉ cx.nodes) :
    (cx.removeEdgeById e).Intact := by
  have hcells (k : RegionId) : (cx.removeEdgeById e).cells[k]? = if e = k then none
      else cx.cells[k]? := get_erase ..
  have hincidence (k : RegionId) : (cx.removeEdgeById e).incidence[k]? = if e = k then none
      else cx.incidence[k]? :=
    get_erase ..
  have hedges (k : RegionId) : k ∈ (cx.removeEdgeById e).edges ↔ k ∈ cx.edges ∧ k ≠ e := by
    show k ∈ cx.edges.filter (· ≠ e) ↔ _
    simp
  refine h.change e ⟨fun k hk => ?_, fun k hk => ?_, fun x k hk => ?_, fun _ _ => .rfl,
    fun k hk => ?_, rfl⟩
    h.nodes_nodup (h.edges_nodup.filter _) ⟨fun hn => absurd hn hnode,
      fun he => absurd rfl ((hedges e).mp he).2,
      fun hc => ?_, fun u v hinc => ?_⟩ fun hn => absurd hn hnode
  · rw [hcells, if_neg (Ne.symm hk)]
  · rw [hincidence, if_neg (Ne.symm hk)]
  · unfold CellComplex.removeEdgeById
    split
    · rw [get_erase, get_erase, if_neg (by simp [Ne.symm hk]), if_neg (by simp [Ne.symm hk])]
    · rfl
  · rw [hedges, and_iff_left hk]
  · rw [mem_iff, hcells, if_pos rfl] at hc
    exact absurd rfl hc
  · rw [hincidence, if_pos rfl] at hinc
    exact absurd hinc.symm (Option.some_ne_none _)

theorem mem_touching : e ∈ cx.touching id ↔ ∃ u v, cx.incidence[e]? = some (u, v) ∧
    (u = id ∨ v = id) := by
  unfold touching
  rw [List.mem_map]
  constructor
  · rintro ⟨⟨k, u, v⟩, hk, rfl⟩
    rw [List.mem_filter, ExtTreeMap.mem_toList_iff_getElem?_eq_some, decide_eq_true_eq] at hk
    exact ⟨u, v, hk⟩
  · rintro ⟨u, v, hinc, htouch⟩
    refine ⟨(e, u, v), List.mem_filter.mpr ⟨?_, by simpa using htouch⟩, rfl⟩
    exact ExtTreeMap.mem_toList_iff_getElem?_eq_some.mpr hinc

theorem Intact.removeEdges (h : cx.Intact) {es : List RegionId} (hnode : ∀ e ∈ es, e ∉ cx.nodes) :
    let cx' := es.foldl CellComplex.removeEdgeById cx
    cx'.Intact ∧ cx'.nodes = cx.nodes ∧ cx'.nodeStalkDim = cx.nodeStalkDim ∧
      (∀ e ∈ cx'.edges, e ∈ cx.edges) ∧
      ∀ k x, cx'.incidence[k]? = some x → k ∉ es ∧ cx.incidence[k]? = some x := by
  induction es generalizing cx with
  | nil => exact ⟨h, rfl, rfl, fun _ he => he, fun k x hk => ⟨List.not_mem_nil, hk⟩⟩
  | cons e es ih =>
    rw [forall_mem_cons] at hnode
    obtain ⟨hint, hnodes, hdim, hedges, hinc⟩ := ih (h.removeEdgeById hnode.1) hnode.2
    refine ⟨hint, hnodes, hdim, fun k hk => ?_, fun k x hk => ?_⟩
    · exact List.mem_of_mem_filter (hedges k hk)
    · obtain ⟨hnot, hget⟩ := hinc k x hk
      have hget : (cx.incidence.erase e)[k]? = some x := hget
      rw [get_erase] at hget
      split at hget
      · exact absurd hget.symm (Option.some_ne_none x)
      · rename_i hne
        exact ⟨fun hmem => (mem_cons.mp hmem).elim (fun heq => hne heq.symm) hnot, hget⟩

theorem Intact.removeNode (h : cx.Intact) (hedge : id ∉ cx.edges) :
    (cx.removeNode id).1.Intact ∧ (cx.removeNode id).1.nodeStalkDim = cx.nodeStalkDim ∧
      (∀ k, k ∈ (cx.removeNode id).1.nodes ↔ k ∈ cx.nodes ∧ k ≠ id) ∧
      ∀ e ∈ (cx.removeNode id).1.edges, e ∈ cx.edges := by
  unfold CellComplex.removeNode
  split
  · have htouch : ∀ e ∈ cx.touching id, e ∉ cx.nodes := by
      intro e he hnode
      obtain ⟨u, v, hinc, -⟩ := mem_touching.mp he
      exact h.node_ne_edge hnode (h.joins e u v hinc).1 rfl
    obtain ⟨hint, hnodes, hdim, hedges, hinc⟩ := h.removeEdges htouch
    set dropped := (cx.touching id).foldl CellComplex.removeEdgeById cx
    have hnot : id ∉ dropped.edges := fun he => hedge (hedges id he)
    have hmem : ∀ k, k ∈ dropped.nodes.filter (· ≠ id) ↔ k ∈ dropped.nodes ∧ k ≠ id := fun k => by
      simp
    refine ⟨hint.change id ⟨fun k hk => ?_, fun _ _ => rfl, fun _ _ _ => rfl, fun k hk => ?_,
      fun _ _ => .rfl, rfl⟩
      (hint.nodes_nodup.filter _) hint.edges_nodup ⟨fun hn => absurd rfl ((hmem id).mp hn).2,
        fun he => absurd he hnot,
        fun hc => ?_, fun u v he => absurd (hint.joins id u v he).1 hnot⟩ ?_, hdim, fun k =>
        by rw [hmem, hnodes], hedges⟩
    · rw [get_erase, if_neg (Ne.symm hk)]
    · rw [hmem, and_iff_left hk]
    · rw [mem_iff, get_erase, if_pos rfl] at hc
      exact absurd rfl hc
    · -- the edges that touched the node are gone
      rintro - ⟨e, u, v, he, htouched⟩
      obtain ⟨hfar, hold⟩ := hinc e (u, v) he
      exact absurd (mem_touching.mpr ⟨u, v, hold, htouched⟩) hfar
  · rename_i hcell
    refine ⟨h, rfl, fun k => ⟨fun hk => ⟨hk, ?_⟩, And.left⟩, fun _ he => he⟩
    rintro rfl
    obtain ⟨stalk, hget, -⟩ := h.node k hk
    exact hcell ((mem_iff _ _).mpr (by simp [hget]))

theorem Intact.removeEdge (h : cx.Intact) (source target : RegionId) :
    (cx.removeEdge source target).1.Intact ∧ (cx.removeEdge source target).1.nodes = cx.nodes ∧
      (cx.removeEdge source target).1.nodeStalkDim = cx.nodeStalkDim ∧
      ∀ e ∈ (cx.removeEdge source target).1.edges, e ∈ cx.edges := by
  unfold CellComplex.removeEdge
  split
  · rename_i e hfind
    obtain ⟨⟨k, u, v⟩, hfound, rfl⟩ := Option.map_eq_some_iff.mp hfind
    have hinc : cx.incidence[k]? = some (u, v) :=
      ExtTreeMap.mem_toList_iff_getElem?_eq_some.mp
        ((cx.iteration.perm _ _).mem_iff.mp (List.mem_of_find?_eq_some hfound))
    have hedge := (h.joins k u v hinc).1
    refine ⟨h.removeEdgeById fun hnode => h.node_ne_edge hnode hedge rfl, rfl, rfl, ?_⟩
    exact fun e he => List.mem_of_mem_filter he
  · exact ⟨h, rfl, rfl, fun _ he => he⟩

theorem Intact.setNodeStalk (h : cx.Intact) (hdim : data.length = cx.nodeStalkDim)
    (hnode : id ∈ cx.nodes) :
    ∃ cx', cx.setNodeStalk id data = .ok cx' ∧ cx'.Intact ∧ cx'.nodes = cx.nodes ∧
      cx'.edges = cx.edges ∧ cx'.nodeStalkDim = cx.nodeStalkDim := by
  obtain ⟨stalk, hcell, -⟩ := h.node id hnode
  have heq : cx.setNodeStalk id data =
      .ok { cx with cells := cx.cells.insert id ⟨.node, data⟩ } := by
    unfold CellComplex.setNodeStalk
    simp [hdim, hcell, Except.require, bind, Except.bind, pure, Except.pure]
  refine ⟨_, heq, ?_, rfl, rfl, rfl⟩
  have hedge : id ∉ cx.edges := fun he => h.node_ne_edge hnode he rfl
  refine h.change id ⟨fun k hk => ?_, fun _ _ => rfl, fun _ _ _ => rfl, fun _ _ => .rfl,
    fun _ _ => .rfl, rfl⟩
    h.nodes_nodup h.edges_nodup ⟨fun _ => ⟨h.low id hnode, data, ?_, hdim⟩,
      fun he => absurd he hedge, fun _ => .inl hnode,
      fun u v hinc => absurd (h.joins id u v hinc).1 hedge⟩ fun hn _ => hn
  · rw [get_insert, if_neg (Ne.symm hk)]
  · rw [get_insert, if_pos rfl]

end CellComplex

/-! ## The coboundary matrix of an intact complex -/

variable {m : CooMatrix}

theorem CooMatrix.push_eq {i j : Nat} (hi : i < m.nrows) (hj : j < m.ncols) (value : Float32) :
    m.push i j value = .ok { m with entries := m.entries ++ [(i, j, value)] } := by
  unfold CooMatrix.push
  simp [hi, hj, Except.require, bind, Except.bind, pure, Except.pure]

def CooMatrix.shape (m : CooMatrix) : Nat × Nat :=
  (m.nrows, m.ncols)

theorem CooMatrix.pushEntry_ok {f : RestrictionMap} {sign : Float32 → Float32}
    {rowStart colStart r c : Nat} (hrow : rowStart + r < m.nrows) (hcol : colStart + c < m.ncols) :
    ∃ m', m.pushEntry f sign rowStart colStart r c = .ok m' ∧ m'.shape = m.shape := by
  unfold CooMatrix.pushEntry
  dsimp only
  split
  · exact ⟨_, push_eq hrow hcol _, rfl⟩
  · exact ⟨m, rfl, rfl⟩

theorem CooMatrix.pushMap_ok {f : RestrictionMap} {sign : Float32 → Float32}
    {rowStart colStart : Nat} (hrow : rowStart + f.nrows ≤ m.nrows)
    (hcol : colStart + f.ncols ≤ m.ncols) :
    ∃ m', m.pushMap f sign rowStart colStart = .ok m' ∧ m'.shape = m.shape := by
  have hentries : ∀ r < f.nrows, ∀ m₁ : CooMatrix, m₁.shape = m.shape →
      ∃ m₂, (List.range f.ncols).foldlM (pushEntry f sign rowStart colStart r) m₁ = .ok m₂ ∧
        m₂.shape = m.shape := by
    intro r hr m₁ hm₁
    obtain ⟨m₂, hok, -, hm₂⟩ := Steps.foldlM_ok (f := pushEntry f sign rowStart colStart r)
      (P := fun l m₂ => (∀ c ∈ l, c < f.ncols) ∧ m₂.shape = m.shape)
      (fun c l m₂ h => by
        obtain ⟨hl, hm₂⟩ := h
        rw [forall_mem_cons] at hl
        obtain ⟨hrows, hcols⟩ := Prod.mk.inj hm₂
        obtain ⟨m₃, hok, hm₃⟩ : ∃ m₃, m₂.pushEntry f sign rowStart colStart r c = .ok m₃ ∧
            m₃.shape = m₂.shape := pushEntry_ok (by omega) (by omega)
        exact ⟨m₃, hok, hl.2, hm₃.trans hm₂⟩)
      ⟨fun c hc => List.mem_range.mp hc, hm₁⟩
    exact ⟨m₂, hok, hm₂⟩
  have hrows :=
    Steps.foldlM_ok (σ := m) (P := fun l m₂ => (∀ r ∈ l, r < f.nrows) ∧ m₂.shape = m.shape)
    (fun r l m₁ h => by
      rw [forall_mem_cons] at h
      obtain ⟨m₂, hok, hm₂⟩ := hentries r h.1.1 m₁ h.2
      exact ⟨m₂, hok, h.1.2, hm₂⟩)
    ⟨fun r hr => List.mem_range.mp hr, rfl⟩
  obtain ⟨m', hok, -, hm'⟩ := hrows
  exact ⟨m', hok, hm'⟩

namespace CellComplex

variable {cx : CellComplex}

theorem Intact.edgeRowOffsets (h : cx.Intact) :
    ∃ rows c1Dim, cx.edgeRowOffsets = .ok (rows, c1Dim) ∧
      ∀ e stalk, cx.cells[e]? = some ⟨.edge, stalk⟩ → e ∈ cx.edges →
        ∃ r, rows[e]? = some r ∧ r + stalk.length ≤ c1Dim := by
  have hloop := Steps.foldlM_ok (f := cx.offsetRow) (σ := (∅, 0))
    (P := fun l st => (∀ e ∈ l, e ∈ cx.edges) ∧ ∀ e (stalk : List Float32),
      cx.cells[e]? = some ⟨.edge, stalk⟩ → e ∈ cx.edges → e ∉ l →
        ∃ r, st.1[e]? = some r ∧ r + stalk.length ≤ st.2)
    (fun e l st hst => by
      obtain ⟨hl, hrows⟩ := hst
      rw [forall_mem_cons] at hl
      obtain ⟨stalk, hcell⟩ := h.edge_cell hl.1
      refine ⟨(st.1.insert e st.2, st.2 + stalk.length), by unfold offsetRow; rw [hcell]; rfl,
        hl.2, ?_⟩
      intro k stalk' hk hmem hnot
      rw [get_insert]
      split
      · rename_i heq
        subst heq
        rw [hcell, Option.some.injEq, Cell.mk.injEq] at hk
        exact ⟨st.2, rfl, by rw [hk.2]⟩
      · rename_i hne
        obtain ⟨r, hr, hle⟩ := hrows k stalk' hk hmem fun hk =>
          (mem_cons.mp hk).elim (fun heq => hne heq.symm) hnot
        exact ⟨r, hr, hle.trans (Nat.le_add_right _ _)⟩)
    ⟨fun _ he => he, fun _ _ _ hmem hnot => absurd hmem hnot⟩
  obtain ⟨⟨rows, c1Dim⟩, hok, -, hrows⟩ := hloop
  exact ⟨rows, c1Dim, hok, fun e stalk hcell he => hrows e stalk hcell he List.not_mem_nil⟩

theorem nodeColOffsets_get {id : RegionId} (hid : id ∈ cx.nodes) :
    ∃ c, cx.nodeColOffsets[id]? = some c ∧
    c + cx.nodeStalkDim ≤ cx.nodes.length * cx.nodeStalkDim := by
  have hfold : ∀ (l : List (RegionId × Nat)) (m : ExtTreeMap RegionId Nat),
      (∀ x ∈ l, x.2 < cx.nodes.length) →
      (id ∈ l.map Prod.fst ∨ ∃ i < cx.nodes.length, m[id]? = some (i * cx.nodeStalkDim)) →
      ∃ i < cx.nodes.length,
      (l.foldl (fun offsets x => offsets.insert x.1 (x.2 * cx.nodeStalkDim)) m)[id]? =
          some (i * cx.nodeStalkDim) := by
    intro l
    induction l with
    | nil => exact fun m _ h => h.resolve_left List.not_mem_nil
    | cons x l ih =>
      intro m hl h
      rw [forall_mem_cons] at hl
      refine ih _ hl.2 ?_
      rw [get_insert]
      split
      · exact .inr ⟨x.2, hl.1, rfl⟩
      · rename_i hne
        rw [List.map_cons, mem_cons] at h
        exact h.imp_left fun h => h.resolve_left fun heq => hne heq.symm
  obtain ⟨i, hi, hget⟩ :=
    hfold cx.nodes.zipIdx ∅ (fun x hx => by simpa using List.snd_lt_of_mem_zipIdx hx)
    (.inl (by rw [List.zipIdx_map_fst]; exact hid))
  refine ⟨i * cx.nodeStalkDim, hget, ?_⟩
  calc i * cx.nodeStalkDim + cx.nodeStalkDim = (i + 1) * cx.nodeStalkDim := by ring
    _ ≤ cx.nodes.length * cx.nodeStalkDim := Nat.mul_le_mul_right _ hi

theorem Intact.buildDelta0 (h : cx.Intact) : ∃ m, cx.buildDelta0 = .ok m := by
  obtain ⟨rows, c1Dim, hrows, hget⟩ := h.edgeRowOffsets
  have hloop := Steps.foldlM_ok (f := cx.pushEdge rows cx.nodeColOffsets)
    (σ := ⟨c1Dim, cx.nodes.length * cx.nodeStalkDim, []⟩)
    (P := fun l m => (∀ e ∈ l, e ∈ cx.edges) ∧ m.shape = (c1Dim, cx.nodes.length * cx.nodeStalkDim))
    (fun e l m hm => by
      obtain ⟨hl, hshape⟩ := hm
      rw [forall_mem_cons] at hl
      obtain ⟨hrow, hcol⟩ := Prod.mk.inj hshape
      obtain ⟨u, v, hinc⟩ := h.joined e hl.1
      obtain ⟨-, hjoins⟩ := h.joins e u v hinc
      obtain ⟨stalk, fU, fV, hcell, hfU, hfV, hru, hrv, hcu, hcv⟩ := hjoins.maps
      obtain ⟨r, hr, hrle⟩ := hget e stalk hcell hl.1
      obtain ⟨cu, hcolu, hule⟩ := nodeColOffsets_get hjoins.source
      obtain ⟨cv, hcolv, hvle⟩ := nodeColOffsets_get hjoins.target
      obtain ⟨m₁, hm₁, hshape₁⟩ : ∃ m₁, m.pushMap fU (fun x => -x) r cu = .ok m₁ ∧
          m₁.shape = m.shape :=
        CooMatrix.pushMap_ok (by rw [hru, hrow]; exact hrle) (by rw [hcu, hcol]; exact hule)
      obtain ⟨hrow₁, hcol₁⟩ := Prod.mk.inj hshape₁
      obtain ⟨m₂, hm₂, hshape₂⟩ : ∃ m₂, m₁.pushMap fV id r cv = .ok m₂ ∧ m₂.shape = m₁.shape :=
        CooMatrix.pushMap_ok (by rw [hrv, hrow₁, hrow]; exact hrle)
          (by rw [hcv, hcol₁, hcol]; exact hvle)
      refine ⟨m₂, ?_, hl.2, hshape₂.trans (hshape₁.trans hshape)⟩
      unfold pushEdge
      simp only [hinc, hr, hcolu, hcolv, hfU, hfV, expect, bind, Except.bind, hm₁]
      exact hm₂)
    ⟨fun _ he => he, rfl⟩
  obtain ⟨m, hm, -⟩ := hloop
  refine ⟨m, ?_⟩
  unfold CellComplex.buildDelta0
  rw [hrows]
  exact hm

end CellComplex

end LeyLine.Sheaf
