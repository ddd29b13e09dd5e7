import LeyLine.Lib.Steps
import LeyLine.Lib.Table

/-!
# The cell complex

`complex.rs`: nodes with stalks, edges with a restriction map at each endpoint,
faces over edges. Nodes and edges share one table of cells, and a node id and an
edge id that meet there corrupt each other; the asserting calls are modelled with
the assertion that fails as their error.

`HashMap`s are ordered tables here. Only `edge_violation_squared` and
`remove_edge` depend on an iteration order, where several edges join one pair of
nodes: the order of `incidence` is a parameter of the complex, and may be another
after every change of that table.
-/

namespace LeyLine.Sheaf

open Std (ExtTreeMap)
open Except (require)

/-- A `u32`. -/
abbrev RegionId := Nat

/-- Pairs of region ids, ordered as the keys of a `BTreeMap` are. -/
instance regionPairOrd : Ord (RegionId × RegionId) := lexOrd

/-- An assertion of the library that failed. -/
inductive Panic
  /-- `Node stalk must be {}D, got {}D` -/
  | stalkDim (expected got : Nat)
  /-- `set_node_stalk: node {id} not in complex; call add_node first` -/
  | unknownNode (id : RegionId)
  /-- `set_node_stalk: cell {id} is not a 0-cell (dimension={})` -/
  | notANode (id : RegionId)
  /-- `add_node: id {id} is already a {}-cell` -/
  | nodeIdTaken (id : RegionId)
  /-- `add_edge: id {edge_id} is already a {}-cell` -/
  | edgeIdTaken (id : RegionId)
  /-- `map_source.ncols ({}) must equal node_stalk_dim ({})`, and its siblings -/
  | mapShape (edge : RegionId)
  /-- `agreement_dim ({}) cannot exceed stalk_dim ({})` -/
  | agreementDim (agreement stalk : Nat)
  /-- An edge id past `u32::MAX`. -/
  | edgeIdOverflow
  /-- An `expect` of `build_delta_0` on an absent table entry. -/
  | absent
  deriving DecidableEq, Repr

/-- A projection of a node's stalk onto an edge's agreement space: entry
`matrix i j` for `i < nrows` and `j < ncols`. -/
structure RestrictionMap where
  nrows : Nat
  ncols : Nat
  matrix : Nat → Nat → Float32

/-- Project the first `agreement_dim` coordinates. -/
def RestrictionMap.projectDimRange (stalkDim agreementDim : Nat) : Except Panic RestrictionMap := do
  require (agreementDim ≤ stalkDim) (.agreementDim agreementDim stalkDim)
  pure { nrows := agreementDim, ncols := stalkDim, matrix := fun i j => if i = j then 1.0 else 0.0 }

inductive CellDim
  | node | edge
  deriving DecidableEq, Repr

/-- A 0-cell or 1-cell with its stalk. -/
structure Cell where
  dimension : CellDim
  stalk : List Float32

/-- A 2-cell: the edges around it with their orientations. -/
structure Cell2 where
  edges : List (RegionId × Float32)
  dimension : Nat

/-- An order in which the table of edges iterates after so many changes of it. -/
structure Iteration where
  list : Nat → ExtTreeMap RegionId (RegionId × RegionId) → List (RegionId × RegionId × RegionId)
  perm : ∀ changes incidence, (list changes incidence).Perm incidence.toList

structure CellComplex where
  nodes : List RegionId
  edges : List RegionId
  faces : List RegionId
  cells : ExtTreeMap RegionId Cell
  faceCells : ExtTreeMap RegionId Cell2
  /-- Keyed by node and edge. -/
  restrictionMaps : ExtTreeMap (RegionId × RegionId) RestrictionMap
  /-- The source and the target of each edge. -/
  incidence : ExtTreeMap RegionId (RegionId × RegionId)
  iteration : Iteration
  changes : Nat
  nodeStalkDim : Nat

namespace CellComplex

def new (iteration : Iteration) (nodeStalkDim : Nat) : CellComplex where
  nodes := []
  edges := []
  faces := []
  cells := ∅
  faceCells := ∅
  restrictionMaps := ∅
  incidence := ∅
  iteration := iteration
  changes := 0
  nodeStalkDim := nodeStalkDim

variable (cx : CellComplex)

def setNodeStalk (id : RegionId) (data : List Float32) :
    Except Panic CellComplex := do
  require (data.length = cx.nodeStalkDim) (.stalkDim cx.nodeStalkDim data.length)
  match cx.cells[id]? with
  | none => .error (.unknownNode id)
  | some cell =>
    require (cell.dimension = .node) (.notANode id)
    pure { cx with cells := cx.cells.insert id { cell with stalk := data } }

/-- The edge that `iter().find` gives for a test on its endpoints. -/
def findEdge (test : RegionId × RegionId → Bool) : Option RegionId :=
  ((cx.iteration.list cx.changes cx.incidence).find? fun e => test e.2).map Prod.fst

/-- One row of `f_tgt · x_tgt − f_src · x_src`, column by column. -/
def image (fSrc fTgt : RestrictionMap) (xSrc xTgt : List Float32) (i : Nat) : Float32 :=
  ((xSrc.zip xTgt).zipIdx).foldl
    (fun acc x => acc + (fTgt.matrix i x.2 * x.1.2 - fSrc.matrix i x.2 * x.1.1)) 0.0

/-- `‖δ⁰‖²` on one edge. -/
def edgeViolationSquared (source target : RegionId) : Option Float32 := do
  let edgeId ← cx.findEdge fun (u, v) => u = source ∧ v = target
  let fSrc ← cx.restrictionMaps[(source, edgeId)]?
  let fTgt ← cx.restrictionMaps[(target, edgeId)]?
  let xSrc ← cx.cells[source]?
  let xTgt ← cx.cells[target]?
  if xSrc.stalk.length ≠ cx.nodeStalkDim ∨ xTgt.stalk.length ≠ cx.nodeStalkDim then none
  else if fTgt.nrows ≠ fSrc.nrows then none
  else
    let values := (List.range fSrc.nrows).map (image fSrc fTgt xSrc.stalk xTgt.stalk)
    some ((values.map fun v => v * v).foldl (· + ·) 0.0)

def addNode (id : RegionId) (data : List Float32) :
    Except Panic CellComplex := do
  require (data.length = cx.nodeStalkDim) (.stalkDim cx.nodeStalkDim data.length)
  require (cx.cells[id]?.all fun existing => existing.dimension = .node) (.nodeIdTaken id)
  pure { cx with
    cells := cx.cells.insert id ⟨.node, data⟩
    nodes := cx.nodes ++ [id] }

def addEdge (edgeId source target : RegionId) (agreementDim : Nat)
    (mapSource mapTarget : RestrictionMap) : Except Panic CellComplex := do
  require (mapSource.ncols = cx.nodeStalkDim) (.mapShape edgeId)
  require (mapTarget.ncols = cx.nodeStalkDim) (.mapShape edgeId)
  require (mapSource.nrows = agreementDim) (.mapShape edgeId)
  require (mapTarget.nrows = agreementDim) (.mapShape edgeId)
  require (cx.cells[edgeId]?.all fun existing => existing.dimension = .edge) (.edgeIdTaken edgeId)
  pure { cx with
    cells := cx.cells.insert edgeId ⟨.edge, List.replicate agreementDim 0.0⟩
    edges := cx.edges ++ [edgeId]
    incidence := cx.incidence.insert edgeId (source, target)
    changes := cx.changes + 1
    restrictionMaps :=
      (cx.restrictionMaps.insert (source, edgeId) mapSource).insert (target, edgeId) mapTarget }

def removeEdgeById (edgeId : RegionId) : CellComplex :=
  let dead : List RegionId := (cx.faceCells.toList.filter fun f =>
    f.2.edges.any fun e => e.1 = edgeId).map Prod.fst
  { cx with
    incidence := cx.incidence.erase edgeId
    changes := cx.changes + 1
    restrictionMaps := match cx.incidence[edgeId]? with
      | some (u, v) => (cx.restrictionMaps.erase (u, edgeId)).erase (v, edgeId)
      | none => cx.restrictionMaps
    cells := cx.cells.erase edgeId
    edges := cx.edges.filter (· ≠ edgeId)
    faceCells := dead.foldl (·.erase ·) cx.faceCells
    faces := cx.faces.filter (· ∉ dead) }

def touching (id : RegionId) : List RegionId :=
  (cx.incidence.toList.filter fun e => e.2.1 = id ∨ e.2.2 = id).map Prod.fst

/-- Drop a node and the edges at it; the edges dropped are returned. -/
def removeNode (id : RegionId) : CellComplex × List RegionId :=
  if id ∈ cx.cells then
    let dropped := (cx.touching id).foldl removeEdgeById cx
    ({ dropped with
        cells := dropped.cells.erase id
        nodes := dropped.nodes.filter (· ≠ id) }, cx.touching id)
  else (cx, [])

def removeEdge (source target : RegionId) : CellComplex × Option RegionId :=
  match cx.findEdge fun (u, v) => (u = source ∧ v = target) ∨ (u = target ∧ v = source) with
  | some edgeId => (cx.removeEdgeById edgeId, some edgeId)
  | none => (cx, none)

end CellComplex

/-! ## The coboundary matrix -/

/-- A sparse matrix being filled. -/
structure CooMatrix where
  nrows : Nat
  ncols : Nat
  entries : List (Nat × Nat × Float32)

/-- `push` refuses an entry outside the matrix. -/
def CooMatrix.push (m : CooMatrix) (i j : Nat) (value : Float32) : Except Panic CooMatrix := do
  require (i < m.nrows) .absent
  require (j < m.ncols) .absent
  pure { m with entries := m.entries ++ [(i, j, value)] }

/-- `SPARSE_EPS` -/
def sparseEps : Float32 := 1e-10

def CooMatrix.pushEntry (f : RestrictionMap) (sign : Float32 → Float32)
    (rowStart colStart r : Nat) (m : CooMatrix) (c : Nat) : Except Panic CooMatrix :=
  let value := sign (f.matrix r c)
  if value.abs > sparseEps then m.push (rowStart + r) (colStart + c) value else pure m

/-- Write one restriction map with a sign into the matrix at an offset. -/
def CooMatrix.pushMap (m : CooMatrix) (f : RestrictionMap) (sign : Float32 → Float32)
    (rowStart colStart : Nat) : Except Panic CooMatrix :=
  (List.range f.nrows).foldlM (fun m r =>
    (List.range f.ncols).foldlM (pushEntry f sign rowStart colStart r) m) m

def expect {α : Type*} : Option α → Except Panic α
  | some a => .ok a
  | none => .error .absent

namespace CellComplex

variable (cx : CellComplex)

def offsetRow (st : ExtTreeMap RegionId Nat × Nat) (e : RegionId) :
    Except Panic (ExtTreeMap RegionId Nat × Nat) := do
  let cell ← expect cx.cells[e]?
  pure (st.1.insert e st.2, st.2 + cell.stalk.length)

def edgeRowOffsets : Except Panic (ExtTreeMap RegionId Nat × Nat) :=
  cx.edges.foldlM cx.offsetRow (∅, 0)

def nodeColOffsets : ExtTreeMap RegionId Nat :=
  cx.nodes.zipIdx.foldl (fun offsets x => offsets.insert x.1 (x.2 * cx.nodeStalkDim)) ∅

def pushEdge (rows cols : ExtTreeMap RegionId Nat) (m : CooMatrix)
    (e : RegionId) : Except Panic CooMatrix := do
  let ends ← expect cx.incidence[e]?
  let rowStart ← expect rows[e]?
  let uCol ← expect cols[ends.1]?
  let vCol ← expect cols[ends.2]?
  let fU ← expect cx.restrictionMaps[(ends.1, e)]?
  let fV ← expect cx.restrictionMaps[(ends.2, e)]?
  let m ← m.pushMap fU (fun x => -x) rowStart uCol
  m.pushMap fV id rowStart vCol

/-- `δ⁰`, one block of rows for each edge. -/
def buildDelta0 : Except Panic CooMatrix := do
  let (rows, c1Dim) ← cx.edgeRowOffsets
  cx.edges.foldlM (cx.pushEdge rows cx.nodeColOffsets) ⟨c1Dim,
    cx.nodes.length * cx.nodeStalkDim, []⟩

end CellComplex

end LeyLine.Sheaf
