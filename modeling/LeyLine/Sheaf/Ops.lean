import LeyLine.Sheaf.Cache

/-!
# The sheaf operations of the daemon

`daemon/sheaf_ops.rs`: the handlers of `sheaf_set_topology`,
`sheaf_update_topology` and `sheaf_invalidate`. A handler parses every hash before
it touches the cache, and mirrors the regions and edges it admits into the attached
complex with the library's asserting calls.

An operation ends with a panic, or with the next cache and a reply or an error. The
co-change tracker, the event bus and the labels of regions are left out: they read
the cache and never write it.
-/

namespace LeyLine.Sheaf

open Std (ExtTreeMap)

/-- `EDGE_ID_BASE`: region ids stay below, edge ids start here. -/
def edgeIdBase : Nat := 1000000

/-- The number of `u32`s. -/
def u32Size : Nat := 2 ^ 32

inductive WireHashError
  | wrongLength (field : String) (len : Nat)
  | notLowercaseHex (field : String) (at_ : Nat)
  | missing (field : String)
  deriving DecidableEq, Repr

inductive OpError
  | wireHash (error : WireHashError)
  /-- The controller's root could not be read. -/
  | controller
  deriving DecidableEq, Repr

def hexDigit (c : UInt8) : Option Nat :=
  if 48 ≤ c ∧ c ≤ 57 then some (c.toNat - 48)
  else if 97 ≤ c ∧ c ≤ 102 then some (c.toNat - 87)
  else none

def parseHash (field : String) (hex : List UInt8) : Except WireHashError (BitVec 256) :=
  if hex.length ≠ 64 then .error (.wrongLength field hex.length)
  else match hex.findIdx? fun c => (hexDigit c).isNone with
    | some i => .error (.notLowercaseHex field i)
    | none => .ok (BitVec.ofNat 256 ((hex.filterMap hexDigit).foldl (fun n d => 16 * n + d) 0))

def stalkDigest : Option (List UInt8) → Except WireHashError StalkDigest
  | none => .ok .changed
  | some hex => (parseHash "hash" hex).map .hash

def boundaryHash : Option (List UInt8) → Except WireHashError (BitVec 256)
  | none => .error (.missing "boundary_hash")
  | some hex => parseHash "boundary_hash" hex

structure SheafStalkInput where
  id : RegionId
  hash : Option (List UInt8)
  data : List Float32

structure SheafRestrictionInput where
  a : RegionId
  b : RegionId
  boundaryHash : Option (List UInt8)
  agreementDim : Nat

structure EdgeRefInput where
  source : RegionId
  target : RegionId

structure StalkUpdateInput where
  regionId : RegionId
  stalk : List Float32

structure TopologyDeltaInput where
  addedRegions : List SheafStalkInput
  removedRegions : List RegionId
  addedEdges : List SheafRestrictionInput
  removedEdges : List EdgeRefInput
  updatedStalks : List StalkUpdateInput

def parseStalks (stalks : List SheafStalkInput) : Except WireHashError (List StalkDigest) :=
  stalks.mapM fun s => stalkDigest s.hash

def parseBoundaries (edges : List SheafRestrictionInput) :
    Except WireHashError (List (BitVec 256)) :=
  edges.mapM fun e => boundaryHash e.boundaryHash

/-- The daemon's cache keeps a digest and no value for each region. -/
abbrev DaemonCache := SheafCache StalkDigest Unit

inductive Reply
  | topology (regions restrictions : Nat) (deltaZeroMode : Bool)
  | updated (affected : List RegionId) (generation priorGeneration : Nat)
  | invalidated (regions : List RegionId) (generation priorGeneration : Nat)

/-- What an operation that does not panic leaves. -/
abbrev Outcome := Except Panic (DaemonCache × Except OpError Reply)

variable (c : DaemonCache)

def setStalks (stalks : List (SheafStalkInput × StalkDigest)) : DaemonCache :=
  stalks.foldl (fun c s => c.setStalk s.1.id s.2) c

def setRestrictions (edges : List (SheafRestrictionInput × BitVec 256)) : DaemonCache :=
  edges.foldl (fun c e => c.setRestriction e.1.a e.1.b ⟨e.2⟩) c

/-! ## Setting a topology -/

def tryDeltaZero (regions : List SheafStalkInput) (restrictions : List SheafRestrictionInput)
    (nodeStalkDim : Nat) : Bool :=
  0 < nodeStalkDim && regions.all (fun r => r.id < edgeIdBase) && !regions.isEmpty
    && regions.all (fun r => r.data.length = nodeStalkDim)
    && !restrictions.isEmpty
    && restrictions.all (fun r => 0 < r.agreementDim ∧ r.agreementDim ≤ nodeStalkDim)

/-- Add one edge with the projection on its first coordinates at both ends. -/
def addProjection (nodeStalkDim : Nat) (cx : CellComplex) (edgeId : RegionId)
    (r : SheafRestrictionInput) : Except Panic CellComplex := do
  let f ← RestrictionMap.projectDimRange nodeStalkDim r.agreementDim
  cx.addEdge edgeId r.a r.b r.agreementDim f f

/-- The complex of a topology. The edge ids count up from the base; the counter is
advanced past the last one, too. -/
def buildComplex (iteration : Iteration) (regions : List SheafStalkInput)
    (restrictions : List SheafRestrictionInput) (nodeStalkDim : Nat) :
    Except Panic CellComplex := do
  let cx ← regions.foldlM (fun cx r => cx.addNode r.id r.data)
      (CellComplex.new iteration nodeStalkDim)
  (restrictions.zipIdx edgeIdBase).foldlM (fun cx x => do
    let cx ← addProjection nodeStalkDim cx x.2 x.1
    Except.require (x.2 + 1 < u32Size) .edgeIdOverflow
    pure cx) cx

def opSheafSetTopology (iteration : Iteration) (regions : List SheafStalkInput)
    (restrictions : List SheafRestrictionInput) (nodeStalkDim : Nat) : Outcome :=
  match parseStalks regions with
  | .error e => .ok (c, .error (.wireHash e))
  | .ok digests =>
    match parseBoundaries restrictions with
    | .error e => .ok (c, .error (.wireHash e))
    | .ok boundaries => do
      let c := setRestrictions (setStalks c (regions.zip digests)) (restrictions.zip boundaries)
      let reply := Reply.topology regions.length restrictions.length
      if tryDeltaZero regions restrictions nodeStalkDim then
        let cx ← buildComplex iteration regions restrictions nodeStalkDim
        pure ((c.setComplex cx).refreshBaseline, .ok (reply true))
      else pure (c, .ok (reply false))

/-! ## Updating it -/

def nextEdgeId (cx : CellComplex) : Except Panic RegionId :=
  match cx.edges.max? with
  | none => pure edgeIdBase
  | some m => do
    Except.require (m + 1 < u32Size) .edgeIdOverflow
    pure (max (m + 1) edgeIdBase)

def mirrorRegion (dim : Nat) (cx : CellComplex) (r : SheafStalkInput) : Except Panic CellComplex :=
  if edgeIdBase ≤ r.id then pure cx
  else if r.data.length = dim ∧ 0 < dim then cx.addNode r.id r.data
  else pure cx

def mirrorEdge (dim : Nat) (cx : CellComplex) (e : SheafRestrictionInput) :
    Except Panic CellComplex :=
  if dim = 0 ∨ e.agreementDim = 0 ∨ dim < e.agreementDim then pure cx
  else if e.a ∉ cx.cells ∨ e.b ∉ cx.cells then pure cx
  else do
    let nextId ← nextEdgeId cx
    addProjection dim cx nextId e

def mirrorStalk (dim : Nat) (cx : CellComplex) (s : StalkUpdateInput) : Except Panic CellComplex :=
  if s.stalk.length = dim ∧ 0 < dim ∧ s.regionId < edgeIdBase ∧ s.regionId ∈ cx.cells then
    cx.setNodeStalk s.regionId s.stalk
  else pure cx

def dropDelta (cx : CellComplex) (delta : TopologyDeltaInput) : CellComplex :=
  delta.removedRegions.foldl (fun cx r => (cx.removeNode r).1)
    (delta.removedEdges.foldl (fun cx e => (cx.removeEdge e.source e.target).1) cx)

/-- The delta in the complex: edges and regions out, then regions, edges and stalks
in. -/
def mirrorDelta (dim : Nat) (delta : TopologyDeltaInput) (cx : CellComplex) :
    Except Panic CellComplex := do
  let cx ← delta.addedRegions.foldlM (mirrorRegion dim) (dropDelta cx delta)
  let cx ← delta.addedEdges.foldlM (mirrorEdge dim) cx
  delta.updatedStalks.foldlM (mirrorStalk dim) cx

def touchedRegions (delta : TopologyDeltaInput) : List RegionId :=
  delta.addedRegions.map (·.id) ++ delta.removedRegions ++
    delta.addedEdges.flatMap (fun e => [e.a, e.b])
    ++ delta.removedEdges.flatMap (fun e => [e.source, e.target])
    ++ delta.updatedStalks.map (·.regionId)

/-- They and their neighbours, before and after the delta, each once and in order. -/
def affectedRegions (before after : DaemonCache) (touched : List RegionId) : List RegionId :=
  (Std.ExtTreeSet.ofList (touched ++ touched.flatMap before.neighbours
    ++ touched.flatMap after.neighbours)).toList

def applyToCache (delta : TopologyDeltaInput) (digests : List StalkDigest)
    (boundaries : List (BitVec 256)) : DaemonCache :=
  let c := delta.removedEdges.foldl (fun c e => c.dropRestriction e.source e.target) c
  let c := delta.removedRegions.foldl (fun c r => c.dropRegion r) c
  setRestrictions (setStalks c (delta.addedRegions.zip digests)) (delta.addedEdges.zip boundaries)

def mirrorAttached (delta : TopologyDeltaInput) (nodeStalkDim : Nat) : Except Panic DaemonCache :=
  match c.complex with
  | none => pure c
  | some cx => do
    let cx ← mirrorDelta nodeStalkDim delta cx
    pure { c with complex := some cx }

def finishUpdate (before after : DaemonCache) (delta : TopologyDeltaInput) :
    DaemonCache × Except OpError Reply :=
  let affected := affectedRegions before after (touchedRegions delta)
  let next := after.refreshBaselineSubset affected
  ({ next with generation := next.generation + 1 },
    .ok (.updated affected (next.generation + 1) next.generation))

def opSheafUpdateTopology (delta : TopologyDeltaInput) (nodeStalkDim : Nat) : Outcome :=
  match parseStalks delta.addedRegions with
  | .error e => .ok (c, .error (.wireHash e))
  | .ok digests =>
    match parseBoundaries delta.addedEdges with
    | .error e => .ok (c, .error (.wireHash e))
    | .ok boundaries => do
      let next ← mirrorAttached (applyToCache c delta digests boundaries) delta nodeStalkDim
      pure (finishUpdate c next delta)

/-! ## Invalidating -/

/-- Push one stalk into the cache, and into the complex where it carries data. -/
def pushStalk (s : SheafStalkInput × StalkDigest) : Except Panic DaemonCache :=
  let c := c.setStalk s.1.id s.2
  if s.1.data.isEmpty then pure c else c.setStalkValue s.1.id s.1.data

def opSheafInvalidate (regions : List RegionId) (stalks : List SheafStalkInput)
    (controllerReadable : Bool) : Outcome :=
  match parseStalks stalks with
  | .error e => .ok (c, .error (.wireHash e))
  | .ok digests =>
    if !controllerReadable then .ok (c, .error .controller)
    else do
      let c ← (stalks.zip digests).foldlM pushStalk c
      let (next, invalidated) := c.onChange regions
      pure (next, .ok (.invalidated invalidated next.generation c.generation))

/-! ## Sequences of operations -/

/-- An operation; a new topology comes with the order its table of edges iterates in. -/
inductive Op
  | setTopology (iteration : Iteration) (regions : List SheafStalkInput)
      (restrictions : List SheafRestrictionInput) (nodeStalkDim : Nat)
  | updateTopology (delta : TopologyDeltaInput) (nodeStalkDim : Nat)
  | invalidate (regions : List RegionId) (stalks : List SheafStalkInput) (controllerReadable : Bool)

def applyOp : Op → Outcome
  | .setTopology iteration regions restrictions dim =>
    opSheafSetTopology c iteration regions restrictions dim
  | .updateTopology delta dim => opSheafUpdateTopology c delta dim
  | .invalidate regions stalks readable => opSheafInvalidate c regions stalks readable

def applyOps (c : DaemonCache) : List Op → Except Panic DaemonCache
  | [] => pure c
  | op :: ops => do
    let (c, _) ← applyOp c op
    applyOps c ops

end LeyLine.Sheaf
