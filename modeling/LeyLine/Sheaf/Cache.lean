import LeyLine.Sheaf.Complex

/-!
# The sheaf cache

`cache.rs`: regions with a stalk each, restriction edges between them kept under
both directions, and the cascade that `on_change` runs from the regions a caller
reports as changed.

Of a restriction edge only the boundary hash is kept: nothing modelled reads its
weights and rates. A 32-byte hash is a `BitVec 256`, on which XOR is the XOR of the
bytes.
-/

namespace LeyLine.Sheaf

open Std (ExtTreeMap ExtTreeSet)

/-- What a region's stalk says about its content. -/
inductive StalkDigest
  | hash (content : BitVec 256)
  | changed
  deriving DecidableEq, Repr

class StalkHash (S : Type) where
  digest : S → StalkDigest

instance : StalkHash StalkDigest := ⟨id⟩

structure RestrictionEdge where
  boundaryHash : BitVec 256
  deriving DecidableEq, Repr

structure CacheEntry (V : Type) where
  value : V
  generation : Nat
  valid : Bool

structure SheafCache (S V : Type) where
  stalks : ExtTreeMap RegionId S
  restrictions : ExtTreeMap (RegionId × RegionId) RestrictionEdge
  entries : ExtTreeMap RegionId (CacheEntry V)
  generation : Nat
  complex : Option CellComplex
  /-- `‖δ⁰‖²` of each edge when it was last taken as the reference, under `(min, max)`. -/
  deltaZeroBaseline : ExtTreeMap (RegionId × RegionId) Float32
  cascadeBudget : Nat
  cascadeTruncations : Nat

/-- `HEURISTIC_CASCADE_DEPTH` -/
def heuristicCascadeDepth : Nat := 3

/-- `DELTA0_EPS` -/
def delta0Eps : Float32 := 1e-4

/-- `usize::MAX` -/
def usizeMax : Nat := 2 ^ 64 - 1

namespace SheafCache

variable {S V : Type} [StalkHash S]

def new : SheafCache S V where
  stalks := ∅
  restrictions := ∅
  entries := ∅
  generation := 0
  complex := none
  deltaZeroBaseline := ∅
  cascadeBudget := usizeMax
  cascadeTruncations := 0

def setStalk (c : SheafCache S V) (region : RegionId) (stalk : S) : SheafCache S V :=
  { c with stalks := c.stalks.insert region stalk }

def setRestriction (c : SheafCache S V) (a b : RegionId) (edge : RestrictionEdge) :
    SheafCache S V :=
  { c with restrictions := (c.restrictions.insert (a, b) edge).insert (b, a) edge }

def neighbours (c : SheafCache S V) (region : RegionId) : List RegionId :=
  (c.restrictions.keys.filter fun k => k.1 = region).map Prod.snd

/-- `‖δ⁰‖²` of the edge between two regions, in whichever direction it is stored. -/
def violation (cx : CellComplex) (a b : RegionId) : Option Float32 :=
  (cx.edgeViolationSquared a b).or (cx.edgeViolationSquared b a)

def checkBoundaryChanged (c : SheafCache S V) (a b : RegionId) (edge : RestrictionEdge) : Bool :=
  let hashA := c.stalks[a]?.map StalkHash.digest
  let hashB := c.stalks[b]?.map StalkHash.digest
  if hashA = some .changed ∨ hashB = some .changed then true
  else
    let xorChanged : Bool := match hashA, hashB with
      | some (.hash ha), some (.hash hb) => ha ^^^ hb ≠ edge.boundaryHash
      | _, _ => true
    if !xorChanged then false
    else match c.complex.bind fun cx => violation cx a b with
      | some current =>
        match c.deltaZeroBaseline[(min a b, max a b)]? with
        | some baseline => (current.sqrt - baseline.sqrt).abs > delta0Eps
        | none => current.sqrt > delta0Eps
      | none => true

def setComplex (c : SheafCache S V) (cx : CellComplex) : SheafCache S V :=
  { c with complex := some cx, deltaZeroBaseline := ∅ }

/-- Take the current `‖δ⁰‖²` of every edge as the reference. -/
def refreshBaseline (c : SheafCache S V) : SheafCache S V :=
  match c.complex with
  | none => c
  | some cx =>
    { c with
      deltaZeroBaseline := (c.restrictions.keys.filter fun k => k.1 ≤ k.2).foldl
        (fun base k => base.insert k ((violation cx k.1 k.2).getD 0.0)) c.deltaZeroBaseline }

/-- The same for the edges at the given regions only; an edge the complex has no
longer loses its reference. -/
def refreshBaselineSubset (c : SheafCache S V) (regions : List RegionId) : SheafCache S V :=
  match c.complex with
  | none => c
  | some cx =>
    let touched := c.restrictions.keys.filter fun k =>
      k.1 ≤ k.2 ∧ (k.1 ∈ regions ∨ k.2 ∈ regions)
    { c with
      deltaZeroBaseline := touched.foldl (fun base k =>
        match violation cx k.1 k.2 with
        | some normSq => base.insert k normSq
        | none => base.erase k) c.deltaZeroBaseline }

/-- Drop a region with its stalk, its entry and every restriction at it. -/
def dropRegion (c : SheafCache S V) (region : RegionId) : SheafCache S V :=
  { c with
    stalks := c.stalks.erase region
    entries := c.entries.erase region
    restrictions := c.restrictions.filter fun k _ => k.1 ≠ region ∧ k.2 ≠ region
    deltaZeroBaseline := c.deltaZeroBaseline.filter fun k _ => k.1 ≠ region ∧ k.2 ≠ region }

def dropRestriction (c : SheafCache S V) (a b : RegionId) : SheafCache S V :=
  { c with
    restrictions := (c.restrictions.erase (a, b)).erase (b, a)
    deltaZeroBaseline := c.deltaZeroBaseline.erase (min a b, max a b) }

/-- Push a stalk into the attached complex, where the region is a node of it. -/
def setStalkValue (c : SheafCache S V) (region : RegionId) (data : List Float32) :
    Except Panic (SheafCache S V) :=
  match c.complex with
  | none => pure c
  | some cx =>
    if cx.cells[region]?.any fun cell => cell.dimension = .node then do
      let cx ← cx.setNodeStalk region data
      pure { c with complex := some cx }
    else pure c

/-- The loop variables of `on_change`. -/
structure Cascade (V : Type) where
  entries : ExtTreeMap RegionId (CacheEntry V)
  invalidated : List RegionId
  frontier : List (RegionId × Nat)
  visited : ExtTreeSet RegionId
  expansions : Nat
  truncations : Nat

def Cascade.invalidate (st : Cascade V) (region : RegionId) : Cascade V :=
  { st with
    entries := st.entries.modify region fun entry => { entry with valid := false }
    invalidated := st.invalidated ++ [region] }

/-- One neighbour of an expanded region. It counts as visited before its edge is
checked. -/
def visit (c : SheafCache S V) (region : RegionId) (depth : Nat) (st : Cascade V)
    (neighbor : RegionId) : Cascade V :=
  if neighbor ∈ st.visited then st
  else
    let st := { st with visited := st.visited.insert neighbor }
    match c.restrictions[(region, neighbor)]? with
    | some edge =>
      if c.checkBoundaryChanged region neighbor edge then
        let st := st.invalidate neighbor
        { st with frontier := st.frontier ++ [(neighbor, depth + 1)] }
      else st
    | none => st

def expand (c : SheafCache S V) (region : RegionId) (depth : Nat) (st : Cascade V) : Cascade V :=
  (c.neighbours region).foldl (c.visit region depth) st

/-- The loop of `on_change`; the fuel counts the regions taken off the frontier. -/
def cascade (c : SheafCache S V) : Nat → Cascade V → Cascade V
  | 0, st => st
  | fuel + 1, st =>
    match st.frontier with
    | [] => st
    | (region, depth) :: rest =>
      let st := { st with frontier := rest }
      if c.complex.isSome then
        if c.cascadeBudget ≤ st.expansions then
          { st with truncations := st.truncations + 1 }
        else
          c.cascade fuel (c.expand region depth { st with expansions := st.expansions + 1 })
      else if heuristicCascadeDepth ≤ depth then c.cascade fuel st
      else c.cascade fuel (c.expand region depth st)

def roots (c : SheafCache S V) (changed : List RegionId) : Cascade V :=
  changed.foldl Cascade.invalidate
    { entries := c.entries
      invalidated := []
      frontier := changed.map fun r => (r, 0)
      visited := ExtTreeSet.ofList changed
      expansions := 0
      truncations := c.cascadeTruncations }

/-- As many regions as ever wait on the frontier: the ones reported, and at most one
for each restriction. -/
def cascadeFuel (c : SheafCache S V) (changed : List RegionId) : Nat :=
  changed.length + c.restrictions.size

def onChange (c : SheafCache S V) (changed : List RegionId) : SheafCache S V × List RegionId :=
  let st := c.cascade (c.cascadeFuel changed) (c.roots changed)
  ({ c with
      entries := st.entries
      generation := c.generation + 1
      cascadeTruncations := st.truncations }, st.invalidated)

end SheafCache

end LeyLine.Sheaf
