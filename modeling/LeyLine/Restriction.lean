import LeyLine.Partition
import LeyLine.Lib.Table

/-!
# Restriction keys

`cache/src/restriction.rs`: a review is cached under a fold over the rows it reads,
its closure. There are two families. The call-target review resolves each reference
a container holds, through the first import of the reference's own file that it
names and against every definition of its token; the public-API review resolves the
types a signature names.

Row counters and the provenance of a row never enter a key or a result and are left
out. Both hashes are parameters: `rowHash` addresses a row, `keyed` is the fold's.
-/

namespace LeyLine.Restriction

open Std (ExtTreeMap)
open LeyLine.Partition (PartitionSpec)

/-- A `String`. -/
abbrev Text := List Char

inductive RowKind
  | container | ref | import_ | def_ | api | qualifier | visibility | signature | sigType | typeDef
  deriving DecidableEq, Repr

def RowKind.code : RowKind → UInt64
  | .container => 0
  | .ref => 1
  | .import_ => 2
  | .def_ => 3
  | .api => 4
  | .qualifier => 5
  | .visibility => 6
  | .signature => 7
  | .sigType => 8
  | .typeDef => 9

/-- One row of a closure. -/
structure Row where
  kind : RowKind
  fields : List Bytes
  deriving DecidableEq

/-- The field count, then every field after its length. -/
def Row.encode (r : Row) : Bytes :=
  Framing.counted 8 (Framing.sized 8) r.fields

def Row.address (rowHash : Bytes → Digest) (r : Row) : Digest :=
  rowHash r.encode

def Row.entry (rowHash : Bytes → Digest) (r : Row) : Partition.Entry :=
  ⟨r.address rowHash, r.kind.code, 0⟩

def optField : Option Text → Bytes
  | none => [0]
  | some s => 1 :: utf8 s

def keySpec (scheme : Text) (parserId : Digest) : PartitionSpec where
  domain := .rowSet
  scheme := scheme
  params := parserId.bytes
  canonVersion := 1

def restrictionKey (rowHash keyed : Bytes → Digest) (scheme : Text) (parserId : Digest)
    (rows : List Row) : Digest :=
  (keySpec scheme parserId).address keyed (rows.map (Row.entry rowHash))

def callTargetScheme : Text := "leyline/restriction/call-target/token-eq/v1".toList

def publicApiScheme : Text := "leyline/restriction/public-api/token-eq/v1".toList

/-! ## Facts -/

structure DefRow where
  token : Text
  sourceId : Text
  kind : Text
  deriving DecidableEq

def DefRow.LE (x y : DefRow) : Prop :=
  ((compare x.token y.token).then
    ((compare x.sourceId y.sourceId).then (compare x.kind y.kind))).isLE

instance : DecidableRel DefRow.LE := fun _ _ => inferInstanceAs (Decidable (_ = true))

structure RefRow where
  token : Text
  qualifier : Option Text
  container : Option Text
  sourceId : Text
  deriving DecidableEq

structure ImportRow where
  alias_ : Text
  path : Text
  sourceId : Text
  deriving DecidableEq

/-- The rows of a corpus. The indexes beside them are functions of the rows. -/
structure FactSubstrate where
  defs : List DefRow
  refs : List RefRow
  imports : List ImportRow
  parserId : Digest
  deriving DecidableEq

/-- The index `from_rows` builds: for each key, the rows that have it, in order. -/
def indexBy {α : Type} (key : α → Option Text) (rows : List α) : ExtTreeMap Text (List α) :=
  rows.foldl (fun index row => match key row with
    | some k => index.insert k (index.getD k [] ++ [row])
    | none => index) ∅

def indexSlice {α : Type} (index : ExtTreeMap Text (List α)) (key : Text) : List α :=
  index.getD key []

namespace FactSubstrate

def defIndex (sub : FactSubstrate) : ExtTreeMap Text (List DefRow) :=
  indexBy (fun d => some d.token) sub.defs

def refsByContainer (sub : FactSubstrate) : ExtTreeMap Text (List RefRow) :=
  indexBy (·.container) sub.refs

def importsByFile (sub : FactSubstrate) : ExtTreeMap Text (List ImportRow) :=
  indexBy (fun i => some i.sourceId) sub.imports

end FactSubstrate

/-! ## The call-target family -/

def refRow (r : RefRow) : Row :=
  ⟨.ref, [utf8 r.token, optField r.qualifier]⟩

def importRow (i : ImportRow) : Row :=
  ⟨.import_, [utf8 i.alias_, utf8 i.path]⟩

def defRow (kind : RowKind) (d : DefRow) : Row :=
  ⟨kind, [utf8 d.token, utf8 d.sourceId, utf8 d.kind]⟩

variable (sub : FactSubstrate)

/-- The imports of the container's files whose alias one of its references names. -/
def closureImports (container : Text) : List ImportRow :=
  let refs := indexSlice sub.refsByContainer container
  let tokens := Table.sortedSet (refs.map (·.token))
  let qualifiers := Table.sortedSet (refs.filterMap (·.qualifier))
  let files := Table.sortedSet (refs.map (·.sourceId))
  (files.flatMap (indexSlice sub.importsByFile)).filter fun i =>
    i.alias_ ∈ tokens ∨ i.alias_ ∈ qualifiers

def callTargetClosure (container : Text) : List Row :=
  let refs := indexSlice sub.refsByContainer container
  let tokens := Table.sortedSet (refs.map (·.token))
  [⟨.container, [utf8 container]⟩] ++ refs.map refRow ++
    (closureImports sub container).map importRow
    ++ (tokens.flatMap (indexSlice sub.defIndex)).map (defRow .def_)

def restrictionForCallTarget (rowHash keyed : Bytes → Digest) (sub : FactSubstrate)
    (container : Text) : Digest :=
  restrictionKey rowHash keyed callTargetScheme sub.parserId (callTargetClosure sub container)

structure ResolvedEdge where
  token : Text
  qualifier : Option Text
  viaImport : Option Text
  candidates : List DefRow
  deriving DecidableEq

def RefRow.Names (r : RefRow) (i : ImportRow) : Prop :=
  i.alias_ = r.token ∨ r.qualifier = some i.alias_

instance (r : RefRow) (i : ImportRow) : Decidable (r.Names i) :=
  inferInstanceAs (Decidable (_ ∨ _))

/-- The path of the first import of the reference's file that it names. -/
def viaImport (r : RefRow) : Option Text :=
  (sub.imports.find? fun i => i.sourceId = r.sourceId ∧ r.Names i).map (·.path)

def candidates (token : Text) : List DefRow :=
  (sub.defs.filter fun d => d.token = token).insertionSort DefRow.LE

def resolve (r : RefRow) : ResolvedEdge :=
  ⟨r.token, r.qualifier, viaImport sub r, candidates sub r.token⟩

def reviewCallTargets (container : Text) : Finset ResolvedEdge :=
  ((indexSlice sub.refsByContainer container).map (resolve sub)).toFinset

/-! ## The public-API family -/

structure ApiDefRow where
  token : Text
  qualifier : Option Text
  kind : Text
  sourceId : Text
  isPublic : Bool
  sigIdentity : Digest
  sigTypeTokens : List Text
  deriving DecidableEq

def sigTypeRow (t : Text) : Row :=
  ⟨.sigType, [utf8 t]⟩

def publicApiClosure (api : ApiDefRow) : List Row :=
  let typeTokens := Table.sortedSet api.sigTypeTokens
  [⟨.api, [utf8 api.token, utf8 api.kind]⟩, ⟨.qualifier, [optField api.qualifier]⟩,
    ⟨.visibility, [[if api.isPublic then 1 else 0]]⟩,
    ⟨.signature, [api.sigIdentity.bytes]⟩]
    ++ typeTokens.map sigTypeRow
    ++ (typeTokens.flatMap (indexSlice sub.defIndex)).map (defRow .typeDef)

def restrictionForPublicApi (rowHash keyed : Bytes → Digest) (sub : FactSubstrate)
    (api : ApiDefRow) : Digest :=
  restrictionKey rowHash keyed publicApiScheme sub.parserId (publicApiClosure sub api)

structure PublicSurface where
  exported : Bool
  token : Text
  qualifier : Option Text
  kind : Text
  resolvedTypes : List (Text × List DefRow)
  deriving DecidableEq

def reviewPublicApi (api : ApiDefRow) : PublicSurface where
  exported := api.isPublic
  token := api.token
  qualifier := api.qualifier
  kind := api.kind
  resolvedTypes := if api.isPublic then
      (Table.sortedSet api.sigTypeTokens).map fun t => (t, candidates sub t)
    else []

end LeyLine.Restriction
