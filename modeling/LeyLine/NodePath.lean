import LeyLine.Lib.Interned
import LeyLine.Lib.SepPath

/-!
# Node ids and display paths

A node of the projection is keyed by an integer: `file_id * 2^24 + ordinal` in a file,
`-dir_id` for a directory. Its path is not stored. It is rendered from the node's row and
the rows above it, and resolved through the interning tables. Those tables are
append-only: a deleted file keeps its row in `files`.

A path component, a kind, a directory and a file are each stored once, in an `Interned`
table. What a parse does to the tables is one step here for each file it drops or
projects (`deleteFileRows`, `projectFile`) and for the sweep of empty directories.
-/

namespace LeyLine.NodePath

open Std (ExtTreeMap)

/-- A `String`. -/
abbrev Text := List Char

def fileNid (fileId ordinal : Nat) : Int := ((fileId * 2 ^ 24 + ordinal : Nat) : Int)

def dirNid (dirId : Nat) : Int := -(dirId : Int)

/-- A row of `nodes`, as far as paths are concerned; the nid is the key. -/
structure NodeRow where
  parentNid : Option Int
  nameId : Option Nat
  kindId : Option Nat
  ord : Nat
  deriving DecidableEq

structure Db where
  names : Interned Text
  /-- The language and the kind's name in its grammar. -/
  kinds : Interned (Text × Text)
  /-- The directory above and the name; row 1 is the root. -/
  dirs : Interned (Option Nat × Nat)
  files : Interned (Nat × Nat)
  nodes : ExtTreeMap Int NodeRow

def createSchema : Db where
  names := ⟨[[]], List.nodup_singleton _⟩
  kinds := ⟨[], List.nodup_nil⟩
  dirs := ⟨[(none, 1)], List.nodup_singleton _⟩
  files := ⟨[], List.nodup_nil⟩
  nodes := ∅

namespace Db

/-! ## Interning -/

variable (db : Db)

def internName (text : Text) : Db × Nat :=
  let (names, nameId) := db.names.intern text
  ({ db with names := names }, nameId)

def internKind (lang rawKind : Text) : Db × Nat :=
  let (kinds, kindId) := db.kinds.intern (lang, rawKind)
  ({ db with kinds := kinds }, kindId)

def internDir (cur : Nat) (comp : Text) : Db × Nat :=
  let (db, nameId) := db.internName comp
  let (dirs, dirId) := db.dirs.intern (some cur, nameId)
  ({ db with dirs := dirs }, dirId)

def internDirChain (dirPath : Text) : Db × Nat :=
  if dirPath = [] then (db, 1) else
    (dirPath.splitOn '/').foldl (fun s comp => s.1.internDir s.2 comp) (db, 1)

def ensureFileId (relPath : Text) : Db × Nat :=
  let (db, dirId) := db.internDirChain (SepPath.dirPart '/' relPath)
  let (db, nameId) := db.internName (SepPath.lastPart '/' relPath)
  let (files, fileId) := db.files.intern (dirId, nameId)
  ({ db with files := files }, fileId)

/-- `INSERT OR IGNORE INTO nodes`. -/
def putNode (nid : Int) (row : NodeRow) : Db :=
  { db with nodes := db.nodes.insertIfNew nid row }

/-- One link, with its row in `nodes`. -/
def ensureDirNode (cur : Nat) (comp : Text) : Db × Nat :=
  let (db, nameId) := db.internName comp
  let (dirs, next) := db.dirs.intern (some cur, nameId)
  ({ db with dirs := dirs }.putNode (dirNid next) ⟨some (dirNid cur), some nameId, none, 0⟩, next)

def ensureDirNodes (fileRelPath : Text) : Db × Nat :=
  let dirPath := SepPath.dirPart '/' fileRelPath
  let (db, rootName) := db.internName []
  let db := db.putNode (dirNid 1) ⟨none, some rootName, none, 0⟩
  if dirPath = [] then (db, 1) else
    (dirPath.splitOn '/').foldl (fun s comp => s.1.ensureDirNode s.2 comp) (db, 1)

/-! ## Looking up by name -/

def fileAt (dirId : Nat) (comp : Text) : Option Nat :=
  (db.names.find comp).bind fun nameId => db.files.find (dirId, nameId)

def dirAt (dirId : Nat) (comp : Text) : Option Nat :=
  (db.names.find comp).bind fun nameId => db.dirs.find (some dirId, nameId)

def lookupFileId (relPath : Text) : Option Nat :=
  let dirPath := SepPath.dirPart '/' relPath
  let dir := if dirPath = [] then some 1 else (dirPath.splitOn '/').foldlM db.dirAt 1
  dir.bind fun dirId => db.fileAt dirId (SepPath.lastPart '/' relPath)

/-! ## What a parse writes -/

def deleteFileRows (relPath : Text) : Db :=
  match db.lookupFileId relPath with
  | none => db
  | some fileId => { db with nodes := db.nodes.filter fun nid _ =>
    ¬ (fileNid fileId 0 ≤ nid ∧ nid ≤ fileNid fileId (2 ^ 24 - 1)) }

end Db

/-- A node of a file's tree, below its root. -/
structure AstRow where
  ordinal : Nat
  parent : Nat
  ord : Nat
  rawKind : Text
  deriving DecidableEq

/-- A name a path can hold: not empty, without a slash. -/
def PlainName (name : Text) : Prop := name ≠ [] ∧ '/' ∉ name

instance (name : Text) : Decidable (PlainName name) := inferInstanceAs (Decidable (_ ∧ _))

/-- What the parse of a file hands over: the file's relative path, its language and the
nodes of its tree below the root, in pre-order. The path's components are not empty, as
the walk of a tree yields them. The ordinals are distinct and fit their 24 bits, a node
comes after its parent, and the children of a node are numbered one by one. A grammar's
kinds are names. -/
structure ParsedFile where
  rel : Text
  lang : Text
  rootKind : Text
  rows : List AstRow
  plain : ∀ comp ∈ rel.splitOn '/', comp ≠ []
  distinct : (rows.map (·.ordinal)).Nodup
  fits : ∀ r ∈ rows, r.ordinal < 2 ^ 24
  after : ∀ r ∈ rows, r.parent < r.ordinal
  above : ∀ before r rest, rows = before ++ r :: rest → r.parent = 0 ∨ ∃ p ∈ before,
    p.ordinal = r.parent
  numbered : ∀ r ∈ rows, ∀ r' ∈ rows, r.parent = r'.parent → r.ord = r'.ord → r = r'
  kinds : ∀ r ∈ rows, PlainName r.rawKind

namespace Db

def putAst (lang : Text) (fileId : Nat) (db : Db) (r : AstRow) : Db :=
  let (db, kindId) := db.internKind lang r.rawKind
  db.putNode (fileNid fileId r.ordinal) ⟨some (fileNid fileId r.parent), none, some kindId, r.ord⟩

/-- The file's old rows go, and its own row and its tree's are written. -/
def projectFile (db : Db) (pf : ParsedFile) : Db :=
  let db := db.deleteFileRows pf.rel
  let (db, fileId) := db.ensureFileId pf.rel
  let (db, dirId) := db.ensureDirNodes pf.rel
  let (db, fileNameId) := db.internName (SepPath.lastPart '/' pf.rel)
  let (db, kindId) := db.internKind pf.lang pf.rootKind
  let db := db.putNode (fileNid fileId 0) ⟨some (dirNid dirId), some fileNameId, some kindId, 0⟩
  pf.rows.foldl (putAst pf.lang fileId) db

/-- `DELETE FROM nodes WHERE nid < -1 AND nid NOT IN (SELECT DISTINCT parent_nid ...)`. -/
def sweepOnce (db : Db) : Db :=
  { db with nodes := db.nodes.filter fun nid _ =>
      ¬ (nid < -1 ∧ some nid ∉ db.nodes.toList.map (·.2.parentNid)) }

def sweepOrphanedDirs : Nat → Db → Db
  | 0, db => db
  | rounds + 1, db =>
    if db.sweepOnce.nodes.size = db.nodes.size then db else
      sweepOrphanedDirs rounds db.sweepOnce

end Db

/-- What a parse does, step by step. -/
inductive Step
  | seed
  | drop (relPath : Text)
  | project (pf : ParsedFile)
  | sweep

def Db.step (db : Db) : Step → Db
  | .seed => (db.ensureDirNodes ['_']).1
  | .drop relPath => db.deleteFileRows relPath
  | .project pf => db.projectFile pf
  | .sweep => Db.sweepOrphanedDirs (db.nodes.size + 1) db

/-- The database a sequence of parses leaves; every parse seeds the root. -/
def Db.run (steps : List Step) : Db := steps.foldl Db.step (createSchema.step .seed)

/-! ## Paths -/

namespace Db

def sameKind (db : Db) (parentNid : Option Int) (kindId : Nat) : List (Int × NodeRow) :=
  db.nodes.toList.filter fun x => x.2.parentNid = parentNid ∧ x.2.kindId = some kindId

/-- A node's name: the interned text for a directory or a file; for a node of a tree its
kind, with its rank where it has siblings of that kind. A row without either is an
error. -/
def nodeDisplayName (db : Db) (nid : Int) : Option Text :=
  match db.nodes[nid]? with
  | none => none
  | some row =>
    match row.nameId, row.kindId with
    | some nameId, _ => db.names.row nameId
    | none, none => none
    | none, some kindId =>
      match db.kinds.row kindId with
      | none => none
      | some (_, rawKind) =>
        let same := db.sameKind row.parentNid kindId
        if 1 < same.length then
          let rank := (same.filter fun x => x.2.ord < row.ord).length
          some (rawKind ++ '_' :: Nat.toDigits 10 rank)
        else some rawKind

/-- The loop of `node_path`: names are put before those below. -/
def climb (db : Db) : Nat → Int → List Text → Option (List Text)
  | 0, _, _ => none
  | turns + 1, cur, segments =>
    match db.nodeDisplayName cur with
    | none => none
    | some name =>
      let segments := if name = [] then segments else name :: segments
      match (db.nodes[cur]?).bind (·.parentNid) with
      | none => some segments
      | some parent => climb db turns parent segments

def nodePath (db : Db) (nid : Int) : Option Text :=
  (db.climb (db.nodes.size + 1) nid []).map ['/'].intercalate

def ofRawKind (db : Db) (parentNid : Int) (rawKind : Text) : List (Int × NodeRow) :=
  db.nodes.toList.filter fun x =>
    x.2.parentNid = some parentNid ∧ ((x.2.kindId.bind db.kinds.row).map (·.2)) = some rawKind

/-- One `{raw_kind}[_{k}]` segment: the only child of that kind, or else the child of the
rank after the last underscore. -/
def resolveAstSegment (db : Db) (parentNid : Int) (segment : Text) : Option Int :=
  match db.ofRawKind parentNid segment with
  | [only] => some only.1
  | _ =>
    if '_' ∉ segment then none else
      let kind := SepPath.dirPart '_' segment
      let rankStr := SepPath.lastPart '_' segment
      if rankStr = [] ∨ ¬ rankStr.all Char.isDigit then none else
        let rank := Nat.ofDigitChars 10 rankStr 0
        if 2 ^ 63 ≤ rank then none else
          (((db.ofRawKind parentNid kind).mergeSort fun x y => x.2.ord ≤ y.2.ord)[rank]?).map (·.1)

/-- The walk down directories, until a file takes the walk into its tree. -/
def descend (db : Db) : Nat → List Text → Option Int
  | dirId, [] => some (dirNid dirId)
  | dirId, comp :: rest =>
    match db.fileAt dirId comp with
    | some fileId => rest.foldlM db.resolveAstSegment (fileNid fileId 0)
    | none =>
      match db.dirAt dirId comp with
      | some d => db.descend d rest
      | none => none

def resolvePath (db : Db) (path : Text) : Option Int :=
  if path = [] then some (dirNid 1) else db.descend 1 (path.splitOn '/')

end Db

end LeyLine.NodePath
