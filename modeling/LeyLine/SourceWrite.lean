import LeyLine.Projection

/-!
# The one write path

A proposal is a list of changes, each against the base its author read. It is
decided path by path against the store's entry (`decideOne`), its structure is
checked as a whole (`checkStructure`), and it lands in one scoped pass that reads
the written bytes from memory. A refusal is decided before anything is written.

The three-way merge is a parameter of the environment, as is the front end of
the parse.
-/

namespace LeyLine

/-- The paths a writer may change. -/
inductive Grant where
  | whole
  | paths (ps : List Path)
  deriving Repr, DecidableEq

def Grant.covers : Grant → Path → Bool
  | .whole, _ => true
  | .paths ps, p => decide (p ∈ ps)

/-- Whether a directory is inside a grant: the whole tree, or a granted path
under it. -/
def Grant.coversDir : Grant → Path → Bool
  | .whole, _ => true
  | .paths ps, d => ps.any fun p => decide (Under d p)

/-- What a proposal's author read at a path. -/
inductive Base (H : Type) where
  | any
  | blob (h : H)
  | absent
  deriving Repr, DecidableEq

/-- What a proposal does at one path. `mode` absent keeps the entry's mode. -/
inductive Change where
  | write (bytes : Bytes) (mode : Option Mode)
  | delete
  | mkdir
  | rmdir
  deriving Repr, DecidableEq

structure Proposed (H : Type) where
  path : Path
  base : Base H
  change : Change
  deriving Repr, DecidableEq

/-- A path that moved since its author read it; `none` is "no file". -/
structure Stale (H : Type) where
  path : Path
  expected : Option H
  current : Option H
  deriving Repr, DecidableEq

structure LineRange where
  start : Nat
  stop : Nat
  deriving Repr, DecidableEq

/-- What a three-way merge makes of base, ours and theirs. -/
inductive Merged where
  | clean (bytes : Bytes)
  | conflict (ranges : List LineRange)
  | binary
  deriving Repr, DecidableEq

/-- Why a proposal was refused. -/
inductive Refusal (H : Type) where
  | empty
  | outsideGrant (path : Path)
  | noSuchFile (path : Path)
  | duplicatePath (path : Path)
  | noTreeRoot (path : Path)
  | differentRoots (path : Path)
  | malformedBase (path : Path)
  | stale (moved : List (Stale H))
  | malformedPath (path : Path)
  | pathConflict (path other : Path)
  | conflict (moved : List (Stale H)) (conflicts : List (Path × List LineRange))
  | exists (path : Path)
  | notEmpty (path : Path)
  | notADirectory (path : Path)
  | isADirectory (path : Path)
  deriving Repr, DecidableEq

/-- Why a proposal does not land: a refusal, a recorded path that does not end
in the file's own, or a pass that failed and was rolled back. -/
inductive ProposeError (H : Type) where
  | refused (r : Refusal H)
  | recordedPath (path : Path)
  | pass (e : PassError)
  deriving Repr, DecidableEq

/-- What an accepted proposal produced. -/
structure Accepted (H : Type) where
  blobs : Std.ExtTreeMap Path H
  removed : List Path
  merged : List Path
  mkdirs : List Path
  rmdirs : List Path

/-- What a writer runs with: the content address, the merge, the front end and
its versions, the clock, and the directory at each source root. -/
structure Env (H Lang Rows : Type) where
  hash : Bytes → H
  merge : Bytes → Bytes → Bytes → Merged
  frontend : Frontend H Lang Rows
  versions : RuleVersions
  projectionSchemaVersion : String
  now : Int
  fs : Path → Directory

/-! ## Deciding each path -/

/-- One path of a proposal once its base has been checked, and merged if it
moved. -/
structure Plan (H : Type) where
  path : Path
  current : Option (Entry H)
  change : Change
  deriving Repr, DecidableEq

inductive Decided (H : Type) where
  | plan (p : Plan H)
  | moved (stale : Stale H) (conflicts : Option (List LineRange))
  deriving Repr, DecidableEq

section Decide

variable {H Lang Rows : Type} [DecidableEq H]

variable (env : Env H Lang Rows)

/-- A write against a blob the path no longer holds: merged three ways, unless
a symlink is involved or a side's bytes are not stored. -/
def mergeMoved (s : Store H) (path : Path) (expected : H)
    (held : Mode) (theirs : H) (bytes : Bytes) (mode : Option Mode) : Decided H :=
  let stale := Decided.moved ⟨path, some expected, some theirs⟩ none
  if held = .symlink ∨ mode = some .symlink then stale
  else match s.blobBytes expected, s.blobBytes theirs with
    | some base, some current => match env.merge base bytes current with
      | .clean merged => .plan ⟨path, some (.file held theirs), .write merged mode⟩
      | .conflict ranges => .moved ⟨path, some expected, some theirs⟩ (some ranges)
      | .binary => stale
    | _, _ => stale

/-- The base and change of one path against the store's entry there. -/
def decideOne (s : Store H) (w : Proposed H) : Except (Refusal H) (Decided H) :=
  let current := s.entry w.path
  let plan : Except (Refusal H) (Decided H) := .ok (.plan ⟨w.path, current, w.change⟩)
  match w.change, w.base, current with
  | .delete, .absent, _ => .error (.malformedBase w.path)
  | .mkdir, .any, _ => .error (.malformedBase w.path)
  | .mkdir, .blob _, _ => .error (.malformedBase w.path)
  | .rmdir, .absent, _ => .error (.malformedBase w.path)
  | .rmdir, .blob _, _ => .error (.malformedBase w.path)
  | .mkdir, .absent, none =>
    if plainRelative w.path then plan else .error (.malformedPath w.path)
  | .mkdir, .absent, some _ => .error (.exists w.path)
  | .rmdir, .any, none => .error (.noSuchFile w.path)
  | .rmdir, .any, some (.file _ _) => .error (.notADirectory w.path)
  | .rmdir, .any, some .dir => plan
  | .write _ _, .absent, none =>
    if plainRelative w.path then plan else .error (.malformedPath w.path)
  | .write _ _, .absent, some .dir => .error (.exists w.path)
  | .write bytes mode, .absent, some (.file held blob) =>
    -- a create of exactly what the path holds changes nothing
    if env.hash bytes = blob ∧ mode.all (· = held) then plan
    else .ok (.moved ⟨w.path, none, some blob⟩ none)
  | .write _ _, _, some .dir => .error (.isADirectory w.path)
  | .delete, _, some .dir => .error (.isADirectory w.path)
  | .write _ _, .any, none => .error (.noSuchFile w.path)
  | .delete, .any, none => .error (.noSuchFile w.path)
  | .write _ _, .blob expected, none => .ok (.moved ⟨w.path, some expected, none⟩ none)
  | .delete, .blob expected, none => .ok (.moved ⟨w.path, some expected, none⟩ none)
  | .write _ _, .any, some (.file _ _) => plan
  | .delete, .any, some (.file _ _) => plan
  | .delete, .blob expected, some (.file _ blob) =>
    if blob = expected then plan
    else .ok (.moved ⟨w.path, some expected, some blob⟩ none)
  | .write bytes mode, .blob expected, some (.file held theirs) =>
    if theirs = expected then plan
    else .ok (mergeMoved env s w.path expected held theirs bytes mode)

/-- The plans so far, the paths merged, and the paths that moved. -/
structure Deciding (H : Type) where
  seen : List Path := []
  plans : List (Plan H) := []
  merged : List Path := []
  moved : List (Stale H) := []
  conflicts : Std.ExtTreeMap Path (List LineRange) := ∅

def Change.bytes : Change → Option Bytes
  | .write b _ => some b
  | _ => none

def Change.mode : Change → Option Mode
  | .write _ m => m
  | _ => none

def decideStep (s : Store H) (d : Deciding H) (w : Proposed H) :
    Except (Refusal H) (Deciding H) := do
  .require (w.path ∉ d.seen) (.duplicatePath w.path)
  let d := { d with seen := w.path :: d.seen }
  match ← decideOne env s w with
  | .plan plan =>
    let moved := plan.change.bytes.map env.hash ≠ w.change.bytes.map env.hash
    pure { d with
      plans := d.plans ++ [plan]
      merged := if moved then d.merged ++ [plan.path] else d.merged }
  | .moved stale ranges =>
    pure { d with
      moved := d.moved ++ [stale]
      conflicts := ranges.elim d.conflicts (d.conflicts.insert stale.path) }

/-- Every path decided before anything else: a stale refusal names every path
that moved. -/
def decide (s : Store H) (writes : List (Proposed H)) :
    Except (Refusal H) (List (Plan H) × List Path) := do
  let d ← writes.foldlM (decideStep env s) {}
  .require d.conflicts.isEmpty (.conflict d.moved d.conflicts.toList)
  .require d.moved.isEmpty (.stale d.moved)
  pure (d.plans, Table.sortedSet d.merged)

/-! ## Checking the whole -/

def Change.leaves : Change → Bool
  | .delete => true
  | .rmdir => true
  | _ => false

def Change.isWrite : Change → Bool
  | .write _ _ => true
  | _ => false

/-- A path is refused under a file: one the store holds and the proposal does
not delete, or one the proposal creates. -/
def conflictAbove (s : Store H) (plans : List (Plan H)) (path : Path) : Option Path :=
  (parents path).find? fun dir =>
    let leaving := plans.any fun q => q.change.leaves && q.path == dir
    let heldFile := !leaving && ((s.entry dir).bind Entry.fileMode).isSome
    heldFile || plans.any fun q => q.current.isNone && q.change.isWrite && q.path == dir

def occupied (s : Store H) (plans : List (Plan H)) (dir : Path) : Bool :=
  (s.under dir).any (fun p => !plans.any fun q => q.change.leaves && q.path == p) ||
    plans.any fun q => q.current.isNone && Decidable.decide (Under dir q.path)

def checkCreated (s : Store H) (plans : List (Plan H)) (plan : Plan H) : Except (Refusal H) Unit :=
  if plan.current.isNone then
    match conflictAbove s plans plan.path with
    | some other => .error (.pathConflict plan.path other)
    | none => .ok ()
  else .ok ()

def checkRemoved (s : Store H) (plans : List (Plan H)) (plan : Plan H) : Except (Refusal H) Unit :=
  if plan.change = .rmdir then .require (!occupied s plans plan.path) (.notEmpty plan.path)
  else .ok ()

def checkStructure (s : Store H) (plans : List (Plan H)) : Except (Refusal H) Unit := do
  plans.forM (checkCreated s plans)
  plans.forM (checkRemoved s plans)

def Grant.coversWrite (grant : Grant) (w : Proposed H) : Bool :=
  match w.change with
  | .mkdir => grant.coversDir w.path
  | .rmdir => grant.coversDir w.path
  | _ => grant.covers w.path

/-- Refuse a proposal that writes nothing, or names a path outside the grant. -/
def granted (grant : Grant) (writes : List (Proposed H)) : Except (Refusal H) Unit := do
  .require (!writes.isEmpty) .empty
  match writes.find? fun w => !grant.coversWrite w with
  | some w => .error (.outsideGrant w.path)
  | none => .ok ()

/-- Whether a proposal is accepted now, up to its pass: nothing is written. -/
def check (s : Store H) (grant : Grant) (writes : List (Proposed H)) :
    Except (Refusal H) Unit := do
  granted grant writes
  let (plans, _) ← decide env s writes
  checkStructure s plans

end Decide

/-! ## Renaming a directory -/

section RenameDir

variable {H : Type}

def renameEntry (s : Store H) (src dst path : Path) : Option (List (Proposed H)) :=
  let movedTo := dst ++ path.drop src.length
  match s.entry path with
  | none => some []
  | some .dir => some [⟨path, .any, .rmdir⟩, ⟨movedTo, .absent, .mkdir⟩]
  | some (.file mode blob) => (s.blobBytes blob).map fun bytes =>
    [⟨path, .blob blob, .delete⟩, ⟨movedTo, .absent, .write bytes (some mode)⟩]

/-- What a directory's rename makes of its target; `none` when the target is in
the way. -/
def renameTarget (s : Store H) (dst : Path) : Option (List (Proposed H)) :=
  match s.entry dst with
  | none => some [⟨dst, .absent, .mkdir⟩]
  | some .dir => if (s.under dst).isEmpty then some [] else none
  | some (.file _ _) => none

/-- A directory rename as one proposal: every file under it deleted against the
blob it holds and created at the same place under the target, every directory
removed and made again. `none` when it cannot be planned. -/
def renameDir [DecidableEq H] (s : Store H) (src dst : Path) : Option (List (Proposed H)) := do
  guard (s.entry src = some .dir)
  guard (plainRelative dst = true ∧ ¬ (src ++ ['/']) <+: dst)
  let target ← renameTarget s dst
  let moved ← (s.under src).mapM (renameEntry s src dst)
  pure (target ++ ⟨src, .any, .rmdir⟩ :: moved.flatten)

end RenameDir

/-! ## Landing it -/

section Land

variable {H Lang Rows : Type} [DecidableEq H] [DecidableEq Lang]

/-- The directory a relative path is relative to, given the absolute one. -/
def treeRootDir (abs rel : Path) : Option Path :=
  if ('/' :: rel) <:+ abs then
    let root := abs.take (abs.length - (rel.length + 1))
    some (if root = [] then ['/'] else root)
  else none

def planRoot (db : Db H Rows) (plan : Plan H) : Except (ProposeError H) (Option Path) :=
  match db.proj.files[plan.path]? with
  | none => .ok none
  | some row => match row.absPath with
    | none => .error (.refused (.noTreeRoot plan.path))
    | some abs => match treeRootDir abs plan.path with
      | none => .error (.recordedPath plan.path)
      | some fileRoot => .ok (some fileRoot)

def rootStep (db : Db H Rows) (root : Option Path) (plan : Plan H) :
    Except (ProposeError H) (Option Path) := do
  match root, ← planRoot db plan with
  | _, none => .ok root
  | none, some fileRoot => .ok (some fileRoot)
  | some r, some fileRoot =>
    if r = fileRoot then .ok root else .error (.refused (.differentRoots plan.path))

/-- The directory the proposal's tree is rooted at: the recorded root its
projected files agree on, or the last parse's. -/
def proposalRoot (db : Db H Rows) (plans : List (Plan H)) : Except (ProposeError H) Path := do
  match ← plans.foldlM (rootStep db) none with
  | some root => .ok root
  | none => match db.stamps.sourceRoot with
    | some root => .ok root
    | none => .error (.refused (.noTreeRoot (plans.head?.elim [] (·.path))))

def writtenFiles (plans : List (Plan H)) : Std.ExtTreeMap Path Bytes :=
  plans.foldl (fun m q => q.change.bytes.elim m (m.insert q.path)) ∅

def writtenModes (plans : List (Plan H)) : Std.ExtTreeMap Path Mode :=
  plans.foldl (fun m q => q.change.mode.elim m (m.insert q.path)) ∅

def pathsOf (plans : List (Plan H)) (c : Change) : List Path :=
  Table.sortedSet ((plans.filter fun q => q.change = c).map (·.path))

/-- Project written files through the parse, in one pass scoped to them and the
removed ones. -/
def parseWrittenFiles (env : Env H Lang Rows) (root : Path)
    (files : Std.ExtTreeMap Path Bytes) (removed : List Path) (edits : TreeEdits)
    (db : Db H Rows) : Except PassError (Db H Rows) :=
  let pass : Pass :=
    { versions := env.versions
      projectionSchemaVersion := env.projectionSchemaVersion
      now := env.now
      source := root
      langFilter := none
      scope := some (files.keys ++ removed)
      memory := some (.written files removed edits)
      dir := env.fs root }
  parseIntoConnWith env.hash env.frontend pass db

def proposeChecked (env : Env H Lang Rows) (writes : List (Proposed H)) (db : Db H Rows) :
    Except (ProposeError H) (Accepted H × Db H Rows) := do
  let (plans, merged) ← (decide env db.store writes).mapError .refused
  let root ← proposalRoot db plans
  (checkStructure db.store plans).mapError .refused
  let files := writtenFiles plans
  let removed := pathsOf plans .delete
  let edits : TreeEdits := ⟨writtenModes plans, pathsOf plans .mkdir, pathsOf plans .rmdir⟩
  let db' ← (parseWrittenFiles env root files removed edits db).mapError .pass
  pure (⟨files.map fun _ b => env.hash b, removed, merged, edits.mkdirs, edits.rmdirs⟩, db')

def propose (env : Env H Lang Rows) (grant : Grant) (writes : List (Proposed H))
    (db : Db H Rows) : Except (ProposeError H) (Accepted H × Db H Rows) := do
  (granted grant writes).mapError .refused
  proposeChecked env writes db

end Land

end LeyLine
