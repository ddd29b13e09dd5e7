import LeyLine.StoreFs.State

/-!
# Serving paths

What a path is for the guest: an entry of the manifest its scope sees, a file the
session created and has not landed, a scratch path, or nothing. `statPath` and
`children` read the store and the session; the requests around them allocate
inode numbers, remember what they told the guest, and read scratch.
-/

namespace LeyLine.StoreFs

open Req (read require update)

variable {H Lang Rows α : Type} {P : Platform}

abbrev Fs (H Rows : Type) (P : Platform) := Req Fault (World H Rows P)

def refuse (e : Errno) : Fs H Rows P α := Req.fail (.errno e)

def tick : Fs H Rows P Nat := fun w => (.ok w.ticks, { w with ticks := w.ticks + 1 })

variable (cfg : Config H Lang Rows P)

def reading : Fs H Rows P Reading := do
  pure (cfg.clock (← tick))

/-- `name` under the directory `dir`; the root is `""`. -/
def join (dir name : Path) : Path := if dir = [] then name else dir ++ '/' :: name

def Scope.mayProposeUnder (scope : Scope) (dir : Path) : Bool :=
  match scope.propose with
  | .whole => true
  | .paths ps => ps.any fun p => (join dir []).isPrefixOf p

/-! ## What a path is -/

section Stat

def kindOf (mode : Mode) : Kind := if mode = .symlink then .symlink else .file

/-- One row of the manifest in a directory's listing. A directory is listed with
the whole tree in sight, or when a file the scope sees is under it. -/
def addStored (see : Grant) (stem : Path) (out : Std.ExtTreeMap Path Kind)
    (x : Path × TreeRow H) : Std.ExtTreeMap Path Kind :=
  if stem.isPrefixOf x.1 then
    let rest := x.1.drop stem.length
    if '/' ∈ rest then
      if see = .whole ∨ (x.2.entry.fileMode.isSome ∧ see.covers x.1) then
        out.insert (rest.takeWhile (· ≠ '/')) .directory
      else out
    else match x.2.entry with
      | .dir => if see = .whole then out.insert rest .directory else out
      | .file mode _ => if see.covers x.1 then out.insert rest (kindOf mode) else out
  else out

def addPending (stem : Path) (out : Std.ExtTreeMap Path Kind) (path : Path) :
    Std.ExtTreeMap Path Kind :=
  if stem.isPrefixOf path then
    let rest := path.drop stem.length
    if '/' ∈ rest then out.insert (rest.takeWhile (· ≠ '/')) .directory
    else out.insert rest .file
  else out

/-- The names directly under a directory: the entries the scope sees, and the
session's files not landed yet. -/
def children (see : Grant) (s : Store H) (session : Session) (dir : Path) :
    Std.ExtTreeMap Path Kind :=
  session.pending.keys.foldl (addPending (join dir []))
    (s.tree.toList.foldl (addStored see (join dir [])) ∅)

def dirStat : Stat H := ⟨.directory, 0, none, none⟩

def storedStat (see : Grant) (s : Store H) (session : Session) (path : Path) : Option (Stat H) :=
  match s.entry path with
  | some .dir =>
    if see = .whole ∨ (children see s session path).isEmpty = false then some dirStat else none
  | some (.file mode blob) =>
    if see.covers path then
      (s.blobBytes blob).map fun b => ⟨kindOf mode, b.length, some blob, some mode⟩
    else none
  | none => none

def pendingStat (session : Session) (path : Path) : Option (Stat H) :=
  session.pending[path]?.map fun bytes =>
    ⟨.file, bytes.length, none, some (session.pendingModes[path]?.getD .regular)⟩

def statPath (see : Grant) (s : Store H) (session : Session) (path : Path) : Option (Stat H) :=
  if path = [] then some dirStat
  else (storedStat see s session path).or (pendingStat session path)

def blobOf (s : Store H) (path : Path) : Option (H × Bytes) :=
  match s.entry path with
  | some (.file _ blob) => (s.blobBytes blob).map fun bytes => (blob, bytes)
  | _ => none

/-- What a path holds: the stored blob, or a created file the store does not
hold, with its bytes. -/
def heldAt (s : Store H) (session : Session) (path : Path) : Option (Base H × Bytes) :=
  ((blobOf s path).map fun x => (.blob x.1, x.2)).or
    (session.pending[path]?.map fun bytes => (.absent, bytes))

end Stat

def held (path : Path) : Fs H Rows P (Option (Base H × Bytes)) :=
  read fun w => heldAt w.db.store w.session path

/-! ## Remembering what was served -/

section Remember

variable [DecidableEq H]

/-- Serve a path as it is now, recording a change when it was last served
otherwise. -/
def observe (path : Path) (seen : Seen H) : Fs H Rows P Unit := do
  let now ← reading cfg
  let time ← reading cfg
  update fun w =>
    let served := { w.served with seen := w.served.seen.insert path seen }
    { w with
      served := match w.served.seen[path]? with
        | none => served
        | some before =>
          if before = seen then served
          else served.recordChange path now.now time.wall cfg.origin }

/-- What a path is now, as `observe` serves it. -/
def servePath (path : Path) : Fs H Rows P (Option (Stat H)) := do
  let stat ← read fun w => statPath cfg.scope.see w.db.store w.session path
  observe cfg path (stat.map fun s => (s.kind, s.blob))
  pure stat

end Remember

def touch (path : Path) : Fs H Rows P Unit := do
  let time ← reading cfg
  update fun w => { w with served := w.served.touch path time.wall cfg.origin }

def timeout (path : Path) : Fs H Rows P Duration := do
  let now ← reading cfg
  read fun w => match w.served.changed[path]? with
    | some at' =>
      if now.now - at' < cfg.freshness.window then cfg.freshness.changed
      else cfg.freshness.settled
    | none => cfg.freshness.settled

def tell (attr : Attr) : Fs H Rows P Unit :=
  if attr.kind = .file then
    update fun w =>
      { w with served := { w.served with told := w.served.told.insert attr.inode attr.size } }
  else pure ()

/-! ## Inodes -/

def pathOf (inode : Nat) : Fs H Rows P Path := do
  Req.ofOption (.errno .ENOENT) (← read fun w => w.inodes.byInode[inode]?)

def inodeOf (path : Path) : Fs H Rows P Nat := fun w =>
  match w.inodes.byPath[path]? with
  | some inode => (.ok inode, w)
  | none =>
    let inode := w.inodes.next
    (.ok inode, { w with
      inodes :=
        ⟨w.inodes.byPath.insert path inode, w.inodes.byInode.insert inode path, inode + 1⟩ })

/-! ## Scratch -/

def scratchCall (op : Req Errno P.Scratch α) : Fs H Rows P α := fun w =>
  ((op w.scratch).1.mapError .errno, { w with scratch := (op w.scratch).2 })

/-- The scratch directory is there, made now if no derived write made it yet. -/
def scratch : Fs H Rows P Unit := do
  require (cfg.derived = true) (.errno .EIo)
  if ← read (·.scratchMade) then pure ()
  else match ← Req.attempt (scratchCall P.scratch.create) with
    | .error _ => refuse .EIo
    | .ok _ => update fun w => { w with scratchMade := true }

def scratchStat (path : Path) : Fs H Rows P (Option ScratchStat) :=
  if path = [] then pure none
  else do
    if ← read (·.scratchMade) then scratchCall (P.scratch.stat path) else pure none

def scratchHandle (handle : Nat) : Fs H Rows P (Option (ScratchHandle P.File)) :=
  read (·.scratchHandles[handle]?)

/-- Where a path is. -/
inductive Located (H : Type) where
  | stored (stat : Stat H)
  | scratch (stat : ScratchStat)
  | absent

/-- A path the store or the session holds is stored (tracked wins), else
scratch's, else absent. -/
def located (path : Path) : Option (Stat H) → Fs H Rows P (Located H)
  | some stat => pure (.stored stat)
  | none => do
    match ← scratchStat path with
    | some stat => pure (.scratch stat)
    | none => pure .absent

/-- `locate` without serving: what a request checks before it changes a path. -/
def whereis (path : Path) : Fs H Rows P (Located H) := do
  located path (← read fun w => statPath cfg.scope.see w.db.store w.session path)

def locate [DecidableEq H] (cfg : Config H Lang Rows P) (path : Path) :
    Fs H Rows P (Located H) := do
  located path (← servePath cfg path)

/-! ## Attributes -/

def permOf (scope : Scope) (path : Path) (kind : Kind) (mode : Option Mode) : Nat :=
  match kind with
  | .directory => if scope.mayProposeUnder path then 0o755 else 0o555
  | .symlink => 0o777
  | .file => match scope.propose.covers path, mode == some .executable with
    | true, true => 0o755
    | true, false => 0o644
    | false, true => 0o555
    | false, false => 0o444

def mtime (path : Path) : Fs H Rows P Duration :=
  read fun w => w.served.times[path]?.getD cfg.origin

def attrOf (path : Path) (kind : Kind) (size : Nat)
    (mode : Option Mode) : Fs H Rows P Attr := do
  let inode ← inodeOf path
  pure ⟨inode, kind, size, permOf cfg.scope path kind mode, ← mtime cfg path⟩

def scratchAttr (path : Path) (stat : ScratchStat) : Fs H Rows P Attr := do
  let inode ← inodeOf path
  pure ⟨inode, stat.kind, stat.size, if stat.kind = .symlink then 0o777 else stat.perm, stat.mtime⟩

section Attr

variable [DecidableEq H] (cfg : Config H Lang Rows P)

def attr (path : Path) : Fs H Rows P Attr := do
  match ← locate cfg path with
  | .stored stat => attrOf cfg path stat.kind stat.size stat.mode
  | .scratch stat => scratchAttr path stat
  | .absent => refuse .ENOENT

def entry (path : Path) : Fs H Rows P Entry := do
  let attr ← attr cfg path
  pure ⟨attr, ← timeout cfg path⟩

def directory (inode : Nat) : Fs H Rows P Path := do
  let path ← pathOf inode
  let attr ← attr cfg path
  require (attr.kind = .directory) (.errno .ENOTDIR)
  pure path

def fromUtf8 (name : Bytes) : Option Path := (String.fromUTF8? ⟨name.toArray⟩).map String.toList

def child (parent : Nat) (name : Bytes) : Fs H Rows P Path := do
  let dir ← directory cfg parent
  let name ← Req.ofOption (.errno .ENOENT) (fromUtf8 name)
  require (name ≠ [] ∧ '/' ∉ name) (.errno .ENOENT)
  pure (join dir name)

end Attr

/-! ## Listings -/

/-- The store's names and scratch's, each marked when it is scratch's. -/
def listing (dir : Path) :
    Fs H Rows P (Std.ExtTreeMap Path (Kind × Bool)) := do
  let stored ← read fun w =>
    (children cfg.scope.see w.db.store w.session dir).map fun _ kind => (kind, false)
  if ← read (·.scratchMade) then
    let names ← scratchCall (P.scratch.list dir)
    pure (names.foldl (fun out x => out.insertIfNew x.1 (x.2, true)) stored)
  else pure stored

def namesUnder (dir : Path) : Fs H Rows P (List (Path × Kind)) := do
  let names ← listing cfg dir
  pure (names.toList.map fun x => (x.1, x.2.1))

/-! ## Derived paths -/

def generatedDirs : List Path :=
  ["target", "node_modules", "__pycache__", "__pypackages__", "venv", ".venv",
    ".git"].map String.toList

def builtinParts (isDir : Bool) : List Path → Bool
  | [] => false
  | [part] => (isDir && generatedDirs.contains part) || ("._".toList).isPrefixOf part ||
      part == ".DS_Store".toList
  | part :: part' :: parts => generatedDirs.contains part || builtinParts isDir (part' :: parts)

def builtinDerived (path : Path) (isDir : Bool) : Bool := builtinParts isDir (path.splitOn '/')

section Ignore

variable (cfg : Config H Lang Rows P)

def gitignore : Path := ".gitignore".toList

/-- The rules of a directory's ignore file: the store's, or the checkout's when
the store holds none. Read once. -/
def ignoreRules (dir : Path) : Fs H Rows P (Option P.Rules) := do
  match ← read (·.ignores[dir]?) with
  | some rules => pure rules
  | none =>
    let t ← tick
    let stored ← read fun w => (blobOf w.db.store (join dir gitignore)).map (·.2)
    let bytes := stored.or (cfg.checkout.bind fun c => (c t).readFile (join dir gitignore))
    let rules := bytes.bind P.compileRules
    update fun w => { w with ignores := w.ignores.insert dir rules }
    pure rules

def relativeTo (dir path : Path) : Path := if dir = [] then path else path.drop (dir.length + 1)

/-- The rules of each directory in turn: the first that matches decides. -/
def gitignoredIn (path : Path) (isDir : Bool) : List Path → Fs H Rows P Bool
  | [] => pure false
  | dir :: dirs => do
    match ← ignoreRules cfg dir with
    | none => gitignoredIn path isDir dirs
    | some rules => match P.matchedPathOrAnyParents rules (relativeTo dir path) isDir with
      | .ignore => pure true
      | .whitelist => pure false
      | .none => gitignoredIn path isDir dirs

def ancestors (path : Path) : List Path := (parents path).reverse ++ [[]]

def gitignored (path : Path) (isDir : Bool) : Fs H Rows P Bool :=
  gitignoredIn cfg path isDir (ancestors path)

def parentInScratch (path : Path) : Fs H Rows P Bool :=
  match dirOf path with
  | none => pure false
  | some parent => do
    match ← whereis cfg parent with
    | .scratch _ => pure true
    | _ => pure false

def derivedNew (path : Path) (isDir : Bool) : Fs H Rows P Bool :=
  if cfg.derived then do
    if ← parentInScratch cfg path then pure true
    else if builtinDerived path isDir then pure true
    else gitignored cfg path isDir
  else pure false

end Ignore

end LeyLine.StoreFs
