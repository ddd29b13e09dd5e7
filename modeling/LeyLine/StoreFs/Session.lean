import LeyLine.StoreFs.Requests

/-!
# RENAME, and a session as a whole

A file is moved by one proposal, a directory by one proposal over every path
under it; handles open on the old paths follow the files. With RENAME the
requests are complete: `serve` answers one, and `step` is a request of the
session or another writer's proposal.
-/

namespace LeyLine.StoreFs

variable {H Lang Rows : Type} {P : Platform} [DecidableEq H] [DecidableEq Lang]

section Rename

variable (cfg : Config H Lang Rows P)

def movedMode (path : Path) : Fs H Rows P Mode := do
  let stat ← servePath cfg path
  match stat.bind (·.mode) with
  | some mode => pure mode
  | none => do
    let given ← Req.read (·.session.pendingModes[path]?)
    pure (given.getD .regular)

/-- The base a file written over `path` replaces. -/
def targetBase (path : Path) : Fs H Rows P (Base H) := do
  match ← held path with
  | some (.blob blob, _) => pure (.blob blob)
  | _ => pure .absent

variable (src dst : Path)

/-- Handles open on `src` follow the file to `dst`, with the blob that landed
there as their base. -/
def moveHandles (moved : Base H) : Fs H Rows P Unit :=
  Req.update fun w => { w with
    handles := w.handles.map fun _ h =>
      if h.path = src then { h with path := dst, base := moved } else h }

def renameWrites (base : Base H) (bytes : Bytes) (mode : Mode)
    (replaced : Base H) : List (Proposed H) :=
  (match base with
    | .blob blob => [⟨src, .blob blob, .delete⟩]
    | _ => []) ++ [⟨dst, replaced, .write bytes (some mode)⟩]

/-- The source leaves no name: its times move, when the store did not hold it. -/
def touchUnstored (src : Path) (base : Base H) : Fs H Rows P Unit :=
  match base with
  | .blob _ => pure ()
  | _ => touch cfg src

def renameFile (target : Option Kind) : Fs H Rows P Unit := do
  Req.require (target ≠ some .directory) (.errno .EISDIR)
  let (base, bytes) ← Req.ofOption (.errno .ENOENT) (← held src)
  let mode ← movedMode cfg src
  let replaced ← targetBase dst
  let accepted ← propose cfg (renameWrites src dst base bytes mode replaced)
  forgetPending src
  forgetPending dst
  touchUnstored cfg src base
  let moved ← landedBase accepted dst
  moveHandles src dst moved

/-- A path under `src`, moved to the same place under `dst`. -/
def movedPath (src dst path : Path) : Path := dst ++ path.drop src.length

def movePending (session : Session) : Session :=
  (session.pending.keys.filter fun p => (join src []).isPrefixOf p).foldl (fun s p =>
    let pending := match s.pending[p]? with
      | some bytes => (s.pending.erase p).insert (movedPath src dst p) bytes
      | none => s.pending
    let modes := match s.pendingModes[p]? with
      | some mode => (s.pendingModes.erase p).insert (movedPath src dst p) mode
      | none => s.pendingModes
    ⟨pending, modes⟩) session

def moveScratch : Fs H Rows P Unit := do
  if ← Req.read (·.scratchMade) then
    match ← Req.attempt (scratchCall (P.scratch.stat src)) with
    | .ok (some _) => do
      let _ ← Req.attempt (scratchCall (P.scratch.rename src dst))
    | _ => pure ()
  else pure ()

def requireEmpty (dst : Path) : Option Kind → Fs H Rows P Unit
  | none => pure ()
  | some .directory => do
    let names ← listing cfg dst
    Req.require (names.isEmpty = true) (.errno .ENOTEMPTY)
  | some _ => refuse .ENOTDIR

/-- RENAME of a directory: one proposal over every path under it. -/
def renameDirectory (target : Option Kind) : Fs H Rows P Unit := do
  Req.require ((join src []).isPrefixOf dst = false) (.errno .EINVAL)
  requireEmpty cfg dst target
  let writes ← Req.ofOption (.errno .EIo) (← Req.read fun w => renameDir w.db.store src dst)
  let _ ← propose cfg writes
  moveScratch src dst
  Req.update fun w => { w with
    session := movePending src dst w.session
    handles := w.handles.map fun _ h =>
      if (join src []).isPrefixOf h.path then { h with path := movedPath src dst h.path } else h }

def renameInScratch (kind : Kind) : Fs H Rows P Unit := do
  Req.require (mayPropose cfg kind src = true ∧ mayPropose cfg kind dst = true) (.errno .EACCES)
  scratch cfg
  scratchCall (P.scratch.rename src dst)

def scratchContent (src : Path) (kind : Kind) : Fs H Rows P (Bytes × Mode) :=
  if kind = .symlink then do
    let target ← scratchCall (P.scratch.readlink src)
    pure (target, .symlink)
  else do
    let file ← scratchCall (P.scratch.openAt src oRdonly 0)
    let stat ← scratchCall (P.scratch.statFile file)
    let bytes ← scratchCall (P.scratch.readExactAt file 0 stat.size)
    pure (bytes, if stat.perm &&& 0o111 ≠ 0 then .executable else .regular)

/-- RENAME of a derived file to an authored path: its bytes land as a proposal,
then the scratch file goes. -/
def renameOutOfScratch (kind : Kind) (target : Option Kind) :
    Fs H Rows P Unit := do
  Req.require (target ≠ some .directory) (.errno .EISDIR)
  Req.require (cfg.scope.propose.covers src = true) (.errno .EACCES)
  scratch cfg
  let (bytes, mode) ← scratchContent src kind
  let replaced ← targetBase dst
  let _ ← propose cfg [⟨dst, replaced, .write bytes (some mode)⟩]
  forgetPending dst
  scratchCall (P.scratch.unlink src)

def copyToScratch (dst : Path) (bytes : Bytes) (mode : Mode) : Fs H Rows P Unit :=
  if mode = .symlink then scratchCall (P.scratch.symlink bytes dst)
  else do
    let file ← scratchCall (P.scratch.openAt dst (oWronly ||| oCreat ||| oExcl)
      (if mode = .executable then 0o755 else 0o644))
    match ← Req.attempt (scratchCall (P.scratch.write file 0 bytes)) with
    | .ok _ => pure ()
    | .error e => do
      let _ ← Req.attempt (scratchCall (P.scratch.unlink dst))
      Req.fail e

/-- An authored file leaves the store, or the session; a refused delete takes the
scratch copy away again. -/
def leaveStore : Base H → Fs H Rows P Unit
  | .blob blob => do
    match ← Req.attempt (propose cfg [⟨src, .blob blob, .delete⟩]) with
    | .ok _ => pure ()
    | .error e => do
      let _ ← Req.attempt (scratchCall (P.scratch.unlink dst))
      Req.fail e
  | _ => do
    forgetPending src
    touch cfg src

/-- RENAME of an authored file to a derived path: its bytes go to scratch, then
the delete is proposed. -/
def renameIntoScratch (target : Option Kind) : Fs H Rows P Unit := do
  Req.require (target ≠ some .directory) (.errno .EISDIR)
  Req.require (cfg.scope.propose.covers src = true ∧ cfg.scope.propose.covers dst = true)
    (.errno .EACCES)
  let (base, bytes) ← Req.ofOption (.errno .ENOENT) (← held src)
  let mode ← movedMode cfg src
  scratch cfg
  Req.onlyIf (target ≠ none) (scratchCall (P.scratch.unlink dst))
  copyToScratch dst bytes mode
  leaveStore cfg src dst base

def renameDest (dst : Path) (kind : Kind) : Fs H Rows P (Option Kind × Bool) := do
  match ← whereis cfg dst with
  | .absent => do pure (none, ← derivedNew cfg dst (kind = .directory))
  | .stored stat => pure (some stat.kind, false)
  | .scratch stat => pure (some stat.kind, true)

def renameWithin (target : Option Kind) :
    Kind → Bool → Bool → Fs H Rows P Unit
  | .directory, false, false => renameDirectory cfg src dst target
  | _, false, false => renameFile cfg src dst target
  | kind, true, true => renameInScratch cfg src dst kind
  -- a directory changes class only by copy
  | .directory, _, _ => refuse .EXDEV
  | kind, true, false => renameOutOfScratch cfg src dst kind target
  | _, false, true => renameIntoScratch cfg src dst target

def rename (olddir : Nat) (oldname : Bytes) (newdir : Nat) (newname : Bytes) (flags : Nat) :
    Fs H Rows P Unit := do
  Req.require (flags ||| renameNoreplace = renameNoreplace) (.errno .EINVAL)
  let src ← child cfg olddir oldname
  let dst ← child cfg newdir newname
  let (kind, srcDerived) ← findPath cfg src
  if src = dst then pure ()
  else do
    let (target, dstDerived) ← renameDest cfg dst kind
    Req.require (flags &&& renameNoreplace = 0 ∨ target = none) (.errno .EEXIST)
    renameWithin cfg src dst target kind srcDerived dstDerived
    Req.update fun w => { w with inodes := w.inodes.renameTree src dst }

end Rename

/-! ## The requests together -/

inductive Request where
  | lookup (parent : Nat) (name : Bytes)
  | getattr (inode : Nat) (handle : Option Nat)
  | negativeTtl (parent : Nat) (name : Bytes)
  | readdirplus (inode offset : Nat)
  | opendir (inode : Nat)
  | readdir (inode offset : Nat)
  | openFile (inode flags : Nat)
  | read (handle offset size : Nat)
  | write (handle offset : Nat) (data : Bytes)
  | writeChecked (handle offset : Nat) (data : Bytes)
  | reread (handle : Nat)
  | settle (handle : Nat)
  | discard (handle : Nat)
  | parent (inode : Nat)
  | flush (handle : Nat)
  | fsync (handle : Nat)
  | release (handle : Nat)
  | setattr (inode : Nat) (handle : Option Nat) (set : SetAttr)
  | symlink (parent : Nat) (name target : Bytes)
  | readlink (inode : Nat)
  | create (parent : Nat) (name : Bytes) (flags : Nat)
  | mkdir (parent : Nat) (name : Bytes)
  | unlink (parent : Nat) (name : Bytes)
  | rmdir (parent : Nat) (name : Bytes)
  | rename (olddir : Nat) (oldname : Bytes) (newdir : Nat) (newname : Bytes) (flags : Nat)
  deriving Repr, DecidableEq

inductive Reply where
  | entry (e : Entry)
  | attr (a : Attr) (ttl : Duration)
  | ttl (d : Duration)
  | entriesPlus (es : List (DirEntry × Entry))
  | openedDir (keepCache : Bool)
  | entries (es : List DirEntry)
  | opened (o : Opened)
  | data (bytes : Bytes)
  | written (n : Nat)
  | inode (n : Nat)
  | created (e : Entry) (handle : Nat)
  | done
  deriving Repr, DecidableEq

def serve (cfg : Config H Lang Rows P) : Request → Fs H Rows P Reply
  | .lookup parent name => do pure (.entry (← lookup cfg parent name))
  | .getattr inode id => do
    let (a, ttl) ← getattr cfg inode id
    pure (.attr a ttl)
  | .negativeTtl parent name => do pure (.ttl (← negativeTtl cfg parent name))
  | .readdirplus inode offset => do pure (.entriesPlus (← readdirplus cfg inode offset))
  | .opendir inode => do pure (.openedDir (← opendir cfg inode))
  | .readdir inode offset => do pure (.entries (← readdir cfg inode offset))
  | .openFile inode flags => do pure (.opened (← openFile cfg inode flags))
  | .read id offset size => do pure (.data (← read id offset size))
  | .write id offset data => do pure (.written (← write cfg id offset data))
  | .writeChecked id offset data => do pure (.written (← writeChecked cfg id offset data))
  | .reread id => do
    reread id
    pure .done
  | .settle id => do
    settle id
    pure .done
  | .discard id => do
    discard id
    pure .done
  | .parent inode => do pure (.inode (← parent inode))
  | .flush id => do
    flush cfg id
    pure .done
  | .fsync id => do
    fsync cfg id
    pure .done
  | .release id => do
    release id
    pure .done
  | .setattr inode id set => do
    let (a, ttl) ← setattr cfg inode id set
    pure (.attr a ttl)
  | .symlink parent name target => do pure (.entry (← symlink cfg parent name target))
  | .readlink inode => do pure (.data (← readlink cfg inode))
  | .create parent name flags => do
    let (e, id) ← create cfg parent name flags
    pure (.created e id)
  | .mkdir parent name => do pure (.entry (← mkdir cfg parent name))
  | .unlink parent name => do
    unlink cfg parent name
    pure .done
  | .rmdir parent name => do
    rmdir cfg parent name
    pure .done
  | .rename olddir oldname newdir newname flags => do
    rename cfg olddir oldname newdir newname flags
    pure .done

/-- What happens to a filesystem: a request, or another writer's proposal, made
at a time and in surroundings of its own. -/
inductive Event (H : Type) where
  | request (r : Request)
  | other (now : Int) (fs : Path → Directory) (grant : Grant) (writes : List (Proposed H))

/-- One event, with what a request answers. A proposal that is not accepted
changes nothing. -/
def step (cfg : Config H Lang Rows P) (w : World H Rows P) :
    Event H → Option (Except Fault Reply) × World H Rows P
  | .request r => (some (serve cfg r w).1, (serve cfg r w).2)
  | .other now fs grant writes =>
    match LeyLine.propose { cfg.env with now := now, fs := fs } grant writes w.db with
    | .ok (_, db) => (none, { w with db := db })
    | .error _ => (none, w)

def run (cfg : Config H Lang Rows P) (w : World H Rows P) (events : List (Event H)) :
    World H Rows P :=
  events.foldl (fun w e => (step cfg w e).2) w

end LeyLine.StoreFs
