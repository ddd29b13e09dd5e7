import LeyLine.StoreFs.Serve

/-!
# The requests

Each request as the filesystem answers it. Reads serve the bytes the handle
loaded; writes stage on the handle; FLUSH and FSYNC propose the staged bytes
against the handle's base (`commit`, `land`), and the tree-changing requests are
proposals of their own.
-/

namespace LeyLine.StoreFs

open Req (attempt collect ofOption require update)

variable {H Lang Rows α : Type} {P : Platform}

/-! ## Staging bytes -/

def usizeMax : Nat := 2 ^ 64 - 1

def isizeMax : Nat := 2 ^ 63 - 1

/-- `bytes` cut or extended with zeros to a length. -/
def resized (bytes : Bytes) (n : Nat) : Bytes := bytes.take n ++ List.replicate (n - bytes.length) 0

/-- `resize`, which aborts past the capacity of a vector. -/
def resize (bytes : Bytes) (n : Nat) : Option Bytes :=
  if n ≤ isizeMax then some (resized bytes n) else none

/-- `data` written at an offset; a gap past the end reads as zeros. -/
def splice (bytes : Bytes) (offset : Nat) (data : Bytes) : Option Bytes :=
  let stop := offset + data.length
  if stop ≤ usizeMax then
    (resize bytes (max bytes.length stop)).map fun padded =>
      padded.take offset ++ data ++ padded.drop stop
  else none

/-! ## Proposals -/

def errnoFor : ProposeError H → Errno
  | .refused (.stale moved) =>
    if moved.all (·.expected.isNone) then .EEXIST else .ESTALE
  | .refused (.conflict _ _) => .ESTALE
  | .refused (.outsideGrant _) => .EACCES
  | .refused (.noSuchFile _) => .ENOENT
  | .refused (.exists _) => .EEXIST
  | .refused (.notEmpty _) => .ENOTEMPTY
  | .refused (.notADirectory _) => .ENOTDIR
  | .refused (.pathConflict _ _) => .ENOTDIR
  | .refused (.isADirectory _) => .EISDIR
  | _ => .EIo

/-- Whether a save's edit undoes or overwrites lines changed since a read. -/
def touches (since e : LineRange) : Bool :=
  if since.start = since.stop then
    Decidable.decide (e.start ≤ since.start) && Decidable.decide (since.start ≤ e.stop)
  else if e.start = e.stop then
    Decidable.decide (since.start < e.start) && Decidable.decide (e.start < since.stop)
  else Decidable.decide (since.start < e.stop) && Decidable.decide (e.start < since.stop)

section Propose

variable [DecidableEq H] [DecidableEq Lang] (cfg : Config H Lang Rows P)

/-- One read a save may have been made from: the lines changed since are
untouched by the save's own edit. -/
def agreeRead (s : Store H) (current : Bytes) (edit : List LineRange) (read : H) :
    Except Errno Unit :=
  match s.blobBytes read with
  | none => .error .EIo
  | some readBytes =>
    if readBytes = current then .ok ()
    else .require (!(cfg.changedLines readBytes current).any fun c =>
      edit.any fun e => touches c.dst e) .ESTALE

/-- Whether a save keeps every change the store took since each of the handle's
reads. -/
def agree (s : Store H) (path : Path) (base : Base H) (earlier : Reads H) (bytes : Bytes) :
    Except Errno Unit :=
  match base with
  | .blob latest =>
    if earlier.isEmpty then .ok ()
    else match blobOf s path with
      | none => .ok ()
      | some (_, current) =>
        if earlier.complete then
          (latest :: earlier.blobs).forM
            (agreeRead cfg s current ((cfg.changedLines current bytes).map (·.src)))
        else .error .ESTALE
  | _ => .ok ()

variable (writes : List (Proposed H))

/-- The paths a landed proposal is materialized at: its own, and the directories
above them. -/
def reconciledPaths : List Path :=
  writes.map (·.path) ++ Table.sortedSet (writes.flatMap fun w => parents w.path)

/-- A proposal the checkout's file system would land on another entry. -/
def refuseAliases (t : Nat) (writes : List (Proposed H)) (s : Store H) : Except Errno Unit :=
  match cfg.checkout.bind fun c => (c t).refuses (fun p => (s.entry p).isSome) writes with
  | some e => .error e
  | none => .ok ()

def materialize (t : Nat) (writes : List (Proposed H)) (db : Db H Rows) : Db H Rows :=
  match cfg.checkout with
  | some c => (c t).reconcile (reconciledPaths writes) db
  | none => db

/-- What runs under the store's one writer: the precheck, the alias check, the
proposal, and the checkout brought up to it. -/
def underWriter (precheck : Store H → Except Errno Unit) (t : Nat)
    (db : Db H Rows) : Except Errno (Accepted H × Db H Rows) := do
  precheck db.store
  refuseAliases cfg t writes db.store
  let (accepted, db') ← (LeyLine.propose (cfg.envAt t) cfg.scope.propose writes db).mapError
      errnoFor
  pure (accepted, materialize cfg t writes db')

def withWrite (f : Nat → Db H Rows → Except Errno (α × Db H Rows)) : Fs H Rows P α := fun w =>
  match f w.ticks w.db with
  | .ok (a, db) => (.ok a, { w with db := db, ticks := w.ticks + 1 })
  | .error e => (.error (.errno e), { w with ticks := w.ticks + 1 })

def isIgnoreFile (p : Path) : Bool := p == gitignore || ('/' :: gitignore).isSuffixOf p

def forgetRules (a : Accepted H) : Fs H Rows P Unit :=
  if a.blobs.keys.any isIgnoreFile || a.removed.any isIgnoreFile then
    update fun w => { w with ignores := ∅ }
  else pure ()

def landedSeen (a : Accepted H) (w : World H Rows P) : List (Path × Seen H) :=
  a.blobs.keys.map (fun p => (p, (statPath cfg.scope.see w.db.store w.session p).map
    fun s => (s.kind, s.blob))) ++
  a.removed.map (fun p => (p, none)) ++ a.rmdirs.map (fun p => (p, none)) ++
  a.mkdirs.map fun p => (p, some (.directory, none))

/-- Remember what landed; the next open of a merged file drops its pages. -/
def recordLanded (a : Accepted H) : Fs H Rows P Unit := do
  let now ← reading cfg
  let time ← reading cfg
  let landed ← Req.read (landedSeen cfg a)
  let merged ← collect (fun p => do pure (some (← inodeOf p))) a.merged
  update fun w =>
    let served := landed.foldl (fun (s : Served H) x =>
      Served.recordChange { s with seen := s.seen.insert x.1 x.2 } x.1 now.now time.wall cfg.origin)
        w.served
    { w with served := { served with
      pages := merged.foldl (fun pages inode => pages.erase inode) served.pages } }

/-- A proposal through the store's writer, after a precheck under the same
writer. -/
def proposeAfter (precheck : Store H → Except Errno Unit) :
    Fs H Rows P (Accepted H) := do
  let accepted ← withWrite (underWriter cfg writes precheck)
  forgetRules accepted
  recordLanded cfg accepted
  pure accepted

def propose : Fs H Rows P (Accepted H) :=
  proposeAfter cfg writes fun _ => .ok ()

/-- The base a later write is checked against: the blob a proposal wrote. -/
def landedBase (a : Accepted H) (path : Path) : Fs H Rows P (Base H) := do
  pure (.blob (← ofOption (.errno .EIo) a.blobs[path]?))

def forgetPending (path : Path) : Fs H Rows P Unit :=
  update fun w =>
    { w with session := ⟨w.session.pending.erase path, w.session.pendingModes.erase path⟩ }

def mergedBytes (a : Accepted H) (path : Path) (base : Base H) : Fs H Rows P (Option Bytes) :=
  match base with
  | .blob blob =>
    if path ∈ a.merged then do
      let bytes ← Req.read fun w => w.db.store.blobBytes blob
      pure (some (← ofOption (.errno .EIo) bytes))
    else pure none
  | _ => pure none

/-- Propose bytes at a path against a base, answering the base a later write is
checked against and the merged bytes, if there were any. -/
def landBytes (path : Path) (base : Base H) (earlier : Reads H) (bytes : Bytes)
    (mode : Option Mode) : Fs H Rows P (Base H × Option Bytes) := do
  let accepted ← proposeAfter cfg [⟨path, base, .write bytes mode⟩]
    fun s => agree cfg s path base earlier bytes
  forgetPending path
  let landed ← landedBase accepted path
  pure (landed, ← mergedBytes accepted path landed)

/-- `landBytes`; a file not landed yet takes the bytes in the session first, and
one unlinked since it was created lands nothing. -/
def land (path : Path) (base : Base H) (earlier : Reads H) (bytes : Bytes)
    (mode : Option Mode) : Fs H Rows P (Base H × Option Bytes) :=
  if base = .absent then do
    match ← Req.read (·.session.pending[path]?) with
    | none => pure (.absent, none)
    | some _ =>
      update fun w => { w with
        session := { w.session with pending := w.session.pending.insert path bytes } }
      let given ← Req.read (·.session.pendingModes[path]?)
      landBytes cfg path base earlier bytes (mode.or given)
  else landBytes cfg path base earlier bytes mode

end Propose

/-! ## Handles -/

section Handles

def newHandle (h : Handle H) : Fs H Rows P Nat := fun w =>
  (.ok w.nextHandle, { w with
    handles := w.handles.insert w.nextHandle h, nextHandle := w.nextHandle + 1 })

def newScratchHandle (h : ScratchHandle P.File) : Fs H Rows P Nat := fun w =>
  (.ok w.nextHandle, { w with
    scratchHandles := w.scratchHandles.insert w.nextHandle h, nextHandle := w.nextHandle + 1 })

def handle (id : Nat) : Fs H Rows P (Handle H) := do
  ofOption (.errno .EBADF) (← Req.read (·.handles[id]?))

def modifyHandle (id : Nat) (f : Handle H → Handle H) : Fs H Rows P Unit :=
  update fun w => { w with handles := w.handles.modify id f }

def isWrite (flags : Nat) : Bool := flags &&& oAccmode != oRdonly

def setScratchLen (path : Path) (size : Nat) : Fs H Rows P Unit := do
  let file ← scratchCall (P.scratch.openAt path oRdwr 0)
  scratchCall (P.scratch.setLen file size)

def scratchFlags (flags : Nat) (create : Bool) : Nat :=
  (if isWrite flags then oRdwr else oRdonly) ||| (if create then oCreat ||| oExcl else 0)

/-- Open a scratch file (made with `create`) on a new handle. -/
def openScratch (cfg : Config H Lang Rows P) (path : Path) (flags : Nat) (create : Bool) :
    Fs H Rows P Nat := do
  scratch cfg
  Req.onlyIf (isWrite flags = true ∧ create = false ∧ flags &&& oTrunc ≠ 0) (setScratchLen path 0)
  let file ← scratchCall (P.scratch.openAt path (scratchFlags flags create) 0o644)
  newScratchHandle ⟨file, isWrite flags⟩

def writeScratch (cfg : Config H Lang Rows P) (h : ScratchHandle P.File) (offset : Nat)
    (data : Bytes) : Fs H Rows P Nat := do
  require (h.writable = true) (.errno .EBADF)
  scratch cfg
  scratchCall (P.scratch.write h.file offset data)
  pure data.length

end Handles

section Requests

variable [DecidableEq H] [DecidableEq Lang] (cfg : Config H Lang Rows P)

/-! ## Reading -/

def lookup (parent : Nat) (name : Bytes) : Fs H Rows P Entry := do
  let path ← child cfg parent name
  let e ← entry cfg path
  tell e.attr
  pure e

/-- The size a handle shows: the bytes it serves, or its scratch file's. -/
def handleSize (id : Option Nat) (size : Nat) : Fs H Rows P Nat :=
  match id with
  | none => pure size
  | some id => do
    match ← Req.read (·.handles[id]?) with
    | some h => pure h.bytes.length
    | none => match ← scratchHandle id with
      | some h => do
        let stat ← scratchCall (P.scratch.statFile h.file)
        pure stat.size
      | none => pure size

def getattr (inode : Nat) (id : Option Nat) : Fs H Rows P (Attr × Duration) := do
  let path ← pathOf inode
  let a ← attr cfg path
  let size ← handleSize id a.size
  let a := { a with size := size }
  tell a
  pure (a, ← timeout cfg path)

def negativeTtl (parent : Nat) (name : Bytes) : Fs H Rows P Duration := do
  match ← attempt (child cfg parent name) with
  | .ok path => timeout cfg path
  | .error _ => pure 0

def plusEntry (dir : Path) (x : (Path × Kind × Bool) × Nat) :
    Fs H Rows P (Option (DirEntry × Entry)) := do
  let path := join dir x.1.1
  let reply (a : Attr) (kind : Kind) : Fs H Rows P (Option (DirEntry × Entry)) := do
    tell a
    let ttl ← timeout cfg path
    pure (some (⟨a.inode, x.2 + 1, kind, x.1.1⟩, ⟨a, ttl⟩))
  if x.1.2.2 then
    match ← scratchStat path with
    | none => pure none
    | some stat => reply (← scratchAttr path stat) stat.kind
  else if x.1.2.1 = .directory then do
    observe cfg path (some (.directory, none))
    reply (← attrOf cfg path .directory 0 none) .directory
  else
    match ← servePath cfg path with
    | none => pure none
    | some stat => reply (← attrOf cfg path x.1.2.1 stat.size stat.mode) x.1.2.1

def readdirplus (inode offset : Nat) : Fs H Rows P (List (DirEntry × Entry)) := do
  let dir ← directory cfg inode
  let names ← listing cfg dir
  collect (plusEntry cfg dir) (names.toList.zipIdx.drop offset)

/-- OPENDIR: whether the guest may keep the listing it cached. -/
def opendir (inode : Nat) : Fs H Rows P Bool := do
  let dir ← directory cfg inode
  let names ← namesUnder cfg dir
  let time ← reading cfg
  let before ← Req.read (·.served.listings[inode]?)
  let keepCache := before == some names
  update fun w =>
    let served := { w.served with listings := w.served.listings.insert inode names }
    { w with
      served := if before.isSome && !keepCache then served.touch dir time.wall cfg.origin
        else served }
  pure keepCache

def readdir (inode offset : Nat) : Fs H Rows P (List DirEntry) := do
  let dir ← directory cfg inode
  let names ← namesUnder cfg dir
  collect (fun x => do
    let inode ← inodeOf (join dir x.1.1)
    pure (some ⟨inode, x.2 + 1, x.1.2, x.1.1⟩)) (names.zipIdx.drop offset)

/-- The page-cache flags of an open: whether the pages may be kept, and whether
the size last told is another than what is served. -/
def pageFlags (inode : Nat) (base : Base H) (writable : Bool) (size : Nat) :
    Fs H Rows P (Bool × Bool) := do
  let kept ← Req.read fun w => match base with
    | .blob blob => !writable && w.served.pages[inode]? == some blob
    | _ => false
  update fun w => { w with served := { w.served with
    pages := match base, writable with
      | .blob blob, false => w.served.pages.insert inode blob
      | _, _ => w.served.pages.erase inode } }
  let told ← Req.read (·.served.told[inode]?)
  pure (kept, told.any (· ≠ size))

/-- OPEN: reads the file's blob, which the handle serves and proposes against. -/
def openFile (inode flags : Nat) : Fs H Rows P Opened := do
  let path ← pathOf inode
  let a ← attr cfg path
  require (a.kind ≠ .directory) (.errno .EISDIR)
  let writable := isWrite flags
  require (writable = true → cfg.scope.propose.covers path = true) (.errno .EACCES)
  match ← whereis cfg path with
  | .scratch _ =>
    let id ← openScratch cfg path flags false
    pure ⟨id, false, writable⟩
  | _ =>
    let (base, loaded) ← ofOption (.errno .ENOENT) (← held path)
    let truncate := writable && flags &&& oTrunc != 0
    let bytes := if truncate then [] else loaded
    let (keepCache, staleSize) ← pageFlags inode base writable bytes.length
    let id ← newHandle ⟨path, base, {}, bytes, none, truncate, writable⟩
    pure ⟨id, keepCache, writable || staleSize⟩

def read (id offset size : Nat) : Fs H Rows P Bytes := do
  match ← scratchHandle id with
  | some h => do
    let stat ← scratchCall (P.scratch.statFile h.file)
    let start := min offset stat.size
    scratchCall (P.scratch.readExactAt h.file start (min size (stat.size - start)))
  | none => do
    let h ← handle id
    pure ((h.bytes.drop offset).take size)

def readlink (inode : Nat) : Fs H Rows P Bytes := do
  let path ← pathOf inode
  let a ← attr cfg path
  require (a.kind = .symlink) (.errno .EINVAL)
  match ← whereis cfg path with
  | .scratch _ => do
    scratch cfg
    scratchCall (P.scratch.readlink path)
  | _ =>
    let (_, bytes) ← ofOption (.errno .ENOENT) (← held path)
    pure bytes

def parent (inode : Nat) : Fs H Rows P Nat := do
  let path ← pathOf inode
  match dirOf path with
  | some dir => inodeOf dir
  | none => pure rootInode

/-! ## Staging -/

def write (id offset : Nat) (data : Bytes) : Fs H Rows P Nat := do
  match ← scratchHandle id with
  | some h => writeScratch cfg h offset data
  | none => do
    let h ← handle id
    require (h.writable = true) (.errno .EBADF)
    let bytes ← ofOption .overflow (splice h.bytes offset data)
    modifyHandle id fun h => { h with bytes := bytes, dirty := true }
    pure data.length

/-- WRITE as the host's NFS mount makes it: staged only when its FLUSH would
land now. -/
def writeChecked (id offset : Nat) (data : Bytes) : Fs H Rows P Nat := do
  match ← scratchHandle id with
  | some h => writeScratch cfg h offset data
  | none => do
    let h ← handle id
    require (h.writable = true) (.errno .EBADF)
    let bytes ← ofOption .overflow (splice h.bytes offset data)
    if bytes = h.bytes then pure data.length
    else do
      let checked ← Req.read fun w => do
        (check cfg.env w.db.store cfg.scope.propose
          [⟨h.path, h.base, .write bytes h.mode⟩]).mapError fun r => errnoFor (.refused r)
        agree cfg w.db.store h.path h.base h.earlier bytes
      Req.ofExcept (checked.mapError .errno)
      modifyHandle id fun h => { h with bytes := bytes, dirty := true }
      pure data.length

/-- The handle serves other bytes, and remembers the read they replace. -/
def Handle.reload (base : Base H) (bytes : Bytes) (h : Handle H) : Handle H :=
  { h with
    earlier := match h.base with
      | .blob served => h.earlier.remember served base
      | _ => h.earlier
    base := base
    bytes := bytes }

/-- REREAD: a handle with nothing staged takes the blob its path holds now. -/
def reread (id : Nat) : Fs H Rows P Unit := do
  match ← scratchHandle id with
  | some _ => pure ()
  | none => do
    let h ← handle id
    if h.dirty then pure ()
    else do
      modifyHandle id fun h => { h with earlier := { h.earlier with reread := true } }
      let (base, bytes) ← ofOption (.errno .ENOENT) (← held h.path)
      if base = h.base then pure () else modifyHandle id (Handle.reload base bytes)

def settle (id : Nat) : Fs H Rows P Unit := do
  match ← scratchHandle id with
  | some _ => pure ()
  | none => do
    let _ ← handle id
    modifyHandle id fun h => { h with earlier := h.earlier.clear }

def baseBytes : Base H → Fs H Rows P Bytes
  | .blob blob => do
    ofOption (.errno .EIo) (← Req.read fun w => w.db.store.blobBytes blob)
  | _ => pure []

/-- DISCARD: drop what the handle staged and serve its base's bytes again. -/
def discard (id : Nat) : Fs H Rows P Unit := do
  match ← scratchHandle id with
  | some _ => pure ()
  | none => do
    let h ← handle id
    let bytes ← baseBytes h.base
    modifyHandle id fun h => { h with bytes := bytes, mode := none, dirty := false }

/-- RELEASE: drops the handle and any bytes no FLUSH landed. -/
def release (id : Nat) : Fs H Rows P Unit :=
  update fun w => { w with
    handles := w.handles.erase id, scratchHandles := w.scratchHandles.erase id }

/-! ## Landing -/

def Handle.landed (base : Base H) (merged : Option Bytes) (h : Handle H) : Handle H :=
  { h with
    bytes := merged.getD h.bytes
    base := base
    earlier := h.earlier.landed h.base base
    mode := none
    dirty := false }

/-- FLUSH and FSYNC: propose the handle's staged bytes against its base. -/
def commit (id : Nat) : Fs H Rows P Unit := do
  match ← scratchHandle id with
  | some _ => pure ()
  | none => do
    let h ← handle id
    if h.dirty then
      let (base, merged) ← land cfg h.path h.base h.earlier h.bytes h.mode
      modifyHandle id (Handle.landed base merged)
    else pure ()

def flush (id : Nat) : Fs H Rows P Unit := commit cfg id

def fsync (id : Nat) : Fs H Rows P Unit := commit cfg id

def mayPropose (kind : Kind) (path : Path) : Bool :=
  if kind = .directory then cfg.scope.mayProposeUnder path else cfg.scope.propose.covers path

variable (path : Path)

def setScratchMode (kind : Kind) : Option Nat → Fs H Rows P Unit
  | some bits => if kind = .symlink then pure () else scratchCall (P.scratch.chmod path bits)
  | none => pure ()

/-- The size of a derived path, set on its handle when the request names one. -/
def setScratchSize (kind : Kind) (id : Option Nat) :
    Option Nat → Fs H Rows P Unit
  | none => pure ()
  | some size => do
    require (kind ≠ .directory) (.errno .EISDIR)
    match ← Req.read fun w => id.bind (w.scratchHandles[·]?) with
    | some h => do
      require (h.writable = true) (.errno .EBADF)
      scratchCall (P.scratch.setLen h.file size)
    | none => setScratchLen path size

def setattrScratch (stat : ScratchStat) (id : Option Nat) (set : SetAttr) : Fs H Rows P Unit :=
  if set.mode = none ∧ set.size = none then pure ()
  else do
    require (mayPropose cfg stat.kind path = true) (.errno .EACCES)
    scratch cfg
    setScratchMode path stat.kind set.mode
    setScratchSize path stat.kind id set.size

def writableHandle (id : Option Nat) : Fs H Rows P (Option Nat) :=
  Req.read fun w => id.filter fun id => w.handles[id]?.any (·.writable)

/-- A SETATTR of the mode: staged on a write handle, else a proposal, else kept
for a file not landed yet. -/
def setMode (id : Option Nat) (bits : Nat) : Fs H Rows P Unit := do
  let mode : Mode := if bits &&& 0o111 ≠ 0 then .executable else .regular
  let stat ← ofOption (.errno .ENOENT) (← servePath cfg path)
  if stat.kind ≠ .file then pure ()
  else do
    require (cfg.scope.propose.covers path = true) (.errno .EACCES)
    match ← writableHandle id with
    | some id => modifyHandle id fun h => { h with mode := some mode, dirty := true }
    | none =>
      if stat.mode = some mode then pure ()
      else do
        match ← ofOption (.errno .ENOENT) (← held path) with
        | (.blob blob, bytes) => do
          let _ ← propose cfg [⟨path, .blob blob, .write bytes (some mode)⟩]
        | _ => do
          update fun w => { w with session := { w.session with
            pendingModes := w.session.pendingModes.insert path mode } }
          touch cfg path

/-- A SETATTR of the size: staged on the handle, or a proposal of its own. -/
def setSize (id : Option Nat) (size : Nat) : Fs H Rows P Unit := do
  let a ← attr cfg path
  require (a.kind ≠ .directory) (.errno .EISDIR)
  match id with
  | some id => do
    let h ← handle id
    require (h.writable = true) (.errno .EBADF)
    let bytes ← ofOption .overflow (resize h.bytes size)
    modifyHandle id fun h => { h with bytes := bytes, dirty := true }
  | none => do
    require (cfg.scope.propose.covers path = true) (.errno .EACCES)
    let (base, bytes) ← ofOption (.errno .ENOENT) (← held path)
    let bytes ← ofOption .overflow (resize bytes size)
    let _ ← land cfg path base {} bytes none

def setattr (inode : Nat) (id : Option Nat) (set : SetAttr) : Fs H Rows P (Attr × Duration) := do
  let path ← pathOf inode
  require (set.uid = none ∧ set.gid = none) (.errno .EPERM)
  match ← whereis cfg path with
  | .scratch stat => do
    setattrScratch cfg path stat id set
    getattr cfg inode id
  | _ => do
    set.mode.elim (pure ()) (setMode cfg path id)
    set.size.elim (pure ()) (setSize cfg path id)
    getattr cfg inode id

/-! ## Changing the tree -/

def requireAbsent : Fs H Rows P Unit := do
  match ← whereis cfg path with
  | .absent => pure ()
  | _ => refuse .EEXIST

def symlink (parent : Nat) (name target : Bytes) : Fs H Rows P Entry := do
  let path ← child cfg parent name
  requireAbsent cfg path
  require (cfg.scope.propose.covers path = true) (.errno .EACCES)
  if ← derivedNew cfg path false then do
    scratch cfg
    scratchCall (P.scratch.symlink target path)
    entry cfg path
  else do
    let _ ← propose cfg [⟨path, .absent, .write target (some .symlink)⟩]
    entry cfg path

/-- CREATE: a new file, and a handle whose base is "no file". -/
def create (parent : Nat) (name : Bytes) (flags : Nat) : Fs H Rows P (Entry × Nat) := do
  let path ← child cfg parent name
  requireAbsent cfg path
  require (cfg.scope.propose.covers path = true) (.errno .EACCES)
  if ← derivedNew cfg path false then do
    let id ← openScratch cfg path flags true
    let e ← entry cfg path
    tell e.attr
    pure (e, id)
  else do
    update fun w => { w with
      session := { w.session with pending := w.session.pending.insert path [] } }
    touch cfg path
    let id ← newHandle ⟨path, .absent, {}, [], none, true, isWrite flags⟩
    let e ← entry cfg path
    tell e.attr
    pure (e, id)

def mkdir (parent : Nat) (name : Bytes) : Fs H Rows P Entry := do
  let path ← child cfg parent name
  requireAbsent cfg path
  require (cfg.scope.mayProposeUnder path = true) (.errno .EACCES)
  if ← derivedNew cfg path true then do
    scratch cfg
    scratchCall (P.scratch.mkdir path)
    entry cfg path
  else do
    let _ ← propose cfg [⟨path, .absent, .mkdir⟩]
    entry cfg path

def findPath : Fs H Rows P (Kind × Bool) := do
  match ← whereis cfg path with
  | .absent => refuse .ENOENT
  | .stored stat => pure (stat.kind, false)
  | .scratch stat => pure (stat.kind, true)

/-- UNLINK: a delete against the blob the file holds; a file not landed yet
leaves the session. -/
def unlink (parent : Nat) (name : Bytes) : Fs H Rows P Unit := do
  let path ← child cfg parent name
  let (kind, inScratch) ← findPath cfg path
  require (kind ≠ .directory) (.errno .EISDIR)
  require (cfg.scope.propose.covers path = true) (.errno .EACCES)
  if inScratch then do
    scratch cfg
    scratchCall (P.scratch.unlink path)
  else do
    match ← held path with
    | some (.blob blob, _) => do
      let _ ← propose cfg [⟨path, .blob blob, .delete⟩]
    | _ => do
      forgetPending path
      touch cfg path

/-- The empty directory scratch made beside a stored one goes with it. -/
def dropScratchDir : Fs H Rows P Unit := do
  if ← Req.read (·.scratchMade) then
    match ← attempt (scratchCall (P.scratch.stat path)) with
    | .ok (some _) => do
      let _ ← attempt (scratchCall (P.scratch.rmdir path))
    | _ => pure ()
  else pure ()

def rmdir (parent : Nat) (name : Bytes) : Fs H Rows P Unit := do
  let path ← child cfg parent name
  let (kind, inScratch) ← findPath cfg path
  require (kind = .directory) (.errno .ENOTDIR)
  let names ← listing cfg path
  require (names.isEmpty = true) (.errno .ENOTEMPTY)
  require (cfg.scope.mayProposeUnder path = true) (.errno .EACCES)
  if inScratch then do
    scratch cfg
    scratchCall (P.scratch.rmdir path)
  else do
    let _ ← propose cfg [⟨path, .any, .rmdir⟩]
    dropScratchDir path

end Requests

end LeyLine.StoreFs
