import LeyLine.Lib.Assoc
import LeyLine.StoreFs.Session

/-!
# The scratch directory

Derived paths live in a directory of the host. `Scratch` reaches it through the calls
`openat`, `fstatat`, `unlinkat`, `renameat`, `ftruncate` and `pwrite`, and counts the
bytes of its regular files: a write or an extension reserves what it adds, within a
limit, and a removal or a cut releases what it frees.

The directory is a list of names with their nodes; a regular file's bytes belong to its
inode, which an open file keeps when its name goes. The host may fail any call; a failed
`pwrite` may have written a part of its data.
-/

namespace LeyLine.StoreFs

open Req (attempt fail ofOption require update)

namespace Errno

def ENOSPC : Errno := ⟨28⟩
def ELOOP : Errno := ⟨40⟩

end Errno

/-- A regular file. -/
structure Inode where
  bytes : Bytes
  perm : Nat
  deriving Repr, DecidableEq

inductive Node where
  | directory (perm : Nat)
  | symlink (target : Bytes)
  | file (ino : Nat)
  deriving Repr, DecidableEq

/-- An open descriptor: of a regular file, or of a directory. -/
abbrev HostFile := Option Nat

/-- The scratch directory, with how many calls the host has answered. -/
structure Scratch where
  limit : Nat
  used : Nat
  entries : List (Path × Node)
  files : List Inode
  ticks : Nat
  deriving Repr, DecidableEq

/-- What the host decides, call by call: which calls fail, what a failing `pwrite` has
written, and a file's time. The number is the call's; `pwrite` and `ftruncate` are also
given the file's length and what they are asked for. -/
structure Os where
  fault : Nat → Option Errno
  fstatat : Nat → Option Errno
  pwrite : Nat → Nat → Nat → Bytes → Option (Errno × Nat)
  ftruncate : Nat → Nat → Nat → Option Errno
  mtime : Nat → Duration

namespace Scratch

def fresh (limit : Nat) : Scratch := ⟨limit, 0, [], [], 0⟩

variable (s : Scratch)

def entryAt (path : Path) : Option Node := Assoc.get s.entries path

def put (path : Path) (node : Node) : Scratch :=
  { s with entries := (path, node) :: s.entries }

def drop (path : Path) : Scratch :=
  { s with entries := s.entries.filter fun x => x.1 ≠ path }

/-- What is at `src` or under it stands at `dst` or under it. -/
def moveEntry (src dst : Path) (x : Path × Node) : Path × Node :=
  if x.1 = src ∨ (join src []).isPrefixOf x.1 then (movedPath src dst x.1, x.2) else x

def move (src dst : Path) : Scratch :=
  { s with entries := (s.entries.filter fun x => x.1 ≠ dst).map (moveEntry src dst) }

def bytesOf (ino : Nat) : Bytes := (s.files[ino]?.map (·.bytes)).getD []

def setBytes (ino : Nat) (bytes : Bytes) : Scratch :=
  { s with files := s.files.modify ino fun f => { f with bytes := bytes } }

/-- The permission bits of an open file, or of the directory at `path`. -/
def setPerm (path : Path) (file : HostFile) (perm : Nat) : Scratch :=
  match file with
  | some ino => { s with files := s.files.modify ino fun f => { f with perm := perm } }
  | none => { s with entries := s.entries.map fun x =>
    if x.1 = path then (x.1, .directory perm) else x }

/-- Whether the directory `path` holds a name. -/
def Occupied (path : Path) : Prop :=
  ∃ x ∈ s.entries, (join path []).isPrefixOf x.1 = true

instance (s : Scratch) (path : Path) : Decidable (s.Occupied path) :=
  inferInstanceAs (Decidable (∃ x ∈ s.entries, _))

end Scratch

/-! ## The host's calls -/

abbrev HostCall (α : Type) := Req Errno Scratch α

def isMissing (e : Errno) : Bool := e = .ENOENT || e = .ENOTDIR

/-- A call the host may fail. That a name is missing is the directory's answer, not a
fault. -/
def sysCall (fault : Nat → Option Errno) : HostCall Unit := fun s =>
  (match (fault s.ticks).filter (!isMissing ·) with
    | some e => .error e
    | none => .ok (), { s with ticks := s.ticks + 1 })

/-- `cname`: a name a directory can hold. -/
def checkName (name : Path) : HostCall Unit :=
  require (name ≠ [] ∧ name ≠ ['.'] ∧ name ≠ ['.', '.'] ∧ '/' ∉ name ∧ '\x00' ∉ name) .EINVAL

variable (os : Os)

/-- `mkdirat` and `symlinkat`: a new name. -/
def putNew (path : Path) (node : Node) : HostCall Unit := do
  sysCall os.fault
  Req.check (fun s => s.entryAt path = none) .EEXIST
  update (·.put path node)

/-- One directory on the way to a path, made if it is missing and `make` says so. -/
def openDir (make : Bool) (dir : Path) : HostCall Unit := do
  checkName (SepPath.lastPart '/' dir)
  sysCall os.fault
  match ← Req.read (·.entryAt dir) with
  | some (.directory _) => pure ()
  | some _ => fail .ENOTDIR
  | none =>
    if make then do
      putNew os dir (.directory 0o755)
      sysCall os.fault
    else fail .ENOENT

def openDirs (os : Os) (make : Bool) : List Path → HostCall Unit
  | [] => pure ()
  | dir :: dirs => do
    openDir os make dir
    openDirs os make dirs

/-- The directory a path's last component is in is opened beneath the root. -/
def parentOf (path : Path) (make : Bool) : HostCall Unit := do
  openDirs os make (parents path)
  checkName (SepPath.lastPart '/' path)

def statOf (s : Scratch) (mtime : Duration) : Node → ScratchStat
  | .directory perm => ⟨.directory, 0, perm &&& 0o777, mtime⟩
  | .symlink target => ⟨.symlink, target.length, 0o777, mtime⟩
  | .file ino =>
    ⟨.file, (s.bytesOf ino).length, ((s.files[ino]?.map (·.perm)).getD 0) &&& 0o777, mtime⟩

def fstatat (path : Path) : HostCall ScratchStat := do
  sysCall os.fstatat
  let found ← Req.read fun s => (s.entryAt path).map (statOf s (os.mtime s.ticks))
  ofOption .ENOENT found

/-- `openat`, never following a symlink; a descriptor of what is there, or of a new empty
file. -/
def openat (path : Path) (flags mode : Nat) : HostCall HostFile := do
  sysCall os.fault
  match ← Req.read (·.entryAt path) with
  | some node =>
    require (flags &&& (oCreat ||| oExcl) ≠ oCreat ||| oExcl) .EEXIST
    match node with
    | .symlink _ => fail .ELOOP
    | .directory _ => do
      require (flags &&& oAccmode = oRdonly) .EISDIR
      pure none
    | .file ino => pure (some ino)
  | none => do
    require (flags &&& oCreat ≠ 0) .ENOENT
    let ino ← Req.read (·.files.length)
    update fun s => { s.put path (.file ino) with files := s.files ++ [⟨[], mode⟩] }
    pure (some ino)

def unlinkat (path : Path) : HostCall Unit := do
  sysCall os.fault
  match ← Req.read (·.entryAt path) with
  | none => fail .ENOENT
  | some (.directory _) => fail .EISDIR
  | some _ => update (·.drop path)

/-- `unlinkat` of a directory, which holds nothing. -/
def rmdirat (path : Path) : HostCall Unit := do
  sysCall os.fault
  match ← Req.read (·.entryAt path) with
  | none => fail .ENOENT
  | some (.directory _) => do
    Req.check (fun s => ¬ s.Occupied path) .ENOTEMPTY
    update (·.drop path)
  | some _ => fail .ENOTDIR

/-- What a rename may replace: nothing, a file by a file, an empty directory by a
directory. -/
def replaceable (node : Node) : Option Node → Except Errno Unit
  | none => .ok ()
  | some target =>
    match node, target with
    | .directory _, .directory _ => .ok ()
    | .directory _, _ => .error .ENOTDIR
    | _, .directory _ => .error .EISDIR
    | _, _ => .ok ()

def renameat (src dst : Path) : HostCall Unit := do
  sysCall os.fault
  let node ← ofOption .ENOENT (← Req.read (·.entryAt src))
  if src = dst then pure () else do
    require ((join src []).isPrefixOf dst = false) .EINVAL
    Req.ofExcept (replaceable node (← Req.read (·.entryAt dst)))
    Req.check (fun s => ¬ s.Occupied dst) .ENOTEMPTY
    update (·.move src dst)

/-- The bytes of a file after `data` is written into them; no data leaves them as they
are. -/
def pwritten (bytes : Bytes) (offset : Nat) (data : Bytes) : Bytes :=
  if data = [] then bytes else
    let stop := offset + data.length
    let padded := resized bytes (max bytes.length stop)
    padded.take offset ++ data ++ padded.drop stop

/-- `write_all_at`: all of the data, or an error after a part of it. Past the largest
offset nothing is written. -/
def writeAllAt (ino offset : Nat) (data : Bytes) : HostCall Unit := do
  if data = [] then pure () else do
    let old ← Req.read (·.bytesOf ino)
    let t ← Req.read (·.ticks)
    update fun s => { s with ticks := s.ticks + 1 }
    require (offset + data.length ≤ isizeMax) .EINVAL
    match os.pwrite t old.length offset data with
    | none => update (·.setBytes ino (pwritten old offset data))
    | some (e, written) => do
      update (·.setBytes ino (pwritten old offset (data.take (min written (data.length - 1)))))
      fail e

/-- `set_len`, for a length the host's offsets reach. -/
def ftruncate (ino size : Nat) : HostCall Unit := do
  let old ← Req.read (·.bytesOf ino)
  let t ← Req.read (·.ticks)
  update fun s => { s with ticks := s.ticks + 1 }
  require (size ≤ isizeMax) .EIo
  match os.ftruncate t old.length size with
  | none => update (·.setBytes ino (resized old size))
  | some e => fail e

/-! ## Scratch -/

def u64Max : Nat := 2 ^ 64 - 1

def reserve (bytes : Nat) : HostCall Unit := do
  Req.check (fun s => min (s.used + bytes) u64Max ≤ s.limit) .ENOSPC
  update fun s => { s with used := s.used + bytes }

def releaseBytes (bytes : Nat) : HostCall Unit :=
  update fun s => { s with used := s.used - bytes }

/-- What removing a name frees: its regular file's bytes, if it can be told. -/
def freedAt (path : Path) : HostCall Nat := do
  match ← attempt (fstatat os path) with
  | .ok stat => pure (if stat.kind = .file then stat.size else 0)
  | .error _ => pure 0

def regular (file : HostFile) : HostCall Nat := ofOption .EBADF file

namespace Scratch

variable (os : Os)

def stat (path : Path) : HostCall (Option ScratchStat) := do
  match ← attempt (do
    parentOf os path false
    fstatat os path) with
  | .ok stat => pure (some stat)
  | .error e => if isMissing e then pure none else fail e

def names (s : Scratch) (dir : Path) : List Path :=
  (s.entries.map (·.1)).filter fun p => dirName p = dir ∧ p ≠ []

variable (path : Path)

def list : HostCall (List (Path × Kind)) := do
  let opened ← attempt (if path = [] then pure () else do
    parentOf os path false
    openDir os false path)
  match opened with
  | .error e => if isMissing e then pure [] else fail e
  | .ok _ => do
    Req.collect (fun p => do
      match ← attempt (fstatat os p) with
      | .ok stat => pure (some (SepPath.lastPart '/' p, stat.kind))
      | .error _ => pure none) (← Req.read (·.names path))

def openAt (flags mode : Nat) : HostCall HostFile := do
  parentOf os path (flags &&& oCreat ≠ 0)
  openat os path flags mode

def mkdir : HostCall Unit := do
  parentOf os path true
  putNew os path (.directory 0o755)

def symlink (target : Bytes) (path : Path) : HostCall Unit := do
  parentOf os path true
  require (0 ∉ target) .EINVAL
  putNew os path (.symlink target)

def readlink : HostCall Bytes := do
  parentOf os path false
  sysCall os.fault
  match ← Req.read (·.entryAt path) with
  | none => fail .ENOENT
  | some (.symlink target) => pure (target.take 4096)
  | some _ => fail .EINVAL

def unlink : HostCall Unit := do
  parentOf os path false
  let freed ← freedAt os path
  unlinkat os path
  releaseBytes freed

def rmdir : HostCall Unit := do
  parentOf os path false
  rmdirat os path

def rename (src dst : Path) : HostCall Unit := do
  parentOf os src false
  parentOf os dst true
  let freed ← freedAt os dst
  renameat os src dst
  releaseBytes freed

def chmod (perm : Nat) : HostCall Unit := do
  parentOf os path false
  let file ← openat os path oRdonly 0
  sysCall os.fault
  update (·.setPerm path file (perm &&& 0o7777))

/-- Write within the limit; a failed write gives back what it reserved. -/
def write (file : HostFile) (offset : Nat) (data : Bytes) : HostCall Unit := do
  sysCall os.fault
  let ino ← regular file
  let size ← Req.read fun s => (s.bytesOf ino).length
  let stop := min (offset + data.length) u64Max
  reserve (stop - size)
  match ← attempt (writeAllAt os ino offset data) with
  | .ok _ => pure ()
  | .error e => do
    releaseBytes (stop - size)
    fail e

def setLen (file : HostFile) (size : Nat) : HostCall Unit := do
  sysCall os.fault
  let ino ← regular file
  let old ← Req.read fun s => (s.bytesOf ino).length
  reserve (size - old)
  ftruncate os ino size
  releaseBytes (old - size)

def statFile (file : HostFile) : HostCall ScratchStat := do
  sysCall os.fault
  Req.read fun s => statOf s (os.mtime s.ticks) (match file with
    | some ino => .file ino
    | none => .directory 0)

def readExactAt (file : HostFile) (offset size : Nat) : HostCall Bytes := do
  sysCall os.fault
  match file with
  | some ino => do
    let bytes ← Req.read fun s => ((s.bytesOf ino).drop offset).take size
    require (bytes.length = size) .EIo
    pure bytes
  | none => do
    require (size = 0) .EISDIR
    pure []

end Scratch

/-- Scratch as the filesystem calls it. Making it uses the fresh directory. -/
def scratchOps : ScratchOps Scratch HostFile where
  create := sysCall os.fault
  stat := Scratch.stat os
  list := Scratch.list os
  openAt := Scratch.openAt os
  mkdir := Scratch.mkdir os
  symlink := Scratch.symlink os
  readlink := Scratch.readlink os
  unlink := Scratch.unlink os
  rmdir := Scratch.rmdir os
  rename := Scratch.rename os
  chmod := Scratch.chmod os
  write := Scratch.write os
  setLen := Scratch.setLen os
  statFile := Scratch.statFile os
  readExactAt := Scratch.readExactAt os

/-- A host with a scratch directory, and an ignore-rule engine. -/
abbrev scratchHost (Rules : Type) (compileRules : Bytes → Option Rules)
    (matched : Rules → Path → Bool → IgnoreMatch) : Platform where
  Scratch := Scratch
  File := HostFile
  Rules := Rules
  scratch := scratchOps os
  compileRules := compileRules
  matchedPathOrAnyParents := matched

end LeyLine.StoreFs
