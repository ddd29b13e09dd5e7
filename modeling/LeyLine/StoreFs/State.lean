import LeyLine.SourceWrite
import LeyLine.Lib.Request

/-!
# The store-backed filesystem: its state and what it is configured with

A session holds what the store does not hold yet: the handles with their staged
bytes, the created files that have not landed, inode numbers, what the guest was
told, and the scratch directory of derived paths.

The scratch directory, the attached checkout and the ignore rules are the host's
and third parties'; they are parameters, as is the clock. Each reading of the
clock and each proposal takes the next tick, so that time and the surroundings
may differ at every one of them.
-/

namespace LeyLine.StoreFs

/-- A Linux errno value. -/
structure Errno where
  code : Int
  deriving Repr, DecidableEq

namespace Errno

def EPERM : Errno := ⟨1⟩
def ENOENT : Errno := ⟨2⟩
def EIo : Errno := ⟨5⟩
def EBADF : Errno := ⟨9⟩
def EACCES : Errno := ⟨13⟩
def EEXIST : Errno := ⟨17⟩
def EXDEV : Errno := ⟨18⟩
def ENOTDIR : Errno := ⟨20⟩
def EISDIR : Errno := ⟨21⟩
def EINVAL : Errno := ⟨22⟩
def ENOTEMPTY : Errno := ⟨39⟩
def ESTALE : Errno := ⟨116⟩

end Errno

/-- How a request fails: with an errno, or by an arithmetic or capacity overflow
that aborts it. -/
inductive Fault where
  | errno (e : Errno)
  | overflow
  deriving Repr, DecidableEq

/-- Durations and times, in nanoseconds. -/
abbrev Duration := Nat

inductive Kind where
  | file
  | directory
  | symlink
  deriving Repr, DecidableEq

/-- What a guest may see and what it may propose. -/
structure Scope where
  see : Grant
  propose : Grant
  deriving Repr, DecidableEq

structure Freshness where
  settled : Duration
  changed : Duration
  window : Duration
  deriving Repr, DecidableEq

structure Attr where
  inode : Nat
  kind : Kind
  size : Nat
  perm : Nat
  mtime : Duration
  deriving Repr, DecidableEq

/-- A LOOKUP reply: the node and how long it may be cached. -/
structure Entry where
  attr : Attr
  ttl : Duration
  deriving Repr, DecidableEq

structure DirEntry where
  inode : Nat
  offset : Nat
  kind : Kind
  name : Path
  deriving Repr, DecidableEq

/-- An OPEN reply. -/
structure Opened where
  handle : Nat
  keepCache : Bool
  directIo : Bool
  deriving Repr, DecidableEq

structure SetAttr where
  size : Option Nat := none
  mode : Option Nat := none
  uid : Option Nat := none
  gid : Option Nat := none
  deriving Repr, DecidableEq

/-- A node as the store and the session hold it. -/
structure Stat (H : Type) where
  kind : Kind
  size : Nat
  blob : Option H
  mode : Option Mode
  deriving Repr, DecidableEq

structure ScratchStat where
  kind : Kind
  size : Nat
  perm : Nat
  mtime : Duration
  deriving Repr, DecidableEq

/-! ## What the host and third parties provide -/

/-- The calls on a scratch directory, each of which may fail with an errno and
may change it. `File` is an open file of it. -/
structure ScratchOps (Scratch File : Type) where
  create : Req Errno Scratch Unit
  stat : Path → Req Errno Scratch (Option ScratchStat)
  list : Path → Req Errno Scratch (List (Path × Kind))
  openAt : Path → Nat → Nat → Req Errno Scratch File
  mkdir : Path → Req Errno Scratch Unit
  symlink : Bytes → Path → Req Errno Scratch Unit
  readlink : Path → Req Errno Scratch Bytes
  unlink : Path → Req Errno Scratch Unit
  rmdir : Path → Req Errno Scratch Unit
  rename : Path → Path → Req Errno Scratch Unit
  chmod : Path → Nat → Req Errno Scratch Unit
  write : File → Nat → Bytes → Req Errno Scratch Unit
  setLen : File → Nat → Req Errno Scratch Unit
  statFile : File → Req Errno Scratch ScratchStat
  readExactAt : File → Nat → Nat → Req Errno Scratch Bytes

/-- What compiled ignore rules say of a path. -/
inductive IgnoreMatch where
  | none
  | ignore
  | whitelist
  deriving Repr, DecidableEq

/-- The host side of a filesystem: scratch, and the ignore-rule engine. -/
structure Platform where
  Scratch : Type
  File : Type
  Rules : Type
  scratch : ScratchOps Scratch File
  compileRules : Bytes → Option Rules
  matchedPathOrAnyParents : Rules → Path → Bool → IgnoreMatch

/-- `open(2)` flags. -/
def oAccmode : Nat := 0o3
def oRdonly : Nat := 0o0
def oWronly : Nat := 0o1
def oRdwr : Nat := 0o2
def oCreat : Nat := 0o100
def oExcl : Nat := 0o200
def oTrunc : Nat := 0o1000

/-- `renameat2(2)` flags. -/
def renameNoreplace : Nat := 1

/-- One hunk of a line diff. -/
structure LineChange where
  src : LineRange
  dst : LineRange
  deriving Repr, DecidableEq

/-- One reading of the clock: monotonic and wall time. -/
structure Reading where
  now : Duration
  wall : Duration

/-- A checkout the landed proposals are materialized into, as it is at one tick:
why it refuses a proposal given what the store holds, what its reconcile of a
list of paths leaves in the database, and its own files. -/
structure Checkout (H Rows : Type) where
  refuses : (Path → Bool) → List (Proposed H) → Option Errno
  reconcile : List Path → Db H Rows → Db H Rows
  readFile : Path → Option Bytes

structure Config (H Lang Rows : Type) (P : Platform) where
  env : Env H Lang Rows
  surroundings : Nat → Int × (Path → Directory)
  clock : Nat → Reading
  origin : Duration
  scope : Scope
  freshness : Freshness
  derived : Bool
  checkout : Option (Nat → Checkout H Rows)
  changedLines : Bytes → Bytes → List LineChange

def Config.envAt {H Lang Rows : Type} {P : Platform} (cfg : Config H Lang Rows P) (tick : Nat) :
    Env H Lang Rows :=
  { cfg.env with now := (cfg.surroundings tick).1, fs := (cfg.surroundings tick).2 }

/-! ## The session -/

def maxRememberedReads : Nat := 32

/-- A reread handle's earlier reads. -/
structure Reads (H : Type) where
  blobs : List H := []
  complete : Bool := true
  reread : Bool := false
  deriving Repr, DecidableEq

namespace Reads

variable {H : Type} [DecidableEq H]

/-- Remember a blob, unless it is remembered already or is the base. -/
def remember (r : Reads H) (blob : H) (base : Base H) : Reads H :=
  if blob ∈ r.blobs ∨ base = .blob blob then r
  else if r.blobs.length = maxRememberedReads then { r with complete := false }
  else { r with blobs := r.blobs ++ [blob] }

/-- After a save landed over `replaced`: a reread handle keeps it. -/
def landed (r : Reads H) (replaced landed : Base H) : Reads H :=
  if r.reread then
    let r := match replaced with
      | .blob replaced => r.remember replaced landed
      | _ => r
    match landed with
    | .blob landed => { r with blobs := r.blobs.filter (· ≠ landed) }
    | _ => r
  else r

def clear (r : Reads H) : Reads H := { r with blobs := [], complete := true }

def isEmpty (r : Reads H) : Bool := r.blobs.isEmpty && r.complete

end Reads

/-- One open: what it read, the bytes it serves and stages, and whether those
bytes are still to be proposed. -/
structure Handle (H : Type) where
  path : Path
  base : Base H
  earlier : Reads H
  bytes : Bytes
  mode : Option Mode
  dirty : Bool
  writable : Bool
  deriving Repr, DecidableEq

/-- What the session holds that the store does not yet: the files created and
not landed, and the modes given to them by path. -/
structure Session where
  pending : Std.ExtTreeMap Path Bytes := ∅
  pendingModes : Std.ExtTreeMap Path Mode := ∅

/-- Inode numbers, stable per path; a rename carries the inode along. -/
structure Inodes where
  byPath : Std.ExtTreeMap Path Nat
  byInode : Std.ExtTreeMap Nat Path
  next : Nat

def rootInode : Nat := 1

namespace Inodes

def initial : Inodes :=
  ⟨(∅ : Std.ExtTreeMap Path Nat).insert [] rootInode,
    (∅ : Std.ExtTreeMap Nat Path).insert rootInode [], rootInode + 1⟩

/-- The inode of `src` now names `dst`. -/
def rename (n : Inodes) (src dst : Path) : Inodes :=
  match n.byPath[src]? with
  | none => n
  | some inode =>
    let byPath := n.byPath.erase src
    let byInode := match byPath[dst]? with
      | some replaced => n.byInode.erase replaced
      | none => n.byInode
    { n with byPath := byPath.insert dst inode, byInode := byInode.insert inode dst }

/-- `rename` of a path and of every path under it. -/
def renameTree (n : Inodes) (src dst : Path) : Inodes :=
  let under := n.byPath.keys.filter fun p => (src ++ ['/']).isPrefixOf p
  under.foldl (fun n p => n.rename p (dst ++ p.drop src.length)) (n.rename src dst)

end Inodes

/-- What a path was when it was last served. -/
abbrev Seen (H : Type) := Option (Kind × Option H)

/-- What the guest was told. -/
structure Served (H : Type) where
  seen : Std.ExtTreeMap Path (Seen H) := ∅
  changed : Std.ExtTreeMap Path Duration := ∅
  pages : Std.ExtTreeMap Nat H := ∅
  listings : Std.ExtTreeMap Nat (List (Path × Kind)) := ∅
  told : Std.ExtTreeMap Nat Nat := ∅
  times : Std.ExtTreeMap Path Duration := ∅

/-- The directory a path is in; the root is `""`. -/
def dirName (p : Path) : Path := (dirOf p).getD []

def withParent (p : Path) : List Path := if p = [] then [p] else [p, dirName p]

namespace Served

variable {H : Type}

def touch (s : Served H) (path : Path) (wall origin : Duration) : Served H :=
  { s with
    times := (withParent path).foldl
      (fun times p => times.insert p (max wall ((times[p]?.getD origin) + 1))) s.times }

def recordChange (s : Served H) (path : Path) (now wall origin : Duration) : Served H :=
  touch { s with changed := (withParent path).foldl (fun m p => m.insert p now) s.changed } path
    wall origin

end Served

/-- One open of a scratch file. -/
structure ScratchHandle (File : Type) where
  file : File
  writable : Bool

/-- The store, and everything one filesystem keeps. `scratch` is the host's side
of the scratch directory and `scratchMade` whether it was made. -/
structure World (H Rows : Type) (P : Platform) where
  db : Db H Rows
  inodes : Inodes
  handles : Std.ExtTreeMap Nat (Handle H)
  nextHandle : Nat
  session : Session
  served : Served H
  scratch : P.Scratch
  scratchMade : Bool
  scratchHandles : Std.ExtTreeMap Nat (ScratchHandle P.File)
  ignores : Std.ExtTreeMap Path (Option P.Rules)
  ticks : Nat

def World.initial {H Rows : Type} {P : Platform} (db : Db H Rows) (scratch : P.Scratch) :
    World H Rows P where
  db := db
  inodes := .initial
  handles := ∅
  nextHandle := 1
  session := {}
  served := {}
  scratch := scratch
  scratchMade := false
  scratchHandles := ∅
  ignores := ∅
  ticks := 0

end LeyLine.StoreFs
