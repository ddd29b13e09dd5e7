import LeyLine.Lib.Steps
import LeyLine.Tree

/-!
# The messages of a workspace share

`runtime/src/backends/libkrun/share/mod.rs`: the FUSE requests a guest sends and the
replies a service gives, and the structures of `capnp/share.capnp` that carry them in a
frame's header. A field of a Cap'n Proto structure that was never set reads as its
default, which here is zero.
-/

namespace LeyLine.Share

/-! ## Requests and replies -/

/-- A span of time; the standard library keeps the nanoseconds under one second. -/
structure Duration where
  secs : UInt64
  nanos : UInt32
  nanos_lt : nanos < 1000000000
  deriving DecidableEq

/-- A node's attributes, as `stat` reports them to the guest. -/
structure Attr where
  inode : UInt64
  mode : UInt32
  nlink : UInt32
  size : UInt64
  blocks : UInt64
  blksize : UInt32
  atime : Duration
  mtime : Duration
  ctime : Duration
  deriving DecidableEq

/-- The answer to a lookup; inode 0 says that the name does not exist. -/
structure Entry where
  inode : UInt64
  attr : Attr
  entryTtl : Duration
  attrTtl : Duration
  deriving DecidableEq

structure DirEntry where
  inode : UInt64
  offset : UInt64
  kind : UInt32
  name : Bytes
  deriving DecidableEq

inductive Request where
  | init
  | lookup (parent : UInt64) (name : Bytes)
  | getattr (inode : UInt64) (handle : Option UInt64)
  | setattr (inode : UInt64) (handle size : Option UInt64) (mode uid gid : Option UInt32)
  | mkdir (parent : UInt64) (name : Bytes)
  | unlink (parent : UInt64) (name : Bytes)
  | rmdir (parent : UInt64) (name : Bytes)
  | rename (olddir : UInt64) (oldname : Bytes) (newdir : UInt64) (newname : Bytes) (flags : UInt32)
  | open (inode : UInt64) (flags : UInt32)
  | create (parent : UInt64) (name : Bytes) (flags : UInt32)
  | read (handle offset : UInt64) (size : UInt32)
  | write (handle offset : UInt64) (data : Bytes)
  | flush (handle : UInt64)
  | fsync (handle : UInt64)
  | release (handle : UInt64)
  | opendir (inode : UInt64)
  | readdir (inode offset : UInt64)
  | readdirplus (inode offset : UInt64)
  | symlink (parent : UInt64) (name target : Bytes)
  | readlink (inode : UInt64)
  deriving DecidableEq

inductive Reply where
  | error (errno : Int32)
  | init (want : UInt64)
  | entry (entry : Entry)
  | attr (attr : Attr) (ttl : Duration)
  | opened (handle : UInt64) (flags : UInt32)
  | created (entry : Entry) (handle : UInt64) (flags : UInt32)
  | data (data : Bytes)
  | written (size : UInt32)
  | done
  | dir (entries : List DirEntry)
  | dirPlus (entries : List (DirEntry × Entry))
  deriving DecidableEq

/-- What the device answers when the service cannot be reached: Linux `EIO`. -/
def linuxEio : Int32 := 5

def maxFrame : Nat := 64 * 2 ^ 20

/-! ## The schema -/

namespace Wire

structure Time where
  secs : UInt64 := 0
  nanos : UInt32 := 0
  deriving DecidableEq

structure OptionalU64 where
  set : Bool := false
  value : UInt64 := 0
  deriving DecidableEq

structure OptionalU32 where
  set : Bool := false
  value : UInt32 := 0
  deriving DecidableEq

structure Attr where
  inode : UInt64 := 0
  mode : UInt32 := 0
  nlink : UInt32 := 0
  size : UInt64 := 0
  blocks : UInt64 := 0
  blksize : UInt32 := 0
  atime : Time := {}
  mtime : Time := {}
  ctime : Time := {}
  deriving DecidableEq

structure Entry where
  inode : UInt64 := 0
  attr : Attr := {}
  entryTtl : Time := {}
  attrTtl : Time := {}
  deriving DecidableEq

structure DirEntry where
  inode : UInt64 := 0
  offset : UInt64 := 0
  kind : UInt32 := 0
  name : Bytes := []
  deriving DecidableEq

structure DirPlusEntry where
  dir : DirEntry := {}
  entry : Entry := {}
  deriving DecidableEq

structure Name where
  parent : UInt64 := 0
  name : Bytes := []
  deriving DecidableEq

structure Getattr where
  inode : UInt64 := 0
  handle : OptionalU64 := {}
  deriving DecidableEq

structure Setattr where
  inode : UInt64 := 0
  handle : OptionalU64 := {}
  size : OptionalU64 := {}
  mode : OptionalU32 := {}
  uid : OptionalU32 := {}
  gid : OptionalU32 := {}
  deriving DecidableEq

structure Rename where
  olddir : UInt64 := 0
  oldname : Bytes := []
  newdir : UInt64 := 0
  newname : Bytes := []
  flags : UInt32 := 0
  deriving DecidableEq

structure Open where
  inode : UInt64 := 0
  flags : UInt32 := 0
  deriving DecidableEq

structure Create where
  parent : UInt64 := 0
  name : Bytes := []
  flags : UInt32 := 0
  deriving DecidableEq

structure Read where
  handle : UInt64 := 0
  offset : UInt64 := 0
  size : UInt32 := 0
  deriving DecidableEq

structure Write where
  handle : UInt64 := 0
  offset : UInt64 := 0
  deriving DecidableEq

structure Listing where
  inode : UInt64 := 0
  offset : UInt64 := 0
  deriving DecidableEq

structure Symlink where
  parent : UInt64 := 0
  name : Bytes := []
  target : Bytes := []
  deriving DecidableEq

/-- A request's union; a member of a newer schema is known by its number only. -/
inductive Request where
  | init
  | lookup (r : Name)
  | getattr (r : Getattr)
  | setattr (r : Setattr)
  | mkdir (r : Name)
  | unlink (r : Name)
  | rmdir (r : Name)
  | rename (r : Rename)
  | open (r : Open)
  | create (r : Create)
  | read (r : Read)
  | write (r : Write)
  | flush (handle : UInt64)
  | fsync (handle : UInt64)
  | release (handle : UInt64)
  | opendir (inode : UInt64)
  | readdir (r : Listing)
  | readdirplus (r : Listing)
  | symlink (r : Symlink)
  | readlink (inode : UInt64)
  | unknown (tag : UInt16)
  deriving DecidableEq

structure AttrReply where
  attr : Attr := {}
  ttl : Time := {}
  deriving DecidableEq

structure Opened where
  handle : UInt64 := 0
  flags : UInt32 := 0
  deriving DecidableEq

structure Created where
  entry : Entry := {}
  handle : UInt64 := 0
  flags : UInt32 := 0
  deriving DecidableEq

inductive Reply where
  | error (errno : Int32)
  | init (want : UInt64)
  | entry (r : Entry)
  | attr (r : AttrReply)
  | opened (r : Opened)
  | created (r : Created)
  | data
  | written (size : UInt32)
  | done
  | dir (r : List DirEntry)
  | dirPlus (r : List DirPlusEntry)
  | unknown (tag : UInt16)
  deriving DecidableEq

end Wire

end LeyLine.Share
