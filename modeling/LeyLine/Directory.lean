import LeyLine.Tree

/-!
# The source directory as a pass reads it

A pass reads the directory through four calls: `symlink_metadata`, `read`,
`read_link` and one walk. `Directory` packs their answers for one state of the
directory, keyed by the path below the source root. Nothing else of a file
system matters to a pass, and no law relates the answers to each other except
what a walk of a tree always satisfies: it reaches an entry through the
directories above it (`Walked`).
-/

namespace LeyLine

/-- The file types `symlink_metadata` tells apart; `other` is a socket, a fifo
or a device. -/
inductive FileType where
  | file
  | dir
  | symlink
  | other
  deriving Repr, DecidableEq

/-- The metadata of one path, the last component not followed. -/
structure Metadata where
  fileType : FileType
  perm : Nat
  mtime : Int
  len : Nat
  deriving Repr, DecidableEq

/-- What `symlink_metadata` answers. -/
inductive Lookup where
  | found (m : Metadata)
  | notFound
  | failed
  deriving Repr, DecidableEq

/-- The `(mtime, size)` pair the walk records for a file. -/
def statOf (m : Metadata) : Stat := (m.mtime, m.len)

def diskMode (m : Metadata) : Mode :=
  if m.fileType = .symlink then .symlink
  else if m.perm &&& 0o111 ≠ 0 then .executable
  else .regular

/-- Everything one walk of a source tree finds: regular files, symlinks (never
followed) and directories below the root. The walk descends from the root
through directories it lists, so what lies above an entry is a listed directory
and every path is plain. -/
structure Walked where
  files : List Path
  symlinks : List Path
  dirs : List Path
  plain : ∀ p, p ∈ files ∨ p ∈ symlinks ∨ p ∈ dirs → plainRelative p = true
  above : ∀ d p, p ∈ files ∨ p ∈ symlinks ∨ p ∈ dirs → Under d p → d ∈ dirs
  disjoint : ∀ d ∈ dirs, d ∉ files ∧ d ∉ symlinks

/-- One state of the source directory. A read that fails carries the system's
message; `walkTree` is `none` when the walk fails. -/
structure Directory where
  isDir : Bool
  symlinkMetadata : Path → Lookup
  read : Path → Except String Bytes
  readLink : Path → Option Bytes
  walkTree : Option Walked

end LeyLine
