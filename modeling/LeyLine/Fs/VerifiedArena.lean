import LeyLine.Arena
import LeyLine.Inclusion
import LeyLine.Lib.Bitmap
import LeyLine.Lib.Pool

/-!
# Verify-on-fault

`VerifiedArena` of `fs/src/verified.rs`: the arena payload, mapped, behind a gate of 1 KiB
pages. A page not yet verified in this session is copied from the mapping, the copy checked
against the root the arena was opened with, its bit set, and the copy served; a page whose
bit is set is served from the mapping. A read faults all its pages before it writes to its
destination.

Reads and page checks interleave, and anything may write to the mapping at any time: each
step of a caller takes the bytes written before it (`Pokes`). A page is copied a byte at a
step.
-/

namespace LeyLine.Fs

variable {CV Hash : Type}

/-- The session. `data` is the payload's part of the mapping as it is now, `hashed` the pages
`verify_chunk` was called on so far. -/
structure VerifiedArena (CV Hash : Type) where
  data : Bytes
  dataLen : Nat
  root : Hash
  outboard : Outboard CV Hash
  verified : List (BitVec 64)
  hashed : List Nat
  failures : Nat

/-- Bytes written to the mapping. -/
abbrev Pokes := List (Nat × UInt8)

inductive OpenError (Hash : Type) where
  | header (error : ArenaHeaderError)
  | dataSize (dataLen bufSize : Nat)
  | noRoot (dataLen : Nat)
  | rootMismatch (expected : Hash) (got : Option Hash)

/-- Why a page is refused. -/
inductive Refusal where
  | outOfRange (index pages : Nat)
  | unproven (index : Nat) (error : String)
  | mismatch (index : Nat) (error : String)

/-- What a page is faulted for. -/
inductive Job where
  | read (offset : Nat) (buf : Bytes)
  | verify (index : Nat)

/-- Where a caller stands. `dest` is the destination of a read as it is now. -/
inductive Fault where
  | readAt (offset : Nat) (buf : Bytes)
  | verifyPage (index : Nat)
  | faulting (job : Job) (index : Nat) (snapshots : List (Nat × Bytes))
  | copying (job : Job) (index : Nat) (snapshots : List (Nat × Bytes)) (taken : Bytes)
  | checking (job : Job) (index : Nat) (snapshots : List (Nat × Bytes)) (snapshot : Bytes)
  | marking (job : Job) (index : Nat) (snapshots : List (Nat × Bytes)) (snapshot : Bytes)
  | serving (offset : Nat) (buf : Bytes) (index : Nat) (snapshots : List (Nat × Bytes))
      (dest : Bytes)
  | served (offset : Nat) (buf : Bytes) (snapshots : List (Nat × Bytes)) (dest : Bytes)
      (count : Nat)
  | checked (index : Nat)
  | refused (job : Job) (dest : Bytes) (why : Refusal)

def Job.buf : Job → Bytes
  | .read _ buf => buf
  | .verify _ => []

namespace VerifiedArena

variable (a : VerifiedArena CV Hash)

def pages : Nat := chunkCount a.dataLen

def pageStart (index : Nat) : Nat := index * chunkLen

def pageStop (index : Nat) : Nat := min (pageStart index + chunkLen) a.dataLen

def readStop (offset : Nat) (buf : Bytes) : Nat := min (offset + buf.length) a.dataLen

def lastPage (offset : Nat) (buf : Bytes) : Nat := (a.readStop offset buf - 1) / chunkLen

def poke (pokes : Pokes) : VerifiedArena CV Hash :=
  { a with data := pokes.foldl (fun data p => data.set p.1 p.2) a.data }

section
variable [DecidableEq Hash] (b : Blake3 CV Hash) (zero : Hash)

/-- Map the arena and check its payload against the root. `zero` is the root of an arena
nothing was published to. -/
def openArena (header : ArenaHeader) (file : Bytes) (root : Hash) :
    Except (OpenError Hash) (VerifiedArena CV Hash) := do
  let offset ← (header.validateHeader file.length).mapError .header
  let bufSize := ArenaHeader.bufferSize file.length
  let dataLen := header.dataSize.toNat
  if bufSize < dataLen then .error (.dataSize dataLen bufSize)
  else if 0 < dataLen ∧ root = zero then .error (.noRoot dataLen)
  else
    let data := (file.drop offset).take dataLen
    let outboard := Outboard.build b data
    if root ≠ zero ∧ outboard.root b ≠ some root then .error (.rootMismatch root (outboard.root b))
    else .ok ⟨data, dataLen, root, outboard, Bitmap.empty (chunkCount dataLen), [], 0⟩

/-- What follows a page that is verified: the next page, or the second pass. -/
def next (job : Job) (index : Nat) (snapshots : List (Nat × Bytes)) : Fault :=
  match job with
  | .verify i => .checked i
  | .read offset buf =>
    if index < a.lastPage offset buf then .faulting job (index + 1) snapshots
    else .serving offset buf (offset / chunkLen) snapshots buf

/-- The gate: a page out of range is refused, and a set bit needs no check. -/
def fault (job : Job) (index : Nat) (snapshots : List (Nat × Bytes)) : Fault :=
  if a.pages ≤ index then .refused job job.buf (.outOfRange index a.pages)
  else if Bitmap.get a.verified index then a.next job index snapshots
  else .copying job index snapshots []

def copy (job : Job) (index : Nat) (snapshots : List (Nat × Bytes)) (taken : Bytes) : Fault :=
  if pageStart index + taken.length < a.pageStop index then
    .copying job index snapshots (taken ++ [a.data.getD (pageStart index + taken.length) 0])
  else .checking job index snapshots taken

def check (job : Job) (index : Nat) (snapshots : List (Nat × Bytes)) (snapshot : Bytes) :
    VerifiedArena CV Hash × Fault :=
  match Outboard.prove b a.outboard index with
  | .error e => (a, .refused job job.buf (.unproven index e))
  | .ok proof =>
    match b.verifyChunk a.root a.dataLen index snapshot proof with
    | .ok () => ({ a with hashed := a.hashed ++ [index] }, .marking job index snapshots snapshot)
    | .error e =>
      ({ a with hashed := a.hashed ++ [index], failures := a.failures + 1 },
        .refused job job.buf (.mismatch index e))

def pageBytes (index : Nat) (snapshots : List (Nat × Bytes)) : Bytes :=
  match snapshots.find? (·.1 == index) with
  | some snapshot => snapshot.2
  | none => (a.data.drop (pageStart index)).take (a.pageStop index - pageStart index)

/-- The part of a page the read asks for, copied to its destination. -/
def serve (offset : Nat) (buf : Bytes) (index : Nat) (snapshots : List (Nat × Bytes))
    (dest : Bytes) : Fault :=
  let lo := max (pageStart index) offset
  let hi := min (a.pageStop index) (a.readStop offset buf)
  let part := ((a.pageBytes index snapshots).drop (lo - pageStart index)).take (hi - lo)
  let dest' := dest.take (lo - offset) ++ (part ++ dest.drop (hi - offset))
  if index < a.lastPage offset buf then .serving offset buf (index + 1) snapshots dest'
  else .served offset buf snapshots dest' (a.readStop offset buf - offset)

def advanceQuiet : Fault → VerifiedArena CV Hash × Fault
  | .readAt offset buf =>
    (a, if a.dataLen ≤ offset ∨ buf = [] then .served offset buf [] buf 0
      else .faulting (.read offset buf) (offset / chunkLen) [])
  | .verifyPage index => (a, .faulting (.verify index) index [])
  | .faulting job index snapshots => (a, a.fault job index snapshots)
  | .copying job index snapshots taken => (a, a.copy job index snapshots taken)
  | .checking job index snapshots snapshot => a.check b job index snapshots snapshot
  | .marking job index snapshots snapshot =>
    ({ a with verified := Bitmap.set a.verified index },
      a.next job index (snapshots ++ [(index, snapshot)]))
  | .serving offset buf index snapshots dest => (a, a.serve offset buf index snapshots dest)
  | t => (a, t)

/-- One step, after what was written to the mapping since the last one. -/
def advance (pokes : Pokes) (a : VerifiedArena CV Hash) (t : Fault) :
    VerifiedArena CV Hash × Fault :=
  (a.poke pokes).advanceQuiet b t

/-- `read_at` or `verify_page`. -/
def program : Pool.Program (VerifiedArena CV Hash) Fault Job Pokes where
  enter
    | .read offset buf => .readAt offset buf
    | .verify index => .verifyPage index
  advance := advance b

end

abbrev World (CV Hash : Type) := Pool (VerifiedArena CV Hash) Fault

end VerifiedArena

end LeyLine.Fs
