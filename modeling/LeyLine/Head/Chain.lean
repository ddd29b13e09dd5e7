import LeyLine.Head.Claim
import LeyLine.Lib.Crash

/-!
# Writing the head

`cli-lib/src/cmd_parse.rs`: a parse reads the head the last one left, chains onto it and
replaces it. The new head goes to a temporary file that is renamed over the old one.
Each system call may fail, and the process may stop between any two of them.
-/

namespace LeyLine.Head

variable {Secret Key Message : Type}

/-! ## Replacing a file -/

/-- The head and the file beside it. `heads` is every file the name of the head has
stood for. -/
structure Disk where
  head : Option Bytes
  temp : Option Bytes
  heads : List Bytes

inductive Effect where
  | openTemp
  | writeTemp (chunk : Bytes)
  | rename
  | removeTemp

def Effect.apply : Effect → Disk → Disk
  | .openTemp, d => { d with temp := some [] }
  | .writeTemp chunk, d => { d with temp := d.temp.map (· ++ chunk) }
  | .rename, d =>
    match d.temp with
    | some bytes => { head := some bytes, temp := none, heads := d.heads ++ [bytes] }
    | none => d
  | .removeTemp, d => { d with temp := none }

/-- How the system calls of one replacement end: `writes` are the bytes each `write`
takes, until one fails. -/
structure FileOps where
  opens : Bool
  writes : List Nat
  syncs : Bool
  renames : Bool
  removes : Bool
  resolves : Bool
  syncsDir : Bool

inductive FileError where
  | openTemp
  | writeTemp
  | syncTemp
  | rename
  | resolve
  | syncDir
  deriving DecidableEq, Repr

/-- `write_all`. A `write` that takes nothing is an error. -/
def writeAll : List Nat → Bytes → List Effect × Bool
  | _, [] => ([], true)
  | [], _ | 0 :: _, _ => ([], false)
  | n :: ns, bytes =>
    let rest := writeAll ns (bytes.drop n)
    (.writeTemp (bytes.take n) :: rest.1, rest.2)

/-- The temporary file of a failed replacement is removed, if that works. -/
def FileOps.cleanup (ops : FileOps) : List Effect := if ops.removes then [.removeTemp] else []

def replaceFileAtomically (ops : FileOps) (bytes : Bytes) : List Effect × Except FileError Unit :=
  let written := writeAll ops.writes bytes
  if !ops.opens then (ops.cleanup, .error .openTemp)
  else if !written.2 then (.openTemp :: written.1 ++ ops.cleanup, .error .writeTemp)
  else if !ops.syncs then (.openTemp :: written.1 ++ ops.cleanup, .error .syncTemp)
  else if !ops.renames then (.openTemp :: written.1 ++ ops.cleanup, .error .rename)
  else
    -- the new file is in place whatever follows
    (.openTemp :: written.1 ++ [.rename],
      if !ops.resolves then .error .resolve else if !ops.syncsDir then .error .syncDir else .ok ())

/-! ## Reading the previous head -/

/-- The message format. -/
structure Capnp (Message : Type) where
  readMessage : Bytes → Except CapnpError Message
  getRoot : Message → Except CapnpError Reader
  writeCanonicalMessage : Builder → Except CapnpError Bytes

def Capnp.Lawful (capnp : Capnp Message) : Prop :=
  ∀ b bytes, capnp.writeCanonicalMessage b = .ok bytes →
    ∃ m, capnp.readMessage bytes = .ok m ∧ capnp.getRoot m = .ok b.reader

inductive HeadError where
  | halfStamped
  | segments (e : String)
  | policy (e : String)
  | unreadable
  | notAMessage (e : CapnpError)
  | noHeadRoot (e : CapnpError)
  | noRootHash
  | rootHashLength
  | refused (e : SignatureError)
  | malformedClaim (e : ClaimError)
  | signer (e : String)
  | noClaim
  | encode (e : CapnpError)
  | write (e : FileError)
  deriving DecidableEq, Repr

variable (c : Crypto Secret Key) (capnp : Capnp Message)

def decodeHead (bytes : Bytes) : Except HeadError Reader := do
  let msg ← (capnp.readMessage bytes).mapError .notAMessage
  (capnp.getRoot msg).mapError .noHeadRoot

def previousRoot (h : Reader) : Except HeadError Digest :=
  match h.rootHash with
  | .ok (.ok bytes) => (hashOf bytes).elim (.error .rootHashLength) .ok
  | .ok (.error _) | .error _ => .error .noRootHash

/-- `u64::saturating_add(1)`. -/
def saturatingSucc (g : UInt64) : UInt64 := if g = 0xffffffffffffffff then g else g + 1

/-- What the next head says of the one before: its parent hash, its generation and its
parent digest. -/
structure ChainState where
  parent : Digest
  generation : UInt64
  parentDigest : Option Digest
  deriving DecidableEq

/-- Only a head that does not exist starts a chain. -/
def ChainState.start : ChainState := ⟨zeroHash, 1, none⟩

/-- `read_head_for_chain` of a head that is there. -/
def readHeadBytes (policy : HeadPolicy Key) (bytes : Bytes) : Except HeadError ChainState := do
  let h ← decodeHead capnp bytes
  let prevRoot ← previousRoot h
  let _ ← (enforceSignature c h .chain policy).mapError .refused
  let prevDigest ← (digestOf c h).mapError .malformedClaim
  .ok ⟨prevRoot, saturatingSucc h.generation, prevDigest⟩

/-- `reads` is whether `read` returns the bytes of a file that is there. -/
def readHeadForChain (policy : HeadPolicy Key) (reads : Bool) :
    Option Bytes → Except HeadError ChainState
  | none => .ok .start
  | some bytes => if reads then readHeadBytes c capnp policy bytes else .error .unreadable

/-! ## Writing the next head -/

/-- One parse: what it is called with, what it finds in its environment and in the
segment files, how its system calls end, and after how many effects it is stopped, if it
is. -/
structure Parse (Secret Key : Type) where
  unboundFacts : UInt64
  treeRoot : Digest
  parserId : Digest
  segments : Except String (Digest × UInt64)
  policy : Except String (HeadPolicy Key)
  signer : Except String (Option Secret)
  reads : Bool
  ops : FileOps
  stop : Option Nat

variable (p : Parse Secret Key)

def signHead (state : ChainState) (root : Digest) (b : Builder) :
    Option Secret → Except HeadError Builder
  | none => .ok b
  | some signer =>
    match HeadClaim.new state.generation root state.parent state.parentDigest p.treeRoot
      p.parserId with
    | none => .error .noClaim
    | some claim => .ok { b with
        signature := c.sign signer (headDigest c claim).bytes
        signerKid := canonicalKid c (c.verifyingKey signer) }

def buildHead (state : ChainState) (root : Digest) (segmentBytes : UInt64) : Builder where
  generation := state.generation
  segmentBytes := segmentBytes
  unboundFacts := p.unboundFacts
  rootHash := root.bytes
  parentHash := state.parent.bytes
  treeRoot := p.treeRoot.bytes
  parserId := p.parserId.bytes
  parentDigest := state.parentDigest.elim [] (·.bytes)

/-- The head a parse is about to write: everything before the file is touched. -/
def nextHead (head : Option Bytes) : Except HeadError Builder := do
  .require (decide ((p.treeRoot = zeroHash) ↔ (p.parserId = zeroHash))) .halfStamped
  let (root, segmentBytes) ← p.segments.mapError .segments
  let policy ← p.policy.mapError .policy
  let state ← readHeadForChain c capnp policy p.reads head
  let signer ← p.signer.mapError .signer
  signHead c p state root (buildHead p state root segmentBytes) signer

def nextHeadBytes (head : Option Bytes) : Except HeadError Bytes := do
  let b ← nextHead c capnp p head
  (capnp.writeCanonicalMessage b).mapError .encode

/-- `write_head_for_path`: its effects on the disk, and its answer if it is not stopped. -/
def writeHeadForPath (head : Option Bytes) : List Effect × Except HeadError Unit :=
  match nextHeadBytes c capnp p head with
  | .error e => ([], .error e)
  | .ok bytes =>
    let replaced := replaceFileAtomically p.ops bytes
    (replaced.1, replaced.2.mapError .write)

def Parse.effects (head : Option Bytes) : List Effect :=
  match p.stop with
  | none => (writeHeadForPath c capnp p head).1
  | some k => (writeHeadForPath c capnp p head).1.take k

def Disk.parse (d : Disk) (p : Parse Secret Key) : Disk :=
  Crash.after Effect.apply (p.effects c capnp d.head) d

def Disk.parses (d : Disk) (ps : List (Parse Secret Key)) : Disk := ps.foldl (Disk.parse c capnp) d

def Disk.found (head temp : Option Bytes) : Disk := ⟨head, temp, head.toList⟩

end LeyLine.Head
