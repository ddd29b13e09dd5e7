import LeyLine.Lib.Steps
import LeyLine.Partition

/-!
# The claim of a head

`core/src/head_digest.rs`, `sign/src/root_signer.rs` and `cli-lib/src/head_claim.rs`: a
head stands beside a parsed database as a Cap'n Proto message. Its claim is read off its
fields, digested, signed and checked against a set of trusted keys. The message format,
the hashes and Ed25519 are the libraries'; what is decided from them is here.
-/

namespace LeyLine.Head

/-! ## The record -/

/-- What reading a pointer field of a message gives when the message is malformed there. -/
structure CapnpError where
  reason : String
  deriving DecidableEq, Repr

/-- A `Common.Hash` field as its reader returns it: the struct, then its bytes. An unset
field reads as no bytes. -/
abbrev HashField := Except CapnpError (Except CapnpError Bytes)

/-- A head as a reader of the message sees it. -/
structure Reader where
  rootHash : HashField
  parentHash : HashField
  generation : UInt64
  segmentBytes : UInt64
  unboundFacts : UInt64
  signature : Except CapnpError Bytes
  signerKid : Except CapnpError Bytes
  treeRoot : HashField
  parserId : HashField
  parentDigest : HashField

/-- A head as it is built: a field that is not set has no bytes. -/
structure Builder where
  rootHash : Bytes := []
  parentHash : Bytes := []
  generation : UInt64 := 0
  segmentBytes : UInt64 := 0
  unboundFacts : UInt64 := 0
  signature : Bytes := []
  signerKid : Bytes := []
  treeRoot : Bytes := []
  parserId : Bytes := []
  parentDigest : Bytes := []
  deriving DecidableEq

def Builder.reader (b : Builder) : Reader where
  rootHash := .ok (.ok b.rootHash)
  parentHash := .ok (.ok b.parentHash)
  generation := b.generation
  segmentBytes := b.segmentBytes
  unboundFacts := b.unboundFacts
  signature := .ok b.signature
  signerKid := .ok b.signerKid
  treeRoot := .ok (.ok b.treeRoot)
  parserId := .ok (.ok b.parserId)
  parentDigest := .ok (.ok b.parentDigest)

/-! ## The claim and its digest -/

/-- `Hash::ZERO`. -/
def zeroHash : Digest := ⟨List.replicate 32 0, List.length_replicate⟩

/-- `try_into` of a slice. -/
def hashOf (bytes : Bytes) : Option Digest :=
  if h : bytes.length = 32 then some ⟨bytes, h⟩ else none

@[simp] theorem hashOf_bytes (d : Digest) : hashOf d.bytes = some d := dif_pos d.length_eq

/-- Every identity a signed head attests. A claim stamps its tree and its parser, and a
parent digest it has is not zero. -/
structure HeadClaim where
  generation : UInt64
  rootHash : Digest
  parentHash : Digest
  parentDigest : Option Digest
  treeRoot : Digest
  parserId : Digest
  tree_ne : treeRoot ≠ zeroHash
  parser_ne : parserId ≠ zeroHash
  digest_ne : parentDigest ≠ some zeroHash

def HeadClaim.new (generation : UInt64) (rootHash parentHash : Digest)
    (parentDigest : Option Digest) (treeRoot parserId : Digest) : Option HeadClaim :=
  if h : treeRoot = zeroHash ∨ parserId = zeroHash ∨ parentDigest = some zeroHash then none
  else some {
    generation, rootHash, parentHash, parentDigest, treeRoot, parserId
    tree_ne := fun ht => h (.inl ht)
    parser_ne := fun hp => h (.inr (.inl hp))
    digest_ne := fun hd => h (.inr (.inr hd)) }

/-- What is hashed: the fields at their widths, and the parent digest behind a presence
byte. -/
def HeadClaim.preimage (claim : HeadClaim) : Bytes :=
  Framing.leBytes 8 claim.generation.toNat ++ claim.rootHash.bytes ++ claim.parentHash.bytes ++
    claim.treeRoot.bytes ++ claim.parserId.bytes ++
    match claim.parentDigest with
    | none => [0]
    | some d => 1 :: d.bytes

/-- The hashes and the signature scheme. `deriveKey` is BLAKE3 under the head digest's
context. -/
structure Crypto (Secret Key : Type) where
  deriveKey : Bytes → Digest
  sha256 : Bytes → Bytes
  keyBytes : Key → Bytes
  verifyingKey : Secret → Key
  sign : Secret → Bytes → Bytes
  verify : Key → Bytes → Bytes → Bool

/-- What is assumed of them: a hash of 32 bytes, signatures of 64 that verify under the
signer's key. -/
structure Crypto.Lawful {Secret Key : Type} (c : Crypto Secret Key) : Prop where
  length_sha256 : ∀ m, (c.sha256 m).length = 32
  length_sign : ∀ s m, (c.sign s m).length = 64
  verify_sign : ∀ s m, c.verify (c.verifyingKey s) m (c.sign s m) = true

variable {Secret Key : Type} (c : Crypto Secret Key)

def headDigest (claim : HeadClaim) : Digest := c.deriveKey claim.preimage

/-! ## Reading the claim -/

inductive ClaimError where
  | missing (name : String)
  | length (name : String) (len : Nat)
  | field (name : String)
  | zeroParentDigest
  | treeWithoutParser
  | parserWithoutTree
  deriving DecidableEq, Repr

def requiredHash (f : HashField) (name : String) : Except ClaimError Digest :=
  match f with
  | .ok (.ok bytes) => (hashOf bytes).elim (.error (.length name bytes.length)) .ok
  | .ok (.error _) | .error _ => .error (.missing name)

/-- `hash_field`: absent and all zero both mean "not stamped". -/
def hashField (f : HashField) : Except ClaimError (Option Digest) :=
  match f with
  | .error _ => .ok none
  | .ok (.error _) => .error (.field "")
  | .ok (.ok []) => .ok none
  | .ok (.ok bytes) =>
    match hashOf bytes with
    | none => .error (.length "" bytes.length)
    | some h => .ok (if h = zeroHash then none else some h)

/-- `optional_digest`: zero is never read as absence. -/
def optionalDigest (f : HashField) : Except ClaimError (Option Digest) :=
  match f with
  | .error _ => .ok none
  | .ok (.error _) => .error (.field "parentDigest")
  | .ok (.ok []) => .ok none
  | .ok (.ok bytes) =>
    match hashOf bytes with
    | none => .error (.length "parentDigest" bytes.length)
    | some h => if h = zeroHash then .error .zeroParentDigest else .ok (some h)

/-- A head stamps its tree and its parser, or neither. -/
def bothStamped : Option Digest → Option Digest → Except ClaimError (Option (Digest × Digest))
  | some tree, some parser => .ok (some (tree, parser))
  | none, none => .ok none
  | some _, none => .error .treeWithoutParser
  | none, some _ => .error .parserWithoutTree

def stampOf (h : Reader) : Except ClaimError (Option (Digest × Digest)) := do
  let tree ← hashField h.treeRoot
  let parser ← hashField h.parserId
  bothStamped tree parser

def claimOf (h : Reader) : Except ClaimError (Option HeadClaim) := do
  let root ← requiredHash h.rootHash "rootHash"
  let parent ← requiredHash h.parentHash "parentHash"
  let parentDigest ← optionalDigest h.parentDigest
  let stamp ← stampOf h
  .ok (stamp.bind fun s => HeadClaim.new h.generation root parent parentDigest s.1 s.2)

def digestOf (h : Reader) : Except ClaimError (Option Digest) :=
  (claimOf h).map (·.map (headDigest c))

/-! ## Key identifiers -/

/-- The bytes before the key in the DER of an Ed25519 `SubjectPublicKeyInfo`. -/
def ed25519SpkiHeader : Bytes :=
  [0x30, 0x2a, 0x30, 0x05, 0x06, 0x03, 0x2b, 0x65, 0x70, 0x03, 0x21, 0x00]

def ed25519SpkiDer (pk : Key) : Bytes := ed25519SpkiHeader ++ c.keyBytes pk

def hexDigit (n : UInt8) : UInt8 := if n < 10 then 48 + n else 87 + n

def hexEncode (bytes : Bytes) : Bytes :=
  bytes.flatMap fun b => [hexDigit (b / 16), hexDigit (b % 16)]

/-- The first 16 bytes of the hash of the key's DER, in hexadecimal. -/
def canonicalKid (pk : Key) : Bytes := hexEncode ((c.sha256 (ed25519SpkiDer c pk)).take 16)

def isHexByte (b : UInt8) : Bool := (48 ≤ b && b ≤ 57) || (97 ≤ b && b ≤ 102)

def isCanonicalKidShape (s : Bytes) : Bool := s.length == 32 && s.all isHexByte

/-! ## The verdict -/

inductive HeadVerdict where
  | valid
  | unsigned
  | invalid
  deriving DecidableEq, Repr

/-- Some trusted key verifies the signature; the key identifier only orders the attempts. -/
def verifiesUnder (digest : Digest) (signature kid : Bytes) (trusted : List Key) : Bool :=
  let verifies := fun pk => c.verify pk digest.bytes signature
  let kidHit := !kid.isEmpty && (trusted.filter fun pk => canonicalKid c pk == kid).any verifies
  kidHit || trusted.any verifies

def verifyHead (claim : Option HeadClaim) (signature kid : Bytes) (trusted : List Key) :
    HeadVerdict :=
  if signature.isEmpty then .unsigned
  else
    match claim with
    | none => .invalid
    | some claim =>
      if !kid.isEmpty && !isCanonicalKidShape kid then .invalid
      else if signature.length ≠ 64 then .invalid
      else if verifiesUnder c (headDigest c claim) signature kid trusted then .valid else .invalid

/-- A signature or key identifier that cannot be read counts as absent. -/
def orEmpty : Except CapnpError Bytes → Bytes
  | .ok bytes => bytes
  | .error _ => []

def verdictOf (h : Reader) (trusted : List Key) : Except ClaimError HeadVerdict := do
  let claim ← claimOf h
  .ok (verifyHead c claim (orEmpty h.signature) (orEmpty h.signerKid) trusted)

/-! ## The policy -/

/-- Who reads the head: a parse that chains onto it, or `verify-head`. -/
inductive ReaderKind where
  | chain
  | verifyHead
  deriving DecidableEq, Repr

inductive SignatureCheck where
  | verified
  | unsigned
  | notChecked
  deriving DecidableEq, Repr

structure HeadPolicy (Key : Type) where
  trusted : List Key := []
  requireSignature : Bool := false

inductive SignatureError where
  | cannotVerify
  | claim (e : ClaimError)
  | failed
  | unsignedRefused
  | unsignedRequired
  deriving DecidableEq, Repr

def judge (reader : ReaderKind) (policy : HeadPolicy Key) :
    HeadVerdict → Except SignatureError SignatureCheck
  | .valid => .ok .verified
  | .invalid => .error .failed
  | .unsigned =>
    if reader = .verifyHead then .error .unsignedRefused
    else if policy.requireSignature then .error .unsignedRequired
    else .ok .unsigned

def enforceSignature (h : Reader) (reader : ReaderKind) (policy : HeadPolicy Key) :
    Except SignatureError SignatureCheck :=
  if policy.trusted.isEmpty then
    if reader = .verifyHead ∧ policy.requireSignature then .error .cannotVerify else .ok .notChecked
  else do
    let verdict ← (verdictOf c h policy.trusted).mapError .claim
    judge reader policy verdict

end LeyLine.Head
