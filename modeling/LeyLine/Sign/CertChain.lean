import LeyLine.Lib.Steps
import LeyLine.Tree

/-!
# Certificate paths

`sign/src/cert_chain.rs`: a leaf certificate is checked through a list of intermediates
up to a pinned Ed25519 key, and its claims are read from the extensions of the
`1.3.6.1.4.1.99999.1` arc. DER decoding and the signature check are the libraries' and
stand as the functions of a `Pki`; everything the verifier decides from what they return
is here.
-/

namespace LeyLine.Sign

open Except (require)

/-! ## Certificates as the DER library returns them -/

/-- An object identifier, by its arcs. -/
abbrev Oid := List Nat

structure Extension where
  extnId : Oid
  critical : Bool
  extnValue : Bytes

/-- A validity bound, as seconds since the epoch in either encoding. -/
inductive Time where
  | utcTime (secs : Nat)
  | generalTime (secs : Nat)

/-- The signed part of a certificate. `rest` is every field the verifier does not look at
but the signature covers. -/
structure TbsCertificate (Name Rest : Type) where
  signature : Oid
  issuer : Name
  subject : Name
  notBefore : Time
  notAfter : Time
  spkiAlgorithm : Oid
  subjectPublicKey : Bytes
  extensions : Option (List Extension)
  rest : Rest

structure Certificate (Name Rest : Type) where
  tbsCertificate : TbsCertificate Name Rest
  signatureAlgorithm : Oid
  signature : Bytes

structure BasicConstraints where
  ca : Bool
  pathLenConstraint : Option UInt8

structure KeyUsage where
  digitalSignature : Bool
  keyCertSign : Bool

/-- What the DER and Ed25519 libraries compute. -/
structure Pki (Name Rest Key : Type) where
  certificate : Bytes → Except String (Certificate Name Rest)
  tbsToDer : TbsCertificate Name Rest → Except String Bytes
  verifyingKey : Bytes → Option Key
  verify : Key → Bytes → Bytes → Bool
  basicConstraints : Bytes → Option BasicConstraints
  keyUsage : Bytes → Option KeyUsage
  subjectAltName : Bytes → Bool
  int : Bytes → Option Bytes
  utf8String : Bytes → Option String
  octetString : Bytes → Option Bytes

/-! ## Claims -/

/-- Which allocation of the shared arc a certificate is read under. -/
inductive CertProfile where
  | interlace
  | signet
  deriving DecidableEq, Repr

structure CertClaims where
  ephemeralPubkey : Bytes
  notBefore : Int
  notAfter : Int
  profile : CertProfile
  epoch : Option Nat
  peerFp : Option String
  scope : Option String
  confinementDigest : Option Bytes
  deriving DecidableEq, Repr

inductive ChainError where
  | badDer (e : String)
  | notEd25519
  | badSpki
  | badMasterKey
  | badSignature
  | encodingFailed (e : String)
  | badExtension (what : String)
  | unknownCriticalExtension (id : Oid)
  | constraintViolation (what : String)
  deriving DecidableEq, Repr

def maxIntermediates : Nat := 4

def idEd25519 : Oid := [1, 3, 101, 112]
def idCeKeyUsage : Oid := [2, 5, 29, 15]
def idCeSubjectAltName : Oid := [2, 5, 29, 17]
def idCeBasicConstraints : Oid := [2, 5, 29, 19]

def arc (n : Nat) : Oid := [1, 3, 6, 1, 4, 1, 99999, 1, n]

def oidEpoch : Oid := arc 4
def oidPeerFp : Oid := arc 5
def oidScope : Oid := arc 6
def oidConfinementDigest : Oid := arc 7

def markers : List Oid := [arc 1, arc 2, arc 3, arc 8, arc 9]

variable {Name Rest Key : Type}

def Certificate.exts (cert : Certificate Name Rest) : List Extension :=
  cert.tbsCertificate.extensions.getD []

def classifyProfile (cert : Certificate Name Rest) : CertProfile :=
  if cert.exts.any fun e => markers.contains e.extnId then .signet else .interlace

/-- `as_secs() as i64`. -/
def timeToUnix : Time → Int
  | .utcTime secs => (secs : Int).bmod (2 ^ 64)
  | .generalTime secs => (secs : Int).bmod (2 ^ 64)

/-! ## Extensions -/

section Extensions

variable (pki : Pki Name Rest Key)

def ofBeBytes (bytes : Bytes) : Nat := bytes.foldl (fun n b => n * 256 + b.toNat) 0

/-- A canonical, non-negative DER INTEGER of at most four bytes; one leading zero is the
sign byte. -/
def parseEpoch (value : Bytes) : Except ChainError Nat :=
  match pki.int value with
  | none => .error (.badExtension "epoch is not a DER INTEGER")
  | some [] => .error (.badExtension "epoch is not a DER INTEGER")
  | some (first :: raw) => do
    require (first &&& 0x80 = 0) (.badExtension "epoch is negative")
    let stripped := if first = 0 then raw else first :: raw
    require (stripped.length ≤ 4) (.badExtension "epoch > u32")
    pure (ofBeBytes stripped)

def parseUtf8 (value : Bytes) (what : String) : Except ChainError String :=
  (pki.utf8String value).elim (.error (.badExtension what)) .ok

def parseConfinementDigest (value : Bytes) : Except ChainError Bytes :=
  match pki.octetString value with
  | none => .error (.badExtension "confinementDigest is not DER OctetString")
  | some octets => do
    require (octets.length = 32)
      (.badExtension "confinementDigest must be exactly 32 bytes (BLAKE3-256)")
    pure octets

def parseBasicConstraints (value : Bytes) : Except ChainError BasicConstraints :=
  (pki.basicConstraints value).elim (.error (.badExtension "BasicConstraints is malformed")) .ok

def parseKeyUsage (value : Bytes) : Except ChainError KeyUsage :=
  (pki.keyUsage value).elim (.error (.badExtension "KeyUsage is malformed")) .ok

/-- What has been read from the extensions so far. -/
structure Extracted where
  epoch : Option Nat := none
  peerFp : Option String := none
  scope : Option String := none
  confinementDigest : Option Bytes := none
  basic : Option BasicConstraints := none
  keyUsage : Option KeyUsage := none

/-- Read one extension. An unrecognized one is ignored unless it is critical. -/
def readExtension (profile : CertProfile) (out : Extracted) (ext : Extension) :
    Except ChainError Extracted :=
  if ext.extnId = oidEpoch then do
    pure { out with epoch := some (← parseEpoch pki ext.extnValue) }
  else if ext.extnId = oidConfinementDigest then do
    pure { out with confinementDigest := some (← parseConfinementDigest pki ext.extnValue) }
  else if profile = .interlace ∧ ext.extnId = oidPeerFp then do
    pure { out with peerFp := some (← parseUtf8 pki ext.extnValue "peer_fp is not DER UTF8String") }
  else if profile = .interlace ∧ ext.extnId = oidScope then do
    pure { out with scope := some (← parseUtf8 pki ext.extnValue "scope is not DER UTF8String") }
  else if ext.extnId = idCeBasicConstraints then do
    pure { out with basic := some (← parseBasicConstraints pki ext.extnValue) }
  else if ext.extnId = idCeKeyUsage then do
    pure { out with keyUsage := some (← parseKeyUsage pki ext.extnValue) }
  else if ext.extnId = idCeSubjectAltName then do
    require (pki.subjectAltName ext.extnValue) (.badExtension "SubjectAltName is malformed")
    pure out
  else do
    require (!ext.critical) (.unknownCriticalExtension ext.extnId)
    pure out

/-- Where a certificate stands in its path; `below` intermediates sit between an
intermediate and the leaf. -/
inductive Role where
  | endEntity
  | intermediate (below : Nat)

def checkRole (basic : Option BasicConstraints) (keyUsage : Option KeyUsage) :
    Role → Except ChainError Unit
  | .endEntity => do
    require (!basic.any (·.ca))
      (.constraintViolation "a CA certificate cannot be the end entity")
    require (!keyUsage.any (!·.digitalSignature))
      (.constraintViolation "end-entity KeyUsage does not permit digitalSignature")
  | .intermediate below => do
    let b ← basic.elim
        (.error (.constraintViolation "intermediate carries no BasicConstraints")) .ok
    require b.ca (.constraintViolation "intermediate is not a CA")
    require (!b.pathLenConstraint.any fun limit => limit.toNat < below)
      (.constraintViolation "pathLenConstraint exceeded")
    require (keyUsage.any (·.keyCertSign))
      (.constraintViolation "intermediate KeyUsage does not permit keyCertSign")

def extractExtensions (cert : Certificate Name Rest) (role : Role) :
    Except ChainError Extracted := do
  require (cert.exts.map (·.extnId)).Nodup (.badExtension "duplicate extension")
  let out ← cert.exts.foldlM (readExtension pki (classifyProfile cert)) {}
  checkRole out.basic out.keyUsage role
  pure out

end Extensions

/-! ## Paths -/

section Paths

variable [DecidableEq Name] (pki : Pki Name Rest Key)

/-- The claims of one certificate, after its signature verified. -/
structure LinkClaims where
  pubkey : Bytes
  notBefore : Int
  notAfter : Int
  profile : CertProfile
  epoch : Option Nat
  peerFp : Option String
  scope : Option String
  confinementDigest : Option Bytes

/-- Check one certificate under the key above it, then read its claims. -/
def verifyLink (cert : Certificate Name Rest) (signer : Key) (signerSubject : Option Name)
    (role : Role) : Except ChainError LinkClaims := do
  require (cert.signatureAlgorithm = idEd25519 ∧ cert.tbsCertificate.signature = idEd25519)
    .notEd25519
  let tbsDer ← (pki.tbsToDer cert.tbsCertificate).mapError .encodingFailed
  require (cert.signature.length = 64) .badSignature
  require (pki.verify signer tbsDer cert.signature) .badSignature
  require (signerSubject.all (cert.tbsCertificate.issuer = ·))
    (.constraintViolation "issuer name does not match the signing certificate's subject")
  require (cert.tbsCertificate.spkiAlgorithm = idEd25519) .badSpki
  require (cert.tbsCertificate.subjectPublicKey.length = 32) .badSpki
  let ext ← extractExtensions pki cert role
  pure {
    pubkey := cert.tbsCertificate.subjectPublicKey
    notBefore := timeToUnix cert.tbsCertificate.notBefore
    notAfter := timeToUnix cert.tbsCertificate.notAfter
    profile := classifyProfile cert
    epoch := ext.epoch
    peerFp := ext.peerFp
    scope := ext.scope
    confinementDigest := ext.confinementDigest }

/-- The walk from the anchor down: the key and name that sign next, and the claims of the
certificates passed. -/
structure Walk (Name Key : Type) where
  signerKey : Key
  signerSubject : Option Name
  links : List LinkClaims

def walkStep (walk : Walk Name Key) (x : Certificate Name Rest × Nat) :
    Except ChainError (Walk Name Key) := do
  let link ← verifyLink pki x.1 walk.signerKey walk.signerSubject (.intermediate x.2)
  let key ← (pki.verifyingKey link.pubkey).elim (.error .badSpki) .ok
  pure ⟨key, some x.1.tbsCertificate.subject, walk.links ++ [link]⟩

/-- Every certificate carries an epoch or none does, and the smaller counts. -/
def gatherEpoch : Option Nat → Option Nat → Except ChainError (Option Nat)
  | some a, some b => .ok (some (min a b))
  | none, none => .ok none
  | _, _ => .error (.constraintViolation
      "epoch present on some certificates in the path and absent on others")

/-- The claims of the path, gathered link by link: the narrower window and the smaller
epoch, where profile and digest agree. -/
def gather (leafLink : LinkClaims) (acc : CertClaims) (link : LinkClaims) :
    Except ChainError CertClaims := do
  require (link.profile = leafLink.profile)
    (.constraintViolation "certificates in the path were read under different profiles")
  let epoch ← gatherEpoch acc.epoch link.epoch
  require (link.confinementDigest = leafLink.confinementDigest)
    (.constraintViolation "confinementDigest differs across the path")
  pure { acc with
    notBefore := max acc.notBefore link.notBefore
    notAfter := min acc.notAfter link.notAfter
    epoch := epoch }

def LinkClaims.toClaims (link : LinkClaims) : CertClaims :=
  ⟨link.pubkey, link.notBefore, link.notAfter, link.profile, link.epoch, link.peerFp, link.scope,
    link.confinementDigest⟩

def parseCert (der : Bytes) : Except ChainError (Certificate Name Rest) :=
  (pki.certificate der).mapError .badDer

/-- Verify a leaf through its intermediates, the leaf's issuer first, up to the anchor. -/
def verifyCertPath (leafDer : Bytes) (intermediatesDer : List Bytes) (anchorPubkey : Bytes) :
    Except ChainError CertClaims := do
  require (anchorPubkey.length = 32) .badMasterKey
  let anchor ← (pki.verifyingKey anchorPubkey).elim (.error .badMasterKey) .ok
  require (intermediatesDer.length ≤ maxIntermediates)
    (.constraintViolation "path has more intermediates than MAX_INTERMEDIATES")
  let leaf ← parseCert pki leafDer
  let intermediates ← intermediatesDer.mapM (parseCert pki)
  let walk ← intermediates.zipIdx.reverse.foldlM (walkStep pki) ⟨anchor, none, []⟩
  let leafLink ← verifyLink pki leaf walk.signerKey walk.signerSubject .endEntity
  walk.links.foldlM (gather leafLink) leafLink.toClaims

end Paths

end LeyLine.Sign
