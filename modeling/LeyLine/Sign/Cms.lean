import LeyLine.Sign.Der

/-!
# Detached CMS signatures

`sign/src/cms.rs`: data is signed either through a set of signed attributes that carries
its SHA-512 digest, or as it is. Both are wrapped in a CMS message with the signer's
certificate, and one function verifies either. X.509 decoding, Ed25519 and SHA-512 are
the libraries'; the DER around them is written and read by hand.
-/

namespace LeyLine.Sign.Cms

open Der

/-! ## Object identifiers -/

def idData : Bytes := [0x2a, 0x86, 0x48, 0x86, 0xf7, 0x0d, 0x01, 0x07, 0x01]
def idSignedData : Bytes := [0x2a, 0x86, 0x48, 0x86, 0xf7, 0x0d, 0x01, 0x07, 0x02]
def idSha512 : Bytes := [0x60, 0x86, 0x48, 0x01, 0x65, 0x03, 0x04, 0x02, 0x03]
def idEd25519 : Bytes := [0x2b, 0x65, 0x70]
def idContentType : Bytes := [0x2a, 0x86, 0x48, 0x86, 0xf7, 0x0d, 0x01, 0x09, 0x03]
def idMessageDigest : Bytes := [0x2a, 0x86, 0x48, 0x86, 0xf7, 0x0d, 0x01, 0x09, 0x04]
def idMd5 : Bytes := [0x2a, 0x86, 0x48, 0x86, 0xf7, 0x0d, 0x02, 0x05]
def idSha1 : Bytes := [0x2b, 0x0e, 0x03, 0x02, 0x1a]

/-! ## The libraries -/

/-- X.509 certificates, Ed25519 keys and SHA-512. -/
structure Lib (Cert Secret Key : Type) where
  parseCert : Bytes → Except String Cert
  issuerDer : Cert → Except String Bytes
  serialBytes : Cert → Bytes
  spkiOid : Cert → Bytes
  subjectPublicKey : Cert → Bytes
  fromKeypairBytes : Bytes → Option Secret
  publicBytes : Secret → Bytes
  keyFromBytes : Bytes → Option Key
  sign : Secret → Bytes → Bytes
  verify : Key → Bytes → Bytes → Bool
  sha512 : Bytes → Bytes

inductive SignError where
  | invalidCert
  | invalidKey
  | keyMismatch
  | derError (e : String)
  deriving DecidableEq, Repr

inductive VerifyError where
  | invalidSignature
  | noSigners
  | digestMismatch
  | signatureInvalid
  | certNotFound
  | weakAlgorithm
  | derError (e : String)
  deriving DecidableEq, Repr

/-! ## Writing -/

/-- `SEQUENCE { OID, SET { value } }`. -/
def buildAttribute (oid valueDer : Bytes) : Bytes :=
  encodeSequence (encodeOid oid ++ encodeSet valueDer)

def sortAttributes (attrs : List Bytes) : List Bytes := attrs.mergeSort fun a b => decide (a ≤ b)

def attributes (digest : Bytes) : List Bytes :=
  sortAttributes [buildAttribute idContentType (encodeOid idData),
    buildAttribute idMessageDigest (encodeOctetString digest)]

def encodeAsSet (attrs : List Bytes) : Bytes := encodeSet attrs.flatten

def encodeAsImplicit0 (attrs : List Bytes) : Bytes := encodeTlv 0xA0 attrs.flatten

def buildAlgorithmIdentifier (oid : Bytes) : Bytes := encodeSequence (encodeOid oid)

def buildAlgorithmIdentifierWithNull (oid : Bytes) : Bytes :=
  encodeSequence (encodeOid oid ++ [0x05, 0x00])

def buildSignerInfo (issuerDer serialBytes signature : Bytes) (signedAttrsImplicit : Option Bytes) :
    Bytes :=
  encodeSequence (encodeInteger [1] ++ encodeSequence (issuerDer ++ encodeInteger serialBytes) ++
    buildAlgorithmIdentifierWithNull idSha512 ++ signedAttrsImplicit.getD [] ++
    buildAlgorithmIdentifier idEd25519 ++ encodeOctetString signature)

def buildSignedData (signerInfo certDer : Bytes) : Bytes :=
  encodeSequence (encodeInteger [1] ++ encodeSet (buildAlgorithmIdentifierWithNull idSha512) ++
    encodeSequence (encodeOid idData) ++ encodeTlv 0xA0 certDer ++ encodeSet signerInfo)

def buildContentInfo (signedData : Bytes) : Bytes :=
  encodeSequence (encodeOid idSignedData ++ encodeTlv 0xA0 signedData)

section Sign

variable {Cert Secret Key : Type} (lib : Lib Cert Secret Key)

def verifyKeyMatch (cert : Cert) (secret : Secret) : Except SignError Unit := do
  .require (lib.spkiOid cert == idEd25519) .invalidCert
  .require (lib.subjectPublicKey cert == lib.publicBytes secret) .keyMismatch

/-- Everything both ways of signing check, and what they name the signer by. -/
def signer (certDer privateKey : Bytes) : Except SignError (Secret × Bytes × Bytes) := do
  let cert ← (lib.parseCert certDer).mapError .derError
  let secret ← (lib.fromKeypairBytes privateKey).elim (.error .invalidKey) .ok
  verifyKeyMatch lib cert secret
  let issuer ← (lib.issuerDer cert).mapError .derError
  .ok (secret, issuer, lib.serialBytes cert)

def signData (data certDer privateKey : Bytes) : Except SignError Bytes := do
  let (secret, issuer, serial) ← signer lib certDer privateKey
  let attrs := attributes (lib.sha512 data)
  let signature := lib.sign secret (encodeAsSet attrs)
  .ok (buildContentInfo (buildSignedData
    (buildSignerInfo issuer serial signature (some (encodeAsImplicit0 attrs))) certDer))

def signDataWithoutAttributes (data certDer privateKey : Bytes) : Except SignError Bytes := do
  let (secret, issuer, serial) ← signer lib certDer privateKey
  let signature := lib.sign secret data
  .ok (buildContentInfo (buildSignedData (buildSignerInfo issuer serial signature none) certDer))

end Sign

/-! ## Reading -/

structure ParsedSignerInfo where
  issuerDer : Bytes
  serialBytes : Bytes
  signatureAlgorithmOid : Bytes
  signature : Bytes
  signedAttributesRaw : Option Bytes
  signedAttributesParsed : List (Bytes × Bytes)
  deriving DecidableEq

structure ParsedSignedData where
  digestAlgorithmOids : List Bytes := []
  certificates : List Bytes := []
  signerInfos : List ParsedSignerInfo := []
  deriving DecidableEq

def parseContentInfo (data : Bytes) : Except String (Bytes × Bytes) := do
  let (tag, seqContent, _) ← parseTlv data
  .require (tag == 0x30) "ContentInfo: expected SEQUENCE"
  let elements ← iterTlv seqContent
  match elements with
  | (oidTag, oidContent) :: (ctxTag, ctxContent) :: _ => do
    .require (oidTag == 0x06) "ContentInfo: expected OID"
    .require (ctxTag == 0xA0) "ContentInfo: expected [0] EXPLICIT"
    .ok (oidContent, ctxContent)
  | _ => .error "ContentInfo: expected OID + [0]"

/-- The first element of an algorithm identifier, if it is an identifier. -/
def digestOid : List (UInt8 × Bytes) → Option Bytes
  | (0x06, oid) :: _ => some oid
  | _ => none

variable (content : Bytes)

def parseDigestAlgorithms : Except String (List Bytes) := do
  let algs ← iterTlv content
  let oids ← algs.mapM fun alg => (iterTlv alg.2).map digestOid
  .ok (oids.filterMap id)

/-- One signed attribute: its identifier and the content of its set of values. -/
def attributePair : List (UInt8 × Bytes) → Option (Bytes × Bytes)
  | (_, oid) :: (_, value) :: _ => some (oid, value)
  | _ => none

def parseAttributes : Except String (List (Bytes × Bytes)) := do
  let attrs ← iterTlv content
  let pairs ← attrs.mapM fun attr => (iterTlv attr.2).map attributePair
  .ok (pairs.filterMap id)

/-- The signed attributes, if they come next: their bytes, what they say, and what
follows. -/
def parseSignedAttributes (rest : Bytes) :
    Except String (Option Bytes × List (Bytes × Bytes) × Bytes) :=
  if rest.isEmpty then .ok (none, [], rest)
  else do
    let (tag, content, r) ← parseTlv rest
    if tag == 0xA0 then do
      let parsed ← parseAttributes content
      .ok (some (rest.take (rest.length - r.length)), parsed, r)
    else .ok (none, [], rest)

def parseSid : Except String (Bytes × Bytes) := do
  let elements ← iterTlv content
  match elements with
  | (issuerTag, issuer) :: (_, serial) :: _ => .ok (encodeTlv issuerTag issuer, serial)
  | _ => .error "SignerInfo: sid needs issuer + serial"

def firstContent : List (UInt8 × Bytes) → Bytes
  | (_, content) :: _ => content
  | [] => []

def parseSignerInfo (data : Bytes) : Except String ParsedSignerInfo := do
  let (_, _, rest) ← parseTlv data
  let (tag, sidContent, rest) ← parseTlv rest
  .require (tag == 0x30) "SignerInfo: expected SEQUENCE for sid"
  let (issuerDer, serialBytes) ← parseSid sidContent
  let (_, _, rest) ← parseTlv rest
  let (signedAttributesRaw, signedAttributesParsed, rest) ← parseSignedAttributes rest
  let (_, saContent, rest) ← parseTlv rest
  let saElements ← iterTlv saContent
  let (tag, signature, _) ← parseTlv rest
  .require (tag == 0x04) "SignerInfo: expected OCTET STRING for signature"
  .ok { issuerDer, serialBytes, signatureAlgorithmOid := firstContent saElements, signature,
        signedAttributesRaw, signedAttributesParsed }

def parseCertificates : Except String (List Bytes) := do
  let elements ← iterTlv content
  .ok ((elements.filter (·.1 == 0x30)).map fun e => encodeTlv e.1 e.2)

def parseSignerInfos : Except String (List ParsedSignerInfo) := do
  let elements ← iterTlv content
  elements.mapM fun e => parseSignerInfo e.2

/-- One field after the content: certificates, signers, or something else. -/
def addField (sd : ParsedSignedData) (tag : UInt8) (content : Bytes) :
    Except String ParsedSignedData :=
  if tag == 0xA0 then do
    let certificates ← parseCertificates content
    .ok { sd with certificates := sd.certificates ++ certificates }
  else if tag == 0x31 then do
    let signerInfos ← parseSignerInfos content
    .ok { sd with signerInfos := sd.signerInfos ++ signerInfos }
  else .ok sd

def parseFields : Nat → Bytes → ParsedSignedData → Except String ParsedSignedData
  | _, [], sd => .ok sd
  | 0, _ :: _, _ => .error "out of fuel"
  | fuel + 1, rest@(_ :: _), sd => do
    let (tag, content, rest) ← parseTlv rest
    let sd ← addField sd tag content
    parseFields fuel rest sd

def parseSignedData (data : Bytes) : Except String ParsedSignedData := do
  let (tag, seqContent, _) ← parseTlv data
  .require (tag == 0x30) "SignedData: expected SEQUENCE"
  let (_, _, rest) ← parseTlv seqContent
  let (tag, daContent, rest) ← parseTlv rest
  .require (tag == 0x31) "SignedData: expected SET for digestAlgorithms"
  let digestAlgorithmOids ← parseDigestAlgorithms daContent
  let (_, _, rest) ← parseTlv rest
  parseFields rest.length rest { digestAlgorithmOids }

/-! ## Verifying -/

def implicit0ToSet : Bytes → Bytes
  | 0xA0 :: rest => 0x31 :: rest
  | raw => raw

/-- The first `messageDigest` attribute whose value is an octet string. -/
def extractMessageDigest (attrs : List (Bytes × Bytes)) : Option Bytes :=
  attrs.findSome? fun (oid, value) =>
    if oid = idMessageDigest then
      match parseTlv value with
      | .ok (0x04, octets, _) => some octets
      | _ => none
    else none

def constantTimeEq (a b : Bytes) : Bool :=
  a.length == b.length && (a.zip b).foldl (fun diff xy => diff ||| (xy.1 ^^^ xy.2)) 0 == 0

section Verify

variable {Cert Secret Key : Type} (lib : Lib Cert Secret Key)

def signerIdentifier (cert : Cert) : Except String (Bytes × Bytes) :=
  (lib.issuerDer cert).map (·, lib.serialBytes cert)

/-- The certificate the signer is named by. One whose issuer cannot be written ends the
search. -/
def findSignerCert (issuer serial : Bytes) : List Bytes → Option Bytes
  | [] => none
  | certDer :: certs =>
    match lib.parseCert certDer with
    | .error _ => findSignerCert issuer serial certs
    | .ok cert =>
      match signerIdentifier lib cert with
      | .error _ => none
      | .ok sid => if sid = (issuer, serial) then some certDer
          else findSignerCert issuer serial certs

def certKey (certDer : Bytes) : Except VerifyError Key := do
  let cert ← (lib.parseCert certDer).mapError .derError
  let pubkey := lib.subjectPublicKey cert
  .require (pubkey.length == 32) .certNotFound
  (lib.keyFromBytes pubkey).elim (.error .certNotFound) .ok

/-- A signature of the right length, over the message, under the key. -/
def checkSignature (key : Key) (message signature : Bytes) : Except VerifyError Unit :=
  .require (signature.length == 64 && lib.verify key message signature) .signatureInvalid

def checkSigner (si : ParsedSignerInfo) (key : Key) (data : Bytes) : Except VerifyError Unit :=
  match si.signedAttributesRaw with
  | some raw => do
    let stored ← (extractMessageDigest si.signedAttributesParsed).elim (.error .digestMismatch) .ok
    .require (constantTimeEq (lib.sha512 data) stored) .digestMismatch
    checkSignature lib key (implicit0ToSet raw) si.signature
  | none => checkSignature lib key data si.signature

def rejectWeakAlgorithm (oid : Bytes) : Except VerifyError Unit :=
  .require (oid != idMd5 && oid != idSha1) .weakAlgorithm

def verify (cms data : Bytes) : Except VerifyError Bytes := do
  let (contentOid, signedData) ← (parseContentInfo cms).mapError .derError
  .require (contentOid == idSignedData) .invalidSignature
  let sd ← (parseSignedData signedData).mapError .derError
  sd.digestAlgorithmOids.forM rejectWeakAlgorithm
  let si ← sd.signerInfos.head?.elim (.error .noSigners) .ok
  .require (si.signatureAlgorithmOid == idEd25519) .signatureInvalid
  let certDer ← (findSignerCert lib si.issuerDer si.serialBytes sd.certificates).elim
      (.error .certNotFound) .ok
  let key ← certKey lib certDer
  checkSigner lib si key data
  .ok certDer

end Verify

end LeyLine.Sign.Cms
