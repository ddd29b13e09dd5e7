import LeyLine.Sign.CmsBinding

/-!
# Messages that verify

What the writer of CMS messages writes, the verifier reads field by field
(`verify_built`), so that only its checks of the digest and of the signature remain. This
is why a signature made by the signing functions verifies; it is also how a signature
made for one kind of message is passed off as one of the other.
-/

namespace LeyLine.Sign.Cms

open Der
open List (append_nil length_append length_cons mem_singleton)

variable {Cert Secret Key : Type} {lib : Lib Cert Secret Key}

/-! ## Reading a message that was built -/

/-- The parts of a message are DER elements, and short enough together with `size` more
bytes for the lengths the writer can write. -/
structure Fits (certDer issuer serial : Bytes) (size : Nat) : Prop where
  certificate_der : ∃ content, certDer = encodeTlv 0x30 content
  issuer_der : ∃ tag content, issuer = encodeTlv tag content
  serial_der : encodeInteger serial = encodeTlv 0x02 serial
  length_lt : certDer.length + issuer.length + serial.length + size < 2 ^ 23

variable {certDer issuer serial : Bytes} {size : Nat}

theorem parseSid_built (h : Fits certDer issuer serial size) :
    parseSid (issuer ++ encodeInteger serial) = .ok (issuer, serial) := by
  have hlength := h.length_lt
  obtain ⟨tag, content, rfl⟩ := h.issuer_der
  have hcontent := length_le_encodeTlv tag content
  rw [h.serial_der, parseSid, iterTlv_encodeTlv tag (by omega),
    iterTlv_encodeTlv_last 0x02 (by omega)]
  rfl

def signatureFields (signature : Bytes) : Bytes :=
  buildAlgorithmIdentifier idEd25519 ++ encodeOctetString signature

theorem parseSignedAttributes_absent (signature : Bytes) :
    parseSignedAttributes (signatureFields signature) = .ok (none, [],
      signatureFields signature) := by
  rfl

variable {parsed : List (Bytes × Bytes)} {content : Bytes}

theorem parseSignedAttributes_present {tail content : Bytes}
    (h : parseTlv (0xA0 :: tail) = .ok (0xA0, content, []))
    (hparsed : parseAttributes content = .ok parsed) (rest : Bytes) :
    parseSignedAttributes (0xA0 :: tail ++ rest) = .ok (some (0xA0 :: tail), parsed, rest) := by
  have hempty : ¬ (0xA0 :: tail ++ rest).isEmpty = true := by simp
  have htake : (0xA0 :: tail ++ rest).take ((0xA0 :: tail ++ rest).length - rest.length) =
      0xA0 :: tail := by
    rw [length_append, Nat.add_sub_cancel, List.take_left]
  rw [parseSignedAttributes, if_neg hempty, parseTlv_append h]
  simp only [bind, Except.bind, beq_self_eq_true, if_true, hparsed]
  rw [htake]

/-- The signer a message names, with its signature and its attributes. -/
def builtSigner (issuer serial signature : Bytes) (raw : Option Bytes)
    (parsed : List (Bytes × Bytes)) :
    ParsedSignerInfo :=
  { issuerDer := issuer, serialBytes := serial, signatureAlgorithmOid := idEd25519, signature,
    signedAttributesRaw := raw, signedAttributesParsed := parsed }

def signerFields (issuer serial signature : Bytes) (raw : Option Bytes) : Bytes :=
  encodeInteger [1] ++ (encodeSequence (issuer ++ encodeInteger serial) ++
    (buildAlgorithmIdentifierWithNull idSha512 ++ (raw.getD [] ++ signatureFields signature)))

theorem buildSignerInfo_eq (issuer serial signature : Bytes) (raw : Option Bytes) :
    buildSignerInfo issuer serial signature raw =
    encodeTlv 0x30 (signerFields issuer serial signature raw) := by
  simp only [buildSignerInfo, signerFields, signatureFields, encodeSequence, List.append_assoc]

variable {raw : Option Bytes} {signature : Bytes}

theorem parseSignerInfo_built (h : Fits certDer issuer serial size)
    (hsignature : signature.length = 64)
    (hraw : parseSignedAttributes (raw.getD [] ++ signatureFields signature) =
      .ok (raw, parsed, signatureFields signature)) :
    parseSignerInfo (signerFields issuer serial signature raw) =
      .ok (builtSigner issuer serial signature raw parsed) := by
  have hsid : (issuer ++ encodeInteger serial).length < 2 ^ 24 := by
    have hlength := h.length_lt
    have hserial := length_encodeTlv_le 0x02 serial
    rw [length_append, h.serial_der]
    omega
  have hversion (rest : Bytes) : parseTlv (encodeInteger [1] ++ rest) = .ok (0x02, [1], rest) :=
    parseTlv_encodeTlv 0x02 (by decide) rest
  have hdigest (rest : Bytes) : parseTlv (buildAlgorithmIdentifierWithNull idSha512 ++ rest) =
      .ok (0x30, encodeOid idSha512 ++ [0x05, 0x00], rest) :=
    parseTlv_encodeTlv 0x30 (by decide) rest
  have halgorithm : parseTlv (signatureFields signature) =
      .ok (0x30, encodeOid idEd25519, encodeOctetString signature) :=
    parseTlv_encodeTlv 0x30 (by decide) _
  have hvalue : parseTlv (encodeOctetString signature) = .ok (0x04, signature, []) := by
    have := @parseTlv_encodeTlv signature 0x04 (by omega) []
    rwa [append_nil] at this
  have hoid : iterTlv (encodeOid idEd25519) = .ok [(0x06, idEd25519)] :=
    iterTlv_encodeTlv_last 0x06 (by decide)
  rw [parseSignerInfo, signerFields, hversion]
  simp only [bind, Except.bind]
  rw [encodeSequence, parseTlv_encodeTlv 0x30 hsid]
  simp only [Except.require, beq_self_eq_true, if_true, parseSid_built h, hdigest, hraw, halgorithm,
    hoid, hvalue]
  rfl

theorem length_signerFields_lt
    (h : Fits certDer issuer serial size) (hsignature : signature.length = 64)
    (hraw : (raw.getD []).length ≤ size + 3) :
    (signerFields issuer serial signature raw).length + certDer.length < 2 ^ 23 + 200 := by
  have hlength := h.length_lt
  have hsid := length_encodeTlv_le 0x30 (issuer ++ encodeInteger serial)
  have hserial := length_encodeTlv_le 0x02 serial
  have hoctets := length_encodeTlv_le 0x04 signature
  have hversion : (encodeInteger [1]).length = 3 := by decide
  have hdigest : (buildAlgorithmIdentifierWithNull idSha512).length = 15 := by decide
  have halgorithm : (buildAlgorithmIdentifier idEd25519).length = 7 := by decide
  rw [length_append, h.serial_der] at hsid
  simp only [signerFields, signatureFields, encodeSequence, encodeOctetString, length_append,
    hversion, hdigest, halgorithm]
  rw [h.serial_der]
  omega

variable {si : ParsedSignerInfo}

theorem parseSignerInfos_built (hlength : content.length < 2 ^ 24)
    (h : parseSignerInfo content = .ok si) :
    parseSignerInfos (encodeTlv 0x30 content) = .ok [si] := by
  rw [parseSignerInfos, iterTlv_encodeTlv_last 0x30 hlength]
  simp only [bind, Except.bind]
  rw [Except.mapM_eq_ok_iff]
  exact .cons h .nil

theorem parseCertificates_built (hlength : content.length < 2 ^ 24) :
    parseCertificates (encodeTlv 0x30 content) = .ok [encodeTlv 0x30 content] := by
  rw [parseCertificates, iterTlv_encodeTlv_last 0x30 hlength]
  rfl

variable {info : Bytes}

theorem parseFields_built {sd : ParsedSignedData} {fuel : Nat}
    (hcert : ∃ content, certDer = encodeTlv 0x30 content)
    (hlength : info.length + certDer.length < 2 ^ 23 + 200) (h : parseSignerInfo info = .ok si) :
    parseFields (fuel + 2) (encodeTlv 0xA0 certDer ++ encodeSet (encodeTlv 0x30 info)) sd =
      .ok { sd with
        certificates := sd.certificates ++ [certDer]
        signerInfos := sd.signerInfos ++ [si] } := by
  have hinfo := length_encodeTlv_le 0x30 info
  have hsigners : parseTlv (encodeSet (encodeTlv 0x30 info)) =
      .ok (0x31, encodeTlv 0x30 info, []) := by
    have := @parseTlv_encodeTlv (encodeTlv 0x30 info) 0x31 (by omega) []
    rwa [append_nil] at this
  have hcerts := @parseTlv_encodeTlv certDer 0xA0 (by omega) (encodeSet (encodeTlv 0x30 info))
  obtain ⟨content, rfl⟩ := hcert
  have hcontent := length_le_encodeTlv 0x30 content
  have hadd : addField sd 0xA0 (encodeTlv 0x30 content) =
      .ok { sd with certificates := sd.certificates ++ [encodeTlv 0x30 content] } := by
    rw [addField, parseCertificates_built (by omega)]
    rfl
  have hadd' (sd : ParsedSignedData) : addField sd 0x31 (encodeTlv 0x30 info) =
      .ok { sd with signerInfos := sd.signerInfos ++ [si] } := by
    rw [addField, parseSignerInfos_built (by omega) h]
    rfl
  obtain ⟨b, bs, hbs⟩ : ∃ b bs, encodeTlv 0xA0 (encodeTlv 0x30 content) ++
      encodeSet (encodeTlv 0x30 info) = b :: bs :=
    ⟨_, _, rfl⟩
  obtain ⟨c, cs, hcs⟩ : ∃ c cs, encodeSet (encodeTlv 0x30 info) = c :: cs := ⟨_, _, rfl⟩
  rw [hbs] at hcerts ⊢
  rw [parseFields, hcerts]
  simp only [bind, Except.bind, hadd]
  rw [hcs] at hsigners ⊢
  rw [parseFields, hsigners]
  simp only [bind, Except.bind, hadd']
  rw [parseFields]

def signedFields (info certDer : Bytes) : Bytes :=
  encodeInteger [1] ++ (encodeSet (buildAlgorithmIdentifierWithNull idSha512) ++
    (encodeSequence (encodeOid idData) ++
    (encodeTlv 0xA0 certDer ++ encodeSet (encodeTlv 0x30 info))))

theorem buildSignedData_eq (info certDer : Bytes) :
    buildSignedData (encodeTlv 0x30 info) certDer = encodeTlv 0x30 (signedFields info certDer) := by
  simp only [buildSignedData, signedFields, encodeSequence, List.append_assoc]

theorem length_signedFields_lt (hlength : info.length + certDer.length < 2 ^ 23 + 200) :
    (signedFields info certDer).length < 2 ^ 23 + 300 := by
  have hversion : (encodeInteger [1]).length = 3 := by decide
  have hdigest : (encodeSet (buildAlgorithmIdentifierWithNull idSha512)).length = 17 := by decide
  have hdata : (encodeSequence (encodeOid idData)).length = 13 := by decide
  have hcert := length_encodeTlv_le 0xA0 certDer
  have hinfo := length_encodeTlv_le 0x30 info
  have hset := length_encodeTlv_le 0x31 (encodeTlv 0x30 info)
  simp only [signedFields, length_append, hversion, hdigest, hdata, encodeSet] at *
  omega

theorem parseSignedData_built (hcert : ∃ content, certDer = encodeTlv 0x30 content)
    (hlength : info.length + certDer.length < 2 ^ 23 + 200) (h : parseSignerInfo info = .ok si) :
    parseSignedData (encodeTlv 0x30 (signedFields info certDer)) =
      .ok { digestAlgorithmOids := [idSha512], certificates := [certDer],
            signerInfos := [si] } := by
  have hfields := length_signedFields_lt hlength
  have hwhole := @parseTlv_encodeTlv (signedFields info certDer) 0x30 (by omega) []
  rw [append_nil] at hwhole
  have hversion (rest : Bytes) : parseTlv (encodeInteger [1] ++ rest) = .ok (0x02, [1], rest) :=
    parseTlv_encodeTlv 0x02 (by decide) rest
  have hdigests (rest : Bytes) : parseTlv (encodeSet (buildAlgorithmIdentifierWithNull idSha512) ++
      rest) = .ok (0x31, buildAlgorithmIdentifierWithNull idSha512, rest) :=
    parseTlv_encodeTlv 0x31 (by decide) rest
  have hdata (rest : Bytes) : parseTlv (encodeSequence (encodeOid idData) ++ rest) =
      .ok (0x30, encodeOid idData, rest) :=
    parseTlv_encodeTlv 0x30 (by decide) rest
  have hoids : parseDigestAlgorithms (buildAlgorithmIdentifierWithNull idSha512) =
      .ok [idSha512] := by
    decide +kernel
  -- the two fields that remain take at least two bytes each
  obtain ⟨fuel, hfuel⟩ : ∃ fuel,
      (encodeTlv 0xA0 certDer ++ encodeSet (encodeTlv 0x30 info)).length = fuel + 2 := by
    refine Nat.exists_eq_add_of_le' ?_
    simp only [encodeSet, encodeTlv, List.cons_append, length_append, length_cons]
    omega
  rw [parseSignedData, hwhole]
  simp only [bind, Except.bind, Except.require, beq_self_eq_true, if_true]
  rw [signedFields, hversion]
  simp only [hdigests, hoids, hdata, beq_self_eq_true, if_true]
  rw [hfuel, parseFields_built hcert hlength h]
  rfl

theorem parseContentInfo_built {signedData : Bytes} (h : signedData.length < 2 ^ 23 + 400) :
    parseContentInfo (buildContentInfo signedData) = .ok (idSignedData, signedData) := by
  have hoid : (encodeOid idSignedData).length = 11 := by decide
  have hlength := length_encodeTlv_le 0xA0 signedData
  have hwhole := @parseTlv_encodeTlv (encodeOid idSignedData ++ encodeTlv 0xA0 signedData) 0x30
    (by rw [length_append]; omega) []
  rw [append_nil] at hwhole
  have hfields : iterTlv (encodeOid idSignedData ++ encodeTlv 0xA0 signedData) =
      .ok [(0x06, idSignedData), (0xA0, signedData)] := by
    rw [encodeOid, iterTlv_encodeTlv 0x06 (by decide), iterTlv_encodeTlv_last 0xA0 (by omega)]
    rfl
  rw [parseContentInfo, buildContentInfo, encodeSequence, hwhole]
  simp only [bind, Except.bind, Except.require, beq_self_eq_true, if_true, hfields]

/-! ## Verifying it -/

def buildCms (certDer issuer serial signature : Bytes) (raw : Option Bytes) : Bytes :=
  buildContentInfo (buildSignedData (buildSignerInfo issuer serial signature raw) certDer)

/-- What a call that returns has signed is its message. -/
theorem SignCall.run_ok {call : SignCall} {cms : Bytes} (h : call.run lib = .ok cms) :
    ∃ secret issuer serial raw,
      signer lib call.certDer call.privateKey = .ok (secret, issuer, serial) ∧
      cms = buildCms call.certDer issuer serial (lib.sign secret (call.message lib)) raw := by
  obtain ⟨mode, d, cert, privateKey⟩ := call
  cases mode with
  | withAttributes =>
    obtain ⟨⟨secret, issuer, serial⟩, hsigner, h⟩ := Except.bind_eq_ok_iff.mp h
    exact ⟨secret, issuer, serial, _, hsigner, (Except.ok.inj h).symm⟩
  | withoutAttributes =>
    obtain ⟨⟨secret, issuer, serial⟩, hsigner, h⟩ := Except.bind_eq_ok_iff.mp h
    exact ⟨secret, issuer, serial, none, hsigner, (Except.ok.inj h).symm⟩

variable {privateKey : Bytes} {secret : Secret}

theorem signer_ok (h : signer lib certDer privateKey = .ok (secret, issuer, serial)) :
    findSignerCert lib issuer serial [certDer] = some certDer ∧
      ((lib.publicBytes secret).length = 32 → ∀ key, lib.keyFromBytes (lib.publicBytes secret) =
        some key → certKey lib certDer = .ok key) := by
  simp only [signer, verifyKeyMatch, Except.bind_eq_ok_iff, Except.elim_eq_ok_iff,
    Except.mapError_eq_ok_iff, Except.require_eq_ok_iff] at h
  obtain ⟨cert, hcert, secret', _, _, ⟨_, _, hmatch⟩, issuer', hissuer, heq⟩ := h
  obtain ⟨rfl, hnames⟩ := Prod.mk.inj (Except.ok.inj heq)
  cases hnames
  have hpublic : lib.subjectPublicKey cert = lib.publicBytes secret' := eq_of_beq hmatch
  refine ⟨?_, fun hlength key hkey => ?_⟩
  · rw [findSignerCert, hcert]
    simp only [signerIdentifier, hissuer, Except.map, if_true]
  · rw [certKey, hcert]
    simp only [Except.mapError, bind, Except.bind, Except.require, hpublic, hlength,
      beq_self_eq_true, if_true, hkey, Option.elim]

variable {data : Bytes} {key : Key}

theorem verify_built (hsigner : signer lib certDer privateKey = .ok (secret, issuer, serial))
    (hpublic : (lib.publicBytes secret).length = 32)
    (hkey : lib.keyFromBytes (lib.publicBytes secret) = some key)
    (hfits : Fits certDer issuer serial size) (hsignature : signature.length = 64)
    (hsize : (raw.getD []).length ≤ size + 3)
    (hraw : parseSignedAttributes (raw.getD [] ++ signatureFields signature) = .ok (raw, parsed,
      signatureFields signature))
    (hcheck : checkSigner lib (builtSigner issuer serial signature raw parsed) key data = .ok ()) :
    verify lib (buildCms certDer issuer serial signature raw) data = .ok certDer := by
  have hlength := length_signerFields_lt hfits hsignature hsize
  have hfields := length_signedFields_lt hlength
  have hdata :=
    length_encodeTlv_le 0x30 (signedFields (signerFields issuer serial signature raw) certDer)
  have hinfo := parseSignerInfo_built hfits hsignature hraw
  obtain ⟨hfind, hcert⟩ := signer_ok hsigner
  have hweak : [idSha512].forM rejectWeakAlgorithm = .ok () := by decide +kernel
  rw [verify, buildCms, buildSignerInfo_eq, buildSignedData_eq, parseContentInfo_built (by omega)]
  simp only [bind, Except.bind, Except.mapError, Except.require, beq_self_eq_true, if_true,
    parseSignedData_built hfits.certificate_der hlength hinfo, hweak, List.head?_cons, Option.elim]
  simp only [builtSigner, beq_self_eq_true, if_true] at hcheck ⊢
  simp only [hfind, hcert hpublic key hkey, hcheck]

/-! ## Forging -/

/-- Ed25519 and SHA-512 as documented, with Ed25519 ideal for a key and the signatures a
history made: each verifies, and nothing else does under the key. -/
structure Ideal (lib : Lib Cert Secret Key) (history : List SignCall) (key : Key) : Prop where
  digest_length : ∀ data, (lib.sha512 data).length = 64
  public_length : ∀ secret, (lib.publicBytes secret).length = 32
  signature_length : ∀ secret message, (lib.sign secret message).length = 64
  verifies : ∀ call ∈ history, ∀ secret key, lib.fromKeypairBytes call.privateKey = some secret →
    lib.keyFromBytes (lib.publicBytes secret) = some key →
    lib.verify key (call.message lib) (lib.sign secret (call.message lib)) = true
  unforgeable : Unforgeable lib history key

def SignCall.Fits (lib : Lib Cert Secret Key) (call : SignCall) : Prop :=
  ∀ secret issuer serial, signer lib call.certDer call.privateKey = .ok (secret, issuer, serial) →
    Cms.Fits call.certDer issuer serial call.data.length

theorem signer_secret (h : signer lib certDer privateKey = .ok (secret, issuer, serial)) :
    lib.fromKeypairBytes privateKey = some secret := by
  simp only [signer, Except.bind_eq_ok_iff, Except.elim_eq_ok_iff] at h
  obtain ⟨_, _, secret', hsecret, _, _, _, _, heq⟩ := h
  obtain ⟨rfl, -⟩ := Prod.mk.inj (Except.ok.inj heq)
  exact hsecret

variable {history : List SignCall} {call : SignCall}

/-- The signature of a call, passed off as another's: it verifies with any attributes, or
none, under which the signer passes the check of the digest and the message is the one
signed. -/
theorem verify_call (hideal : Ideal lib history key) (hcall : call ∈ history)
    (hfits : call.Fits lib)
    (hby : call.By lib key) (raw : Option Bytes) (parsed : List (Bytes × Bytes))
    (hsize : (raw.getD []).length ≤ call.data.length + 3)
    (hraw : ∀ signature, parseSignedAttributes (raw.getD [] ++ signatureFields signature) =
      .ok (raw, parsed, signatureFields signature))
    (hcheck : ∀ issuer serial signature,
      checkSigner lib (builtSigner issuer serial signature raw parsed) key data =
      checkSignature lib key (call.message lib) signature) :
    ∃ cms, verify lib cms data = .ok call.certDer ∧ certKey lib call.certDer = .ok key := by
  obtain ⟨secret', hsecret, hkey, cms, hrun⟩ := hby
  obtain ⟨secret, issuer, serial, -, hsigner, -⟩ := SignCall.run_ok hrun
  obtain rfl := Option.mem_unique (signer_secret hsigner) hsecret
  have hpublic := hideal.public_length secret
  have hsignature := hideal.signature_length secret (call.message lib)
  have hverify := hideal.verifies call hcall secret key (signer_secret hsigner) hkey
  refine ⟨buildCms call.certDer issuer serial (lib.sign secret (call.message lib)) raw, ?_,
    (signer_ok hsigner).2 hpublic key hkey⟩
  refine verify_built hsigner hpublic hkey (hfits secret issuer serial hsigner) hsignature hsize
    (hraw _) ?_
  rw [hcheck, checkSignature, hsignature, hverify]
  rfl

theorem verify_attributes (hideal : Ideal lib history key)
    (hcall : call ∈ history) (hfits : call.Fits lib) (hby : call.By lib key) :
    ∃ cms, verify lib cms (call.message lib) = .ok call.certDer ∧
    certKey lib call.certDer = .ok key :=
  verify_call hideal hcall hfits hby none []
    (Nat.zero_le _) parseSignedAttributes_absent (fun _ _ _ => rfl)

/-- What the holder signed as it is verifies for the data whose attribute set it reads as,
once it is put in the place of the attributes. -/
theorem verify_readsAs (hideal : Ideal lib history key)
    (hcall : call ∈ history) (hfits : call.Fits lib) (hby : call.By lib key)
    (hmode : call.mode = .withoutAttributes) (hreads : ReadsAs lib call.data data) :
    ∃ cms, verify lib cms data = .ok call.certDer ∧ certKey lib call.certDer = .ok key := by
  obtain ⟨tail, content, attrs, hdata, hparse, hattrs, hdigest⟩ := hreads
  have hmessage : call.message lib = 0x31 :: tail := by
    rw [SignCall.message, hmode, hdata]
  refine verify_call hideal hcall hfits hby (some (0xA0 :: tail)) attrs ?_
    (fun signature => parseSignedAttributes_present hparse hattrs (signatureFields signature))
    fun issuer serial signature => ?_
  · rw [hdata, Option.getD_some, length_cons, length_cons]
    omega
  · have hequal : constantTimeEq (lib.sha512 data) (lib.sha512 data) = true :=
      constantTimeEq_iff.mpr rfl
    rw [hmessage]
    simp only [checkSigner, builtSigner, hdigest, Option.elim, bind, Except.bind, Except.require,
      hequal, if_true, implicit0ToSet]

theorem apart_of_binds (hideal : Ideal lib history key)
    (hfits : ∀ call ∈ history, call.Fits lib) (hbinds : Binds lib history key data)
    (hsigned : ¬ Signed lib history key data) : Apart lib history key data := by
  intro call hcall hby
  split
  · rename_i hmode
    intro hdata
    have hmessage : call.message lib = data := by rw [SignCall.message, hmode, ← hdata]
    obtain ⟨cms, hverify, hkey⟩ := verify_attributes hideal hcall (hfits call hcall) hby
    rw [hmessage] at hverify
    exact hsigned (hbinds cms call.certDer hverify hkey)
  · rename_i hmode
    intro hreads
    obtain ⟨cms, hverify, hkey⟩ := verify_readsAs hideal hcall (hfits call hcall) hby hmode hreads
    exact hsigned (hbinds cms call.certDer hverify hkey)

/-- **What a detached signature binds.** Let Ed25519 be ideal for a key and a history of signing
calls, and let no data signed in it have the digest of other data. Data kept apart from the
messages of the history verifies under a certificate of the key only if its holder signed
it. Where the certificates and the data signed fit a message, that is exact: other data
verifies unsigned. -/
theorem signature_binds_iff {history : List SignCall} {key : Key} (hideal : Ideal lib history key)
    {data : Bytes}
    (hcollision : ∀ call ∈ history, lib.sha512 call.data = lib.sha512 data → call.data = data) :
    (Apart lib history key data → Binds lib history key data) ∧
      ((∀ call ∈ history, call.Fits lib) → (Binds lib history key data ↔
        Signed lib history key data ∨ Apart lib history key data)) := by
  have hsufficient : Apart lib history key data → Binds lib history key data :=
    binds_of_apart hideal.digest_length hideal.unforgeable hcollision
  refine ⟨hsufficient, fun hfits => ⟨fun hbinds => ?_, ?_⟩⟩
  · by_cases hsigned : Signed lib history key data
    · exact .inl hsigned
    · exact .inr (apart_of_binds hideal hfits hbinds hsigned)
  · rintro (hsigned | hapart)
    · exact fun _ _ _ _ => hsigned
    · exact hsufficient hapart

/-! ### A forgery -/

/-- A holder with one key; its signatures verify on one message only. -/
def oneSigner (message : Bytes) : Lib Bytes Unit Unit where
  parseCert := .ok
  issuerDer _ := .ok (encodeSequence [])
  serialBytes _ := [1]
  spkiOid _ := idEd25519
  subjectPublicKey _ := List.replicate 32 0
  fromKeypairBytes _ := some ()
  publicBytes _ := List.replicate 32 0
  keyFromBytes _ := some ()
  sign _ _ := List.replicate 64 0
  verify _ m _ := m == message
  sha512 data := .ofNat data.length :: List.replicate 63 0

def emptySigned : SignCall :=
  { mode := .withAttributes, data := [], certDer := encodeSequence [], privateKey := [] }

def emptySet : Bytes := encodeAsSet (attributes (0 :: List.replicate 63 0))

theorem emptySigned_by : emptySigned.By (oneSigner emptySet) () := ⟨(), rfl, rfl, _, rfl⟩

theorem emptySigned_ideal : Ideal (oneSigner emptySet) [emptySigned] () where
  digest_length _ := rfl
  public_length _ := rfl
  signature_length _ _ := rfl
  verifies call hcall _ _ _ _ := by
    obtain rfl := mem_singleton.mp hcall
    exact beq_self_eq_true emptySet
  unforgeable message _ hverify :=
    ⟨emptySigned, List.mem_singleton_self _, emptySigned_by, (eq_of_beq hverify).symm⟩

theorem emptySigned_fits : ∀ call ∈ [emptySigned], call.Fits (oneSigner emptySet) := by
  rintro call hcall secret issuer serial hsigner
  obtain rfl := mem_singleton.mp hcall
  obtain ⟨-, hnames⟩ := Prod.mk.inj (Except.ok.inj hsigner)
  cases hnames
  exact ⟨⟨[], rfl⟩, ⟨0x30, [], rfl⟩, by decide, by decide⟩

theorem length_emptySet : emptySet.length = 109 := by
  rw [emptySet, encodeAsSet, encodeSet, encodeTlv, length_append, length_cons,
    length_attributes (by decide)]
  rfl

/-- The holder signed the empty document and nothing else, and the attribute set of the
empty document verifies as theirs. -/
theorem attribute_set_forged : Ideal (oneSigner emptySet) [emptySigned] () ∧
    (∀ call ∈ [emptySigned], (oneSigner emptySet).sha512 call.data =
      (oneSigner emptySet).sha512 emptySet →
      call.data = emptySet) ∧ ¬ Binds (oneSigner emptySet) [emptySigned] () emptySet := by
  have hne : emptySigned.data ≠ emptySet := by
    intro heq
    have := congrArg List.length heq
    cases this
  refine ⟨emptySigned_ideal, fun call hcall hdigest => ?_, fun hbinds => ?_⟩
  · obtain rfl := mem_singleton.mp hcall
    have hfirst := (List.cons.inj hdigest).1
    rw [length_emptySet] at hfirst
    cases hfirst
  · obtain ⟨cms, hverify, hkey⟩ := verify_attributes emptySigned_ideal (List.mem_singleton_self _)
      (emptySigned_fits _ (List.mem_singleton_self _)) emptySigned_by
    obtain ⟨call, hcall, -, hdata⟩ := hbinds cms _ hverify hkey
    obtain rfl := mem_singleton.mp hcall
    exact hne hdata

/-- A one-byte document is kept apart, and so is not accepted unsigned. -/
theorem signature_binds_one : Ideal (oneSigner emptySet) [emptySigned] () ∧
    Apart (oneSigner emptySet) [emptySigned] () [7] ∧
    Binds (oneSigner emptySet) [emptySigned] () [7] := by
  have hapart : Apart (oneSigner emptySet) [emptySigned] () [7] := by
    intro call hcall _
    obtain rfl := mem_singleton.mp hcall
    intro (heq : emptySet = [7])
    have := congrArg List.length heq
    rw [length_emptySet] at this
    cases this
  refine ⟨emptySigned_ideal, hapart,
    ((signature_binds_iff emptySigned_ideal ?_).2 emptySigned_fits).mpr (.inr hapart)⟩
  intro call hcall hdigest
  obtain rfl := mem_singleton.mp hcall
  exact absurd (List.cons.inj hdigest).1 (by decide)

end LeyLine.Sign.Cms
