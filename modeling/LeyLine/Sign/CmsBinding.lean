import LeyLine.Lib.Assoc
import LeyLine.Sign.Cms

/-!
# What a detached signature binds

The two ways of signing sign different messages with one key: the encoded set of
attributes, or the data. The verifier tells them apart by a field the attacker writes, so
a signature on one is a signature on the other whenever the message reads as both. Data
that is no attribute set the holder signed, and whose digest no signed data carries as an
attribute set, is accepted only if the holder signed it; other data can be forged.
-/

namespace LeyLine.Sign.Cms

open Der
open Except (bind_eq_ok_iff)

variable {Cert Secret Key : Type} {lib : Lib Cert Secret Key}

/-! ## What the parser keeps of the attributes -/

/-- Stored attributes and what was read from them. -/
structure AttributesRead (raw : Bytes) (parsed : List (Bytes × Bytes)) : Prop where
  read : ∃ tail content, raw = 0xA0 :: tail ∧ parseTlv (0xA0 :: tail) = .ok (0xA0, content, []) ∧
    parseAttributes content = .ok parsed

theorem parseSignedAttributes_ok {rest rest' : Bytes} {raw : Option Bytes}
    {parsed : List (Bytes × Bytes)} (h : parseSignedAttributes rest = .ok (raw, parsed, rest')) :
    ∀ r ∈ raw, AttributesRead r parsed := by
  intro r hr
  rw [parseSignedAttributes] at h
  split_ifs at h with hempty
  · obtain ⟨rfl, -⟩ := Prod.mk.inj (Except.ok.inj h)
    cases hr
  · obtain ⟨⟨tag, content, after⟩, hparse, h⟩ := bind_eq_ok_iff.mp h
    dsimp only at h
    split_ifs at h with htag
    · obtain ⟨attrs, hattrs, h⟩ := bind_eq_ok_iff.mp h
      obtain ⟨hraw, hrest⟩ := Prod.mk.inj (Except.ok.inj h)
      obtain ⟨rfl, -⟩ := Prod.mk.inj hrest
      obtain rfl : tag = 0xA0 := eq_of_beq htag
      obtain ⟨tail, hdata, halone⟩ := parseTlv_alone hparse 0xA0
      refine ⟨tail, content, ?_, halone, hattrs⟩
      rw [Option.mem_def, ← hraw, Option.some.injEq] at hr
      rw [← hr, hdata, List.length_append, Nat.add_sub_cancel, List.take_left]
    · obtain ⟨rfl, -⟩ := Prod.mk.inj (Except.ok.inj h)
      cases hr

variable {data : Bytes}

theorem parseSignerInfo_ok {si : ParsedSignerInfo} (h : parseSignerInfo data = .ok si) :
    ∀ raw ∈ si.signedAttributesRaw, AttributesRead raw si.signedAttributesParsed := by
  simp only [parseSignerInfo, bind_eq_ok_iff] at h
  obtain ⟨_, _, _, _, _, _, _, _, _, _, ⟨raw, parsed, rest⟩, hattrs, _, _, _, _, _, _, _, _, h⟩ := h
  rw [← Except.ok.inj h]
  exact parseSignedAttributes_ok hattrs

/-- A signer of the message was read by `parseSignerInfo`. -/
def Read (si : ParsedSignerInfo) : Prop := ∃ data, parseSignerInfo data = .ok si

theorem addField_ok {sd sd' : ParsedSignedData} {tag : UInt8} {content : Bytes}
    (h : addField sd tag content = .ok sd') (hsd : ∀ si ∈ sd.signerInfos, Read si) :
    ∀ si ∈ sd'.signerInfos, Read si := by
  rw [addField] at h
  split_ifs at h
  · obtain ⟨certificates, -, h⟩ := bind_eq_ok_iff.mp h
    rw [← Except.ok.inj h]
    exact hsd
  · obtain ⟨signerInfos, hinfos, h⟩ := bind_eq_ok_iff.mp h
    obtain ⟨elements, -, hinfos⟩ := bind_eq_ok_iff.mp hinfos
    rw [← Except.ok.inj h, List.forall_mem_append]
    refine ⟨hsd, fun si hsi => ?_⟩
    rw [Except.mapM_eq_ok_iff] at hinfos
    obtain ⟨e, -, he⟩ := Assoc.forall₂_mem_right hinfos hsi
    exact ⟨e.2, he⟩
  · rw [← Except.ok.inj h]
    exact hsd

theorem parseFields_ok : ∀ {fuel : Nat} {rest : Bytes} {sd sd' : ParsedSignedData},
    parseFields fuel rest sd = .ok sd' → (∀ si ∈ sd.signerInfos, Read si) →
    ∀ si ∈ sd'.signerInfos, Read si
  | 0, [], sd, sd', h, hsd => by
    exact Except.ok.inj h ▸ hsd
  | fuel + 1, [], sd, sd', h, hsd => by
    exact Except.ok.inj h ▸ hsd
  | 0, b :: rest, sd, sd', h, _ => by
    cases h
  | fuel + 1, b :: rest, sd, sd', h, hsd => by
    obtain ⟨_, _, h⟩ := bind_eq_ok_iff.mp h
    obtain ⟨sd₁, hadd, h⟩ := bind_eq_ok_iff.mp h
    exact parseFields_ok h (addField_ok hadd hsd)

theorem parseSignedData_ok {sd : ParsedSignedData} (h : parseSignedData data = .ok sd) :
    ∀ si ∈ sd.signerInfos, Read si := by
  simp only [parseSignedData, bind_eq_ok_iff] at h
  obtain ⟨_, _, _, _, _, _, _, _, _, _, oids, _, _, _, h⟩ := h
  exact parseFields_ok h fun si hsi => absurd hsi List.not_mem_nil

/-! ## What acceptance means -/

theorem foldl_or_eq_zero {xs : List (UInt8 × UInt8)} : ∀ {diff : UInt8},
    xs.foldl (fun diff xy => diff ||| (xy.1 ^^^ xy.2)) diff = 0 ↔ diff = 0 ∧ ∀ xy ∈ xs,
    xy.1 = xy.2 := by
  induction xs with
  | nil => simp
  | cons xy xs ih =>
    intro diff
    rw [List.foldl_cons, ih, UInt8.or_eq_zero_iff, UInt8.xor_eq_zero_iff, List.forall_mem_cons,
      and_assoc]

theorem constantTimeEq_iff {a b : Bytes} : constantTimeEq a b = true ↔ a = b := by
  rw [constantTimeEq, Bool.and_eq_true, beq_iff_eq, beq_iff_eq, foldl_or_eq_zero]
  constructor
  · rintro ⟨hlen, -, hzip⟩
    exact List.ext_getElem hlen fun i hi hi' =>
      hzip _ (List.mem_of_getElem (List.getElem_zip (h := by
      rw [List.length_zip]; omega)))
  · rintro rfl
    refine ⟨rfl, rfl, fun xy hxy => ?_⟩
    obtain ⟨i, hi, rfl⟩ := List.getElem_of_mem hxy
    rw [List.getElem_zip]

/-- A message that, stored as attributes, carries the digest of the data. -/
def ReadsAs (lib : Lib Cert Secret Key) (message data : Bytes) : Prop :=
  ∃ tail content attrs, message = 0x31 :: tail ∧ parseTlv (0xA0 :: tail) = .ok (0xA0, content, []) ∧
    parseAttributes content = .ok attrs ∧ extractMessageDigest attrs = some (lib.sha512 data)

variable {key : Key}

theorem checkSignature_ok {message signature : Bytes} {u : Unit}
    (h : checkSignature lib key message signature = .ok u) :
    lib.verify key message signature = true := by
  have := Except.require_eq_ok_iff.mp h
  rw [Bool.and_eq_true] at this
  exact this.2

theorem checkSigner_ok {si : ParsedSignerInfo} (hsi : Read si) {u : Unit}
    (h : checkSigner lib si key data = .ok u) :
    ∃ message, lib.verify key message si.signature = true ∧
    (message = data ∨ ReadsAs lib message data) := by
  rw [checkSigner] at h
  split at h
  · rename_i raw hraw
    obtain ⟨stored, hstored, h⟩ := bind_eq_ok_iff.mp h
    obtain ⟨_, hdigest, hsignature⟩ := bind_eq_ok_iff.mp h
    rw [Except.elim_eq_ok_iff] at hstored
    obtain rfl := constantTimeEq_iff.mp (Except.require_eq_ok_iff.mp hdigest)
    obtain ⟨info, hinfo⟩ := hsi
    obtain ⟨tail, content, rfl, hparse, hattrs⟩ := (parseSignerInfo_ok hinfo raw hraw).read
    exact ⟨_, checkSignature_ok hsignature, .inr ⟨tail, content, _, rfl, hparse, hattrs, hstored⟩⟩
  · exact ⟨data, checkSignature_ok h, .inl rfl⟩

theorem verify_ok {cms data certDer : Bytes} (h : verify lib cms data = .ok certDer) :
    ∃ key message signature, certKey lib certDer = .ok key ∧ lib.verify key message signature =
    true ∧
      (message = data ∨ ReadsAs lib message data) := by
  simp only [verify, bind_eq_ok_iff, Except.elim_eq_ok_iff, Except.mapError_eq_ok_iff] at h
  obtain ⟨_, _, _, _, sd, hsd, _, _, si, hsi, _, _, cert, -, key, hkey, _, hcheck, hok⟩ := h
  cases hok
  have hread : Read si := parseSignedData_ok hsd si (List.mem_of_mem_head? hsi)
  obtain ⟨message, hverify, hmessage⟩ := checkSigner_ok hread hcheck
  exact ⟨key, message, si.signature, hkey, hverify, hmessage⟩

/-! ## The attributes of a digest -/

variable {digest : Bytes}

theorem attributes_eq (h : digest.length = 64) :
    attributes digest = [buildAttribute idContentType (encodeOid idData),
      buildAttribute idMessageDigest (encodeOctetString digest)] := by
  refine List.mergeSort_of_pairwise ?_
  rw [List.pairwise_pair, decide_eq_true_eq]
  have hfirst : buildAttribute idContentType (encodeOid idData)
      = 0x30 :: 0x18 :: (encodeOid idContentType ++
      encodeSet (encodeOid idData)) := by decide +kernel
  have hsecond : buildAttribute idMessageDigest (encodeOctetString digest)
      = 0x30 :: 0x4f :: (encodeOid idMessageDigest ++ encodeSet (encodeOctetString digest)) := by
    have hlen : (encodeOid idMessageDigest ++ encodeSet (encodeOctetString digest)).length =
        0x4f := by
      simp [encodeOid, encodeSet, encodeOctetString, encodeTlv, encodeDerLength, idMessageDigest, h]
    rw [buildAttribute, encodeSequence, encodeTlv, hlen]
    rfl
  rw [hfirst, hsecond]
  refine List.cons_le_cons_iff.mpr (.inr ⟨rfl, List.cons_le_cons_iff.mpr (.inl ?_)⟩)
  exact (by decide : (0x18 : UInt8) < 0x4f)

theorem iterTlv_buildAttribute {oid value : Bytes} (hoid : oid.length < 2 ^ 24)
    (hvalue : value.length < 2 ^ 24) :
    iterTlv (encodeOid oid ++ encodeSet value) = .ok [(0x06, oid), (0x31, value)] := by
  rw [encodeOid, iterTlv_encodeTlv 0x06 hoid, encodeSet, iterTlv_encodeTlv_last 0x31 hvalue]
  rfl

theorem parseAttributes_attributes (h : digest.length = 64) :
    parseAttributes (attributes digest).flatten
      = .ok [(idContentType, encodeOid idData), (idMessageDigest, encodeOctetString digest)] := by
  have hvalue : (encodeOctetString digest).length < 2 ^ 24 :=
    lt_of_le_of_lt (length_encodeTlv_le _ _) (by rw [h]; decide)
  have hfirst : iterTlv (encodeOid idContentType ++ encodeSet (encodeOid idData)) = .ok _ :=
    iterTlv_buildAttribute (by decide) (by decide)
  have hsecond : iterTlv (encodeOid idMessageDigest ++ encodeSet (encodeOctetString digest)) =
      .ok _ :=
    iterTlv_buildAttribute (by decide) hvalue
  have hlen : (encodeOid idMessageDigest ++ encodeSet (encodeOctetString digest)).length <
      2 ^ 24 := by
    simp [encodeOid, encodeSet, encodeOctetString, encodeTlv, encodeDerLength, idMessageDigest, h]
  have hattrs : iterTlv (attributes digest).flatten
      = .ok [(0x30, encodeOid idContentType ++ encodeSet (encodeOid idData)),
        (0x30, encodeOid idMessageDigest ++ encodeSet (encodeOctetString digest))] := by
    rw [attributes_eq h, List.flatten_cons, List.flatten_cons, List.flatten_nil, List.append_nil,
      buildAttribute,
      buildAttribute, encodeSequence, encodeSequence, iterTlv_encodeTlv 0x30 (by decide),
      iterTlv_encodeTlv_last 0x30 hlen]
    rfl
  rw [parseAttributes, hattrs]
  simp only [bind, Except.bind, List.mapM_cons, List.mapM_nil, hfirst, hsecond, Except.map, pure,
    Except.pure, attributePair]
  rfl

theorem extractMessageDigest_attributes (h : digest.length = 64) :
    extractMessageDigest [(idContentType, encodeOid idData),
      (idMessageDigest, encodeOctetString digest)] = some digest := by
  have hparse : parseTlv (encodeOctetString digest) = .ok (0x04, digest, []) := by
    have hlen : digest.length < 2 ^ 24 := by rw [h]; decide
    have heq := parseTlv_encodeTlv 0x04 hlen []
    rwa [List.append_nil] at heq
  have hne : idContentType ≠ idMessageDigest := by decide
  simp [extractMessageDigest, hne, hparse]

theorem length_attributes (h : digest.length = 64) : (attributes digest).flatten.length = 107 := by
  rw [attributes_eq h]
  simp [buildAttribute, encodeOid, encodeSet, encodeSequence, encodeOctetString, encodeTlv,
    encodeDerLength, idContentType, idMessageDigest, idData, h]

theorem readsAs_attributes (hsha : ∀ d, (lib.sha512 d).length = 64) {d data : Bytes} :
    ReadsAs lib (encodeAsSet (attributes (lib.sha512 d))) data ↔
    lib.sha512 d = lib.sha512 data := by
  have hlen : (attributes (lib.sha512 d)).flatten.length < 2 ^ 24 := by
    rw [length_attributes (hsha d)]
    decide
  have hparse := parseTlv_encodeTlv 0xA0 hlen []
  rw [List.append_nil] at hparse
  constructor
  · rintro ⟨tail, content, attrs, hmessage, hcontent, hattrs, hextract⟩
    obtain ⟨-, rfl⟩ := List.cons.inj hmessage
    obtain ⟨-, hrest⟩ := Prod.mk.inj (Except.ok.inj (hparse.symm.trans hcontent))
    obtain ⟨rfl, -⟩ := Prod.mk.inj hrest
    cases (parseAttributes_attributes (hsha d)).symm.trans hattrs
    exact Option.mem_unique (extractMessageDigest_attributes (hsha d)) hextract
  · intro heq
    refine ⟨_, _, _, rfl, hparse, parseAttributes_attributes (hsha d), ?_⟩
    rw [extractMessageDigest_attributes (hsha d), heq]

/-! ## Histories -/

inductive Mode where
  | withAttributes
  | withoutAttributes
  deriving DecidableEq, Repr

/-- A call of one of the two signing functions. -/
structure SignCall where
  mode : Mode
  data : Bytes
  certDer : Bytes
  privateKey : Bytes
  deriving DecidableEq

def SignCall.run (lib : Lib Cert Secret Key) (call : SignCall) : Except SignError Bytes :=
  match call.mode with
  | .withAttributes => signData lib call.data call.certDer call.privateKey
  | .withoutAttributes => signDataWithoutAttributes lib call.data call.certDer call.privateKey

def SignCall.message (lib : Lib Cert Secret Key) (call : SignCall) : Bytes :=
  match call.mode with
  | .withAttributes => encodeAsSet (attributes (lib.sha512 call.data))
  | .withoutAttributes => call.data

/-- The call returned a message, signed with the key. -/
def SignCall.By (lib : Lib Cert Secret Key) (key : Key) (call : SignCall) : Prop :=
  ∃ secret, lib.fromKeypairBytes call.privateKey = some secret ∧
    lib.keyFromBytes (lib.publicBytes secret) = some key ∧ ∃ cms, call.run lib = .ok cms

/-- What verifies under the key was signed by a call. -/
def Unforgeable (lib : Lib Cert Secret Key) (history : List SignCall) (key : Key) : Prop :=
  ∀ message signature, lib.verify key message signature = true →
    ∃ call ∈ history, call.By lib key ∧ call.message lib = message

def Signed (lib : Lib Cert Secret Key) (history : List SignCall) (key : Key) (data : Bytes) :
    Prop :=
  ∃ call ∈ history, call.By lib key ∧ call.data = data

/-- Verification under a certificate of the key means that its holder signed the data. -/
def Binds (lib : Lib Cert Secret Key) (history : List SignCall) (key : Key) (data : Bytes) : Prop :=
  ∀ cms certDer, verify lib cms data = .ok certDer → certKey lib certDer = .ok key →
    Signed lib history key data

/-- The two kinds of message are apart for the data: it is no attribute set the holder
signed, and nothing the holder signed as it is reads as its attribute set. -/
def Apart (lib : Lib Cert Secret Key) (history : List SignCall) (key : Key) (data : Bytes) : Prop :=
  ∀ call ∈ history, call.By lib key → match call.mode with
    | .withAttributes => encodeAsSet (attributes (lib.sha512 call.data)) ≠ data
    | .withoutAttributes => ¬ ReadsAs lib call.data data

theorem binds_of_apart {history : List SignCall} (hsha : ∀ d, (lib.sha512 d).length = 64)
    (hideal : Unforgeable lib history key)
    (hcollision : ∀ call ∈ history, lib.sha512 call.data = lib.sha512 data → call.data = data)
    (hapart : Apart lib history key data) : Binds lib history key data := by
  intro cms certDer hverify hkey
  obtain ⟨key', message, signature, hkey', hsig, hmessage⟩ := verify_ok hverify
  cases hkey.symm.trans hkey'
  obtain ⟨call, hcall, hby, rfl⟩ := hideal message signature hsig
  have hsep := hapart call hcall hby
  obtain ⟨mode, d, cert, privateKey⟩ := call
  cases mode with
  | withAttributes =>
    rcases hmessage with hdata | hreads
    · exact absurd hdata hsep
    · exact ⟨_, hcall, hby, hcollision _ hcall ((readsAs_attributes hsha).mp hreads)⟩
  | withoutAttributes =>
    rcases hmessage with hdata | hreads
    · exact ⟨_, hcall, hby, hdata⟩
    · exact absurd hreads hsep

end LeyLine.Sign.Cms
