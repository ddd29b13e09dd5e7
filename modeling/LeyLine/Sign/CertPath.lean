import LeyLine.Sign.CertChain

/-!
# What an accepted path attests

Whatever certificates the holders of lower keys issue, a path that `verifyCertPath`
accepts only narrows what the anchor signed. Each extension the verifier reads is a
`Field`: one lemma says that reading all extensions leaves in it what the certificate
carries there. The walk from the anchor is a `Chain`, on which the induction runs.
-/

namespace LeyLine.Sign

open Except (bind_eq_ok_iff elim_eq_ok_iff require_eq_ok_iff)

variable {Name Rest Key : Type} {α : Type}

/-! ## What a certificate carries -/

def Certificate.carried (cert : Certificate Name Rest) (oid : Oid)
    (parse : Bytes → Except ChainError α) : Option α :=
  (cert.exts.find? (·.extnId = oid)).bind fun e => (parse e.extnValue).toOption

section Carried

variable (pki : Pki Name Rest Key)

def certEpoch (cert : Certificate Name Rest) : Option Nat := cert.carried oidEpoch (parseEpoch pki)

def certDigest (cert : Certificate Name Rest) : Option Bytes :=
  cert.carried oidConfinementDigest (parseConfinementDigest pki)

def certBasic (cert : Certificate Name Rest) : Option BasicConstraints :=
  cert.carried idCeBasicConstraints (parseBasicConstraints pki)

def certKeyUsage (cert : Certificate Name Rest) : Option KeyUsage :=
  cert.carried idCeKeyUsage (parseKeyUsage pki)

/-- One of the claims read from extensions: reading an extension sets it when the
identifier is its own, and leaves it otherwise. -/
structure Field (α : Type) where
  get : Extracted → Option α
  oid : Oid
  parse : Bytes → Except ChainError α
  read : ∀ {profile out ext out'}, readExtension pki profile out ext = .ok out' →
    (ext.extnId = oid → ∃ a, parse ext.extnValue = .ok a ∧ get out' = some a) ∧
      (ext.extnId ≠ oid → get out' = get out)

end Carried

variable {pki : Pki Name Rest Key}

/-- What reading one extension may do. -/
inductive Reads (pki : Pki Name Rest Key) (out : Extracted) (ext : Extension) :
    Extracted → Prop where
  | epoch {e : Nat} : ext.extnId = oidEpoch → parseEpoch pki ext.extnValue = .ok e →
      Reads pki out ext { out with epoch := some e }
  | digest {d : Bytes} : ext.extnId = oidConfinementDigest →
      parseConfinementDigest pki ext.extnValue = .ok d →
      Reads pki out ext { out with confinementDigest := some d }
  | peerFp {s : String} : ext.extnId = oidPeerFp → Reads pki out ext { out with peerFp := some s }
  | scope {s : String} : ext.extnId = oidScope → Reads pki out ext { out with scope := some s }
  | basic {b : BasicConstraints} : ext.extnId = idCeBasicConstraints →
      parseBasicConstraints pki ext.extnValue = .ok b →
      Reads pki out ext { out with basic := some b }
  | keyUsage {k : KeyUsage} : ext.extnId = idCeKeyUsage →
      parseKeyUsage pki ext.extnValue = .ok k → Reads pki out ext { out with keyUsage := some k }
  | ignored : ext.extnId ∉ [oidEpoch, oidConfinementDigest, idCeBasicConstraints, idCeKeyUsage] →
      Reads pki out ext out

variable {profile : CertProfile} {out out' : Extracted}

theorem readExtension_reads {ext : Extension}
    (h : readExtension pki profile out ext = .ok out') : Reads pki out ext out' := by
  unfold readExtension at h
  split_ifs at h with hepoch hdigest hpeer hscope hbasic husage hsan
  · obtain ⟨e, he, h⟩ := bind_eq_ok_iff.mp h
    exact Except.ok.inj h ▸ .epoch hepoch he
  · obtain ⟨d, hd, h⟩ := bind_eq_ok_iff.mp h
    exact Except.ok.inj h ▸ .digest hdigest hd
  · obtain ⟨s, -, h⟩ := bind_eq_ok_iff.mp h
    exact Except.ok.inj h ▸ .peerFp hpeer.2
  · obtain ⟨s, -, h⟩ := bind_eq_ok_iff.mp h
    exact Except.ok.inj h ▸ .scope hscope.2
  · obtain ⟨b, hb, h⟩ := bind_eq_ok_iff.mp h
    exact Except.ok.inj h ▸ .basic hbasic hb
  · obtain ⟨k, hk, h⟩ := bind_eq_ok_iff.mp h
    exact Except.ok.inj h ▸ .keyUsage husage hk
  all_goals
    obtain ⟨-, -, h⟩ := bind_eq_ok_iff.mp h
    exact Except.ok.inj h ▸ .ignored (by simp [hepoch, hdigest, hbasic, husage])

section Fields

variable (pki)

def epochField : Field pki Nat where
  get := (·.epoch)
  oid := oidEpoch
  parse := parseEpoch pki
  read h := by
    cases readExtension_reads h with
    | epoch hid he => exact ⟨fun _ => ⟨_, he, rfl⟩, fun hne => absurd hid hne⟩
    | ignored hid => exact ⟨fun heq => absurd heq (by simp_all), fun _ => rfl⟩
    | _ hid => exact ⟨fun heq => absurd (hid.symm.trans heq) (by decide), fun _ => rfl⟩

def digestField : Field pki Bytes where
  get := (·.confinementDigest)
  oid := oidConfinementDigest
  parse := parseConfinementDigest pki
  read h := by
    cases readExtension_reads h with
    | digest hid hd => exact ⟨fun _ => ⟨_, hd, rfl⟩, fun hne => absurd hid hne⟩
    | ignored hid => exact ⟨fun heq => absurd heq (by simp_all), fun _ => rfl⟩
    | _ hid => exact ⟨fun heq => absurd (hid.symm.trans heq) (by decide), fun _ => rfl⟩

def basicField : Field pki BasicConstraints where
  get := (·.basic)
  oid := idCeBasicConstraints
  parse := parseBasicConstraints pki
  read h := by
    cases readExtension_reads h with
    | basic hid hb => exact ⟨fun _ => ⟨_, hb, rfl⟩, fun hne => absurd hid hne⟩
    | ignored hid => exact ⟨fun heq => absurd heq (by simp_all), fun _ => rfl⟩
    | _ hid => exact ⟨fun heq => absurd (hid.symm.trans heq) (by decide), fun _ => rfl⟩

def keyUsageField : Field pki KeyUsage where
  get := (·.keyUsage)
  oid := idCeKeyUsage
  parse := parseKeyUsage pki
  read h := by
    cases readExtension_reads h with
    | keyUsage hid hk => exact ⟨fun _ => ⟨_, hk, rfl⟩, fun hne => absurd hid hne⟩
    | ignored hid => exact ⟨fun heq => absurd heq (by simp_all), fun _ => rfl⟩
    | _ hid => exact ⟨fun heq => absurd (hid.symm.trans heq) (by decide), fun _ => rfl⟩

end Fields

theorem Field.read_others (f : Field pki α) {exts : List Extension}
    (h : exts.foldlM (readExtension pki profile) out = .ok out')
    (hid : ∀ e ∈ exts, e.extnId ≠ f.oid) : f.get out' = f.get out := by
  induction exts generalizing out with
  | nil => rw [← Except.ok.inj h]
  | cons e exts ih =>
    obtain ⟨out₁, he, h⟩ := bind_eq_ok_iff.mp h
    rw [ih h fun e' he' => hid e' (List.mem_cons_of_mem e he')]
    exact (f.read he).2 (hid e List.mem_cons_self)

/-- Reading all extensions, no two alike, leaves in a field what the extension of its
identifier decodes to. -/
theorem Field.read_all (f : Field pki α) {exts : List Extension}
    (h : exts.foldlM (readExtension pki profile) out = .ok out')
    (hnodup : (exts.map (·.extnId)).Nodup) (hnone : f.get out = none) :
    f.get out' = (exts.find? (·.extnId = f.oid)).bind fun e => (f.parse e.extnValue).toOption := by
  induction exts generalizing out with
  | nil => rw [← Except.ok.inj h, hnone]; rfl
  | cons e exts ih =>
    obtain ⟨out₁, he, hrest⟩ := bind_eq_ok_iff.mp h
    obtain ⟨hfresh, hnodup⟩ := List.nodup_cons.mp hnodup
    by_cases hid : e.extnId = f.oid
    · obtain ⟨a, hparse, hget⟩ := (f.read he).1 hid
      rw [List.find?_cons_of_pos (by simpa using hid), Option.bind_some, hparse,
        f.read_others hrest fun e' he' heq => hfresh ?_, hget]
      · rfl
      · exact List.mem_map.mpr ⟨e', he', heq.trans hid.symm⟩
    · rw [List.find?_cons_of_neg (by simpa using hid)]
      exact ih hrest hnodup (((f.read he).2 hid).trans hnone)

variable {cert : Certificate Name Rest}

theorem extractExtensions_spec {role : Role} (h : extractExtensions pki cert role = .ok out) :
    out.epoch = certEpoch pki cert ∧ out.confinementDigest = certDigest pki cert ∧
      checkRole (certBasic pki cert) (certKeyUsage pki cert) role = .ok () := by
  obtain ⟨_, hnodup, h⟩ := bind_eq_ok_iff.mp h
  obtain ⟨out', hread, h⟩ := bind_eq_ok_iff.mp h
  obtain ⟨_, hrole, h⟩ := bind_eq_ok_iff.mp h
  obtain rfl := Except.ok.inj h
  have hids : (cert.exts.map (·.extnId)).Nodup := by simpa using require_eq_ok_iff.mp hnodup
  have hbasic : out'.basic = certBasic pki cert := (basicField pki).read_all hread hids rfl
  have husage : out'.keyUsage = certKeyUsage pki cert := (keyUsageField pki).read_all hread hids rfl
  refine ⟨(epochField pki).read_all hread hids rfl, (digestField pki).read_all hread hids rfl, ?_⟩
  rw [← hbasic, ← husage]
  exact hrole

/-! ## Links -/

/-- A certificate's signature, over the encoding of its signed part, is a key's. -/
def SignedBy (pki : Pki Name Rest Key) (key : Key) (cert : Certificate Name Rest) : Prop :=
  ∃ der, pki.tbsToDer cert.tbsCertificate = .ok der ∧ pki.verify key der cert.signature = true

/-- A certificate is a CA's, allowed to sign certificates, whose path length admits the
intermediates below it. -/
def MaySign (pki : Pki Name Rest Key) (cert : Certificate Name Rest) (below : Nat) : Prop :=
  (∃ b, certBasic pki cert = some b ∧ b.ca = true ∧
      ∀ limit, b.pathLenConstraint = some limit → below ≤ limit.toNat) ∧
    ∃ k, certKeyUsage pki cert = some k ∧ k.keyCertSign = true

variable {below : Nat}

theorem checkRole_intermediate
    (h : checkRole (certBasic pki cert) (certKeyUsage pki cert) (.intermediate below) = .ok ()) :
    MaySign pki cert below := by
  obtain ⟨b, hb, h⟩ := bind_eq_ok_iff.mp h
  obtain ⟨_, hca, h⟩ := bind_eq_ok_iff.mp h
  obtain ⟨_, hlen, husage⟩ := bind_eq_ok_iff.mp h
  refine ⟨⟨b, elim_eq_ok_iff.mp hb, require_eq_ok_iff.mp hca, fun limit hlimit => ?_⟩, ?_⟩
  · have hle := require_eq_ok_iff.mp hlen
    rw [hlimit] at hle
    simpa using hle
  · simpa [Option.any_eq_true] using require_eq_ok_iff.mp husage

/-- What verifying one link establishes. -/
structure Linked (pki : Pki Name Rest Key) (signer : Key) (cert : Certificate Name Rest)
    (role : Role) (link : LinkClaims) : Prop where
  signed : SignedBy pki signer cert
  suits : checkRole (certBasic pki cert) (certKeyUsage pki cert) role = .ok ()
  pubkey : link.pubkey = cert.tbsCertificate.subjectPublicKey
  notBefore : link.notBefore = timeToUnix cert.tbsCertificate.notBefore
  notAfter : link.notAfter = timeToUnix cert.tbsCertificate.notAfter
  profile : link.profile = classifyProfile cert
  epoch : link.epoch = certEpoch pki cert
  digest : link.confinementDigest = certDigest pki cert

variable {signer : Key}

theorem verifyLink_linked [DecidableEq Name] {subject : Option Name}
    {role : Role} {link : LinkClaims} (h : verifyLink pki cert signer subject role = .ok link) :
    Linked pki signer cert role link := by
  obtain ⟨_, -, h⟩ := bind_eq_ok_iff.mp h
  obtain ⟨der, hder, h⟩ := bind_eq_ok_iff.mp h
  obtain ⟨_, -, h⟩ := bind_eq_ok_iff.mp h
  obtain ⟨_, hverify, h⟩ := bind_eq_ok_iff.mp h
  obtain ⟨_, -, h⟩ := bind_eq_ok_iff.mp h
  obtain ⟨_, -, h⟩ := bind_eq_ok_iff.mp h
  obtain ⟨_, -, h⟩ := bind_eq_ok_iff.mp h
  obtain ⟨out, hout, h⟩ := bind_eq_ok_iff.mp h
  cases h
  obtain ⟨hepoch, hdigest, hsuits⟩ := extractExtensions_spec hout
  exact ⟨⟨der, Except.mapError_eq_ok_iff.mp hder, require_eq_ok_iff.mp hverify⟩, hsuits, rfl, rfl,
    rfl, rfl, hepoch, hdigest⟩

/-! ## The walk -/

/-- The intermediates above a point of the path, the lowest first and with `below` others
under it, each checked under the key of the next; `signer` is the key that signs below. -/
inductive Chain (pki : Pki Name Rest Key) (anchor : Key) :
    Nat → List (Certificate Name Rest) → List LinkClaims → Key → Prop where
  | nil (below : Nat) : Chain pki anchor below [] [] anchor
  | cons {below : Nat} {cert : Certificate Name Rest} {above : List (Certificate Name Rest)}
      {links : List LinkClaims} {signer key : Key} {link : LinkClaims} :
      Chain pki anchor (below + 1) above links signer →
      Linked pki signer cert (.intermediate below) link →
      pki.verifyingKey cert.tbsCertificate.subjectPublicKey = some key →
      Chain pki anchor below (cert :: above) (links ++ [link]) key

variable {certs : List (Certificate Name Rest)} {anchor : Key}

theorem walk_chain [DecidableEq Name] {walk : Walk Name Key}
    (h : (certs.zipIdx below).reverse.foldlM (walkStep pki) ⟨anchor, none, []⟩ = .ok walk) :
    Chain pki anchor below certs walk.links walk.signerKey := by
  -- The walk passes the list from its far end, so its last step passes the head.
  induction certs generalizing below walk with
  | nil => exact Except.ok.inj h ▸ .nil below
  | cons cert above ih =>
    rw [List.zipIdx_cons, List.reverse_cons, List.foldlM_append] at h
    obtain ⟨walk₁, hwalk, h⟩ := bind_eq_ok_iff.mp h
    obtain ⟨walk₂, hstep, h⟩ := bind_eq_ok_iff.mp h
    cases h
    obtain ⟨link, hlink, hstep⟩ := bind_eq_ok_iff.mp hstep
    obtain ⟨key, hkey, hstep⟩ := bind_eq_ok_iff.mp hstep
    cases hstep
    have hlinked := verifyLink_linked hlink
    exact .cons (ih hwalk) hlinked (hlinked.pubkey ▸ elim_eq_ok_iff.mp hkey)

variable {links : List LinkClaims}

theorem Chain.mem (h : Chain pki anchor below certs links signer) :
    ∀ cert ∈ certs, ∃ link ∈ links, ∃ signer role, Linked pki signer cert role link := by
  induction h with
  | nil => exact nofun
  | cons hchain hlinked hkey ih =>
    intro cert hcert
    rcases List.mem_cons.mp hcert with rfl | hcert
    · exact ⟨_, List.mem_append_right _ (List.mem_singleton_self _), _, _, hlinked⟩
    · obtain ⟨link, hmem, hlink⟩ := ih cert hcert
      exact ⟨link, List.mem_append_left _ hmem, hlink⟩

theorem Chain.maySign (h : Chain pki anchor below certs links signer) :
    ∀ i cert, certs[i]? = some cert → MaySign pki cert (below + i) := by
  induction h with
  | nil => exact nofun
  | @cons below cert above links signer key link hchain hlinked hkey ih =>
    intro i cert' hi
    cases i with
    | zero => exact Option.some.inj hi ▸ checkRole_intermediate hlinked.suits
    | succ i =>
      have hsign := ih i cert' hi
      rwa [Nat.add_right_comm] at hsign

/-! ## Signatures down the path -/

def signerBelow (pki : Pki Name Rest Key) (anchor : Key) : List (Certificate Name Rest) → Option Key
  | [] => some anchor
  | cert :: _ => pki.verifyingKey cert.tbsCertificate.subjectPublicKey

/-- Every certificate of a path, the leaf first, is signed by the key of the next; the
last by the anchor. -/
def PathSigned (pki : Pki Name Rest Key) (anchor : Key) : List (Certificate Name Rest) → Prop
  | [] => True
  | cert :: above => (∃ key, signerBelow pki anchor above = some key ∧ SignedBy pki key cert) ∧
      PathSigned pki anchor above

theorem Chain.signerBelow_eq (h : Chain pki anchor below certs links signer) :
    signerBelow pki anchor certs = some signer := by
  cases h with
  | nil => rfl
  | cons _ _ hkey => exact hkey

theorem Chain.pathSigned (h : Chain pki anchor below certs links signer) :
    PathSigned pki anchor certs := by
  induction h with
  | nil => trivial
  | cons hchain hlinked _ ih => exact ⟨⟨_, hchain.signerBelow_eq, hlinked.signed⟩, ih⟩

/-! ## Gathering the claims -/

def NoLater : Option Nat → Option Nat → Prop
  | some a, some b => a ≤ b
  | none, none => True
  | _, _ => False

theorem NoLater.refl : ∀ a, NoLater a a
  | some a => le_refl a
  | none => trivial

theorem NoLater.trans : ∀ {a b c}, NoLater a b → NoLater b c → NoLater a c
  | some _, some _, some _, h, h' => le_trans h h'
  | none, none, none, _, _ => trivial

/-- The window and epoch of a path's claims lie within those of one certificate. -/
structure CertClaims.Within (claims : CertClaims) (notBefore notAfter : Int) (epoch : Option Nat) :
    Prop where
  notBefore : notBefore ≤ claims.notBefore
  notAfter : claims.notAfter ≤ notAfter
  epoch : NoLater claims.epoch epoch

theorem gather_spec {leafLink link : LinkClaims} {acc acc' : CertClaims}
    (h : gather leafLink acc link = .ok acc') :
    link.profile = leafLink.profile ∧ link.confinementDigest = leafLink.confinementDigest ∧
      acc'.Within acc.notBefore acc.notAfter acc.epoch ∧
      acc'.Within link.notBefore link.notAfter link.epoch ∧
      acc'.profile = acc.profile ∧ acc'.confinementDigest = acc.confinementDigest := by
  obtain ⟨_, hprofile, h⟩ := bind_eq_ok_iff.mp h
  obtain ⟨epoch, hepoch, h⟩ := bind_eq_ok_iff.mp h
  obtain ⟨_, hdigest, h⟩ := bind_eq_ok_iff.mp h
  cases h
  have hboth : NoLater epoch acc.epoch ∧ NoLater epoch link.epoch := by
    rcases hacc : acc.epoch with _ | a <;> rcases hlink : link.epoch with _ | b <;>
      rw [hacc, hlink] at hepoch
    · exact Except.ok.inj hepoch ▸ ⟨trivial, trivial⟩
    · simp [gatherEpoch] at hepoch
    · simp [gatherEpoch] at hepoch
    · exact Except.ok.inj hepoch ▸ ⟨min_le_left a b, min_le_right a b⟩
  refine ⟨by simpa using require_eq_ok_iff.mp hprofile,
    by simpa using require_eq_ok_iff.mp hdigest, ?_, ?_, rfl, rfl⟩
  · exact ⟨le_max_left _ _, min_le_left _ _, hboth.1⟩
  · exact ⟨le_max_right _ _, min_le_right _ _, hboth.2⟩

theorem CertClaims.Within.trans {claims acc : CertClaims} {notBefore notAfter : Int}
    {epoch : Option Nat} (h : claims.Within acc.notBefore acc.notAfter acc.epoch)
    (h' : acc.Within notBefore notAfter epoch) : claims.Within notBefore notAfter epoch :=
  ⟨le_trans h'.notBefore h.notBefore, le_trans h.notAfter h'.notAfter, h.epoch.trans h'.epoch⟩

theorem gather_all {leafLink : LinkClaims} {acc claims : CertClaims}
    (h : links.foldlM (gather leafLink) acc = .ok claims) :
    claims.Within acc.notBefore acc.notAfter acc.epoch ∧ claims.profile = acc.profile ∧
      claims.confinementDigest = acc.confinementDigest ∧
      ∀ link ∈ links, claims.Within link.notBefore link.notAfter link.epoch ∧
        link.profile = leafLink.profile ∧ link.confinementDigest = leafLink.confinementDigest := by
  induction links generalizing acc with
  | nil =>
    cases h
    exact ⟨⟨le_refl _, le_refl _, .refl _⟩, rfl, rfl, nofun⟩
  | cons link links ih =>
    obtain ⟨acc', hstep, h⟩ := bind_eq_ok_iff.mp h
    obtain ⟨hp, hd, hacc, hlink, hp', hd'⟩ := gather_spec hstep
    obtain ⟨hrest, hrp, hrd, hlinks⟩ := ih h
    refine ⟨hrest.trans hacc, hrp.trans hp', hrd.trans hd', fun l hl => ?_⟩
    rcases List.mem_cons.mp hl with rfl | hl
    · exact ⟨hrest.trans hlink, hp, hd⟩
    · exact hlinks l hl

/-! ## Accepted paths -/

/-- The claims of a path only narrow what its anchor-signed certificate, the last, grants. -/
structure Attenuates (pki : Pki Name Rest Key) (anchor : Key) (leaf : Certificate Name Rest)
    (intermediates : List (Certificate Name Rest)) (claims : CertClaims) : Prop where
  signed : PathSigned pki anchor (leaf :: intermediates)
  maySign : ∀ i cert, intermediates[i]? = some cert → MaySign pki cert i
  within : ∀ cert ∈ leaf :: intermediates, claims.Within (timeToUnix cert.tbsCertificate.notBefore)
    (timeToUnix cert.tbsCertificate.notAfter) (certEpoch pki cert)
  digest : claims.confinementDigest =
    certDigest pki ((leaf :: intermediates).getLast (List.cons_ne_nil _ _))
  profile : claims.profile =
    classifyProfile ((leaf :: intermediates).getLast (List.cons_ne_nil _ _))

/-- **An accepted path attenuates.** Every certificate of it is signed by the next and the last by
the anchor, those above the leaf may sign at their depth, and the claims are within what each
of them allows. -/
theorem certPath_attenuates [DecidableEq Name] {leafDer : Bytes} {intermediatesDer : List Bytes}
    {anchorPubkey : Bytes} {claims : CertClaims}
    (h : verifyCertPath pki leafDer intermediatesDer anchorPubkey = .ok claims) :
    ∃ anchor leaf intermediates, pki.verifyingKey anchorPubkey = some anchor ∧
      pki.certificate leafDer = .ok leaf ∧
      List.Forall₂ (fun der cert => pki.certificate der = .ok cert) intermediatesDer intermediates ∧
      Attenuates pki anchor leaf intermediates claims := by
  obtain ⟨_, -, h⟩ := bind_eq_ok_iff.mp h
  obtain ⟨anchor, hanchor, h⟩ := bind_eq_ok_iff.mp h
  obtain ⟨_, -, h⟩ := bind_eq_ok_iff.mp h
  obtain ⟨leaf, hleaf, h⟩ := bind_eq_ok_iff.mp h
  obtain ⟨intermediates, hinter, h⟩ := bind_eq_ok_iff.mp h
  obtain ⟨walk, hwalk, h⟩ := bind_eq_ok_iff.mp h
  obtain ⟨leafLink, hlink, h⟩ := bind_eq_ok_iff.mp h
  have hchain := walk_chain hwalk
  have hlinked := verifyLink_linked hlink
  obtain ⟨hleafWithin, hprofile, hdigest, hlinks⟩ := gather_all h
  -- Every certificate is read under the leaf's profile and carries its digest.
  have hpath : ∀ cert ∈ leaf :: intermediates,
      claims.Within (timeToUnix cert.tbsCertificate.notBefore)
        (timeToUnix cert.tbsCertificate.notAfter) (certEpoch pki cert) ∧
      claims.profile = classifyProfile cert ∧ claims.confinementDigest = certDigest pki cert := by
    intro cert hcert
    rcases List.mem_cons.mp hcert with rfl | hcert
    · rw [← hlinked.notBefore, ← hlinked.notAfter, ← hlinked.epoch, ← hlinked.profile,
        ← hlinked.digest]
      exact ⟨hleafWithin, hprofile, hdigest⟩
    · obtain ⟨link, hmem, _, _, hl⟩ := hchain.mem cert hcert
      obtain ⟨hwithin, hp, hd⟩ := hlinks link hmem
      rw [← hl.notBefore, ← hl.notAfter, ← hl.epoch, ← hl.profile, ← hl.digest]
      exact ⟨hwithin, hprofile.trans hp.symm, hdigest.trans hd.symm⟩
  have htop := hpath _ (List.getLast_mem (List.cons_ne_nil leaf intermediates))
  refine ⟨anchor, leaf, intermediates, elim_eq_ok_iff.mp hanchor,
    Except.mapError_eq_ok_iff.mp hleaf, ?_, ?_⟩
  · exact (Except.mapM_eq_ok_iff.mp hinter).imp fun der cert hd => Except.mapError_eq_ok_iff.mp hd
  · refine ⟨⟨⟨_, hchain.signerBelow_eq, hlinked.signed⟩, hchain.pathSigned⟩, fun i cert hi => ?_,
      fun cert hcert => (hpath cert hcert).1, htop.2.2, htop.2.1⟩
    have hsign := hchain.maySign i cert hi
    rwa [Nat.zero_add] at hsign

def plainKey (b : UInt8) : Bytes := List.replicate 32 b

def tierCert : Certificate Nat Unit where
  tbsCertificate := {
    signature := idEd25519, issuer := 0, subject := 1, notBefore := .utcTime 10, notAfter :=
    .utcTime 90
    spkiAlgorithm := idEd25519, subjectPublicKey := plainKey 1, rest := ()
    extensions :=
      some [⟨idCeBasicConstraints, true, []⟩, ⟨idCeKeyUsage, true, []⟩, ⟨oidEpoch, false, [7]⟩] }
  signatureAlgorithm := idEd25519
  signature := plainKey 9 ++ plainKey 1

def taskCert : Certificate Nat Unit where
  tbsCertificate := {
    signature := idEd25519, issuer := 1, subject := 2, notBefore := .utcTime 0, notAfter :=
    .utcTime 100
    spkiAlgorithm := idEd25519, subjectPublicKey := plainKey 2, rest := ()
    extensions := some [⟨oidEpoch, false, [8]⟩] }
  signatureAlgorithm := idEd25519
  signature := plainKey 1 ++ plainKey 2

/-- The encoding of a certificate is its subject, and its signature the key and that encoding. -/
def plainPki : Pki Nat Unit Bytes where
  certificate der := if der = [0] then .ok taskCert else .ok tierCert
  tbsToDer tbs := .ok [UInt8.ofNat tbs.subject]
  verifyingKey := some
  verify key der sig := sig == key ++ plainKey (der.headD 0)
  basicConstraints _ := some ⟨true, some 0⟩
  keyUsage _ := some ⟨true, true⟩
  subjectAltName _ := true
  int := some
  utf8String _ := none
  octetString _ := none

def tierClaims : CertClaims := ⟨plainKey 2, 10, 90, .interlace, some 7, none, none, none⟩

theorem certPath_attenuates_tier :
    ∃ anchor leaf intermediates, plainPki.verifyingKey (plainKey 9) = some anchor ∧
      plainPki.certificate [0] = .ok leaf ∧
      List.Forall₂ (fun der cert => plainPki.certificate der = .ok cert) [[1]] intermediates ∧
      Attenuates plainPki anchor leaf intermediates tierClaims :=
  certPath_attenuates (show verifyCertPath plainPki [0] [[1]] (plainKey 9) = .ok tierClaims by
    decide +kernel)

end LeyLine.Sign
