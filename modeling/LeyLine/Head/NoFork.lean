import LeyLine.Head.Chain

/-!
# The chain of heads

Parses that run one after another, each of them possibly failing or stopped anywhere,
leave a chain: every head written names the one before it. A head that cannot be read,
decoded or accepted by the policy stays as it is, and a head signed by a trusted key is
accepted by the next reader.
-/

namespace LeyLine.Head

open Except (bind_eq_ok_iff mapError_eq_ok_iff)

variable {Secret Key Message : Type}

/-! ## Key identifiers -/

theorem isHexByte_hexDigit {n : UInt8} (h : n.toNat < 16) : isHexByte (hexDigit n) = true := by
  obtain ⟨m, hm, rfl⟩ : ∃ m < 16, n = UInt8.ofNat m := ⟨n.toNat, h, (UInt8.ofNat_toNat).symm⟩
  interval_cases m <;> rfl

variable {bytes : Bytes}

theorem isCanonicalKidShape_hexEncode (h : bytes.length = 16) :
    isCanonicalKidShape (hexEncode bytes) = true := by
  have hlen : (hexEncode bytes).length = 32 := by
    simp [hexEncode, List.length_flatMap, h]
  have hall : ∀ x ∈ hexEncode bytes, isHexByte x = true := by
    intro x hx
    obtain ⟨b, -, hb⟩ := List.mem_flatMap.mp hx
    rw [List.mem_pair] at hb
    rcases hb with rfl | rfl
    · exact isHexByte_hexDigit (by simp [UInt8.toNat_div]; have := b.toNat_lt; omega)
    · exact isHexByte_hexDigit (by simp [UInt8.toNat_mod]; omega)
  rw [isCanonicalKidShape, hlen, List.all_eq_true.mpr hall]
  rfl

variable {c : Crypto Secret Key}

theorem isCanonicalKidShape_canonicalKid (hc : c.Lawful) (pk : Key) :
    isCanonicalKidShape (canonicalKid c pk) = true :=
  isCanonicalKidShape_hexEncode (by rw [List.length_take, hc.length_sha256]; rfl)

/-! ## Reading back a claim -/

theorem digest_bytes_ne_nil (d : Digest) : d.bytes ≠ [] := by
  intro h
  have hlen := d.length_eq
  rw [h] at hlen
  cases hlen

@[simp] theorem requiredHash_bytes (d : Digest) (name : String) :
    requiredHash (.ok (.ok d.bytes)) name = .ok d := by
  rw [requiredHash, hashOf_bytes]
  rfl

@[simp] theorem hashField_bytes (d : Digest) :
    hashField (.ok (.ok d.bytes)) = .ok (if d = zeroHash then none else some d) := by
  rcases hbytes : d.bytes with _ | ⟨x, rest⟩
  · exact absurd hbytes (digest_bytes_ne_nil d)
  · simp only [hashField, ← hbytes, hashOf_bytes]

theorem optionalDigest_bytes {pd : Option Digest} (h : pd ≠ some zeroHash) :
    optionalDigest (.ok (.ok (pd.elim [] (·.bytes)))) = .ok pd := by
  cases pd with
  | none => rfl
  | some d =>
    have hne : d ≠ zeroHash := fun hd => h (congrArg some hd)
    rcases hbytes : d.bytes with _ | ⟨x, rest⟩
    · exact absurd hbytes (digest_bytes_ne_nil d)
    · simp only [optionalDigest, Option.elim, hbytes]
      simp only [← hbytes, hashOf_bytes, if_neg hne]

variable {claim : HeadClaim} {p : Parse Secret Key} {state : ChainState} {root : Digest}

theorem claimOf_buildHead {n : UInt64}
    {sig kid : Bytes}
    (hclaim : HeadClaim.new state.generation root state.parent state.parentDigest p.treeRoot
      p.parserId = some claim) :
    claimOf (Builder.reader { buildHead p state root n with signature := sig, signerKid := kid })
      = .ok (some claim) := by
  have hne : ¬ (p.treeRoot = zeroHash ∨ p.parserId = zeroHash ∨
      state.parentDigest = some zeroHash) := by
    intro h
    rw [HeadClaim.new, dif_pos h] at hclaim
    cases hclaim
  obtain ⟨htree, hparser, hdigest⟩ : p.treeRoot ≠ zeroHash ∧ p.parserId ≠ zeroHash ∧
      state.parentDigest ≠ some zeroHash := by
    simpa only [not_or] using hne
  have hstamp : stampOf
      (Builder.reader { buildHead p state root n with signature := sig, signerKid := kid }) =
        .ok (some (p.treeRoot, p.parserId)) := by
    simp [stampOf, Builder.reader, buildHead, htree, hparser, bind, Except.bind, bothStamped]
  rw [claimOf, hstamp]
  simp only [Builder.reader, buildHead, requiredHash_bytes, optionalDigest_bytes hdigest, bind,
    Except.bind, Option.bind, hclaim]

variable {trusted : List Key}

theorem verifyHead_signed (hc : c.Lawful) {signer : Secret}
    (htrusted : c.verifyingKey signer ∈ trusted) :
    verifyHead c (some claim) (c.sign signer (headDigest c claim).bytes)
      (canonicalKid c (c.verifyingKey signer)) trusted = .valid := by
  have hsig : (c.sign signer (headDigest c claim).bytes).isEmpty = false := by
    rw [List.isEmpty_eq_false_iff, ← List.length_pos_iff, hc.length_sign]
    decide
  have hverify : verifiesUnder c (headDigest c claim) (c.sign signer (headDigest c claim).bytes)
      (canonicalKid c (c.verifyingKey signer)) trusted = true := by
    rw [verifiesUnder, Bool.or_eq_true]
    exact .inr (List.any_eq_true.mpr ⟨_, htrusted, hc.verify_sign _ _⟩)
  simp [verifyHead, hsig, isCanonicalKidShape_canonicalKid hc, hc.length_sign, hverify]

/-! ## Replacing a file -/

def Disk.seen (d : Disk) : Option Bytes × List Bytes := (d.head, d.heads)

def Effect.OnTemp : Effect → Prop
  | .openTemp | .writeTemp _ | .removeTemp => True
  | .rename => False

theorem Effect.OnTemp.silent {e : Effect} (h : e.OnTemp) :
    Crash.Silent Effect.apply Disk.seen e := by
  intro d
  cases e with
  | rename => exact h.elim
  | openTemp | writeTemp _ | removeTemp => rfl

theorem writeAll_cons (n : Nat) (ns : List Nat) (b : UInt8) (bytes : Bytes) :
    writeAll ((n + 1) :: ns) (b :: bytes) =
      (.writeTemp ((b :: bytes).take (n + 1)) :: (writeAll ns ((b :: bytes).drop (n + 1))).1,
        (writeAll ns ((b :: bytes).drop (n + 1))).2) := rfl

theorem writeAll_onTemp : ∀ (ns : List Nat) (bytes : Bytes), ∀ e ∈ (writeAll ns bytes).1, e.OnTemp
  | ns, [] => by simp [writeAll]
  | [], _ :: _ => by simp [writeAll]
  | 0 :: _, _ :: _ => by simp [writeAll]
  | (n + 1) :: ns, b :: bytes => by
    intro e he
    rw [writeAll_cons, List.mem_cons] at he
    rcases he with rfl | he
    · exact trivial
    · exact writeAll_onTemp ns _ e he

theorem temp_writeAll : ∀ (ns : List Nat) (bytes : Bytes), (writeAll ns bytes).2 = true →
    ∀ (d : Disk) (done : Bytes), d.temp = some done →
      (Crash.after Effect.apply (writeAll ns bytes).1 d).temp = some (done ++ bytes)
  | ns, [], _, d, done, hd => by simp [writeAll, hd]
  | [], _ :: _, h, _, _, _ => by simp [writeAll] at h
  | 0 :: _, _ :: _, h, _, _, _ => by simp [writeAll] at h
  | (n + 1) :: ns, b :: bytes, h, d, done, hd => by
    rw [writeAll_cons] at h ⊢
    have hstep : (Effect.apply (.writeTemp ((b :: bytes).take (n + 1))) d).temp
        = some (done ++ (b :: bytes).take (n + 1)) := by
      rw [Effect.apply, hd]
      rfl
    rw [Crash.after_cons, temp_writeAll ns _ h _ _ hstep, List.append_assoc, List.take_append_drop]

theorem cleanup_onTemp (ops : FileOps) : ∀ e ∈ ops.cleanup, e.OnTemp := by
  intro e he
  rw [FileOps.cleanup] at he
  split_ifs at he
  · rw [List.mem_singleton.mp he]
    exact trivial
  · cases he

theorem failed_onTemp (ops : FileOps) (bytes : Bytes) :
    ∀ e ∈ Effect.openTemp :: (writeAll ops.writes bytes).1 ++ ops.cleanup, e.OnTemp := by
  intro e he
  rcases List.mem_append.mp he with he | he
  · rcases List.mem_cons.mp he with rfl | he
    · exact trivial
    · exact writeAll_onTemp _ _ e he
  · exact cleanup_onTemp ops e he

theorem replaceFileAtomically_effects (ops : FileOps) (bytes : Bytes) :
    (∀ e ∈ (replaceFileAtomically ops bytes).1, e.OnTemp) ∨ ((writeAll ops.writes bytes).2 = true ∧
        (replaceFileAtomically ops bytes).1 = .openTemp :: (writeAll ops.writes bytes).1 ++
        [.rename]) := by
  rw [replaceFileAtomically]
  split_ifs with hopen hwritten hsync hrename
  · exact .inl (cleanup_onTemp ops)
  · exact .inl (failed_onTemp ops bytes)
  · exact .inl (failed_onTemp ops bytes)
  · exact .inl (failed_onTemp ops bytes)
  all_goals exact .inr ⟨by simpa using hwritten, rfl⟩

theorem replaceFileAtomically_stopped (ops : FileOps) (bytes : Bytes) (k : Nat) (d : Disk) :
    (Crash.after Effect.apply ((replaceFileAtomically ops bytes).1.take k) d).seen = d.seen ∨
      (Crash.after Effect.apply ((replaceFileAtomically ops bytes).1.take k) d).seen
        = (some bytes, d.heads ++ [bytes]) := by
  rcases replaceFileAtomically_effects ops bytes with honTemp | ⟨hwritten, heffects⟩
  · exact .inl (Crash.after_silent (fun e he => (honTemp e (List.mem_of_mem_take he)).silent) d)
  · rw [heffects]
    have hbefore : ∀ e ∈ Effect.openTemp :: (writeAll ops.writes bytes).1,
        Crash.Silent Effect.apply Disk.seen e := by
      intro e he
      rcases List.mem_cons.mp he with rfl | he
      · exact Effect.OnTemp.silent trivial
      · exact (writeAll_onTemp _ _ e he).silent
    refine (Crash.stopped hbefore (fun e he => absurd he List.not_mem_nil) k d).imp_right ?_
    intro h
    have htemp : (Crash.after Effect.apply (.openTemp :: (writeAll ops.writes bytes).1) d).temp =
        some bytes :=
      temp_writeAll _ _ hwritten _ [] rfl
    have hheads := congrArg Prod.snd (Crash.after_silent hbefore d)
    rw [h, Effect.apply, htemp]
    exact congrArg (fun l => (some bytes, l ++ [bytes])) hheads

/-! ## One parse -/

variable {c : Crypto Secret Key} {capnp : Capnp Message} {b : Builder}

theorem signHead_ok {b' : Builder}
    {signer : Option Secret} (h : signHead c p state root b signer = .ok b') :
    (signer = none ∧ b' = b) ∨ ∃ s claim, signer = some s ∧
        HeadClaim.new state.generation root state.parent state.parentDigest p.treeRoot p.parserId
          = some claim ∧ b' = { b with
          signature := c.sign s (headDigest c claim).bytes, signerKid :=
  canonicalKid c (c.verifyingKey s) } := by
  cases signer with
  | none => exact .inl ⟨rfl, (Except.ok.inj h).symm⟩
  | some s =>
    rw [signHead] at h
    split at h
    · cases h
    · rename_i claim hclaim
      exact .inr ⟨s, claim, rfl, hclaim, (Except.ok.inj h).symm⟩

/-- Everything a parse has checked and read when it comes to write its head. -/
structure Prepared (c : Crypto Secret Key) (capnp : Capnp Message) (p : Parse Secret Key)
    (head : Option Bytes) (b : Builder) (root : Digest) (segmentBytes : UInt64)
    (policy : HeadPolicy Key) (state : ChainState) (signer : Option Secret) : Prop where
  stamped : p.treeRoot = zeroHash ↔ p.parserId = zeroHash
  segments_eq : p.segments = .ok (root, segmentBytes)
  policy_eq : p.policy = .ok policy
  read_eq : readHeadForChain c capnp policy p.reads head = .ok state
  signer_eq : p.signer = .ok signer
  signed : signHead c p state root (buildHead p state root segmentBytes) signer = .ok b

variable {head : Option Bytes}

theorem nextHead_ok (h : nextHead c capnp p head = .ok b) : ∃ root segmentBytes policy state signer,
      Prepared c capnp p head b root segmentBytes policy state signer := by
  simp only [nextHead, bind_eq_ok_iff, Except.require_eq_ok_iff, decide_eq_true_eq,
    mapError_eq_ok_iff] at h
  obtain ⟨-, hstamped, ⟨root, segmentBytes⟩, hsegments, policy, hpolicy, state, hstate, signer,
      hsigner,
    hsigned⟩ := h
  exact ⟨root, segmentBytes, policy, state, signer, hstamped, hsegments, hpolicy, hstate, hsigner,
    hsigned⟩

theorem effects_eq_take (p : Parse Secret Key) (head : Option Bytes) :
    ∃ k, p.effects c capnp head = (writeHeadForPath c capnp p head).1.take k := by
  rw [Parse.effects]
  cases p.stop with
  | none => exact ⟨_, List.take_length.symm⟩
  | some k => exact ⟨k, rfl⟩

theorem parse_cases (d : Disk) (p : Parse Secret Key) : (d.parse c capnp p).seen = d.seen ∨
      ∃ b bytes, nextHead c capnp p d.head = .ok b ∧ capnp.writeCanonicalMessage b = .ok bytes ∧
        (d.parse c capnp p).seen = (some bytes, d.heads ++ [bytes]) := by
  obtain ⟨k, hk⟩ : ∃ k, p.effects c capnp d.head = (writeHeadForPath c capnp p d.head).1.take k :=
    effects_eq_take p d.head
  rw [Disk.parse, hk, writeHeadForPath]
  cases hnext : nextHeadBytes c capnp p d.head with
  | error e => exact .inl (congrArg (fun es => (Crash.after Effect.apply es d).seen) List.take_nil)
  | ok bytes =>
    simp only [nextHeadBytes, bind_eq_ok_iff, mapError_eq_ok_iff] at hnext
    obtain ⟨b, hb, hbytes⟩ := hnext
    exact (replaceFileAtomically_stopped p.ops bytes k d).imp_right fun h =>
      ⟨b, bytes, hb, hbytes, h⟩

variable {policy : HeadPolicy Key}

theorem readHeadBytes_ok (h : readHeadBytes c capnp policy bytes = .ok state) :
    ∃ r root check digest, decodeHead capnp bytes = .ok r ∧ previousRoot r = .ok root ∧
      enforceSignature c r .chain policy = .ok check ∧ digestOf c r = .ok digest ∧
      state = ⟨root, saturatingSucc r.generation, digest⟩ := by
  simp only [readHeadBytes, bind_eq_ok_iff, mapError_eq_ok_iff] at h
  obtain ⟨r, hr, root, hroot, check, hcheck, digest, hdigest, hstate⟩ := h
  exact ⟨r, root, check, digest, hr, hroot, hcheck, hdigest, (Except.ok.inj hstate).symm⟩

theorem readHeadForChain_some {reads : Bool}
    (h : readHeadForChain c capnp policy reads (some bytes) = .ok state) :
    reads = true ∧ readHeadBytes c capnp policy bytes = .ok state := by
  rw [readHeadForChain] at h
  split_ifs at h with hreads
  exact ⟨hreads, h⟩

variable {r : Reader}

theorem previousRoot_ok (h : previousRoot r = .ok root) : r.rootHash = .ok (.ok root.bytes) := by
  rw [previousRoot] at h
  split at h
  · rename_i bytes hbytes
    rw [Except.elim_eq_ok_iff, hashOf] at h
    split_ifs at h with hlen
    rw [hbytes, ← Option.some.inj h]
  · cases h
  · cases h

/-! ## The law -/

/-- One head comes after another. -/
structure Extends (c : Crypto Secret Key) (prev next : Reader) : Prop where
  generation : prev.generation.toNat < 2 ^ 64 - 1 →
    next.generation.toNat = prev.generation.toNat + 1
  parentHash : ∃ root : Digest, prev.rootHash = .ok (.ok root.bytes) ∧
    next.parentHash = .ok (.ok root.bytes)
  parentDigest : ∃ digest, digestOf c prev = .ok digest ∧
    next.parentDigest = .ok (.ok (digest.elim [] (·.bytes)))

/-- The first head of a chain. -/
structure Starts (r : Reader) : Prop where
  generation : r.generation = 1
  parentHash : r.parentHash = .ok (.ok zeroHash.bytes)
  parentDigest : r.parentDigest = .ok (.ok [])

/-- Every field of a head at its width: both stamps or neither, and a signature with its
key identifier or neither. -/
structure Builder.Complete (b : Builder) : Prop where
  root : b.rootHash.length = 32
  parent : b.parentHash.length = 32
  stamps : b.treeRoot.length = 32 ∧ b.parserId.length = 32
  stamped : b.treeRoot = zeroHash.bytes ↔ b.parserId = zeroHash.bytes
  digest : b.parentDigest = [] ∨ b.parentDigest.length = 32
  signature : (b.signature = [] ∧ b.signerKid = []) ∨
    (b.signature.length = 64 ∧ isCanonicalKidShape b.signerKid = true)

theorem toNat_saturatingSucc {g : UInt64} (h : g.toNat < 2 ^ 64 - 1) :
    (saturatingSucc g).toNat = g.toNat + 1 := by
  have hne : g ≠ 0xffffffffffffffff := by
    rintro rfl
    exact absurd h (by decide)
  rw [saturatingSucc, if_neg hne, UInt64.toNat_add]
  exact Nat.mod_eq_of_lt (by rw [UInt64.toNat_one]; omega)

/-! ## The head a parse prepares -/

section Prepared

variable {p : Parse Secret Key} {head : Option Bytes} {b : Builder} {root : Digest}
  {segmentBytes : UInt64} {policy : HeadPolicy Key} {state : ChainState} {signer : Option Secret}

theorem Prepared.built (h : Prepared c capnp p head b root segmentBytes policy state signer) :
    ∃ signature signerKid, b = { buildHead p state root segmentBytes with signature, signerKid } ∧
      ((signer = none ∧ signature = [] ∧ signerKid = []) ∨ ∃ s claim, signer = some s ∧
          HeadClaim.new state.generation root state.parent state.parentDigest p.treeRoot p.parserId
            = some claim ∧ signature = c.sign s (headDigest c claim).bytes ∧
          signerKid = canonicalKid c (c.verifyingKey s)) := by
  rcases signHead_ok h.signed with ⟨hnone, hb⟩ | ⟨s, claim, hs, hclaim, hb⟩
  · exact ⟨[], [], hb, .inl ⟨hnone, rfl, rfl⟩⟩
  · exact ⟨_, _, hb, .inr ⟨s, claim, hs, hclaim, rfl, rfl⟩⟩

theorem bytes_eq_zero_iff {d : Digest} : d.bytes = zeroHash.bytes ↔ d = zeroHash :=
  ⟨Digest.ext, congrArg Digest.bytes⟩

theorem Prepared.complete (hc : c.Lawful)
    (h : Prepared c capnp p head b root segmentBytes policy state signer) : b.Complete := by
  obtain ⟨signature, signerKid, rfl, hsigned⟩ := h.built
  refine ⟨root.length_eq, state.parent.length_eq, ⟨p.treeRoot.length_eq, p.parserId.length_eq⟩, ?_,
    ?_, ?_⟩
  · change p.treeRoot.bytes = _ ↔ p.parserId.bytes = _
    rw [bytes_eq_zero_iff, bytes_eq_zero_iff]
    exact h.stamped
  · change state.parentDigest.elim [] (·.bytes) = [] ∨
      (state.parentDigest.elim [] (·.bytes)).length = 32
    cases state.parentDigest with
    | none => exact .inl rfl
    | some d => exact .inr d.length_eq
  · rcases hsigned with ⟨-, hsig, hkid⟩ | ⟨s, claim, -, -, hsig, hkid⟩
    · exact .inl ⟨hsig, hkid⟩
    · refine .inr ⟨?_, ?_⟩
      · rw [hsig]
        exact hc.length_sign _ _
      · rw [hkid]
        exact isCanonicalKidShape_canonicalKid hc _

theorem Prepared.starts (h : Prepared c capnp p none b root segmentBytes policy state signer) :
    Starts b.reader := by
  obtain ⟨signature, signerKid, rfl, -⟩ := h.built
  obtain rfl : ChainState.start = state := Except.ok.inj h.read_eq
  exact ⟨rfl, rfl, rfl⟩

theorem Prepared.extends
    (h : Prepared c capnp p (some bytes) b root segmentBytes policy state signer) :
    ∃ r, decodeHead capnp bytes = .ok r ∧ Extends c r b.reader := by
  obtain ⟨signature, signerKid, rfl, -⟩ := h.built
  obtain ⟨-, hread⟩ := readHeadForChain_some h.read_eq
  obtain ⟨r, prevRoot, -, digest, hr, hroot, -, hdigest, rfl⟩ := readHeadBytes_ok hread
  exact ⟨r, hr, toNat_saturatingSucc, ⟨prevRoot, previousRoot_ok hroot, rfl⟩,
    ⟨digest, hdigest, rfl⟩⟩

end Prepared

/-! ## Heads that are refused and heads that are accepted -/

/-- The policy refuses the head: with a trust set configured its signature does not
verify, unless it has none and none is required. -/
def Refused (c : Crypto Secret Key) (policy : HeadPolicy Key) (r : Reader) : Prop :=
  policy.trusted ≠ [] ∧ verdictOf c r policy.trusted ≠ .ok .valid ∧
    (verdictOf c r policy.trusted = .ok .unsigned → policy.requireSignature = true)

def Unusable (c : Crypto Secret Key) (capnp : Capnp Message) (p : Parse Secret Key)
    (bytes : Bytes) : Prop :=
  p.reads = false ∨ (∃ e, decodeHead capnp bytes = .error e) ∨
    ∃ policy r, p.policy = .ok policy ∧ decodeHead capnp bytes = .ok r ∧ Refused c policy r

/-- Every reader under the policy accepts the file's signature, and a parse chains onto
it. -/
def Accepted (c : Crypto Secret Key) (capnp : Capnp Message) (policy : HeadPolicy Key)
    (bytes : Bytes) : Prop :=
  ∃ r state, decodeHead capnp bytes = .ok r ∧
    (∀ reader, enforceSignature c r reader policy = .ok .verified) ∧
    readHeadForChain c capnp policy true (some bytes) = .ok state

theorem Refused.not_enforced (h : Refused c policy r)
    (check : SignatureCheck) : enforceSignature c r .chain policy ≠ .ok check := by
  obtain ⟨htrusted, hvalid, hunsigned⟩ := h
  rw [enforceSignature, if_neg (by simpa using htrusted)]
  intro henforce
  obtain ⟨verdict, hverdict, hjudge⟩ := bind_eq_ok_iff.mp henforce
  rw [mapError_eq_ok_iff] at hverdict
  cases verdict with
  | valid => exact hvalid hverdict
  | invalid => cases hjudge
  | unsigned =>
    rw [judge, if_neg (by decide), if_pos (hunsigned hverdict)] at hjudge
    cases hjudge

theorem Unusable.not_prepared (h : Unusable c capnp p bytes)
    : nextHead c capnp p (some bytes) ≠ .ok b := by
  intro hnext
  obtain ⟨root, segmentBytes, policy, state, signer, hprep⟩ := nextHead_ok hnext
  obtain ⟨hreads, hread⟩ := readHeadForChain_some hprep.read_eq
  obtain ⟨r, -, check, -, hr, -, hcheck, -, -⟩ := readHeadBytes_ok hread
  rcases h with hnot | ⟨e, he⟩ | ⟨policy', r', hpolicy', hr', hrefused⟩
  · rw [hnot] at hreads
    cases hreads
  · rw [he] at hr
    cases hr
  · cases hprep.policy_eq.symm.trans hpolicy'
    cases hr.symm.trans hr'
    exact hrefused.not_enforced check hcheck

theorem decodeHead_write (hcapnp : capnp.Lawful)
    (h : capnp.writeCanonicalMessage b = .ok bytes) : decodeHead capnp bytes = .ok b.reader := by
  obtain ⟨m, hm, hroot⟩ := hcapnp b bytes h
  rw [decodeHead, hm]
  exact mapError_eq_ok_iff.mpr hroot

theorem verdictOf_signed (hc : c.Lawful) {s : Secret} (hclaim : claimOf r = .ok (some claim))
    (hsig : r.signature = .ok (c.sign s (headDigest c claim).bytes))
    (hkid : r.signerKid = .ok (canonicalKid c (c.verifyingKey s)))
    (htrusted : c.verifyingKey s ∈ trusted) : verdictOf c r trusted = .ok .valid := by
  rw [verdictOf, hclaim, hsig, hkid]
  exact congrArg Except.ok (verifyHead_signed hc htrusted)

theorem enforceSignature_valid {policy : HeadPolicy Key}
    (h : verdictOf c r policy.trusted = .ok .valid) (htrusted : policy.trusted ≠ [])
    (reader : ReaderKind) :
    enforceSignature c r reader policy = .ok .verified := by
  rw [enforceSignature, if_neg (by simpa using htrusted), h]
  rfl

theorem readHeadForChain_ok
    {check : SignatureCheck} {digest : Option Digest} (hr : decodeHead capnp bytes = .ok r)
    (hroot : previousRoot r = .ok root) (hcheck : enforceSignature c r .chain policy = .ok check)
    (hdigest : digestOf c r = .ok digest) : readHeadForChain c capnp policy true (some bytes)
      = .ok ⟨root, saturatingSucc r.generation, digest⟩ := by
  rw [readHeadForChain, if_pos rfl, readHeadBytes]
  simp only [bind_eq_ok_iff, mapError_eq_ok_iff]
  exact ⟨r, hr, root, hroot, check, hcheck, digest, hdigest, rfl⟩

theorem accepted_signed (hc : c.Lawful) (hcapnp : capnp.Lawful)
    {segmentBytes : UInt64} {policy : HeadPolicy Key}
    {s : Secret} (hprep : Prepared c capnp p head b root segmentBytes policy state (some s))
    (hbytes : capnp.writeCanonicalMessage b = .ok bytes) {policy' : HeadPolicy Key}
    (htrusted : c.verifyingKey s ∈ policy'.trusted) : Accepted c capnp policy' bytes := by
  have hdecode := decodeHead_write hcapnp hbytes
  obtain ⟨signature, signerKid, rfl, hsigned⟩ := hprep.built
  rcases hsigned with ⟨hnone, -, -⟩ | ⟨s', claim, hs, hclaim, hsig, hkid⟩
  · cases hnone
  · cases hs
    have hread : claimOf
        (Builder.reader { buildHead p state root segmentBytes with signature, signerKid }) =
          .ok (some claim) := claimOf_buildHead hclaim
    have hverdict :=
      verdictOf_signed hc hread (congrArg Except.ok hsig) (congrArg Except.ok hkid) htrusted
    have henforce := enforceSignature_valid hverdict (List.ne_nil_of_mem htrusted)
    have hroot : previousRoot
        (Builder.reader { buildHead p state root segmentBytes with signature, signerKid }) =
          .ok root :=
      congrArg (fun o : Option Digest => o.elim (Except.error HeadError.rootHashLength) Except.ok)
        (hashOf_bytes root)
    have hdigest := congrArg (Except.map (Option.map (headDigest c))) hread
    exact ⟨_, _, hdecode, henforce, readHeadForChain_ok hdecode hroot (henforce .chain) hdigest⟩

/-! ## Runs -/

def Linked (c : Crypto Secret Key) (capnp : Capnp Message) (bytes bytes' : Bytes) : Prop :=
  ∃ r r', decodeHead capnp bytes = .ok r ∧ decodeHead capnp bytes' = .ok r' ∧ Extends c r r'

/-- What the name of the head has stood for: the file that was found there, and complete
heads, each of which extends the one before. -/
structure ChainKept (c : Crypto Secret Key) (capnp : Capnp Message) (found : Option Bytes)
    (d : Disk) : Prop where
  current : d.head = d.heads.getLast?
  written : ∃ written, d.heads = found.toList ++ written ∧
    ∀ bytes ∈ written, ∃ b : Builder, decodeHead capnp bytes = .ok b.reader ∧ b.Complete
  linked : d.heads.IsChain (Linked c capnp)
  first : found = none → ∀ bytes ∈ d.heads.head?, ∃ r, decodeHead capnp bytes = .ok r ∧ Starts r

theorem ChainKept.found (head temp : Option Bytes) : ChainKept c capnp head (.found head temp) where
  current := by cases head <;> rfl
  written := ⟨[], (List.append_nil _).symm, fun _ h => absurd h List.not_mem_nil⟩
  linked := by cases head <;> simp [Disk.found]
  first := by
    rintro rfl bytes hbytes
    cases hbytes

variable {found : Option Bytes}

theorem ChainKept.write (hc : c.Lawful) (hcapnp : capnp.Lawful) {d d' : Disk}
    (h : ChainKept c capnp found d)
    (hnext : nextHead c capnp p d.head = .ok b) (hbytes : capnp.writeCanonicalMessage b = .ok bytes)
    (hseen : d'.seen = (some bytes, d.heads ++ [bytes])) : ChainKept c capnp found d' := by
  obtain ⟨root, segmentBytes, policy, state, signer, hprep⟩ := nextHead_ok hnext
  have hdecode := decodeHead_write hcapnp hbytes
  have hhead : d'.head = some bytes := congrArg Prod.fst hseen
  have hheads : d'.heads = d.heads ++ [bytes] := congrArg Prod.snd hseen
  refine ⟨?_, ?_, ?_, ?_⟩
  · rw [hhead, hheads, List.getLast?_concat]
  · obtain ⟨written, hwritten, hcomplete⟩ := h.written
    refine ⟨written ++ [bytes], by rw [hheads, hwritten, List.append_assoc], ?_⟩
    rw [List.forall_mem_append, List.forall_mem_singleton]
    exact ⟨hcomplete, b, hdecode, hprep.complete hc⟩
  · rw [hheads, List.isChain_append]
    refine ⟨h.linked, List.isChain_singleton _, fun prev hprev next hnew => ?_⟩
    -- the head that is replaced is the last of the chain
    cases hnew
    rw [← h.current] at hprev
    rw [Option.mem_def.mp hprev] at hprep
    obtain ⟨r, hr, hext⟩ := hprep.extends
    exact ⟨r, b.reader, hr, hdecode, hext⟩
  · intro hfound first hfirst
    rw [hheads] at hfirst
    rcases hempty : d.heads with _ | ⟨x, rest⟩
    · rw [hempty] at hfirst
      cases hfirst
      have hnone : d.head = none := by rw [h.current, hempty]; rfl
      rw [hnone] at hprep
      exact ⟨b.reader, hdecode, hprep.starts⟩
    · rw [hempty] at hfirst
      exact h.first hfound first (by rw [hempty]; exact hfirst)

theorem ChainKept.parse (hc : c.Lawful) (hcapnp : capnp.Lawful) {d : Disk}
    (h : ChainKept c capnp found d) (p : Parse Secret Key) :
    ChainKept c capnp found (d.parse c capnp p) := by
  rcases parse_cases d p with hseen | ⟨b, bytes, hnext, hbytes, hseen⟩
  · have hhead : (d.parse c capnp p).head = d.head := congrArg Prod.fst hseen
    have hheads : (d.parse c capnp p).heads = d.heads := congrArg Prod.snd hseen
    refine ⟨?_, ?_, ?_, ?_⟩
    · rw [hhead, hheads]
      exact h.current
    · rw [hheads]
      exact h.written
    · rw [hheads]
      exact h.linked
    · rw [hheads]
      exact h.first
  · exact h.write hc hcapnp hnext hbytes hseen

/-- The law of the head: the chain is kept, a head that cannot be used is not replaced,
and a head signed by a key the next reader trusts is accepted by it. -/
structure HeadLaw (c : Crypto Secret Key) (capnp : Capnp Message) (found : Option Bytes)
    (d : Disk) : Prop extends ChainKept c capnp found d where
  kept : ∀ (p : Parse Secret Key) (bytes : Bytes), d.head = some bytes → Unusable c capnp p bytes →
    (d.parse c capnp p).seen = d.seen
  accepted : ∀ (p : Parse Secret Key) (s : Secret), p.signer = .ok (some s) →
    (d.parse c capnp p).seen ≠ d.seen → ∀ policy : HeadPolicy Key,
    c.verifyingKey s ∈ policy.trusted →
      ∃ bytes, (d.parse c capnp p).head = some bytes ∧ Accepted c capnp policy bytes

/-- **The law of the head** holds after any list of parses, each of which may be stopped before any
of its steps, over whatever head and temporary file were found. -/
theorem head_law (hc : c.Lawful) (hcapnp : capnp.Lawful) (head temp : Option Bytes)
    (ps : List (Parse Secret Key)) :
    HeadLaw c capnp head ((Disk.found head temp).parses c capnp ps) := by
  have hkept : ChainKept c capnp head ((Disk.found head temp).parses c capnp ps) :=
    (Steps.foldl (Disk.parse c capnp) ps _).invariant (fun d p d' hd h => hd ▸ h.parse hc hcapnp p)
      (.found head temp)
  refine ⟨hkept, fun p bytes hbytes hunusable => ?_, fun p s hs hchanged policy htrusted => ?_⟩
  · rcases parse_cases _ p with hseen | ⟨b, _, hnext, -, -⟩
    · exact hseen
    · rw [hbytes] at hnext
      exact absurd hnext hunusable.not_prepared
  · rcases parse_cases _ p with hseen | ⟨b, bytes, hnext, hbytes, hseen⟩
    · exact absurd hseen hchanged
    · obtain ⟨root, segmentBytes, policy₀, state, signer, hprep⟩ := nextHead_ok hnext
      cases hs.symm.trans hprep.signer_eq
      exact ⟨bytes, congrArg Prod.fst hseen, accepted_signed hc hcapnp hprep hbytes htrusted⟩

/-! ## An unsigned head under a trust set -/

/-- A field between markers: each byte after a 1, and a 0 at the end. -/
def mark (bytes : Bytes) : Bytes := bytes.flatMap (fun b => [1, b]) ++ [0]

def unmark : Bytes → Option (Bytes × Bytes)
  | 0 :: rest => some ([], rest)
  | 1 :: b :: rest => (unmark rest).map fun (field, rest) => (b :: field, rest)
  | _ => none

theorem unmark_mark (bytes rest : Bytes) : unmark (mark bytes ++ rest) = some (bytes, rest) := by
  induction bytes with
  | nil => rfl
  | cons b bytes ih =>
    change (unmark (mark bytes ++ rest)).map _ = _
    rw [ih]
    rfl

def unmarks : Nat → Bytes → Option (List Bytes)
  | 0, _ => some []
  | n + 1, bytes => do
    let (field, rest) ← unmark bytes
    let fields ← unmarks n rest
    some (field :: fields)

theorem unmarks_flatMap (fields : List Bytes) :
    unmarks fields.length (fields.flatMap mark) = some fields := by
  induction fields with
  | nil => rfl
  | cons field fields ih =>
    rw [List.length_cons, unmarks, List.flatMap_cons, unmark_mark]
    change (unmarks fields.length (fields.flatMap mark)).bind _ = _
    rw [ih]
    rfl

def Builder.fields (b : Builder) : List Bytes :=
  [b.rootHash, b.parentHash, .replicate b.generation.toNat 0, .replicate b.segmentBytes.toNat 0,
    .replicate b.unboundFacts.toNat 0, b.signature, b.signerKid, b.treeRoot, b.parserId,
    b.parentDigest]

def ofFields : List Bytes → Option Builder
  | [root, parent, generation, segments, unbound, signature, kid, tree, parser, digest] =>
    some ⟨root, parent, .ofNat generation.length, .ofNat segments.length, .ofNat unbound.length,
      signature, kid, tree, parser, digest⟩
  | _ => none

theorem ofFields_fields (b : Builder) : ofFields b.fields = some b := by
  simp only [Builder.fields, ofFields, List.length_replicate, UInt64.ofNat_toNat]

def markedCapnp : Capnp Builder where
  readMessage bytes := ((unmarks 10 bytes).bind ofFields).elim (.error ⟨"premature end"⟩) .ok
  getRoot b := .ok b.reader
  writeCanonicalMessage b := .ok (b.fields.flatMap mark)

theorem markedCapnp_lawful : markedCapnp.Lawful := by
  rintro b _ ⟨⟩
  refine ⟨b, ?_, rfl⟩
  have hfields : unmarks 10 (b.fields.flatMap mark) = some b.fields := unmarks_flatMap b.fields
  rw [markedCapnp, Except.elim_eq_ok_iff, hfields]
  exact ofFields_fields b

def uniform (b : UInt8) : Digest := ⟨.replicate 32 b, rfl⟩

def oneKey : Crypto Unit Unit where
  deriveKey _ := uniform 7
  sha256 _ := .replicate 32 0
  keyBytes _ := []
  verifyingKey s := s
  sign _ _ := .replicate 64 1
  verify _ _ signature := signature.length == 64

theorem oneKey_lawful : oneKey.Lawful :=
  ⟨fun _ => List.length_replicate, fun _ _ => List.length_replicate, fun _ _ => rfl⟩

def plainParse (policy : HeadPolicy Unit) (signer : Option Unit) : Parse Unit Unit where
  unboundFacts := 0
  treeRoot := uniform 4
  parserId := uniform 6
  segments := .ok (uniform 1, 3)
  policy := .ok policy
  signer := .ok signer
  reads := true
  ops := ⟨true, [1000], true, true, true, true, true⟩
  stop := none

def unsignedHead : Builder where
  rootHash := .replicate 32 1
  parentHash := .replicate 32 0
  generation := 1
  segmentBytes := 3
  treeRoot := .replicate 32 4
  parserId := .replicate 32 6

/-- With a trust set configured, a head without a signature does not verify and is
replaced. -/
theorem unsigned_head_replaced :
    decodeHead markedCapnp (unsignedHead.fields.flatMap mark) = .ok unsignedHead.reader ∧
      verdictOf oneKey unsignedHead.reader [()] = .ok .unsigned ∧
      ((Disk.found (some (unsignedHead.fields.flatMap mark)) none).parse oneKey markedCapnp
        (plainParse { trusted := [()] } none)).head ≠ some (unsignedHead.fields.flatMap mark) :=
  ⟨decodeHead_write markedCapnp_lawful rfl, rfl, by decide +kernel⟩

/-- Three parses, the last one stopped before its rename and signed. -/
theorem head_law_three : ((Disk.found none none).parses oneKey markedCapnp
        [plainParse {} none, plainParse {} (some ()),
          { plainParse { trusted := [()] } (some ()) with stop := some 2 }]).heads.length = 2 ∧
      HeadLaw oneKey markedCapnp none ((Disk.found none none).parses oneKey markedCapnp
        [plainParse {} none, plainParse {} (some ()),
          { plainParse { trusted := [()] } (some ()) with stop := some 2 }]) :=
  ⟨by decide +kernel, head_law oneKey_lawful markedCapnp_lawful none none _⟩

end LeyLine.Head
