import LeyLine.Lib.Framing
import LeyLine.Tree

/-!
# Signed payloads

`envelope/src/lib.rs`: what is signed is not the payload but its DSSE pre-authentication
encoding, `"DSSEv1" SP LEN(type) SP type SP LEN(body) SP body`, with the lengths in decimal.
Each field is framed by its length, so the encoding is self-delimiting whatever bytes the
fields hold.
-/

namespace LeyLine.Envelope

open Framing (decimal spaced)

/-! ## The encoding -/

/-- `DSSEv1 `. -/
def header : Bytes := [68, 83, 83, 69, 118, 49, 32]

def pae (payloadType payload : Bytes) : Bytes :=
  header ++ decimal payloadType.length ++ [32] ++ payloadType ++ [32] ++ decimal payload.length ++
    [32] ++ payload

theorem pae_eq (payloadType payload : Bytes) :
    pae payloadType payload = header ++ (spaced payloadType ++ 32 :: spaced payload) := by
  simp [pae, spaced]

theorem selfDelimiting_pae : Framing.SelfDelimiting (fun _ => True) fun x :
    Bytes × Bytes => pae x.1 x.2 := by
  rintro ⟨t, b⟩ ⟨t', b'⟩ r r' _ _ h
  simp only [pae_eq, List.append_assoc, List.append_cancel_left_eq, List.cons_append] at h
  obtain ⟨rfl, hrest⟩ := Framing.selfDelimiting_spaced t t' _ _ trivial trivial h
  obtain ⟨rfl, hr⟩ :=
    Framing.selfDelimiting_spaced b b' _ _ trivial trivial (List.tail_eq_of_cons_eq hrest)
  exact ⟨rfl, hr⟩

/-! ## Signatures over it -/

/-- Ed25519 as the signer and the verifying key of the library provide it. -/
structure Ed25519 (Signer Key Signature : Type) where
  signMessage : Signer → Bytes → Signature
  verify : Key → Bytes → Signature → Bool

section Sign

variable {Signer Key Signature : Type} (ed : Ed25519 Signer Key Signature)

def signPayload (payloadType payload : Bytes) (signer : Signer) : Signature :=
  ed.signMessage signer (pae payloadType payload)

def verifyPayload (payloadType payload : Bytes) (sig : Signature) (key : Key) : Bool :=
  ed.verify key (pae payloadType payload) sig

/-- The signature made over the first message verifies for the second only if they are one. -/
def Ed25519.Binds (signer : Signer) (key : Key) (m m' : Bytes) : Prop :=
  ed.verify key m' (ed.signMessage signer m) = true → m' = m

/-- **No encoding is a prefix of another**, and so a signature over one type and payload verifies
for no other, where the scheme does not take it for the other's encoding. -/
theorem pae_prefixFree :
    (∀ t₁ b₁ t₂ b₂, pae t₁ b₁ <+: pae t₂ b₂ → t₁ = t₂ ∧ b₁ = b₂) ∧
      ∀ t₁ b₁ t₂ b₂ signer key, ed.Binds signer key (pae t₁ b₁) (pae t₂ b₂) →
        verifyPayload ed t₂ b₂ (signPayload ed t₁ b₁ signer) key = true → t₁ = t₂ ∧ b₁ = b₂ := by
  have hfree : ∀ t₁ b₁ t₂ b₂, pae t₁ b₁ <+: pae t₂ b₂ → t₁ = t₂ ∧ b₁ = b₂ := by
    rintro t₁ b₁ t₂ b₂ ⟨r, hr⟩
    have heq := (selfDelimiting_pae (t₁, b₁) (t₂, b₂) r [] trivial trivial (by simpa using hr)).1
    exact Prod.mk.inj heq
  refine ⟨hfree, fun t₁ b₁ t₂ b₂ signer key hbinds h => hfree t₁ b₁ t₂ b₂ ?_⟩
  rw [hbinds h]

end Sign

def plainEd25519 : Ed25519 Unit Unit Bytes := ⟨fun _ m => m, fun _ m sig => m == sig⟩

/-- A payload with a digit and a space appended is no other's prefix, and its signature is not
taken for another. -/
theorem pae_prefixFree_spaces : ¬ pae [116] [49, 32] <+: pae [116] [49, 32, 50] ∧
      verifyPayload plainEd25519 [116] [49] (signPayload plainEd25519 [116, 32] [49] ()) () =
        false := by
  obtain ⟨hfree, hsig⟩ := pae_prefixFree plainEd25519
  refine ⟨fun h => ?_, Bool.eq_false_iff.mpr fun h => ?_⟩
  · exact absurd (hfree _ _ _ _ h).2 (by decide)
  · exact absurd (hsig _ _ _ _ _ _ (fun h => eq_of_beq h) h).1 (by decide)

end LeyLine.Envelope
