import LeyLine.Lib.Framing

/-!
# Variable-length integers

Unsigned LEB128: seven bits a byte, lowest first, every byte but the last with its high bit
set. The last byte shows where the number ends, so numbers of any size, strings behind their
length and lists behind their number can be read off the front.
-/

namespace Framing

variable {α : Type*}

/-- The bytes of a number, for as many groups as `fuel` allows. -/
def uvarintLoop : Nat → Nat → List UInt8
  | 0, _ => []
  | fuel + 1, v => if v < 128 then [UInt8.ofNat v]
      else UInt8.ofNat (v % 128 + 128) :: uvarintLoop fuel (v / 128)

def uvarint (v : Nat) : List UInt8 := uvarintLoop (v + 1) v

theorem toNat_ofNat_lt {n : Nat} (h : n < 256) : (UInt8.ofNat n).toNat = n := by
  rw [UInt8.toNat_ofNat', Nat.mod_eq_of_lt h]

theorem uvarintLoop_inj {fuel fuel' v v' : Nat} {r r' : List UInt8} (hv : v < fuel)
    (hv' : v' < fuel')
    (h : uvarintLoop fuel v ++ r = uvarintLoop fuel' v' ++ r') : v = v' ∧ r = r' := by
  induction fuel generalizing fuel' v v' with
  | zero => omega
  | succ fuel ih =>
    obtain ⟨fuel', rfl⟩ : ∃ n, fuel' = n + 1 := ⟨fuel' - 1, by omega⟩
    have hhead : ∀ {x y : Nat} {l l' : List UInt8}, x < 256 → y < 256 →
        UInt8.ofNat x :: l = UInt8.ofNat y :: l' → x = y ∧ l = l' := by
      intro x y l l' hx hy heq
      obtain ⟨hbyte, htail⟩ := List.cons.inj heq
      have hnat := congrArg UInt8.toNat hbyte
      rw [toNat_ofNat_lt hx, toNat_ofNat_lt hy] at hnat
      exact ⟨hnat, htail⟩
    rw [uvarintLoop, uvarintLoop] at h
    by_cases hsmall : v < 128
    · rw [if_pos hsmall] at h
      by_cases hsmall' : v' < 128
      · rw [if_pos hsmall'] at h
        exact hhead (by omega) (by omega) h
      · rw [if_neg hsmall'] at h
        obtain ⟨hbyte, -⟩ := hhead (by omega) (by omega) h
        omega
    · rw [if_neg hsmall] at h
      by_cases hsmall' : v' < 128
      · rw [if_pos hsmall'] at h
        obtain ⟨hbyte, -⟩ := hhead (by omega) (by omega) h
        omega
      · rw [if_neg hsmall'] at h
        obtain ⟨hbyte, htail⟩ := hhead (by omega) (by omega) h
        obtain ⟨hhigh, hr⟩ := ih (by omega) (by omega) htail
        exact ⟨by omega, hr⟩

theorem selfDelimiting_uvarint : SelfDelimiting (fun _ => True) uvarint := by
  intro v v' r r' _ _ h
  exact uvarintLoop_inj (Nat.lt_succ_self v) (Nat.lt_succ_self v') h

def framed (b : List UInt8) : List UInt8 := uvarint b.length ++ b

theorem selfDelimiting_framed : SelfDelimiting (fun _ => True) framed := by
  intro x y r r' _ _ h
  rw [framed, framed, List.append_assoc, List.append_assoc] at h
  obtain ⟨hlen, h⟩ := selfDelimiting_uvarint _ _ _ _ trivial trivial h
  exact List.append_inj h hlen

def numbered (enc : α → List UInt8) (l : List α) : List UInt8 := uvarint l.length ++ l.flatMap enc

theorem SelfDelimiting.numbered {P : α → Prop} {enc : α → List UInt8} (h : SelfDelimiting P enc) :
    SelfDelimiting (fun l => ∀ x ∈ l, P x) (numbered enc) := by
  intro l l' r r' hl hl' heq
  rw [Framing.numbered, Framing.numbered, List.append_assoc, List.append_assoc] at heq
  obtain ⟨hlen, heq⟩ := selfDelimiting_uvarint _ _ _ _ trivial trivial heq
  exact h.flatMap l l' r r' hl hl' hlen heq

end Framing
