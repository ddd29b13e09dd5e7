import LeyLine.Lib.SepPath

/-!
# Self-delimiting encodings

An encoding is self-delimiting when the encoded value can be read off the front
of any string it starts: `enc x ++ r = enc y ++ r'` forces `x = y` and `r = r'`.
Fields written one after another are then recovered one after another. Fixed
widths, length prefixes and counted lists are the three ways to get there.
-/

namespace Framing

variable {α β : Type*}

/-- On the values `P` allows, the encoding can be read off the front of a
string. -/
def SelfDelimiting (P : α → Prop) (enc : α → List β) : Prop :=
  ∀ x y r r', P x → P y → enc x ++ r = enc y ++ r' → x = y ∧ r = r'

variable {P : α → Prop} {enc : α → List β}

theorem SelfDelimiting.of_length (k : Nat) (hlen : ∀ x, P x → (enc x).length = k)
    (hinj : ∀ x y, P x → P y → enc x = enc y → x = y) : SelfDelimiting P enc := by
  intro x y r r' hx hy h
  obtain ⟨he, hr⟩ := List.append_inj h ((hlen x hx).trans (hlen y hy).symm)
  exact ⟨hinj x y hx hy he, hr⟩

theorem SelfDelimiting.inj (h : SelfDelimiting P enc)
    {x y : α} (hx : P x) (hy : P y) (heq : enc x = enc y) : x = y :=
  (h x y [] [] hx hy (by rw [heq])).1

/-! ## Little-endian integers -/

/-- The low `w` bytes of `n`, lowest first. -/
def leBytes : Nat → Nat → List UInt8
  | 0, _ => []
  | w + 1, n => UInt8.ofNat n :: leBytes w (n / 256)

@[simp] theorem length_leBytes (w n : Nat) : (leBytes w n).length = w := by
  induction w generalizing n with
  | zero => rfl
  | succ w ih => rw [leBytes, List.length_cons, ih]

variable {n : Nat}

theorem mod_eq_of_leBytes_eq {w m : Nat} (h : leBytes w n = leBytes w m) :
    n % 256 ^ w = m % 256 ^ w := by
  induction w generalizing n m with
  | zero => rw [pow_zero, Nat.mod_one, Nat.mod_one]
  | succ w ih =>
    rw [leBytes, leBytes, List.cons.injEq] at h
    have hlow : n % 256 = m % 256 := by
      have := congrArg UInt8.toNat h.1
      simpa using this
    rw [pow_succ', Nat.mod_mul, Nat.mod_mul, hlow, ih h.2]

theorem leBytes_inj {w m : Nat} (hn : n < 256 ^ w) (hm : m < 256 ^ w)
    (h : leBytes w n = leBytes w m) : n = m := by
  have hmod := mod_eq_of_leBytes_eq h
  rwa [Nat.mod_eq_of_lt hn, Nat.mod_eq_of_lt hm] at hmod

def leNat : List UInt8 → Nat
  | [] => 0
  | b :: bs => b.toNat + 256 * leNat bs

theorem leBytes_leNat (bs : List UInt8) : leBytes bs.length (leNat bs) = bs := by
  induction bs with
  | nil => rfl
  | cons b bs ih =>
    have hlow : UInt8.ofNat (b.toNat + 256 * leNat bs) = b := by
      rw [← UInt8.toNat_inj, UInt8.toNat_ofNat', Nat.add_mul_mod_self_left]
      exact Nat.mod_eq_of_lt b.toNat_lt
    have hhigh : (b.toNat + 256 * leNat bs) / 256 = leNat bs := by
      have := b.toNat_lt
      omega
    rw [List.length_cons, leBytes, leNat, hlow, hhigh, ih]

theorem selfDelimiting_leBytes (w : Nat) : SelfDelimiting (fun n => n < 256 ^ w) (leBytes w) :=
  .of_length w (fun n _ => length_leBytes w n) fun _ _ => leBytes_inj

/-! ## Lengths and counts -/

def sized (w : Nat) (b : List UInt8) : List UInt8 := leBytes w b.length ++ b

theorem selfDelimiting_sized (w : Nat) :
    SelfDelimiting (fun b => b.length < 256 ^ w) (sized w) := by
  intro x y r r' hx hy h
  rw [sized, sized, List.append_assoc, List.append_assoc] at h
  obtain ⟨hlen, h⟩ := selfDelimiting_leBytes w _ _ _ _ hx hy h
  exact List.append_inj h hlen

/-- The encodings of a list's elements, after their number. -/
def counted (w : Nat) (enc : α → List UInt8) (l : List α) : List UInt8 :=
  leBytes w l.length ++ l.flatMap enc

theorem SelfDelimiting.flatMap (h : SelfDelimiting P enc) :
    ∀ (l l' : List α) (r r' : List β), (∀ x ∈ l, P x) → (∀ x ∈ l', P x) →
      l.length = l'.length → l.flatMap enc ++ r = l'.flatMap enc ++ r' → l = l' ∧ r = r'
  | [], [], r, r', _, _, _, heq => ⟨rfl, heq⟩
  | x :: l, y :: l', r, r', hl, hl', hlen, heq => by
    rw [List.flatMap_cons, List.flatMap_cons, List.append_assoc, List.append_assoc] at heq
    rw [List.forall_mem_cons] at hl hl'
    obtain ⟨rfl, htail⟩ := h x y _ _ hl.1 hl'.1 heq
    obtain ⟨rfl, hr⟩ := h.flatMap l l' r r' hl.2 hl'.2 (Nat.succ.inj hlen) htail
    exact ⟨rfl, hr⟩

theorem SelfDelimiting.counted {enc : α → List UInt8} (w : Nat) (h : SelfDelimiting P enc) :
    SelfDelimiting (fun l => l.length < 256 ^ w ∧ ∀ x ∈ l, P x) (counted w enc) := by
  intro l l' r r' hl hl' heq
  rw [Framing.counted, Framing.counted, List.append_assoc, List.append_assoc] at heq
  obtain ⟨hlen, heq⟩ := selfDelimiting_leBytes w _ _ _ _ hl.1 hl'.1 heq
  exact h.flatMap l l' r r' hl.2 hl'.2 hlen heq

/-! ## Decimal lengths -/

def decimal (n : Nat) : List UInt8 := (Nat.toDigits 10 n).map fun c => UInt8.ofNat c.toNat

theorem toNat_digit {c : Char} (hc : c ∈ Nat.toDigits 10 n) :
    (UInt8.ofNat c.toNat).toNat = c.toNat ∧ 48 ≤ c.toNat := by
  have hdigit := Nat.isDigit_of_mem_toDigits (by decide) (by decide) hc
  simp only [Char.isDigit, Bool.and_eq_true, decide_eq_true_eq] at hdigit
  have hlo : 48 ≤ c.toNat := hdigit.1
  have hhi : c.toNat ≤ 57 := hdigit.2
  exact ⟨by rw [UInt8.toNat_ofNat', Nat.mod_eq_of_lt (by omega)], hlo⟩

theorem decimal_inj {m : Nat} (h : decimal n = decimal m) : n = m := by
  have hback (k : Nat) : (decimal k).map (fun b => Char.ofNat b.toNat) = Nat.toDigits 10 k := by
    rw [decimal, List.map_map]
    refine (List.map_congr_left fun c hc => ?_).trans (List.map_id _)
    rw [Function.comp_apply, (toNat_digit hc).1, Char.ofNat_toNat, id]
  rw [← Nat.ofDigitChars_ten_toDigits (n := n), ← hback, h, hback, Nat.ofDigitChars_ten_toDigits]

/-- Bytes after their length in decimal and a space. -/
def spaced (b : List UInt8) : List UInt8 := decimal b.length ++ 32 :: b

theorem selfDelimiting_spaced : SelfDelimiting (fun _ => True) spaced := by
  intro x y r r' _ _ h
  have hspace (n : Nat) : (32 : UInt8) ∉ decimal n := by
    intro hmem
    obtain ⟨c, hc, heq⟩ := List.mem_map.mp hmem
    have hdigit := toNat_digit hc
    rw [heq] at hdigit
    have : (32 : UInt8).toNat = 32 := rfl
    omega
  rw [spaced, spaced, List.append_assoc, List.append_assoc, List.cons_append, List.cons_append] at h
  -- the length ends at the first space
  obtain ⟨hx, hx'⟩ := SepPath.takeWhile_ne_of_not_mem (hspace x.length) (x ++ r)
  obtain ⟨hy, hy'⟩ := SepPath.takeWhile_ne_of_not_mem (hspace y.length) (y ++ r')
  rw [h] at hx hx'
  have hrest : x ++ r = y ++ r' := List.tail_eq_of_cons_eq (hx'.symm.trans hy')
  exact List.append_inj hrest (decimal_inj (hx.symm.trans hy))

end Framing
