import Mathlib

/-!
# Ranks among siblings

A rank counts the elements with a smaller key. Where keys are distinct, sorting by key
puts each element at its rank. A rank is written in decimal: digits spell a number and
are the number's digits again unless they begin with an idle zero.
-/

namespace Rank

variable {α : Type*} {key : α → Nat}

def rank (key : α → Nat) (l : List α) (x : α) : Nat := (l.filter fun y => key y < key x).length

variable {l : List α}

theorem rank_perm {l l' : List α} (h : l.Perm l') (x : α) : rank key l x = rank key l' x :=
  (h.filter _).length_eq

theorem rank_cons_of_lt {a x : α} (h : key a < key x) : rank key (a :: l) x = rank key l x + 1 := by
  simp [rank, h]

theorem rank_head {a : α} (h : ∀ x ∈ l, key a < key x) : rank key (a :: l) a = 0 := by
  simp only [rank, List.length_eq_zero_iff, List.filter_eq_nil_iff, decide_eq_true_eq]
  intro x hx
  rcases List.mem_cons.mp hx with rfl | hx
  · exact lt_irrefl _
  · exact (h x hx).not_gt

theorem getElem?_of_increasing (h : l.Pairwise fun x y => key x < key y) {r : Nat}
    {x : α} : l[r]? = some x ↔ x ∈ l ∧ rank key l x = r := by
  induction l generalizing r with
  | nil => simp
  | cons a l ih =>
    obtain ⟨ha, hl⟩ := List.pairwise_cons.mp h
    cases r with
    | zero =>
      constructor
      · intro hx
        cases hx
        exact ⟨List.mem_cons_self, rank_head ha⟩
      · rintro ⟨hx, hr⟩
        rcases List.mem_cons.mp hx with rfl | hx
        · rfl
        · rw [rank_cons_of_lt (ha x hx)] at hr
          exact absurd hr (Nat.succ_ne_zero _)
    | succ r =>
      rw [List.getElem?_cons_succ, ih hl]
      constructor
      · rintro ⟨hx, hr⟩
        exact ⟨List.mem_cons_of_mem _ hx, by rw [rank_cons_of_lt (ha x hx), hr]⟩
      · rintro ⟨hx, hr⟩
        rcases List.mem_cons.mp hx with rfl | hx
        · rw [rank_head ha] at hr
          exact absurd hr.symm (Nat.succ_ne_zero _)
        · rw [rank_cons_of_lt (ha x hx)] at hr
          exact ⟨hx, Nat.succ.inj hr⟩

theorem mergeSort_increasing (h : (l.map key).Nodup) :
    (l.mergeSort fun x y => key x ≤ key y).Pairwise fun x y => key x < key y := by
  have hle : (l.mergeSort fun x y => key x ≤ key y).Pairwise fun x y => key x ≤ key y := by
    refine (List.pairwise_mergeSort (fun x y z hxy hyz => ?_) (fun x y => ?_) l).imp fun h => ?_
    · simp only [decide_eq_true_eq] at *
      exact hxy.trans hyz
    · simpa using le_total (key x) (key y)
    · exact of_decide_eq_true h
  have hne : (l.mergeSort fun x y => key x ≤ key y).Pairwise fun x y => key x ≠ key y :=
    List.pairwise_map.mp ((((List.mergeSort_perm l _).map key).nodup_iff).mpr h)
  exact (List.pairwise_and_iff.mpr ⟨hle, hne⟩).imp fun h => lt_of_le_of_ne h.1 h.2

theorem getElem?_mergeSort (h : (l.map key).Nodup) {r : Nat} {x : α} :
    (l.mergeSort fun x y => key x ≤ key y)[r]? = some x ↔ x ∈ l ∧ rank key l x = r := by
  rw [getElem?_of_increasing (mergeSort_increasing h), List.mem_mergeSort,
    rank_perm (List.mergeSort_perm l _)]

/-! ## Digits -/

def Trim (digits : List Char) : Prop := digits = ['0'] ∨ digits.head? ≠ some '0'

instance (digits : List Char) : Decidable (Trim digits) := inferInstanceAs (Decidable (_ ∨ _))

theorem exists_digitChar {c : Char} (h : c.isDigit) : ∃ m < 10, Nat.digitChar m = c := by
  have hrange : 48 ≤ c.toNat ∧ c.toNat ≤ 57 := by
    simp only [Char.isDigit, Bool.and_eq_true, decide_eq_true_eq] at h
    exact ⟨UInt32.le_iff_toNat_le.mp h.1, UInt32.le_iff_toNat_le.mp h.2⟩
  rw [← Char.ofNat_toNat c]
  obtain ⟨hlow, hhigh⟩ := hrange
  generalize c.toNat = n at hlow hhigh
  interval_cases n <;> decide

theorem head?_toDigits {n : Nat} (h : 0 < n) : (Nat.toDigits 10 n).head? ≠ some '0' := by
  induction n using Nat.base_induction 10 (by norm_num) with
  | single m hm =>
    rw [Nat.toDigits_of_lt_base hm]
    simpa using h.ne'
  | digit m k hk hm ih =>
    rw [← Nat.toDigits_append_toDigits (by norm_num) hm hk,
      List.head?_append_of_ne_nil _ Nat.toDigits_ne_nil]
    exact ih hm

theorem trim_toDigits (n : Nat) : Trim (Nat.toDigits 10 n) := by
  rcases n.eq_zero_or_pos with rfl | h
  · exact .inl (Nat.toDigits_zero 10)
  · exact .inr (head?_toDigits h)

theorem toDigits_of_head? {digits : List Char} (hne : digits ≠ [])
    (hdigits : ∀ c ∈ digits, c.isDigit) (hhead : digits.head? ≠ some '0') :
    0 < Nat.ofDigitChars 10 digits 0 ∧ Nat.toDigits 10 (Nat.ofDigitChars 10 digits 0) = digits := by
  induction digits using List.reverseRecOn with
  | nil => exact absurd rfl hne
  | append_singleton digits c ih =>
    obtain ⟨m, hm, rfl⟩ := exists_digitChar (hdigits c (by simp))
    have hvalue : Nat.ofDigitChars 10 (digits ++ [m.digitChar]) 0 =
        10 * Nat.ofDigitChars 10 digits 0 + m := by
      rw [Nat.ofDigitChars_append, Nat.ofDigitChars_cons_digitChar_of_lt_ten hm,
        Nat.ofDigitChars_nil]
    rw [hvalue]
    by_cases hnil : digits = []
    · subst hnil
      have hpos : m ≠ 0 := by simpa using hhead
      rw [Nat.ofDigitChars_nil, Nat.mul_zero, Nat.zero_add, Nat.toDigits_of_lt_base hm]
      exact ⟨Nat.pos_of_ne_zero hpos, rfl⟩
    · rw [List.head?_append_of_ne_nil _ hnil] at hhead
      obtain ⟨hpos, hdig⟩ := ih hnil (fun c hc => hdigits c (List.mem_append_left _ hc)) hhead
      rw [← Nat.toDigits_append_toDigits (by norm_num) hpos hm, hdig, Nat.toDigits_of_lt_base hm]
      exact ⟨by omega, rfl⟩

theorem toDigits_ofDigitChars {digits : List Char} (hne : digits ≠ [])
    (hdigits : ∀ c ∈ digits, c.isDigit) :
    Nat.toDigits 10 (Nat.ofDigitChars 10 digits 0) = digits ↔ Trim digits := by
  constructor
  · intro h
    rw [← h]
    exact trim_toDigits _
  · rintro (rfl | hhead)
    · decide
    · exact (toDigits_of_head? hne hdigits hhead).2

end Rank
