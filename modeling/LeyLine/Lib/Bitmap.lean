import Mathlib.Data.List.Basic

/-!
# Bitmaps

A set of numbers as bits of 64-bit words. Setting a bit is an or with the bit's mask, and
reading it an and with it, so bits are independent and one that is set stays set.
-/

namespace Bitmap

def mask (i : Nat) : BitVec 64 := 1#64 <<< (i % 64)

/-- Enough words for `n` bits, all clear. -/
def empty (n : Nat) : List (BitVec 64) := List.replicate ((n + 63) / 64) 0#64

def get (words : List (BitVec 64)) (i : Nat) : Bool := words.getD (i / 64) 0#64 &&& mask i != 0#64

def set (words : List (BitVec 64)) (i : Nat) : List (BitVec 64) :=
  words.modify (i / 64) (· ||| mask i)

theorem mask_getLsbD (i k : Nat) : (mask i).getLsbD k = decide (k = i % 64) := by
  have hlt : i % 64 < 64 := Nat.mod_lt _ (by decide)
  rw [mask, BitVec.getLsbD_shiftLeft]
  by_cases hk : k = i % 64
  · subst hk
    simp [hlt]
  · by_cases hsmall : k < i % 64
    · simp [hk, hsmall]
    · simp [hk]
      omega

theorem and_mask_ne_zero (word : BitVec 64) (i : Nat) :
    (word &&& mask i != 0#64) = word.getLsbD (i % 64) := by
  rcases hbit : word.getLsbD (i % 64) with _ | _
  · have hzero : word &&& mask i = 0#64 := by
      refine BitVec.eq_of_getLsbD_eq fun k _ => ?_
      rw [BitVec.getLsbD_and, mask_getLsbD, BitVec.getLsbD_zero]
      by_cases hk : k = i % 64
      · simp [hk, hbit]
      · simp [hk]
    simp [hzero]
  · have hne : word &&& mask i ≠ 0#64 := by
      intro hzero
      have hget := congrArg (·.getLsbD (i % 64)) hzero
      simp [mask_getLsbD, hbit] at hget
    simpa using hne

theorem get_set {words : List (BitVec 64)} {i : Nat} (h : i / 64 < words.length) (j : Nat) :
    get (set words i) j = (decide (i = j) || get words j) := by
  rw [get, get, and_mask_ne_zero, and_mask_ne_zero, set, List.getD_eq_getElem?_getD,
    List.getD_eq_getElem?_getD]
  by_cases hword : i / 64 = j / 64
  · rw [← hword, List.getElem?_modify_eq, List.getElem?_eq_getElem h]
    simp only [Option.map_eq_map, Option.map_some, Option.getD_some, BitVec.getLsbD_or,
      mask_getLsbD]
    by_cases hij : i = j
    · simp [hij]
    · have hmod : j % 64 ≠ i % 64 := by omega
      simp [hij, hmod]
  · have hij : i ≠ j := by
      rintro rfl
      exact hword rfl
    rw [List.getElem?_modify_ne _ _ hword]
    simp [hij]

theorem get_set_mono (words : List (BitVec 64)) (i : Nat) {j : Nat} (h : get words j = true) :
    get (set words i) j = true := by
  by_cases hin : i / 64 < words.length
  · rw [get_set hin, h, Bool.or_true]
  · have hsame : set words i = words := List.modify_eq_self (by omega)
    rw [hsame, h]

end Bitmap
