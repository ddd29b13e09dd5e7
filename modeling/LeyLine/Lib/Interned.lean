import Mathlib

/-!
# Append-only interning tables

A table of distinct values in which a value's id is its row number, counted from one.
Interning a value finds its row or appends one, so an id once given stays the id of its
value: `Grows` is the order in which such tables develop, and every fact stated by
`row` is kept along it.
-/

/-- Distinct values, numbered by position. -/
structure Interned (α : Type*) where
  rows : List α
  nodup : rows.Nodup

namespace Interned

variable {α : Type*} [DecidableEq α] {t t' : Interned α} {a b : α} {i j : Nat}

def row (t : Interned α) : Nat → Option α
  | 0 => none
  | i + 1 => t.rows[i]?

def find (t : Interned α) (a : α) : Option Nat := (t.rows.findIdx? (· = a)).map (· + 1)

theorem find_eq_some_iff : t.find a = some i ↔ t.row i = some a := by
  unfold find
  cases i with
  | zero => simp [row]
  | succ i =>
    rw [Option.map_eq_some_iff]
    simp only [Nat.add_right_cancel_iff, exists_eq_right, row]
    rw [List.findIdx?_eq_some_iff_getElem]
    constructor
    · rintro ⟨hi, ha, -⟩
      rw [List.getElem?_eq_getElem hi, of_decide_eq_true ha]
    · intro hi
      obtain ⟨hlt, hget⟩ := List.getElem?_eq_some_iff.mp hi
      refine ⟨hlt, decide_eq_true hget, fun j hj => ?_⟩
      intro hja
      have heq := of_decide_eq_true hja
      have hij := t.nodup.getElem_inj_iff.mp (heq.trans hget.symm)
      omega

theorem row_inj (hi : t.row i = some a) (hj : t.row j = some a) : i = j :=
  Option.mem_unique (find_eq_some_iff.mpr hi) (find_eq_some_iff.mpr hj)

theorem find_eq_none_iff : t.find a = none ↔ ∀ i, t.row i ≠ some a := by
  constructor
  · intro h i hi
    rw [find_eq_some_iff.mpr hi] at h
    simp at h
  · intro h
    cases hf : t.find a with
    | none => rfl
    | some i => exact absurd (find_eq_some_iff.mp hf) (h i)

omit [DecidableEq α] in
theorem row_le (h : t.row i = some a) : i ≤ t.rows.length := by
  cases i with
  | zero => exact Nat.zero_le _
  | succ i => exact (List.getElem?_eq_some_iff.mp h).1

theorem not_mem_of_find (h : t.find a = none) : a ∉ t.rows := by
  intro ha
  obtain ⟨i, hi, hget⟩ := List.getElem_of_mem ha
  refine find_eq_none_iff.mp h (i + 1) ?_
  rw [row, List.getElem?_eq_getElem hi, hget]

def push (t : Interned α) (a : α) (h : a ∉ t.rows) : Interned α :=
  ⟨t.rows ++ [a], by
    refine List.nodup_append.mpr ⟨t.nodup, List.nodup_singleton a, ?_⟩
    intro x hx y hy hxy
    exact h (List.mem_singleton.mp hy ▸ hxy ▸ hx)⟩

def intern (t : Interned α) (a : α) : Interned α × Nat :=
  if h : a ∈ t.rows then (t, (t.find a).getD 0) else (t.push a h, t.rows.length + 1)

def Grows (t t' : Interned α) : Prop := ∀ i a, t.row i = some a → t'.row i = some a

omit [DecidableEq α] in
theorem Grows.refl (t : Interned α) : Grows t t := fun _ _ h => h

omit [DecidableEq α] in
theorem Grows.trans {t'' : Interned α} (h : Grows t t') (h' : Grows t' t'') : Grows t t'' :=
  fun i a hi => h' i a (h i a hi)

theorem grows_intern (t : Interned α) (a : α) : Grows t (t.intern a).1 := by
  intro i b hi
  unfold intern
  split
  · exact hi
  · cases i with
    | zero => exact hi
    | succ i =>
      have hlt := (List.getElem?_eq_some_iff.mp hi).1
      change (t.rows ++ [a])[i]? = some b
      rw [List.getElem?_append_left hlt]
      exact hi

theorem row_intern (t : Interned α) (a : α) : (t.intern a).1.row (t.intern a).2 = some a := by
  unfold intern
  split
  · rename_i ha
    cases hf : t.find a with
    | none => exact absurd ha (not_mem_of_find hf)
    | some i => exact find_eq_some_iff.mp hf
  · change (t.rows ++ [a])[t.rows.length]? = some a
    simp

theorem row_intern_cases (h : (t.intern a).1.row i = some b) :
    t.row i = some b ∨ (b = a ∧ i = t.rows.length + 1 ∧ i = (t.intern a).2) := by
  unfold intern at h ⊢
  split at h
  · exact .inl h
  · rename_i ha
    rw [dif_neg ha]
    cases i with
    | zero => simp [row] at h
    | succ i =>
      change (t.rows ++ [a])[i]? = some b at h
      by_cases hi : i < t.rows.length
      · rw [List.getElem?_append_left hi] at h
        exact .inl h
      · rw [List.getElem?_append_right (Nat.le_of_not_lt hi)] at h
        obtain ⟨hlt, hget⟩ := List.getElem?_eq_some_iff.mp h
        rw [List.length_singleton] at hlt
        have hi' : i = t.rows.length := by omega
        subst hi'
        exact .inr ⟨by simpa using hget.symm, rfl, rfl⟩

end Interned
