import Mathlib

/-!
# Loops that fill an ordered table

`Std.ExtTreeMap` is an ordered table with extensional equality. The lemmas here
say what a loop that inserts into such a table leaves at one key, in terms of
membership in the list or table the loop runs over.
-/

namespace Table

open Std

variable {K V W : Type*} [Ord K] [TransOrd K] [LawfulEqOrd K] [DecidableEq K]

theorem get_insert (m : ExtTreeMap K V) (a k : K) (v : V) :
    (m.insert a v)[k]? = if a = k then some v else m[k]? := by
  rw [ExtTreeMap.getElem?_insert]
  exact if_congr LawfulEqOrd.compare_eq_iff_eq rfl rfl

theorem get_erase (m : ExtTreeMap K V) (a k : K) :
    (m.erase a)[k]? = if a = k then none else m[k]? := by
  rw [ExtTreeMap.getElem?_erase]
  exact if_congr LawfulEqOrd.compare_eq_iff_eq rfl rfl

omit [LawfulEqOrd K] [DecidableEq K] in
theorem mem_iff (m : ExtTreeMap K V) (k : K) : k ∈ m ↔ m[k]? ≠ none := by
  rw [ExtTreeMap.mem_iff_isSome_getElem?, Option.isSome_iff_ne_none]

theorem get_foldl_insert_const (v : V) (k : K) : ∀ (l : List K) (m : ExtTreeMap K V),
      (l.foldl (fun m a => m.insert a v) m)[k]? = if k ∈ l then some v else m[k]?
  | [], m => by simp
  | a :: l, m => by
    rw [List.foldl_cons, get_foldl_insert_const v k l, get_insert]
    by_cases hl : k ∈ l
    · simp [hl]
    · simp [hl, eq_comm]

theorem get_foldl_insert_fun (f : K → Option V) (k : K) : ∀ (l : List K) (m : ExtTreeMap K V),
      (l.foldl (fun m a => (f a).elim m (m.insert a)) m)[k]? =
      (if k ∈ l then f k else none).or m[k]?
  | [], m => by simp
  | a :: l, m => by
    rw [List.foldl_cons, get_foldl_insert_fun f k l]
    by_cases hak : a = k
    · subst hak
      cases hf : f a with
      | none => simp
      | some v => by_cases hl : a ∈ l <;> simp [hl]
    · cases hf : f a with
      | none => simp [Ne.symm hak]
      | some v => simp [Ne.symm hak, get_insert, hak]

theorem get_foldl_insert_new (v : V) (k : K) :
    ∀ (l : List K)
    (m : ExtTreeMap K V), (l.foldl (fun m a => if a ∈ m then m else m.insert a v) m)[k]? =
        m[k]?.or (if k ∈ l then some v else none)
  | [], m => by simp
  | a :: l, m => by
    rw [List.foldl_cons, get_foldl_insert_new v k l]
    by_cases ham : a ∈ m
    · rw [if_pos ham]
      by_cases hak : k = a
      · obtain ⟨w, hw⟩ := Option.ne_none_iff_exists'.mp ((mem_iff m a).mp ham)
        rw [hak, hw, Option.some_or, Option.some_or]
      · simp [hak]
    · rw [if_neg ham, get_insert]
      by_cases hak : a = k
      · subst hak
        have hnone : m[a]? = none := by
          by_contra h
          exact ham ((mem_iff m a).mpr h)
        simp [hnone]
      · simp [hak, Ne.symm hak]

theorem get_foldl_insert_rows (skip : K → Bool) (f : V → W) (k : K) :
    ∀ (l : List (K × V)) (m : ExtTreeMap K W), l.Pairwise (fun a b => a.1 ≠ b.1) →
      (l.foldl (fun m x => if skip x.1 then m else m.insert x.1 (f x.2)) m)[k]? = if skip k
      then m[k]?
        else ((l.find? fun x => decide (x.1 = k)).map fun x => f x.2).or m[k]?
  | [], m, _ => by simp
  | (a, v) :: l, m, hl => by
    obtain ⟨ha, hl⟩ := List.pairwise_cons.mp hl
    rw [List.foldl_cons, get_foldl_insert_rows skip f k l _ hl, List.find?_cons]
    by_cases hak : a = k
    · subst hak
      have hnone : l.find? (fun x => decide (x.1 = a)) = none := by
        rw [List.find?_eq_none]
        intro y hy hya
        exact ha y hy (of_decide_eq_true hya).symm
      by_cases hs : skip a
      · simp [hs]
      · simp [hs, hnone]
    · by_cases hs : skip a
      · simp [hs, hak]
      · simp [hs, hak, get_insert]

theorem get_foldl_insert_by {β : Type*} (key : β → K) (f : β → Option V) (k : K) :
    ∀ (l : List β) (m : ExtTreeMap K V), l.Pairwise (fun a b => key a ≠ key b) →
      (l.foldl (fun m x => (f x).elim m (m.insert (key x))) m)[k]? =
        ((l.find? fun x => decide (key x = k)).bind f).or m[k]?
  | [], m, _ => by simp
  | x :: l, m, hl => by
    obtain ⟨hx, hl⟩ := List.pairwise_cons.mp hl
    rw [List.foldl_cons, get_foldl_insert_by key f k l _ hl, List.find?_cons]
    by_cases hxk : key x = k
    · have hnone : l.find? (fun y => decide (key y = k)) = none := by
        rw [List.find?_eq_none]
        intro y hy hyk
        exact hx y hy (hxk.trans (of_decide_eq_true hyk).symm)
      cases hf : f x <;> simp [hxk, hnone, hf]
    · cases hf : f x <;> simp [hxk, get_insert]

omit [DecidableEq K] in
theorem pairwise_toList_ne (t : ExtTreeMap K V) : t.toList.Pairwise (fun a b => a.1 ≠ b.1) :=
  ExtTreeMap.distinct_keys_toList.imp fun h heq => h (LawfulEqOrd.compare_eq_iff_eq.mpr heq)

theorem find?_toList (t : ExtTreeMap K V) (k : K) :
    (t.toList.find? fun x => decide (x.1 = k)) = t[k]?.map fun v => (k, v) := by
  cases hk : t[k]? with
  | none =>
    rw [Option.map_none, List.find?_eq_none]
    rintro ⟨a, v⟩ hx hak
    obtain rfl : a = k := of_decide_eq_true hak
    rw [ExtTreeMap.mem_toList_iff_getElem?_eq_some] at hx
    rw [hk] at hx
    simp at hx
  | some v =>
    have hmem : (k, v) ∈ t.toList := ExtTreeMap.mem_toList_iff_getElem?_eq_some.mpr hk
    cases hf : t.toList.find? (fun x => decide (x.1 = k)) with
    | none => exact absurd (List.find?_eq_none.mp hf _ hmem) (by simp)
    | some x =>
      obtain ⟨a, w⟩ := x
      obtain rfl : a = k := by simpa using List.find?_some hf
      have hw : t[a]? = some w :=
        ExtTreeMap.mem_toList_iff_getElem?_eq_some.mp (List.mem_of_find?_eq_some hf)
      rw [hk] at hw
      rw [Option.map_some, Option.some.inj hw]

/-! ## Sets as sorted lists -/

def sortedSet (l : List K) : List K :=
  (l.foldl (fun m a => m.insert a ()) (∅ : ExtTreeMap K Unit)).keys

theorem mem_sortedSet {l : List K} {k : K} : k ∈ sortedSet l ↔ k ∈ l := by
  rw [sortedSet, ExtTreeMap.mem_keys, mem_iff, get_foldl_insert_const]
  by_cases h : k ∈ l <;> simp [h]

theorem sortedSet_congr {l l' : List K} (h : ∀ k, k ∈ l ↔ k ∈ l') : sortedSet l = sortedSet l' := by
  rw [sortedSet, sortedSet]
  congr 1
  refine ExtTreeMap.ext_getElem? fun k => ?_
  rw [get_foldl_insert_const, get_foldl_insert_const]
  exact if_congr (h k) rfl rfl

omit [DecidableEq K] in
theorem nodup_sortedSet (l : List K) : (sortedSet l).Nodup := by
  refine ExtTreeMap.distinct_keys.imp ?_
  rintro a b hne rfl
  exact hne ReflOrd.compare_self

/-! ## Sorting by a lawful comparison -/

theorem insertionSort_congr {α : Type*} {cmp : α → α → Ordering} [TransCmp cmp] [LawfulEqCmp cmp]
    {l l' : List α} (h : l.Perm l') : l.insertionSort (fun x y => (cmp x y).isLE = true) =
      l'.insertionSort (fun x y => (cmp x y).isLE = true) := by
  have htotal : Std.Total fun x y => (cmp x y).isLE = true := ⟨fun x y => by
    have hswap : cmp y x = (cmp x y).swap := OrientedCmp.eq_swap
    rw [hswap]
    cases cmp x y <;> simp⟩
  have htrans : IsTrans α fun x y => (cmp x y).isLE = true :=
    ⟨fun _ _ _ h h' => TransCmp.isLE_trans h h'⟩
  refine List.Perm.eq_of_pairwise (fun x y _ _ hxy hyx => ?_) (List.pairwise_insertionSort _ l)
    (List.pairwise_insertionSort _ l') ?_
  · exact LawfulEqCmp.eq_of_compare (OrientedCmp.isLE_antisymm hxy hyx)
  · exact (List.perm_insertionSort _ l).trans (h.trans (List.perm_insertionSort _ l').symm)

end Table
