import Mathlib

/-!
# Association lists

Lists of keys with values, where every key stands once. The value of a key is the first
one found; with distinct keys it is the only one, so looking up is membership, and
removing a key takes one element away.
-/

namespace Assoc

variable {α β K V : Type*}

theorem find?_eq_some_iff_of_unique {l : List α} {p : α → Bool}
    (h : ∀ x ∈ l, ∀ y ∈ l, p x → p y → x = y) {x : α} : l.find? p = some x ↔ x ∈ l ∧ p x := by
  constructor
  · intro hx
    exact ⟨List.mem_of_find?_eq_some hx, List.find?_some hx⟩
  · rintro ⟨hx, hpx⟩
    obtain ⟨y, hy⟩ := Option.isSome_iff_exists.mp (List.find?_isSome.mpr ⟨x, hx, hpx⟩)
    rw [hy, h x hx y (List.mem_of_find?_eq_some hy) hpx (List.find?_some hy)]

theorem nodup_filterMap {l : List α} {f : α → Option β} {key : α → K}
    {key' : β → K} (hf : ∀ a b, f a = some b → key' b = key a) (h : (l.map key).Nodup) :
    ((l.filterMap f).map key').Nodup := by
  refine (List.pairwise_map.mpr (List.Pairwise.filterMap f ?_ (List.pairwise_map.mp h)))
  intro a a' hne b hb b' hb'
  rw [hf a b hb, hf a' b' hb']
  exact hne

section Keys

variable [DecidableEq K] {l : List (K × V)} {k : K} {v : V}

def get (l : List (K × V)) (k : K) : Option V := (l.find? fun x => x.1 = k).map (·.2)

theorem get_eq_some_iff (h : (l.map Prod.fst).Nodup) : get l k = some v ↔ (k, v) ∈ l := by
  have hunique : ∀ x ∈ l, ∀ y ∈ l, decide (x.1 = k) = true → decide (y.1 = k) = true → x = y := by
    intro x hx y hy hxk hyk
    exact List.inj_on_of_nodup_map h hx hy
      ((of_decide_eq_true hxk).trans (of_decide_eq_true hyk).symm)
  unfold get
  rw [Option.map_eq_some_iff]
  constructor
  · rintro ⟨⟨k', v'⟩, hfind, rfl⟩
    obtain ⟨hmem, hk⟩ := (find?_eq_some_iff_of_unique hunique).mp hfind
    obtain rfl : k' = k := of_decide_eq_true hk
    exact hmem
  · intro hmem
    exact ⟨(k, v), (find?_eq_some_iff_of_unique hunique).mpr ⟨hmem, decide_eq_true rfl⟩, rfl⟩

theorem get_eq_none_iff : get l k = none ↔ k ∉ l.map Prod.fst := by
  unfold get
  rw [Option.map_eq_none_iff, List.find?_eq_none, List.mem_map]
  constructor
  · rintro hall ⟨x, hx, rfl⟩
    exact hall x hx (decide_eq_true rfl)
  · intro hno x hx hk
    exact hno ⟨x, hx, of_decide_eq_true hk⟩

theorem erase_eq (h : (l.map Prod.fst).Nodup) (hmem : (k, v) ∈ l) :
    ∃ before after, l = before ++ (k, v) :: after ∧ (l.filter fun x => x.1 ≠ k) = before ++
    after := by
  obtain ⟨before, after, rfl⟩ := List.append_of_mem hmem
  refine ⟨before, after, rfl, ?_⟩
  rw [List.map_append, List.map_cons, List.nodup_append] at h
  obtain ⟨-, hafter, hapart⟩ := h
  have hb : before.filter (fun x => x.1 ≠ k) = before :=
    List.filter_eq_self.mpr fun x hx => decide_eq_true
      (hapart _ (List.mem_map_of_mem hx) _ List.mem_cons_self)
  have ha : after.filter (fun x => x.1 ≠ k) = after :=
    List.filter_eq_self.mpr fun x hx => decide_eq_true fun heq =>
      (List.nodup_cons.mp hafter).1 (List.mem_map.mpr ⟨x, hx, heq⟩)
  rw [List.filter_append, List.filter_cons_of_neg (by simp), hb, ha]

theorem erase_of_get_none (h : get l k = none) : (l.filter fun x => x.1 ≠ k) = l :=
  List.filter_eq_self.mpr fun x hx => decide_eq_true fun heq =>
    get_eq_none_iff.mp h (List.mem_map.mpr ⟨x, hx, heq⟩)

theorem get_cons (x : K × V) (l : List (K × V)) (k : K) :
    get (x :: l) k = if x.1 = k then some x.2 else get l k := by
  unfold get
  by_cases hk : x.1 = k
  · simp [hk]
  · simp [hk]

theorem get_perm {l' : List (K × V)} (h : (l.map Prod.fst).Nodup) (hperm : l.Perm l') (k : K) :
    get l k = get l' k := by
  have h' : (l'.map Prod.fst).Nodup := (hperm.map _).nodup_iff.mp h
  refine Option.ext fun v => ?_
  rw [get_eq_some_iff h, get_eq_some_iff h', hperm.mem_iff]

end Keys

/-! ## Lists with the same keys -/

section Related

variable {W : Type*} {R : K → V → W → Prop} {xs : List (K × V)} {ys : List (K × W)}

def Related (R : K → V → W → Prop) (xs : List (K × V)) (ys : List (K × W)) : Prop :=
  ∃ ys', ys.Perm ys' ∧ List.Forall₂ (fun x y => x.1 = y.1 ∧ R x.1 x.2 y.2) xs ys'

theorem forall₂_mem_left {P : α → β → Prop} {l : List α} {l' : List β} (h : List.Forall₂ P l l')
    {a : α} (ha : a ∈ l) : ∃ b ∈ l', P a b := by
  induction h with
  | nil => cases ha
  | @cons x y _ _ hxy _ ih =>
    rcases List.mem_cons.mp ha with rfl | ha
    · exact ⟨y, List.mem_cons_self, hxy⟩
    · obtain ⟨b, hb, hab⟩ := ih ha
      exact ⟨b, List.mem_cons_of_mem _ hb, hab⟩

theorem forall₂_mem_right {P : α → β → Prop} {l : List α} {l' : List β} (h : List.Forall₂ P l l')
    {b : β} (hb : b ∈ l') : ∃ a ∈ l, P a b :=
  forall₂_mem_left (List.Forall₂.flip h) hb

theorem forall₂_keys {zs : List (K × W)}
    (h : List.Forall₂ (fun x y => x.1 = y.1 ∧ R x.1 x.2 y.2) xs zs) :
    xs.map Prod.fst = zs.map Prod.fst := by
  induction h with
  | nil => rfl
  | cons hx _ ih => rw [List.map_cons, List.map_cons, hx.1, ih]

theorem Related.nodup (h : Related R xs ys) (hy : (ys.map Prod.fst).Nodup) :
    (xs.map Prod.fst).Nodup := by
  obtain ⟨zs, hperm, hrel⟩ := h
  rw [forall₂_keys hrel]
  exact (hperm.map _).nodup_iff.mp hy

theorem Related.mem (h : Related R xs ys) {x : K × V} (hx : x ∈ xs) :
    ∃ w, (x.1, w) ∈ ys ∧ R x.1 x.2 w := by
  obtain ⟨zs, hperm, hrel⟩ := h
  obtain ⟨y, hy, heq, hR⟩ := forall₂_mem_left hrel hx
  exact ⟨y.2, hperm.mem_iff.mpr (heq ▸ hy), hR⟩

variable [DecidableEq K]

theorem forall₂_get {zs : List (K × W)}
    (h : List.Forall₂ (fun x y => x.1 = y.1 ∧ R x.1 x.2 y.2) xs zs) (k : K) :
    Option.Rel (R k) (get xs k) (get zs k) := by
  induction h with
  | nil => exact .none
  | @cons x y _ _ hxy _ ih =>
    rw [get_cons, get_cons, ← hxy.1]
    split_ifs with hk
    · exact .some (hk ▸ hxy.2)
    · exact ih

theorem related_iff (hx : (xs.map Prod.fst).Nodup) (hy : (ys.map Prod.fst).Nodup) :
    Related R xs ys ↔ ∀ k, Option.Rel (R k) (get xs k) (get ys k) := by
  constructor
  · rintro ⟨zs, hperm, hrel⟩ k
    rw [get_perm hy hperm]
    exact forall₂_get hrel k
  · intro h
    induction xs generalizing ys with
    | nil =>
      have hempty : ys = [] := by
        refine List.eq_nil_iff_forall_not_mem.mpr fun y hyy => ?_
        have hnone : get ys y.1 = none := by
          have hrel := h y.1
          cases hget : get ys y.1 with
          | none => rfl
          | some w =>
            rw [hget] at hrel
            cases hrel
        exact get_eq_none_iff.mp hnone (List.mem_map_of_mem hyy)
      exact ⟨[], by rw [hempty], .nil⟩
    | cons x xs ih =>
      obtain ⟨k, v⟩ := x
      rw [List.map_cons, List.nodup_cons] at hx
      obtain ⟨w, hw, hR⟩ : ∃ w, get ys k = some w ∧ R k v w := by
        have hrel := h k
        rw [get_cons, if_pos rfl] at hrel
        cases hget : get ys k with
        | none =>
          rw [hget] at hrel
          cases hrel
        | some w =>
          rw [hget] at hrel
          cases hrel with
          | some hR => exact ⟨w, rfl, hR⟩
      obtain ⟨before, after, hys⟩ := List.append_of_mem ((get_eq_some_iff hy).mp hw)
      have hperm : ys.Perm ((k, w) :: (before ++ after)) := hys ▸ List.perm_middle
      have hy' := (hperm.map Prod.fst).nodup_iff.mp hy
      rw [List.map_cons, List.nodup_cons] at hy'
      obtain ⟨zs, hzs, hrel⟩ := ih hx.2 hy'.2 fun k' => by
        have hrel := h k'
        rw [get_cons, get_perm hy hperm, get_cons] at hrel
        by_cases hk : k = k'
        · subst hk
          rw [get_eq_none_iff.mpr hx.1, get_eq_none_iff.mpr hy'.1]
          exact .none
        · simpa only [if_neg hk] using hrel
      exact ⟨(k, w) :: zs, hperm.trans (hzs.cons _), .cons ⟨rfl, hR⟩ hrel⟩

end Related

end Assoc
