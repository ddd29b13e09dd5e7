import Mathlib

/-!
# Insertion into an ordered list

A list ordered by a key, each key once. A new element goes where its key belongs and an
element with a key already held is refused, which is what a binary search for the place
comes to.
-/

namespace OrderedInsert

variable {α β : Type*} [LinearOrder β] (key : α → β)

def Ordered (l : List α) : Prop := l.Pairwise fun x y => key x < key y

/-- The list with the element in its place, or the element that is there already. -/
def insertNew (x : α) : List α → Except α (List α)
  | [] => .ok [x]
  | held :: rest =>
    if key held < key x then (insertNew x rest).map (held :: ·)
    else if key held = key x then .error held
    else .ok (x :: held :: rest)

variable {key}

theorem perm_of_insertNew {x : α} {l l' : List α} (h : insertNew key x l = .ok l') :
    l'.Perm (x :: l) := by
  induction l generalizing l' with
  | nil => rw [← Except.ok.inj h]
  | cons held rest ih =>
    rw [insertNew] at h
    split_ifs at h with hlt heq
    · cases hrest : insertNew key x rest with
      | error e =>
        rw [hrest] at h
        cases h
      | ok rest' =>
        rw [hrest] at h
        rw [← Except.ok.inj h]
        exact ((ih hrest).cons held).trans (.swap x held rest)
    · rw [← Except.ok.inj h]

theorem ordered_of_insertNew {x : α} {l l' : List α} (hl : Ordered key l)
    (h : insertNew key x l = .ok l') :
    Ordered key l' := by
  induction l generalizing l' with
  | nil =>
    rw [← Except.ok.inj h]
    exact List.pairwise_singleton _ x
  | cons held rest ih =>
    obtain ⟨hheld, hrest⟩ := List.pairwise_cons.mp hl
    rw [insertNew] at h
    split_ifs at h with hlt heq
    · cases hins : insertNew key x rest with
      | error e =>
        rw [hins] at h
        cases h
      | ok rest' =>
        rw [hins] at h
        rw [← Except.ok.inj h]
        refine List.pairwise_cons.mpr ⟨fun y hy => ?_, ih hrest hins⟩
        rcases List.mem_cons.mp ((perm_of_insertNew hins).mem_iff.mp hy) with rfl | hy
        · exact hlt
        · exact hheld y hy
    · rw [← Except.ok.inj h]
      have hxheld : key x < key held := lt_of_le_of_ne (not_lt.mp hlt) (Ne.symm heq)
      refine List.pairwise_cons.mpr ⟨fun y hy => ?_, hl⟩
      rcases List.mem_cons.mp hy with rfl | hy
      · exact hxheld
      · exact hxheld.trans (hheld y hy)

end OrderedInsert
