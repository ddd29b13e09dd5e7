import Mathlib

/-!
# Climbing to the top

A finite set of nodes, each with at most one node above it, and a rank that falls on the
way up: every climb ends, after no more turns than there are nodes.
-/

namespace Climb

variable {α : Type*} {up : α → Option α}

/-- The nodes from `x` to the top, `x` first. -/
inductive Path (up : α → Option α) : α → List α → Prop
  | top {x : α} : up x = none → Path up x [x]
  | step {x y : α} {l : List α} : up x = some y → Path up y l → Path up x (x :: l)

/-- Within a finite set closed upwards, along a falling rank, every node has a path to the
top no longer than the set. -/
theorem exists_path [DecidableEq α] {nodes : Finset α} (rank : α → Nat)
    (hup : ∀ x ∈ nodes, ∀ y, up x = some y → y ∈ nodes ∧ rank y < rank x) :
    ∀ x ∈ nodes, ∃ l, Path up x l ∧ l.length ≤ nodes.card := by
  -- the path lies in the set and its ranks fall, so it has no node twice
  have hpath : ∀ n x, rank x = n → x ∈ nodes →
      ∃ l, Path up x l ∧ l.Nodup ∧ ∀ y ∈ l, y ∈ nodes ∧ rank y ≤ rank x := by
    intro n
    induction n using Nat.strong_induction_on with
    | _ n ih =>
      intro x hn hx
      cases hy : up x with
      | none =>
        refine ⟨[x], .top hy, List.nodup_singleton x, fun y hyx => ?_⟩
        rw [List.mem_singleton.mp hyx]
        exact ⟨hx, le_rfl⟩
      | some y =>
        obtain ⟨hmem, hlt⟩ := hup x hx y hy
        obtain ⟨l, hl, hnodup, hall⟩ := ih (rank y) (hn ▸ hlt) y rfl hmem
        refine ⟨x :: l, .step hy hl, List.nodup_cons.mpr ⟨fun hxl => ?_, hnodup⟩, ?_⟩
        · have := (hall x hxl).2
          omega
        · intro z hz
          rcases List.mem_cons.mp hz with rfl | hz
          · exact ⟨hx, le_rfl⟩
          · exact ⟨(hall z hz).1, (hall z hz).2.trans hlt.le⟩
  intro x hx
  obtain ⟨l, hl, hnodup, hall⟩ := hpath (rank x) x rfl hx
  refine ⟨l, hl, ?_⟩
  rw [← List.toFinset_card_of_nodup hnodup]
  exact Finset.card_le_card fun y hy => (hall y (List.mem_toFinset.mp hy)).1

end Climb
