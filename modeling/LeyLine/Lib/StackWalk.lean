import Mathlib

/-!
# Walking a forest with a stack

A depth-first walk that keeps no record of what it has met: pop a node, note it,
push its successors. On a graph where every node has at most one predecessor and the
start has none among what it leads to, the walk meets each node once, so it ends
within as many steps as there are nodes and has then met exactly what the start leads
to (`walk_complete`).
-/

namespace StackWalk

variable {α : Type*} (next : α → List α)

/-- The walk, with fuel: the nodes met, in order, once the stack is empty. The head of
the list is the top of the stack. -/
def walk : Nat → List α → List α → Option (List α)
  | _, [], met => some met
  | 0, _ :: _, _ => none
  | n + 1, x :: stack, met => walk n ((next x).reverse ++ stack) (met ++ [x])

def Leads (root x : α) : Prop := Relation.ReflTransGen (fun a b => b ∈ next a) root x

/-- Seen from `root`, every node has one predecessor and `root` none. -/
structure Forest (root : α) : Prop where
  nodup : ∀ a, (next a).Nodup
  one : ∀ {a b x}, x ∈ next a → x ∈ next b → a = b
  top : ∀ a, Leads next root a → root ∉ next a

/-- What holds of the nodes met and the stack at every turn. -/
structure Good (root : α) (met stack : List α) : Prop where
  led : ∀ x ∈ met ++ stack, Leads next root x
  nodup : (met ++ stack).Nodup
  closed : ∀ a ∈ met, ∀ x ∈ next a, x ∈ met ++ stack
  above : ∀ x ∈ met ++ stack, x = root ∨ ∃ a ∈ met, x ∈ next a
  start : root ∈ met ++ stack

variable {next}

theorem good_start (root : α) : Good next root [] [root] where
  led := fun x hx => by rw [List.mem_singleton.mp hx]; exact .refl
  nodup := List.nodup_singleton root
  closed := fun _ ha => absurd ha List.not_mem_nil
  above := fun _ hx => .inl (List.mem_singleton.mp hx)
  start := List.mem_singleton.mpr rfl

theorem Good.step {root x : α} {met stack : List α} (hf : Forest next root)
    (h : Good next root met (x :: stack)) :
    Good next root (met ++ [x]) ((next x).reverse ++ stack) := by
  have hx : Leads next root x := h.led x (by simp)
  have hxmet : x ∉ met := fun hmem =>
    (List.nodup_append.mp h.nodup).2.2 x hmem x List.mem_cons_self rfl
  -- a successor of `x` is met here for the first time
  have hnew : ∀ y ∈ next x, y ∉ met ++ x :: stack := by
    intro y hy hmem
    rcases h.above y hmem with rfl | ⟨a, ha, hya⟩
    · exact hf.top x hx hy
    · exact hxmet (hf.one hya hy ▸ ha)
  have hperm : ((met ++ [x]) ++ ((next x).reverse ++ stack)).Perm (next x ++
      (met ++ x :: stack)) := by
    refine List.perm_append_comm.trans ?_
    rw [List.append_assoc]
    refine ((next x).reverse_perm).append ?_
    refine List.perm_append_comm.trans ?_
    rw [List.append_assoc]
    rfl
  have hmem : ∀ y, y ∈ (met ++ [x]) ++ ((next x).reverse ++ stack) ↔
      y ∈ next x ∨ y ∈ met ++ x :: stack := fun y => by
    rw [hperm.mem_iff, List.mem_append]
  refine ⟨fun y hy => ?_, ?_, fun a ha y hy => ?_, fun y hy => ?_, ?_⟩
  · rcases (hmem y).mp hy with hy | hy
    · exact hx.tail hy
    · exact h.led y hy
  · refine hperm.nodup_iff.mpr (List.nodup_append.mpr ⟨hf.nodup x, h.nodup, ?_⟩)
    intro y hy z hz heq
    exact hnew y hy (heq ▸ hz)
  · refine (hmem y).mpr ?_
    rcases List.mem_append.mp ha with ha | ha
    · exact .inr (h.closed a ha y hy)
    · rw [List.mem_singleton.mp ha] at hy
      exact .inl hy
  · rcases (hmem y).mp hy with hy | hy
    · exact .inr ⟨x, by simp, hy⟩
    · rcases h.above y hy with rfl | ⟨a, ha, hya⟩
      · exact .inl rfl
      · exact .inr ⟨a, List.mem_append_left _ ha, hya⟩
  · exact (hmem root).mpr (.inr h.start)

theorem Good.met_iff {root : α} {met : List α} (h : Good next root met []) {x : α} :
    x ∈ met ↔ Leads next root x := by
  constructor
  · intro hx
    exact h.led x (List.mem_append_left _ hx)
  · intro hx
    induction hx with
    | refl => simpa using h.start
    | tail _ hstep ih => simpa using h.closed _ ih _ hstep

/-- **The walk ends and has met exactly what the start leads to.** -/
theorem walk_complete [DecidableEq α] {root : α} (hf : Forest next root) {all : Finset α}
    (hall : ∀ x, Leads next root x → x ∈ all) {n : Nat} (hn : all.card ≤ n) :
    ∃ met, walk next n [root] [] = some met ∧ ∀ x, x ∈ met ↔ Leads next root x := by
  -- the fuel left covers what has not been met yet
  have hrun : ∀ n met stack, Good next root met stack → all.card ≤ met.length + n →
      ∃ met', walk next n stack met = some met' ∧ ∀ x, x ∈ met' ↔ Leads next root x := by
    intro n
    induction n with
    | zero =>
      intro met stack h hfuel
      cases stack with
      | nil => exact ⟨met, rfl, fun _ => h.met_iff⟩
      | cons x stack =>
        have hsub : (met ++ x :: stack).toFinset ⊆ all := fun y hy =>
          hall y (h.led y (List.mem_toFinset.mp hy))
        have hcard := Finset.card_le_card hsub
        rw [List.toFinset_card_of_nodup h.nodup, List.length_append, List.length_cons] at hcard
        omega
    | succ n ih =>
      intro met stack h hfuel
      cases stack with
      | nil => exact ⟨met, rfl, fun _ => h.met_iff⟩
      | cons x stack =>
        refine ih (met ++ [x]) ((next x).reverse ++ stack) (h.step hf) ?_
        rw [List.length_append, List.length_singleton]
        omega
  exact hrun n [] [root] (good_start root) (by simpa using hn)

end StackWalk
