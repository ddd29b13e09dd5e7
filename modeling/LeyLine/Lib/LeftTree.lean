import Mathlib.Data.Nat.Log
import Mathlib.Data.List.Basic
import Mathlib.Tactic.Ring

/-!
# Left-complete trees

The binary tree over a row of leaves whose left subtree is as large a power of
two of leaves as leaves something for the right. `node` is the value such a tree
has when inner nodes are merged; it reads only the leaves of its own range.

The siblings met on the way from a leaf to the root are its `path`: climbing it with any
value gives the node of the row with that value at the leaf (`climb_path`).

The aligned subtrees of a power of two of leaves can be kept in levels, each the
pairwise merges of the one below (`tower`). A level entry is the node of its range
(`tower_get`).
-/

namespace LeftTree

variable {α : Type}

/-! ## The split -/

/-- The largest power of two strictly below `n`. -/
def leftSize (n : Nat) : Nat := 2 ^ Nat.log 2 (n - 1)

theorem leftSize_pos (n : Nat) : 0 < leftSize n := Nat.two_pow_pos _

variable {n : Nat}

theorem leftSize_lt (h : 2 ≤ n) : leftSize n < n := by
  have := Nat.pow_log_le_self 2 (x := n - 1) (by omega)
  unfold leftSize
  omega

theorem leftSize_two_pow (k : Nat) : leftSize (2 ^ (k + 1)) = 2 ^ k := by
  have hpos : 0 < 2 ^ k := Nat.two_pow_pos k
  have hlog : Nat.log 2 (2 ^ (k + 1) - 1) = k :=
    Nat.log_eq_of_pow_le_of_lt_pow (by omega) (by omega)
  rw [leftSize, hlog]

/-! ## The value of a range -/

/-- The value of the tree over the `count` leaves from `start` on. -/
def node (merge : α → α → α) (leaf : Nat → α) (start count : Nat) : α :=
  if _h : 2 ≤ count then
    merge (node merge leaf start (leftSize count))
      (node merge leaf (start + leftSize count) (count - leftSize count))
  else leaf start
termination_by count
decreasing_by
  · exact leftSize_lt ‹_›
  · have := leftSize_pos count
    omega

variable {merge : α → α → α} {leaf leaf' : Nat → α}

theorem node_one (start : Nat) : node merge leaf start 1 = leaf start := by
  rw [node, dif_neg (by omega)]

variable {count : Nat}

theorem node_split (start : Nat) (h : 2 ≤ count) : node merge leaf start count =
      merge (node merge leaf start (leftSize count))
        (node merge leaf (start + leftSize count) (count - leftSize count)) := by
  rw [node, dif_pos h]

theorem node_two_pow (start k : Nat) : node merge leaf start (2 ^ (k + 1)) =
      merge (node merge leaf start (2 ^ k)) (node merge leaf (start + 2 ^ k) (2 ^ k)) := by
  have hpos : 0 < 2 ^ k := Nat.two_pow_pos k
  rw [node_split start (by omega), leftSize_two_pow, show 2 ^ (k + 1) - 2 ^ k = 2 ^ k by omega]

theorem node_pairs (start k : Nat) :
    node merge (fun i => merge (leaf (2 * i)) (leaf (2 * i + 1))) start (2 ^ k) =
      node merge leaf (2 * start) (2 ^ (k + 1)) := by
  induction k generalizing start with
  | zero => rw [pow_zero, node_one, node_two_pow, pow_zero, node_one, node_one]
  | succ k ih =>
    have hhalf : 2 * (start + 2 ^ k) = 2 * start + 2 ^ (k + 1) := by omega
    rw [node_two_pow, ih, ih, node_two_pow (2 * start) (k + 1), hhalf]

variable {start : Nat}

theorem node_congr (hpos : 0 < count) (h : ∀ j, start ≤ j → j < start + count → leaf j = leaf' j) :
    node merge leaf start count = node merge leaf' start count := by
  induction count using Nat.strong_induction_on generalizing start with
  | _ count ih =>
    by_cases htwo : 2 ≤ count
    · have hlt := leftSize_lt htwo
      have hleft := leftSize_pos count
      rw [node_split start htwo, node_split start htwo,
        ih _ hlt hleft fun j hj hj' => h j hj (by omega),
        ih _ (by omega) (by omega) fun j hj hj' => h j (by omega) (by omega)]
    · obtain rfl : count = 1 := by omega
      rw [node_one, node_one, h start le_rfl (by omega)]

/-! ## The path to a leaf -/

/-- A sibling on the path to a leaf, with whether it is the left one. -/
abbrev Sibling (α : Type) := α × Bool

def join {β : Type} (merge : α → α → β) (step : Sibling α) (value : α) : β :=
  if step.2 then merge step.1 value else merge value step.1

/-- The siblings on the path to the `i`-th leaf of a range, from the top down. -/
def path (merge : α → α → α) (leaf : Nat → α) (start count i : Nat) : List (Sibling α) :=
  if _h : 2 ≤ count then
    if i < leftSize count then
      (node merge leaf (start + leftSize count) (count - leftSize count), false) ::
        path merge leaf start (leftSize count) i
    else
      (node merge leaf start (leftSize count), true) ::
        path merge leaf (start + leftSize count) (count - leftSize count) (i - leftSize count)
  else []
termination_by count
decreasing_by
  · exact leftSize_lt ‹_›
  · have := leftSize_pos count
    omega

theorem path_one (start i : Nat) : path merge leaf start 1 i = [] := by
  rw [path, dif_neg (by omega)]

variable {i : Nat}

theorem path_left (h : 2 ≤ count) (hi : i < leftSize count) : path merge leaf start count i =
      (node merge leaf (start + leftSize count) (count - leftSize count), false) ::
        path merge leaf start (leftSize count) i := by
  rw [path, dif_pos h, if_pos hi]

theorem path_right (h : 2 ≤ count) (hi : ¬ i < leftSize count) : path merge leaf start count i =
      (node merge leaf start (leftSize count), true) ::
        path merge leaf (start + leftSize count) (count - leftSize count) (i - leftSize count) := by
  rw [path, dif_pos h, if_neg hi]

def climb (merge : α → α → α) (steps : List (Sibling α)) (value : α) : α :=
  steps.foldr (join merge) value

/-- The top of a path over two subtrees whose paths climb to them: whatever the last merge is,
it is applied to the two. -/
theorem join_path (htwo : 2 ≤ count) (hi : i < count) (h : ∀ j, j ≠ start + i → leaf' j = leaf j)
    (hsub : ∀ start' count' i', count' < count → i' < count' → start' + i' = start + i →
      climb merge (path merge leaf start' count' i')
      (leaf' (start + i)) = node merge leaf' start' count') :
    ∃ top rest, path merge leaf start count i = top :: rest ∧ ∀ {β : Type} (f : α → α → β),
      join f top (climb merge rest (leaf' (start + i))) =
        f (node merge leaf' start (leftSize count))
        (node merge leaf' (start + leftSize count) (count - leftSize count)) := by
  have hlt := leftSize_lt htwo
  have hleft := leftSize_pos count
  by_cases hin : i < leftSize count
  · have hsibling : node merge leaf (start + leftSize count) (count - leftSize count) =
        node merge leaf' (start + leftSize count) (count - leftSize count) :=
      node_congr (by omega) fun j hj _ => (h j (by omega)).symm
    refine ⟨_, _, path_left htwo hin, fun f => ?_⟩
    rw [hsub start (leftSize count) i hlt hin rfl, hsibling]
    rfl
  · have hsibling : node merge leaf start (leftSize count) =
        node merge leaf' start (leftSize count) :=
      node_congr (by omega) fun j _ hj => (h j (by omega)).symm
    refine ⟨_, _, path_right htwo hin, fun f => ?_⟩
    rw [hsub (start + leftSize count) (count - leftSize count) (i - leftSize count) (by omega)
      (by omega) (by omega), hsibling]
    rfl

/-- **The path to a leaf climbs to the tree with that leaf replaced.** -/
theorem climb_path (hi : i < count) (h : ∀ j, j ≠ start + i → leaf' j = leaf j) :
    climb merge (path merge leaf start count i)
    (leaf' (start + i)) = node merge leaf' start count := by
  induction count using Nat.strong_induction_on generalizing start i with
  | _ count ih =>
    by_cases htwo : 2 ≤ count
    · obtain ⟨top, rest, hpath, htop⟩ := join_path htwo hi h fun start' count' i' hlt hi' heq => by
        rw [← heq]
        exact ih count' hlt hi' (by rwa [heq])
      rw [hpath, node_split start htwo]
      exact htop merge
    · obtain rfl : count = 1 := by omega
      rw [path_one, node_one, Nat.lt_one_iff.mp hi]
      rfl

theorem join_climb_path (htwo : 2 ≤ count) (hi : i < count) (h : ∀ j, j ≠ i → leaf' j = leaf j) :
    ∃ top rest, path merge leaf 0 count i = top :: rest ∧ ∀ {β : Type} (f : α → α → β),
      join f top (climb merge rest (leaf' i)) =
        f (node merge leaf' 0 (leftSize count))
        (node merge leaf' (leftSize count) (count - leftSize count)) := by
  have hsub : ∀ start' count' i', count' < count → i' < count' → start' + i' = 0 + i →
      climb merge (path merge leaf start' count' i') (leaf' (0 + i)) =
      node merge leaf' start' count' := by
    intro start' count' i' _ hi' heq
    rw [← heq]
    exact climb_path hi' (by rwa [heq, Nat.zero_add])
  have htop := join_path htwo hi (by rwa [Nat.zero_add]) hsub
  simpa only [Nat.zero_add] using htop

/-- **Whatever path climbs to a tree starts at a leaf of it**, where a merge determines its
inputs and no leaf is a merge: neither the length of the path nor its sides are assumed. -/
theorem eq_leaf_of_climb {steps : List (Sibling α)} {value : α}
    (hinj : ∀ {a b c d : α}, merge a b = merge c d → a = c ∧ b = d)
    (hleaf : ∀ j a b, leaf j ≠ merge a b) (hvalue : ∀ a b, value ≠ merge a b) (hpos : 0 < count)
    (h : climb merge steps value = node merge leaf start count) :
    ∃ j, start ≤ j ∧ j < start + count ∧ value = leaf j := by
  induction steps generalizing start count with
  | nil =>
    by_cases htwo : 2 ≤ count
    · rw [node_split start htwo] at h
      exact absurd h (hvalue _ _)
    · obtain rfl : count = 1 := by omega
      rw [node_one] at h
      exact ⟨start, le_rfl, by omega, h⟩
  | cons step steps ih =>
    have hstep : climb merge (step :: steps) value = join merge step (climb merge steps value) :=
      rfl
    rw [hstep, join] at h
    by_cases htwo : 2 ≤ count
    · have hlt := leftSize_lt htwo
      have hleft := leftSize_pos count
      rw [node_split start htwo] at h
      split at h
      · -- the sibling is the left subtree, so the path goes on in the right one
        obtain ⟨j, hj, hj', heq⟩ := ih (by omega) (hinj h).2
        exact ⟨j, by omega, by omega, heq⟩
      · obtain ⟨j, hj, hj', heq⟩ := ih hleft (hinj h).1
        exact ⟨j, hj, by omega, heq⟩
    · obtain rfl : count = 1 := by omega
      rw [node_one] at h
      split at h
      · exact absurd h.symm (hleaf _ _ _)
      · exact absurd h.symm (hleaf _ _ _)

/-! ## Levels -/

/-- The merge of the `i`-th pair of a level. -/
def mergeAt (merge : α → α → α) (prev : List α) (i : Nat) : Option α := do
  pure (merge (← prev[2 * i]?) (← prev[2 * i + 1]?))

def pairs (merge : α → α → α) (prev : List α) : List α :=
  (List.range (prev.length / 2)).filterMap (mergeAt merge prev)

variable {prev : List α}

theorem mergeAt_of_lt (h : 2 * i + 1 < prev.length) :
    mergeAt merge prev i = some (merge (prev.get ⟨2 * i, by omega⟩) (prev.get ⟨2 * i + 1, h⟩)) := by
  have h₀ : 2 * i < prev.length := by omega
  simp [mergeAt, h, h₀]

theorem mergeAt_of_le (h : prev.length / 2 ≤ i) : mergeAt merge prev i = none := by
  simp [mergeAt, List.getElem?_eq_none (show prev.length ≤ 2 * i + 1 by omega)]

theorem filterMap_range' {f : Nat → Option α}
    (h : ∀ i, start ≤ i → i < start + n → f i ≠ none) (i : Nat) :
    ((List.range' start n).filterMap f)[i]? = if i < n then f (start + i) else none := by
  induction n generalizing start i with
  | zero => simp
  | succ n ih =>
    obtain ⟨a, ha⟩ := Option.ne_none_iff_exists'.mp (h start le_rfl (by omega))
    rw [List.range'_succ, List.filterMap_cons_some ha]
    cases i with
    | zero => simp [ha]
    | succ i =>
      rw [List.getElem?_cons_succ, ih fun j hj hj' => h j (by omega) (by omega)]
      simp [show start + 1 + i = start + (i + 1) by omega]

theorem pairs_get (prev : List α) (i : Nat) : (pairs merge prev)[i]? = mergeAt merge prev i := by
  have hsome : ∀ j, 0 ≤ j → j < 0 + prev.length / 2 → mergeAt merge prev j ≠ none := by
    intro j _ hj
    rw [mergeAt_of_lt (by omega)]
    simp
  rw [pairs, List.range_eq_range', filterMap_range' hsome, Nat.zero_add]
  split
  · rfl
  · rw [mergeAt_of_le (by omega)]

theorem pairs_length (prev : List α) : (pairs merge prev).length = prev.length / 2 := by
  refine le_antisymm ?_ ?_
  · exact (List.length_filterMap_le _ _).trans (by simp)
  · by_contra hlt
    have hget : (pairs merge prev)[(pairs merge prev).length]? = _ := pairs_get prev _
    rw [List.getElem?_eq_none le_rfl, mergeAt_of_lt (by omega)] at hget
    simp at hget

def tower (merge : α → α → α) (prev : List α) : List (List α) :=
  if _h : prev.length / 2 = 0 then [] else pairs merge prev :: tower merge (pairs merge prev)
termination_by prev.length
decreasing_by
  rw [pairs_length]
  omega

theorem tower_nil (h : prev.length / 2 = 0) : tower merge prev = [] := by
  rw [tower, dif_pos h]

theorem tower_cons (h : prev.length / 2 ≠ 0) :
    tower merge prev = pairs merge prev :: tower merge (pairs merge prev) := by
  rw [tower, dif_neg h]

theorem tower_get {leaf : Nat → α} {row : List α}
    (hrow : ∀ i, row[i]? = if i < n then some (leaf i) else none) (k i : Nat) :
    ((row :: tower merge row)[k]?.bind (·[i]?)) =
      if (i + 1) * 2 ^ k ≤ n then some (node merge leaf (i * 2 ^ k) (2 ^ k)) else none := by
  have hlen : row.length = n := by
    refine le_antisymm ?_ ?_
    · exact List.getElem?_eq_none_iff.mp (by rw [hrow, if_neg (lt_irrefl n)])
    · by_contra hlt
      have := hrow row.length
      rw [List.getElem?_eq_none le_rfl, if_pos (by omega)] at this
      simp at this
  induction k generalizing leaf row n i with
  | zero =>
    rw [List.getElem?_cons_zero, Option.bind_some, hrow]
    rw [pow_zero, Nat.mul_one, Nat.mul_one, node_one]
    rfl
  | succ k ih =>
    rw [List.getElem?_cons_succ]
    by_cases hzero : row.length / 2 = 0
    · have hbig : n < (i + 1) * 2 ^ (k + 1) := by
        have : 0 < 2 ^ k := Nat.two_pow_pos k
        calc n < 2 := by omega
          _ ≤ 1 * 2 ^ (k + 1) := by omega
          _ ≤ (i + 1) * 2 ^ (k + 1) := Nat.mul_le_mul_right _ (by omega)
      rw [tower_nil hzero, if_neg (by omega)]
      rfl
    · rw [tower_cons hzero]
      have hpair : ∀ j, (pairs merge row)[j]? =
          if j < n / 2 then some (merge (leaf (2 * j)) (leaf (2 * j + 1))) else none := by
        intro j
        rw [pairs_get]
        by_cases hj : j < n / 2
        · have h₀ := hrow (2 * j)
          have h₁ := hrow (2 * j + 1)
          rw [if_pos (by omega)] at h₀ h₁
          simp [mergeAt, h₀, h₁, hj]
        · rw [mergeAt_of_le (by omega), if_neg hj]
      rw [ih hpair i (by rw [pairs_length, hlen]), node_pairs]
      have hiff : (i + 1) * 2 ^ k ≤ n / 2 ↔ (i + 1) * 2 ^ (k + 1) ≤ n := by
        rw [Nat.le_div_iff_mul_le (by omega), pow_succ, Nat.mul_assoc]
      simp only [hiff, show 2 * (i * 2 ^ k) = i * 2 ^ (k + 1) by ring]

end LeftTree
