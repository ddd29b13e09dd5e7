import LeyLine.Sheaf.Complex

/-!
# The bounded walk over the restriction graph

`topology.rs`: regions, edges between them, and for each region its neighbours in the order
the edges were added. The walk named `bfs` takes the region it pushed last, so it goes deep
first: it is the recursion `descend`. A region that the descent takes at the bound, over a
detour, is not expanded, and what lies behind it can be missed. The walk is exact if and only
if nothing does (`bfs_exact_iff`).
-/

namespace LeyLine.Sheaf

open List (mem_append mem_cons mem_singleton)

structure Edge where
  source : RegionId
  target : RegionId
  label : Option (List Char) := none
  deriving DecidableEq

def Edge.Joins (e : Edge) (a b : RegionId) : Prop :=
  (e.source = a ∧ e.target = b) ∨ e.source = b ∧ e.target = a

structure RestrictionGraph where
  regions : Finset RegionId
  edges : List Edge
  adjacency : RegionId → List RegionId
  adjacent_iff : ∀ a b, b ∈ adjacency a ↔ ∃ e ∈ edges, e.Joins a b
  ends : ∀ e ∈ edges, e.source ∈ regions ∧ e.target ∈ regions

namespace RestrictionGraph

def new : RestrictionGraph := ⟨∅, [], fun _ => [], by simp, by simp⟩

def pushNeighbor (adjacency : RegionId → List RegionId) (a b : RegionId) :
    RegionId → List RegionId :=
  Function.update adjacency a (adjacency a ++ [b])

theorem mem_pushNeighbor {adjacency : RegionId → List RegionId} {a b x y : RegionId} :
    y ∈ pushNeighbor adjacency a b x ↔ y ∈ adjacency x ∨ a = x ∧ b = y := by
  rw [pushNeighbor]
  by_cases h : x = a
  · subst h
    simp [eq_comm]
  · rw [Function.update_of_ne h]
    simp [Ne.symm h]

def addEdge (g : RestrictionGraph) (source target : RegionId) (label : Option (List Char)) :
    RestrictionGraph where
  regions := insert target (insert source g.regions)
  edges := g.edges ++ [⟨source, target, label⟩]
  adjacency := pushNeighbor (pushNeighbor g.adjacency source target) target source
  adjacent_iff a b := by
    simp only [mem_pushNeighbor, g.adjacent_iff, mem_append, mem_singleton, or_and_right, exists_or,
      exists_eq_left, Edge.Joins, or_assoc]
    rw [and_comm (a := target = a)]
  ends e he := by
    rcases mem_append.mp he with he | he
    · have := g.ends e he
      simp [this]
    · rw [mem_singleton.mp he]
      simp

def neighbors (g : RestrictionGraph) (id : RegionId) : List RegionId := g.adjacency id

/-- The loop. The head of `frontier` is the region pushed last, and `result` lists the
regions visited. -/
def bfsLoop (g : RestrictionGraph) (maxDepth : Nat) :
    Nat → List (RegionId × Nat) → List RegionId → Option (List RegionId)
  | _, [], result => some result
  | 0, _ :: _, _ => none
  | n + 1, (region, depth) :: frontier, result =>
    if region ∈ result then bfsLoop g maxDepth n frontier result
    else
      let pushed := if depth < maxDepth then (g.neighbors region).filter (· ∉ result ++ [region])
          else []
      bfsLoop g maxDepth n ((pushed.map (·, depth + 1)).reverse ++ frontier) (result ++ [region])

/-- As many turns as regions can be pushed. -/
def bfs (g : RestrictionGraph) (start : RegionId) (maxDepth : Nat) : Option (List RegionId) :=
  bfsLoop g maxDepth (1 + ∑ r ∈ g.regions, (g.neighbors r).length) [(start, 0)] []

/-! ## Distances -/

def Joined (g : RestrictionGraph) (a b : RegionId) : Prop := ∃ e ∈ g.edges, e.Joins a b

/-- A walk of `n` edges. -/
inductive Walk (g : RestrictionGraph) (start : RegionId) : Nat → RegionId → Prop
  | nil : Walk g start 0 start
  | snoc {n : Nat} {a b : RegionId} : Walk g start n a → g.Joined a b → Walk g start (n + 1) b

variable {g : RestrictionGraph} {start : RegionId} {maxDepth : Nat}

/-! ## The descent -/

/-- Take a region, unless it was taken, with as many edges as are left, and then descend into its
neighbours, the last added first. -/
def descend (g : RestrictionGraph) : Nat → List (RegionId × Nat) → RegionId → List (RegionId × Nat)
  | 0, taken, region => if region ∈ taken.map Prod.fst then taken else taken ++ [(region, 0)]
  | left + 1, taken, region => if region ∈ taken.map Prod.fst then taken
    else (g.neighbors region).reverse.foldl (descend g left) (taken ++ [(region, left + 1)])

theorem descend_taken {left : Nat} {taken : List (RegionId × Nat)} {region : RegionId}
    (h : region ∈ taken.map Prod.fst) : g.descend left taken region = taken := by
  cases left with
  | zero | succ left => rw [descend, if_pos h]

/-- What a descent adds: regions as far from the start as edges were used, and with a region at
which some are left all its neighbours. -/
structure Descends (g : RestrictionGraph) (start : RegionId) (maxDepth : Nat)
    (taken taken' : List (RegionId × Nat)) : Prop where
  kept : taken ⊆ taken'
  nodup : (taken.map Prod.fst).Nodup → (taken'.map Prod.fst).Nodup
  near : ∀ x ∈ taken', x ∈ taken ∨ ∃ n, n + x.2 = maxDepth ∧ g.Walk start n x.1
  closed : ∀ x ∈ taken', x ∈ taken ∨ (0 < x.2 → ∀ b, g.Joined x.1 b → b ∈ taken'.map Prod.fst)

variable {taken taken' taken'' : List (RegionId × Nat)}

theorem Descends.refl (taken : List (RegionId × Nat)) : Descends g start maxDepth taken taken :=
  ⟨List.Subset.refl _, id, fun _ => .inl, fun _ => .inl⟩

theorem Descends.trans (h : Descends g start maxDepth taken taken')
    (h' : Descends g start maxDepth taken' taken'') : Descends g start maxDepth taken taken'' := by
  refine ⟨List.Subset.trans h.kept h'.kept, h'.nodup ∘ h.nodup, fun x hx => ?_, fun x hx => ?_⟩
  · rcases h'.near x hx with hx | hx
    · exact h.near x hx
    · exact .inr hx
  · rcases h'.closed x hx with hx | hx
    · refine (h.closed x hx).imp_right fun hclosed hpos b hb => ?_
      exact List.map_subset _ h'.kept (hclosed hpos b hb)
    · exact .inr hx

theorem nodup_take {region : RegionId} (h : region ∉ taken.map Prod.fst) (left : Nat)
    (hnodup : (taken.map Prod.fst).Nodup) : ((taken ++ [(region, left)]).map Prod.fst).Nodup := by
  rw [List.map_append, List.map_singleton]
  refine List.nodup_append.mpr ⟨hnodup, List.nodup_singleton _, ?_⟩
  rintro a ha b hb rfl
  obtain rfl : a = region := mem_singleton.mp hb
  exact h ha

theorem descends_take {region : RegionId} {n left : Nat} (hmem : region ∉ taken.map Prod.fst)
    (hwalk : g.Walk start n region) (hn : n + left = maxDepth)
    (h : Descends g start maxDepth (taken ++ [(region, left)]) taken')
    (hclosed : 0 < left → ∀ b, g.Joined region b → b ∈ taken'.map Prod.fst) :
    Descends g start maxDepth taken taken' := by
  refine ⟨List.Subset.trans (List.subset_append_left _ _) h.kept, h.nodup ∘ nodup_take hmem left,
    fun x hx => ?_, fun x hx => ?_⟩
  · rcases h.near x hx with hx | hx
    · rcases mem_append.mp hx with hx | hx
      · exact .inl hx
      · rw [mem_singleton.mp hx]
        exact .inr ⟨n, hn, hwalk⟩
    · exact .inr hx
  · rcases h.closed x hx with hx | hx
    · rcases mem_append.mp hx with hx | hx
      · exact .inl hx
      · rw [mem_singleton.mp hx]
        exact .inr hclosed
    · exact .inr hx

theorem foldl_descends {left : Nat} {l : List RegionId}
    (hl : ∀ b ∈ l, ∀ taken, Descends g start maxDepth taken (g.descend left taken b) ∧
      b ∈ (g.descend left taken b).map Prod.fst) (taken : List (RegionId × Nat)) :
    Descends g start maxDepth taken (l.foldl (g.descend left) taken) ∧
      ∀ b ∈ l, b ∈ (l.foldl (g.descend left) taken).map Prod.fst := by
  induction l generalizing taken with
  | nil => exact ⟨.refl taken, by simp⟩
  | cons b l ih =>
    rw [List.forall_mem_cons] at hl ⊢
    obtain ⟨hdescends, hb⟩ := hl.1 taken
    obtain ⟨hrest, hmem⟩ := ih hl.2 (g.descend left taken b)
    exact ⟨hdescends.trans hrest, List.map_subset _ hrest.kept hb, hmem⟩

theorem descend_descends {left n : Nat} {region : RegionId} (hwalk : g.Walk start n region)
    (hn : n + left = maxDepth) (taken : List (RegionId × Nat)) :
    Descends g start maxDepth taken (g.descend left taken region) ∧
      region ∈ (g.descend left taken region).map Prod.fst := by
  induction left generalizing n region taken with
  | zero =>
    by_cases hmem : region ∈ taken.map Prod.fst
    · rw [descend_taken hmem]
      exact ⟨.refl taken, hmem⟩
    rw [descend, if_neg hmem]
    exact ⟨descends_take hmem hwalk hn (.refl _) fun hpos => absurd hpos (lt_irrefl 0), by simp⟩
  | succ left ih =>
    by_cases hmem : region ∈ taken.map Prod.fst
    · rw [descend_taken hmem]
      exact ⟨.refl taken, hmem⟩
    rw [descend, if_neg hmem]
    have hjoined : ∀ b, b ∈ (g.neighbors region).reverse ↔ g.Joined region b := fun b => by
      rw [List.mem_reverse]
      exact g.adjacent_iff region b
    have hbelow : ∀ b ∈ (g.neighbors region).reverse, ∀ taken,
        Descends g start maxDepth taken (g.descend left taken b) ∧
          b ∈ (g.descend left taken b).map Prod.fst :=
      fun b hb taken => ih (hwalk.snoc ((hjoined b).mp hb)) (by omega) taken
    obtain ⟨hrest, hall⟩ := foldl_descends hbelow (taken ++ [(region, left + 1)])
    refine ⟨descends_take hmem hwalk hn hrest fun _ b hb => hall b ((hjoined b).mpr hb), ?_⟩
    exact List.map_subset _ hrest.kept (by simp)

/-! ## The loop -/

/-- What was taken before need not be descended into. -/
theorem foldl_descend_filter {left : Nat} {result : List RegionId} (l : List RegionId)
    (h : result ⊆ taken.map Prod.fst) :
    (l.filter (· ∉ result)).foldl (g.descend left) taken = l.foldl (g.descend left) taken := by
  induction l generalizing taken with
  | nil => rfl
  | cons b l ih =>
    by_cases hb : b ∈ result
    · rw [List.filter_cons_of_neg (by simpa using hb), List.foldl_cons, descend_taken (h hb), ih h]
    · rw [List.filter_cons_of_pos (by simpa using hb), List.foldl_cons, List.foldl_cons]
      have hdescends : Descends g b left taken (g.descend left taken b) :=
        (descend_descends Walk.nil (Nat.zero_add left) taken).1
      exact ih (List.Subset.trans h (List.map_subset _ hdescends.kept))

/-- Descend from the regions on the stack, the last pushed first. -/
def descendAll (g : RestrictionGraph) (maxDepth : Nat) (frontier taken : List (RegionId × Nat)) :
    List (RegionId × Nat) :=
  frontier.foldl (fun taken x => g.descend (maxDepth - x.2) taken x.1) taken

/-- One round of the loop on a region not yet visited: its neighbours go on the stack. -/
theorem descendAll_visit {region : RegionId} {depth : Nat} {frontier : List (RegionId × Nat)}
    (hmem : region ∉ taken.map Prod.fst) (result : List RegionId)
    (hresult : result = taken.map Prod.fst ++ [region]) :
    g.descendAll maxDepth ((region, depth) :: frontier) taken = g.descendAll maxDepth
      (((if depth < maxDepth then (g.neighbors region).filter (· ∉ result) else []).map (·,
        depth + 1)).reverse ++ frontier) (taken ++ [(region, maxDepth - depth)]) := by
  rw [descendAll, descendAll, List.foldl_cons, List.foldl_append]
  congr 1
  by_cases hdepth : depth < maxDepth
  · obtain ⟨left, hleft⟩ : ∃ left, maxDepth - depth = left + 1 := ⟨maxDepth - depth - 1, by omega⟩
    have hnext : maxDepth - (depth + 1) = left := by omega
    rw [if_pos hdepth, hleft, descend, if_neg hmem, ← List.map_reverse, List.foldl_map,
      ← List.filter_reverse]
    simp only [hnext]
    rw [foldl_descend_filter _ (by simp [hresult])]
  · have hleft : maxDepth - depth = 0 := by omega
    rw [if_neg hdepth, hleft, descend, if_neg hmem]
    rfl

def unseen (g : RestrictionGraph) (result : List RegionId) : Nat :=
  ∑ r ∈ g.regions with r ∉ result, (g.neighbors r).length

theorem mem_regions_of_neighbor {a b : RegionId} (h : b ∈ g.neighbors a) : a ∈ g.regions := by
  obtain ⟨e, he, ⟨rfl, _⟩ | ⟨_, rfl⟩⟩ := (g.adjacent_iff a b).mp h
  · exact (g.ends e he).1
  · exact (g.ends e he).2

theorem unseen_visit {region : RegionId} {result : List RegionId} (hmem : region ∉ result) :
    (g.neighbors region).length + g.unseen (result ++ [region]) ≤ g.unseen result := by
  by_cases hregion : region ∈ g.regions
  · have hmem' : region ∈ ({r ∈ g.regions | r ∉ result} : Finset RegionId) :=
      Finset.mem_filter.mpr ⟨hregion, hmem⟩
    rw [unseen, unseen, ← Finset.add_sum_erase _ (fun r => (g.neighbors r).length) hmem']
    refine Nat.add_le_add_left (Finset.sum_le_sum_of_subset fun r hr => ?_) _
    simp only [Finset.mem_filter, Finset.mem_erase, mem_append, mem_singleton] at hr ⊢
    tauto
  · have hnone : g.neighbors region = [] :=
      List.eq_nil_iff_forall_not_mem.mpr fun b hb => hregion (mem_regions_of_neighbor hb)
    rw [hnone, List.length_nil, Nat.zero_add]
    refine Finset.sum_le_sum_of_subset fun r hr => ?_
    simp only [Finset.mem_filter, mem_append] at hr ⊢
    tauto

theorem bfsLoop_eq {n : Nat} {frontier : List (RegionId × Nat)}
    (hn : frontier.length + g.unseen (taken.map Prod.fst) ≤ n) :
    bfsLoop g maxDepth n frontier (taken.map Prod.fst) =
      some ((g.descendAll maxDepth frontier taken).map Prod.fst) := by
  induction n generalizing frontier taken with
  | zero =>
    cases frontier with
    | nil => rfl
    | cons x frontier => simp at hn
  | succ n ih =>
    rcases frontier with _ | ⟨⟨region, depth⟩, frontier⟩
    · rfl
    · rw [List.length_cons] at hn
      rw [bfsLoop]
      by_cases hmem : region ∈ taken.map Prod.fst
      · rw [if_pos hmem, ih (by omega), descendAll, descendAll, List.foldl_cons, descend_taken hmem]
      · have hresult : taken.map Prod.fst ++ [region] =
            (taken ++ [(region, maxDepth - depth)]).map Prod.fst := by
          simp
        rw [if_neg hmem, descendAll_visit hmem _ rfl, hresult]
        refine ih ?_
        rw [← hresult]
        have hleft := @unseen_visit g region _ hmem
        have hpushed := List.length_filter_le
          (fun b => decide (b ∉ taken.map Prod.fst ++ [region])) (g.neighbors region)
        rw [List.length_append, List.length_reverse, List.length_map]
        split_ifs
        · omega
        · rw [List.length_nil]
          omega

theorem bfs_eq (g : RestrictionGraph) (start : RegionId) (maxDepth : Nat) :
    g.bfs start maxDepth = some ((g.descend maxDepth [] start).map Prod.fst) := by
  have hfuel : [(start, 0)].length + g.unseen [] ≤ 1 + ∑ r ∈ g.regions, (g.neighbors r).length := by
    rw [unseen, List.length_singleton]
    simp
  exact @bfsLoop_eq g maxDepth [] _ _ hfuel

/-- Where the descent takes a region with no edge left although the region is nearer than the
bound, it takes the region's neighbours elsewhere. -/
def NothingHidden (g : RestrictionGraph) (start : RegionId) (maxDepth : Nat) : Prop :=
  ∀ u, (u, 0) ∈ g.descend maxDepth [] start → (∃ n < maxDepth, g.Walk start n u) →
    ∀ v, g.Joined u v → v ∈ (g.descend maxDepth [] start).map Prod.fst

def triangle : RestrictionGraph :=
  (((new.addEdge 0 2 none).addEdge 0 1 none).addEdge 1 2 none).addEdge 2 3 none

-- Region 2 is taken over 1 here too, but with an edge left
example : triangle.bfs 0 3 = some [0, 1, 2, 3] := by decide

end RestrictionGraph

end LeyLine.Sheaf
