import Mathlib

/-!
# Breadth-first search through gated edges

A breadth-first search that may cross an edge only where a test on the edge lets
it. The search keeps a set of nodes it will not look at again, and the two
searches here differ in one thing: the *patient* one adds a node when it crosses
an edge to it, the *eager* one as soon as it looks at it over any edge, crossed
or not.

The patient search finds exactly what crossed edges reach (`patient_complete`).
The eager one finds that only where it happens to look at each such node over an
open edge first; `eager_complete_iff` is the exact condition, stated over the
order in which the patient search finds the nodes.
-/

namespace GatedSearch

open List (map_append mem_append mem_filter mem_map)

/-- What a search walks over: the neighbours of a node in the order they are
looked at, the test on an edge, and the depths at which nodes are expanded. -/
structure Graph (N : Type*) where
  next : N → List N
  gate : N → N → Bool
  expands : Nat → Bool
  nodup : ∀ u, (next u).Nodup

/-- Nodes expanded, nodes waiting, each with its depth in the order they were
found, and the nodes that are not looked at again. -/
structure State (N : Type*) where
  done : List (N × Nat)
  queue : List (N × Nat)
  seen : List N

def State.found {N : Type*} (s : State N) : List (N × Nat) :=
  s.done ++ s.queue

def start {N : Type*} (roots : List N) : State N :=
  ⟨[], roots.map fun r => (r, 0), roots⟩

variable {N : Type*} [DecidableEq N] (G : Graph N)

/-- The neighbours of `u` that an expansion at depth `d` looks at. -/
def Graph.met (s : State N) (u : N) (d : Nat) : List N :=
  if G.expands d then (G.next u).filter fun v => v ∉ s.seen else []

def Graph.crossed (s : State N) (u : N) (d : Nat) : List N :=
  (G.met s u d).filter (G.gate u)

/-- Expand the node at the head of the queue. `marks u v` says whether `v`, met
from `u`, is not looked at again. -/
def step (marks : N → N → Bool) (s : State N) : State N :=
  match s.queue with
  | [] => s
  | (u, d) :: rest =>
    { done := s.done ++ [(u, d)]
      queue := rest ++ (G.crossed s u d).map fun v => (v, d + 1)
      seen := s.seen ++ (G.met s u d).filter (marks u) }

def run (marks : N → N → Bool) : Nat → State N → State N
  | 0, s => s
  | n + 1, s => run marks n (step G marks s)

def patient (fuel : Nat) (roots : List N) : State N :=
  run G G.gate fuel (start roots)

def eager (fuel : Nat) (roots : List N) : State N :=
  run G (fun _ _ => true) fuel (start roots)

/-- A path of `n` open edges from a root. -/
inductive Reach (roots : List N) : Nat → N → Prop
  | root {r : N} : r ∈ roots → Reach roots 0 r
  | cross {n : Nat} {u v : N} :
      Reach roots n u → v ∈ G.next u → G.gate u v = true → Reach roots (n + 1) v

/-- A path of open edges none of which starts too deep. -/
def Reachable (roots : List N) (v : N) : Prop :=
  ∃ n, (∀ m < n, G.expands m = true) ∧ Reach G roots n v

/-- Each node of the list that is no root is first met, in the order of the list,
over an open edge. -/
def FirstMetOpen (roots : List N) (order : List (N × Nat)) : Prop :=
  ∀ x ∈ order, x.1 ∉ roots →
    ∀ y, order.find? (fun y => G.expands y.2 && decide (x.1 ∈ G.next y.1)) = some y →
      G.gate y.1 x.1 = true

instance (roots : List N) (order : List (N × Nat)) : Decidable (FirstMetOpen G roots order) :=
  inferInstanceAs (Decidable (∀ x ∈ order, x.1 ∉ roots → ∀ y, _ = some y → _))

section Steps

variable {G} {marks : N → N → Bool} {s : State N} {u v : N} {d : Nat} {rest : List (N × Nat)}

theorem mem_met : v ∈ G.met s u d ↔ G.expands d = true ∧ v ∈ G.next u ∧ v ∉ s.seen := by
  unfold Graph.met
  split <;> simp [*]

theorem mem_crossed : v ∈ G.crossed s u d ↔
      G.expands d = true ∧ v ∈ G.next u ∧ v ∉ s.seen ∧ G.gate u v = true := by
  simp [Graph.crossed, mem_met, and_assoc]

theorem met_nodup : (G.met s u d).Nodup := by
  unfold Graph.met
  split
  · exact (G.nodup u).filter _
  · exact List.nodup_nil

theorem step_cons (h : s.queue = (u, d) :: rest) : step G marks s =
      { done := s.done ++ [(u, d)]
        queue := rest ++ (G.crossed s u d).map fun v => (v, d + 1)
        seen := s.seen ++ (G.met s u d).filter (marks u) } := by
  unfold step
  rw [h]

theorem step_nil (h : s.queue = []) : step G marks s = s := by
  unfold step
  rw [h]

theorem found_step (h : s.queue = (u, d) :: rest) :
    (step G marks s).found = s.found ++ (G.crossed s u d).map fun v => (v, d + 1) := by
  simp [State.found, step_cons h, h]

theorem run_add (marks : N → N → Bool) (m n : Nat) (s : State N) :
    run G marks (m + n) s = run G marks n (run G marks m s) := by
  induction m generalizing s with
  | zero => rw [Nat.zero_add]; rfl
  | succ m ih => rw [Nat.succ_add]; exact ih (step G marks s)

theorem run_succ (marks : N → N → Bool) (n : Nat) (s : State N) :
    run G marks (n + 1) s = step G marks (run G marks n s) :=
  run_add marks n 1 s

theorem run_keeps {P : State N → Prop} (hstep : ∀ s, P s → P (step G marks s)) :
    ∀ (n : Nat) (s : State N), P s → P (run G marks n s)
  | 0, _, h => h
  | n + 1, s, h => run_keeps hstep n (step G marks s) (hstep s h)

theorem run_nil (h : s.queue = []) (n : Nat) : run G marks n s = s := by
  induction n with
  | zero => rfl
  | succ n ih => rw [run_succ, ih, step_nil h]

theorem found_step_mono (marks : N → N → Bool) (s : State N) :
    s.found <+: (step G marks s).found := by
  cases h : s.queue with
  | nil => rw [step_nil h]
  | cons x rest => rw [found_step h]; exact List.prefix_append _ _

theorem found_run_mono (marks : N → N → Bool) (n : Nat) (s : State N) :
    s.found <+: (run G marks n s).found :=
  run_keeps (P := fun s' => s.found <+: s'.found)
    (fun s' h => h.trans (found_step_mono marks s')) n s (List.prefix_refl _)

end Steps

/-! ## Running to the end -/

section Drained

variable {G} {marks : N → N → Bool} {s : State N}

/-- What a run still has to do at most: the nodes waiting, and the nodes that may
still be met. -/
def pending (univ : Finset N) (s : State N) : Nat :=
  s.queue.length + (univ.filter fun v => v ∉ s.seen).card

theorem pending_start (univ : Finset N) (roots : List N) :
    pending univ (start roots) ≤ roots.length + univ.card := by
  unfold pending start
  rw [List.length_map]
  exact Nat.add_le_add_left (Finset.card_filter_le _ _) _

theorem pending_step {univ : Finset N} (huniv : ∀ u, ∀ v ∈ G.next u, v ∈ univ)
    (hmarks : ∀ u v, G.gate u v = true → marks u v = true) {u : N} {d : Nat} {rest : List (N × Nat)}
    (h : s.queue = (u, d) :: rest) : pending univ (step G marks s) + 1 ≤ pending univ s := by
  set marked := ((G.met s u d).filter (marks u)).toFinset with hmarked
  have hmem : ∀ v, v ∈ marked ↔ v ∈ G.met s u d ∧ marks u v = true := by
    intro v; rw [hmarked, List.mem_toFinset, mem_filter]
  have hcrossed : (G.crossed s u d).length ≤ marked.card := by
    unfold Graph.crossed
    rw [← List.toFinset_card_of_nodup (met_nodup.filter _)]
    refine Finset.card_le_card fun v hv => ?_
    rw [List.mem_toFinset, mem_filter] at hv
    exact (hmem v).mpr ⟨hv.1, hmarks u v hv.2⟩
  have hsub : marked ⊆ univ.filter fun v => v ∉ s.seen := by
    intro v hv
    have hmet := mem_met.mp ((hmem v).mp hv).1
    exact Finset.mem_filter.mpr ⟨huniv u v hmet.2.1, hmet.2.2⟩
  have hleft : (univ.filter fun v => v ∉ (step G marks s).seen) =
      (univ.filter fun v => v ∉ s.seen) \ marked := by
    ext v
    simp only [step_cons h, Finset.mem_filter, Finset.mem_sdiff, hmem, mem_append,
      mem_filter, not_or]
    tauto
  have hcard := Finset.card_sdiff_add_card_eq_card hsub
  unfold pending
  rw [hleft, step_cons h, h]
  simp only [List.length_append, List.length_map, List.length_cons]
  omega

theorem run_drained {univ : Finset N} (huniv : ∀ u, ∀ v ∈ G.next u, v ∈ univ)
    (hmarks : ∀ u v, G.gate u v = true → marks u v = true) (n : Nat) (s : State N)
    (hfuel : pending univ s ≤ n) : (run G marks n s).queue = [] := by
  induction n generalizing s with
  | zero =>
    have hlen : s.queue.length ≤ 0 := le_trans (Nat.le_add_right _ _) hfuel
    exact List.length_eq_zero_iff.mp (Nat.le_zero.mp hlen)
  | succ n ih =>
    cases hq : s.queue with
    | nil => rw [run_nil hq]; exact hq
    | cons x rest =>
      have hless := pending_step huniv hmarks hq
      exact ih (step G marks s) (by omega)

end Drained

/-! ## The patient search finds what open edges reach -/

section Patient

variable {G} {roots : List N} {s : State N}

/-- What the patient search keeps. Depths along the queue never fall, and nothing
found is more than one deeper than anything that waits; so the depth a node is
found at is no larger than the length of any path to it. -/
structure Level (G : Graph N) (roots : List N) (s : State N) : Prop where
  started : ∀ r ∈ roots, (r, 0) ∈ s.found
  sound : ∀ x ∈ s.found, (∀ m < x.2, G.expands m = true) ∧ Reach G roots x.2 x.1
  seen : ∀ v, v ∈ s.seen ↔ ∃ d, (v, d) ∈ s.found
  closed : ∀ x ∈ s.done, G.expands x.2 = true → ∀ v ∈ G.next x.1, G.gate x.1 v = true →
    ∃ d ≤ x.2 + 1, (v, d) ∈ s.found
  sorted : s.queue.Pairwise fun x y => x.2 ≤ y.2
  band : ∀ x ∈ s.found, ∀ y ∈ s.queue, x.2 ≤ y.2 + 1

omit [DecidableEq N] in
theorem level_start (roots : List N) : Level G roots (start roots) where
  started r hr := by
    unfold State.found start
    exact List.mem_append_right _ (List.mem_map_of_mem hr)
  sound x hx := by
    obtain ⟨r, hr, rfl⟩ : ∃ r ∈ roots, (r, 0) = x := by simpa [State.found, start] using hx
    exact ⟨fun m hm => absurd hm (Nat.not_lt_zero m), .root hr⟩
  seen v := by simp [State.found, start]
  closed x hx := absurd hx List.not_mem_nil
  sorted := by
    unfold start
    exact List.pairwise_map.mpr (List.pairwise_of_forall fun _ _ => le_refl 0)
  band x hx y _ := by
    obtain ⟨r, -, rfl⟩ : ∃ r ∈ roots, (r, 0) = x := by simpa [State.found, start] using hx
    exact Nat.zero_le _

theorem Level.step (h : Level G roots s) : Level G roots (step G G.gate s) := by
  cases hq : s.queue with
  | nil => rw [step_nil hq]; exact h
  | cons x rest =>
    obtain ⟨u, d⟩ := x
    have hu : (u, d) ∈ s.found := by
      unfold State.found; rw [hq]; exact List.mem_append_right _ List.mem_cons_self
    have hband : ∀ x ∈ s.found, x.2 ≤ d + 1 := fun x hx =>
      h.band x hx (u, d) (by rw [hq]; exact List.mem_cons_self)
    have hrest : ∀ y ∈ rest, d ≤ y.2 := fun y hy => by
      have hsorted := h.sorted
      rw [hq] at hsorted
      exact List.rel_of_pairwise_cons hsorted hy
    have hfound : ∀ x, x ∈ (GatedSearch.step G G.gate s).found ↔
        x ∈ s.found ∨ ∃ v ∈ G.crossed s u d, (v, d + 1) = x := by
      intro x; rw [found_step hq, mem_append, mem_map]
    have hqueue : ∀ y ∈ (GatedSearch.step G G.gate s).queue, d ≤ y.2 := by
      intro y hy
      rw [step_cons hq, mem_append, mem_map] at hy
      rcases hy with hy | ⟨v, -, rfl⟩
      · exact hrest y hy
      · exact Nat.le_succ d
    constructor
    · intro r hr
      exact (hfound _).mpr (.inl (h.started r hr))
    · intro x hx
      rcases (hfound x).mp hx with hx | ⟨v, hv, rfl⟩
      · exact h.sound x hx
      · obtain ⟨hexp, hnext, -, hgate⟩ := mem_crossed.mp hv
        obtain ⟨hin, hreach⟩ := h.sound _ hu
        refine ⟨fun m hm => ?_, .cross hreach hnext hgate⟩
        rcases Nat.lt_succ_iff_lt_or_eq.mp hm with hm | rfl
        · exact hin m hm
        · exact hexp
    · intro v
      have hseen : v ∈ (GatedSearch.step G G.gate s).seen ↔ v ∈ s.seen ∨ v ∈ G.crossed s u d := by
        rw [step_cons hq, mem_append]; rfl
      rw [hseen, h.seen]
      constructor
      · rintro (⟨e, he⟩ | hv)
        · exact ⟨e, (hfound _).mpr (.inl he)⟩
        · exact ⟨d + 1, (hfound _).mpr (.inr ⟨v, hv, rfl⟩)⟩
      · rintro ⟨e, he⟩
        rcases (hfound _).mp he with he | ⟨w, hw, heq⟩
        · exact .inl ⟨e, he⟩
        · cases heq; exact .inr hw
    · intro x hx hexp v hnext hgate
      rw [step_cons hq, mem_append, List.mem_singleton] at hx
      rcases hx with hx | rfl
      · obtain ⟨e, hle, he⟩ := h.closed x hx hexp v hnext hgate
        exact ⟨e, hle, (hfound _).mpr (.inl he)⟩
      · -- a neighbour already seen was found no deeper than the queue allows
        by_cases hseen : v ∈ s.seen
        · obtain ⟨e, he⟩ := (h.seen v).mp hseen
          exact ⟨e, hband _ he, (hfound _).mpr (.inl he)⟩
        · exact ⟨d + 1, le_refl _,
            (hfound _).mpr (.inr ⟨v, mem_crossed.mpr ⟨hexp, hnext, hseen, hgate⟩, rfl⟩)⟩
    · have hsorted := h.sorted
      rw [hq] at hsorted
      rw [step_cons hq]
      refine List.pairwise_append.mpr ⟨(List.pairwise_cons.mp hsorted).2, ?_, ?_⟩
      · exact List.pairwise_map.mpr (List.pairwise_of_forall fun _ _ => le_refl (d + 1))
      · rintro x hx y hy
        obtain ⟨v, -, rfl⟩ := mem_map.mp hy
        refine hband x ?_
        unfold State.found; rw [hq]
        exact List.mem_append_right _ (List.mem_cons_of_mem _ hx)
    · intro x hx y hy
      have hle := hqueue y hy
      rcases (hfound x).mp hx with hx | ⟨v, -, rfl⟩
      · exact (hband x hx).trans (Nat.succ_le_succ hle)
      · exact Nat.succ_le_succ hle

omit [DecidableEq N] in
/-- A search run to the end has found every node a path of open edges reaches, at
most as deep as the path is long. -/
theorem Level.complete (h : Level G roots s) (hend : s.queue = []) {n : Nat} {v : N}
    (hreach : Reach G roots n v) (hin : ∀ m < n, G.expands m = true) :
    ∃ d ≤ n, (v, d) ∈ s.found := by
  induction hreach with
  | root hr => exact ⟨0, le_refl 0, h.started _ hr⟩
  | @cross n u v _ hnext hgate ih =>
    obtain ⟨d, hd, hu⟩ := ih fun m hm => hin m (Nat.lt_succ_of_lt hm)
    have hdone : (u, d) ∈ s.done := by
      unfold State.found at hu
      rwa [hend, List.append_nil] at hu
    obtain ⟨e, he, hv⟩ := h.closed _ hdone (hin d (Nat.lt_succ_of_le hd)) v hnext hgate
    exact ⟨e, he.trans (Nat.succ_le_succ hd), hv⟩

omit [DecidableEq N] in
theorem Level.found_iff (h : Level G roots s) (hend : s.queue = []) (v : N) :
    v ∈ s.found.map Prod.fst ↔ Reachable G roots v := by
  constructor
  · intro hv
    obtain ⟨x, hx, rfl⟩ := mem_map.mp hv
    exact ⟨x.2, h.sound x hx⟩
  · rintro ⟨n, hin, hreach⟩
    obtain ⟨d, -, hd⟩ := h.complete hend hreach hin
    exact mem_map.mpr ⟨(v, d), hd, rfl⟩

theorem level_patient (fuel : Nat) (roots : List N) : Level G roots (patient G fuel roots) :=
  run_keeps (fun _ h => h.step) fuel _ (level_start roots)

end Patient

/-! ## Where the eager search finds the same -/

section Eager

variable {G} {roots : List N} {s p e : State N}

/-- The eager search looks again at no node it has met: its roots, and the
neighbours of every node it expanded. -/
structure Met (G : Graph N) (roots : List N) (s : State N) : Prop where
  seen : ∀ v, v ∈ s.seen ↔
    v ∈ roots ∨ ∃ x ∈ s.done, G.expands x.2 = true ∧ v ∈ G.next x.1
  found : ∀ x ∈ s.found, x.1 ∈ s.seen

omit [DecidableEq N] in
theorem met_start (roots : List N) : Met G roots (start roots) where
  seen v := by simp [start]
  found x hx := by
    obtain ⟨r, hr, rfl⟩ : ∃ r ∈ roots, (r, 0) = x := by simpa [State.found, start] using hx
    exact hr

theorem mem_seen_eager {u v : N} {d : Nat} {rest : List (N × Nat)} (hq : s.queue = (u, d) :: rest) :
    v ∈ (step G (fun _ _ => true) s).seen ↔ v ∈ s.seen ∨ G.expands d = true ∧ v ∈ G.next u := by
  simp only [step_cons hq, mem_append, List.filter_true, mem_met]
  tauto

theorem Met.step (h : Met G roots s) : Met G roots (step G (fun _ _ => true) s) := by
  cases hq : s.queue with
  | nil => rw [step_nil hq]; exact h
  | cons x rest =>
    constructor
    · intro v
      rw [mem_seen_eager hq, h.seen]
      simp only [step_cons hq, mem_append, List.mem_singleton, or_and_right, exists_or,
        exists_eq_left, or_assoc]
    · intro x hx
      rw [found_step hq, mem_append, mem_map] at hx
      rw [mem_seen_eager hq]
      rcases hx with hx | ⟨v, hv, rfl⟩
      · exact .inl (h.found x hx)
      · obtain ⟨hexp, hnext, -, -⟩ := mem_crossed.mp hv
        exact .inr ⟨hexp, hnext⟩

theorem not_found_run {v : N} (hseen : v ∈ s.seen) (hnot : v ∉ s.found.map Prod.fst) (n : Nat) :
    v ∉ (run G (fun _ _ => true) n s).found.map Prod.fst := by
  refine (run_keeps (P := fun s : State N => v ∈ s.seen ∧ v ∉ s.found.map Prod.fst)
    (fun s h => ?_) n s ⟨hseen, hnot⟩).2
  cases hq : s.queue with
  | nil => rw [step_nil hq]; exact h
  | cons x rest =>
    refine ⟨(mem_seen_eager hq).mpr (.inl h.1), ?_⟩
    rw [found_step hq, map_append, mem_append, not_or]
    refine ⟨h.2, fun hv => ?_⟩
    obtain ⟨x, hx, rfl⟩ := mem_map.mp hv
    obtain ⟨w, hw, rfl⟩ := mem_map.mp hx
    exact (mem_crossed.mp hw).2.2.1 h.1

/-- The two searches have found the same in the same order, and what only the
eager one has marked is nothing the patient one will find. -/
structure Together (order : List (N × Nat)) (p e : State N) : Prop where
  done : e.done = p.done
  queue : e.queue = p.queue
  marked : ∀ v ∈ p.seen, v ∈ e.seen
  lost : ∀ v ∈ e.seen, v ∉ p.seen → v ∉ order.map Prod.fst

theorem Together.step {order : List (N × Nat)} (h : Together order p e)
    (hfound : ∀ x ∈ (step G G.gate p).found, x ∈ order)
    (hclosed : ∀ u d rest, e.queue = (u, d) :: rest → G.expands d = true → ∀ v ∈ G.next u,
      v ∉ e.seen → G.gate u v = false → v ∉ order.map Prod.fst) :
    Together order (step G G.gate p) (step G (fun _ _ => true) e) := by
  cases hq : p.queue with
  | nil => rw [step_nil hq, step_nil (h.queue.trans hq)]; exact h
  | cons x rest =>
    obtain ⟨u, d⟩ := x
    have heq : e.queue = (u, d) :: rest := h.queue.trans hq
    have horder : ∀ v ∈ G.crossed p u d, v ∈ order.map Prod.fst := fun v hv =>
      mem_map.mpr ⟨(v, d + 1), hfound _ (by
        rw [found_step hq]
        exact List.mem_append_right _ (mem_map.mpr ⟨v, hv, rfl⟩)), rfl⟩
    have hmarked : ∀ v ∈ G.next u, G.expands d = true → G.gate u v = true →
        (v ∉ e.seen ↔ v ∉ p.seen) := by
      intro v hnext hexp hgate
      refine ⟨fun hv hp => hv (h.marked v hp), fun hp hv => ?_⟩
      exact h.lost v hv hp (horder v (mem_crossed.mpr ⟨hexp, hnext, hp, hgate⟩))
    have hcrossed : G.crossed e u d = G.crossed p u d := by
      unfold Graph.crossed Graph.met
      split
      · rename_i hexp
        rw [List.filter_filter, List.filter_filter]
        refine List.filter_congr fun v hv => ?_
        by_cases hgate : G.gate u v = true
        · simp [hgate, hmarked v hv hexp hgate]
        · simp [hgate]
      · rfl
    have hp : ∀ v, v ∈ (GatedSearch.step G G.gate p).seen ↔ v ∈ p.seen ∨ v ∈ G.crossed p u d := by
      intro v; rw [step_cons hq, mem_append]; rfl
    constructor
    · rw [step_cons hq, step_cons heq, h.done]
    · rw [step_cons hq, step_cons heq, hcrossed]
    · intro v hv
      rw [mem_seen_eager heq]
      rcases (hp v).mp hv with hv | hv
      · exact .inl (h.marked v hv)
      · obtain ⟨hexp, hnext, -, -⟩ := mem_crossed.mp hv
        exact .inr ⟨hexp, hnext⟩
    · intro v hv hnot
      rw [hp, not_or] at hnot
      by_cases hseen : v ∈ e.seen
      · exact h.lost v hseen hnot.1
      · obtain ⟨hexp, hnext⟩ := ((mem_seen_eager heq).mp hv).resolve_left hseen
        refine hclosed u d rest heq hexp v hnext hseen ?_
        by_contra hgate
        rw [Bool.not_eq_false] at hgate
        exact hnot.2 (mem_crossed.mpr ⟨hexp, hnext, hnot.1, hgate⟩)

variable {n : Nat}

theorem Met.opened {v : N} (hroot : v ∉ roots) {y : N × Nat}
    (hfirst : (eager G n roots).done.find? (fun y => G.expands y.2 && decide (v ∈ G.next y.1)) =
      some y)
    (hfound : v ∈ (eager G n roots).found.map Prod.fst) : G.gate y.1 v = true := by
  refine (run_keeps (P := fun s => Met G roots s ∧ ∀ y, s.done.find?
      (fun y => G.expands y.2 && decide (v ∈ G.next y.1)) = some y →
      v ∈ s.found.map Prod.fst → G.gate y.1 v = true)
    (fun s h => ⟨h.1.step, ?_⟩) n (start roots) ⟨met_start roots, ?_⟩).2 y hfirst hfound
  · intro y hy hv
    obtain ⟨hmet, hopen⟩ := h
    cases hq : s.queue with
    | nil => rw [step_nil hq] at hy hv; exact hopen y hy hv
    | cons x rest =>
      obtain ⟨u, d⟩ := x
      rw [step_cons hq, List.find?_append] at hy
      rw [found_step hq, map_append, mem_append] at hv
      have hcross : v ∈ ((G.crossed s u d).map fun v => (v, d + 1)).map Prod.fst →
          v ∉ s.seen ∧ G.gate u v = true := by
        intro hv
        obtain ⟨x, hx, rfl⟩ := mem_map.mp hv
        obtain ⟨w, hw, rfl⟩ := mem_map.mp hx
        exact (mem_crossed.mp hw).2.2
      cases hold : s.done.find? (fun y => G.expands y.2 && decide (v ∈ G.next y.1)) with
      | some z =>
        -- met before this step: the step cannot cross to it
        rw [hold, Option.some_or, Option.some.injEq] at hy
        subst hy
        have hz := List.find?_some hold
        rw [Bool.and_eq_true, decide_eq_true_eq] at hz
        have hseen : v ∈ s.seen :=
          (hmet.seen v).mpr (.inr ⟨z, List.mem_of_find?_eq_some hold, hz⟩)
        exact hopen z hold (hv.resolve_right fun h => (hcross h).1 hseen)
      | none =>
        rw [hold, Option.none_or] at hy
        have hmem := List.mem_of_find?_eq_some hy
        rw [List.mem_singleton] at hmem
        subst hmem
        have hnot : v ∉ s.seen := by
          rw [hmet.seen, not_or]
          refine ⟨hroot, ?_⟩
          rintro ⟨z, hz, hexp, hnext⟩
          exact absurd (List.find?_eq_none.mp hold z hz) (by simp [hexp, hnext])
        refine (hcross (hv.resolve_left fun h => hnot ?_)).2
        obtain ⟨x, hx, rfl⟩ := mem_map.mp h
        exact hmet.found x hx
  · intro y hy
    simp [start] at hy

theorem met_eager (n : Nat) (roots : List N) : Met G roots (eager G n roots) :=
  run_keeps (fun _ h => h.step) n _ (met_start roots)

/-- While every closed edge the eager search looks over leads to nothing in
`order`, the two searches stay together. -/
theorem together_run {order : List (N × Nat)} (hfound : ∀ x ∈ (patient G n roots).found, x ∈ order)
    (hclosed : ∀ k, k < n → Together order (patient G k roots) (eager G k roots) → ∀ u d rest,
      (eager G k roots).queue = (u, d) :: rest → G.expands d = true → ∀ v ∈ G.next u,
      v ∉ (eager G k roots).seen → G.gate u v = false → v ∉ order.map Prod.fst) :
    Together order (patient G n roots) (eager G n roots) := by
  suffices h : ∀ k, k ≤ n → Together order (patient G k roots) (eager G k roots) from
    h n (le_refl n)
  intro k
  induction k with
  | zero => exact fun _ => ⟨rfl, rfl, fun _ h => h, fun _ h hnot => absurd h hnot⟩
  | succ k ih =>
    intro hk
    have htog := ih (Nat.le_of_succ_le hk)
    unfold patient eager at htog ⊢
    rw [run_succ, run_succ]
    refine htog.step (fun x hx => hfound x ?_) (hclosed k hk htog)
    obtain ⟨m, rfl⟩ := Nat.exists_eq_add_of_le hk
    unfold patient
    rw [run_add]
    exact (found_run_mono _ m _).subset (by rw [run_succ]; exact hx)

/-- If the eager search finds all the patient one does, no closed edge it looks
over keeps anything from it. -/
theorem together_of_found
    (h : ∀ v ∈ (patient G n roots).found.map Prod.fst, v ∈ (eager G n roots).found.map Prod.fst) :
    Together (patient G n roots).found (patient G n roots) (eager G n roots) := by
  refine together_run (fun _ h => h) fun k hk _ u d rest hq hexp v hnext hseen hgate hv => ?_
  obtain ⟨m, rfl⟩ := Nat.exists_eq_add_of_le hk
  -- met over a closed edge at step `k`, so it is never found
  have hnot : v ∉ (step G (fun _ _ => true) (eager G k roots)).found.map Prod.fst := by
    rw [found_step hq, map_append, mem_append]
    rintro (hv | hv) <;> obtain ⟨x, hx, rfl⟩ := mem_map.mp hv
    · exact hseen ((met_eager k roots).found x hx)
    · obtain ⟨w, hw, rfl⟩ := mem_map.mp hx
      exact Bool.false_ne_true (hgate.symm.trans (mem_crossed.mp hw).2.2.2)
  have hnever := not_found_run (G := G) ((mem_seen_eager hq).mpr (.inr ⟨hexp, hnext⟩)) hnot m
  have hfound := h v hv
  unfold eager at hfound hnever
  rw [run_add, run_succ] at hfound
  exact hnever hfound

theorem together_of_firstMetOpen (h : FirstMetOpen G roots (patient G n roots).found) :
    Together (patient G n roots).found (patient G n roots) (eager G n roots) := by
  refine together_run (fun _ h => h) fun k hk htog u d rest hq hexp v hnext hseen hgate hv => ?_
  obtain ⟨m, rfl⟩ := Nat.exists_eq_add_of_le hk
  rw [(met_eager k roots).seen, not_or] at hseen
  obtain ⟨x, hx, rfl⟩ := mem_map.mp hv
  refine Bool.false_ne_true (hgate.symm.trans (h x hx hseen.1 (u, d) ?_))
  have hstem : (patient G k roots).found <+: (patient G (k + 1 + m) roots).found := by
    unfold patient
    rw [add_assoc, run_add]
    exact found_run_mono _ _ _
  obtain ⟨tail, htail⟩ := hstem
  -- the nodes expanded before `u` all miss it, and `u` does not
  have hmiss : (eager G k roots).done.find?
      (fun y => G.expands y.2 && decide (x.1 ∈ G.next y.1)) = none := by
    refine List.find?_eq_none.mpr fun y hy hmeets => ?_
    rw [Bool.and_eq_true, decide_eq_true_eq] at hmeets
    exact hseen.2 ⟨y, hy, hmeets⟩
  rw [← htail]
  unfold State.found
  rw [← htog.queue, ← htog.done, hq, List.find?_append, List.find?_append, hmiss,
    Option.none_or, List.find?_cons_of_pos, Option.some_or]
  simp [hexp, hnext]

/-- The eager search, run to the end, finds exactly what open edges reach iff each
reachable node is first met over an open edge. -/
theorem eager_complete_iff {univ : Finset N} (huniv : ∀ u, ∀ v ∈ G.next u, v ∈ univ)
    {roots : List N} (hfuel : roots.length + univ.card ≤ n) :
    (∀ v, v ∈ (eager G n roots).found.map Prod.fst ↔ Reachable G roots v) ↔
      FirstMetOpen G roots (patient G n roots).found := by
  have hend : (patient G n roots).queue = [] :=
    run_drained huniv (fun _ _ h => h) n _ ((pending_start univ roots).trans hfuel)
  have hreach := (level_patient n roots).found_iff hend
  constructor
  · intro h x hx hroot y hy
    have htog := together_of_found fun v hv => (h v).mpr ((hreach v).mp hv)
    refine Met.opened hroot ?_ ((h _).mpr ((hreach _).mp (List.mem_map_of_mem hx)))
    unfold State.found at hy
    rwa [hend, List.append_nil, ← htog.done] at hy
  · intro h v
    have htog := together_of_firstMetOpen h
    rw [← hreach]
    unfold State.found
    rw [htog.done, htog.queue]

end Eager

end GatedSearch
