import LeyLine.Fs.FreshReads
import LeyLine.Fs.HotSwap

/-!
# What flushing does to writes

A flush publishes its root before it acknowledges it, and serialises before both. A poll
that falls in between sees a root nobody acknowledged and replaces the graph by the
serialised image: what was written to the graph since is gone. Where every poll finds the
root it read acknowledged, the graph is never replaced, and the promises of its one adapter
are those of the whole graph. A second flush can also write the arena before the first one
publishes: the root then names an image that is not there.
-/

namespace LeyLine.Fs

variable {W R : Type}

namespace Adapter

/-- What a call promised to see is in what its adapter makes it see. -/
def Carries (g : Adapter W) (must : List W) : Caller W → Prop
  | .read | .serialize => must ⊆ g.acked.map Prod.fst
  | .popping _ m | .making _ m | .reading _ m _ | .current _ m _ | .answered m _ => must ⊆ m
  | _ => True

variable {g g' : Adapter W} {t t' : Caller W} {must : List W}

theorem Step.map_acked (hstep : Step g t g' t') : g.acked.map Prod.fst ⊆ g'.acked.map Prod.fst :=
  List.map_subset _ hstep.grows.2.1

theorem Carries.own (hstep : Step g t g' t') (h : Carries g must t) : Carries g' must t' := by
  cases hstep with
  | apply _ | nothing _ _ | refresh _ | bump | drain _ | drained | finish | fail => trivial
  | _ => exact h

theorem Carries.other (hstep : Step g t g' t') {u : Caller W} (h : Carries g must u) :
    Carries g' must u := by
  have hmono : must ⊆ g.acked.map Prod.fst → must ⊆ g'.acked.map Prod.fst :=
    fun hsub => List.Subset.trans hsub hstep.map_acked
  cases u with
  | read | serialize => exact hmono h
  | _ => exact h

end Adapter

namespace HotSwap

/-- The steps that keep the graph: a poll finds the root it read acknowledged, a flush that
publishes finds its own image in the arena, and a step inside a graph is calm. -/
def Settled (env : Env) (s : HotSwap W R) : Task W R → Prop
  | .polled _ _ current => current = s.lastRoot
  | .stored _ image => env.answer = .error ∨ s.arena = image
  | .running k _ op | .flushing k _ op => ∀ g, s.graphs[k]? = some g → Adapter.Calm env.answer g op
  | _ => True

instance [DecidableEq W] [DecidableEq R] (env : Env) (s : HotSwap W R) :
    ∀ t : Task W R, Decidable (Settled env s t)
  | .polled _ _ current => inferInstanceAs (Decidable (current = s.lastRoot))
  | .stored _ image => inferInstanceAs (Decidable (env.answer = .error ∨ s.arena = image))
  | .running k _ op | .flushing k _ op =>
    Pool.decidableForallSome (p := fun g => Adapter.Calm env.answer g op) s.graphs[k]?
  | .call _ | .same _ _ | .changed _ _ _ | .built _ _ _ _ | .installed _ _ _ _ | .flush
  | .serialized _ _ | .published _ _ | .flushed _ _ | .failed => isTrue trivial

/-- The one graph, installed. -/
structure Only (s : HotSwap W R) (g : Adapter W) : Prop where
  graphs : s.graphs = [g]
  inner : s.inner = 0
  swapping : s.swapping = false

def Good (s : HotSwap W R) : Prop := ∃ g, Only s g ∧ Adapter.Good g

def Inside (s : HotSwap W R) (k : Nat) (must : List W) (op : Caller W) : Prop :=
  k = 0 ∧ ∀ g, s.graphs = [g] → Adapter.Local g op ∧ Adapter.Carries g must op

def Local (s : HotSwap W R) : Task W R → Prop
  | .polled op must _ | .same op must => (op = .read ∨ ∃ w, op = .write w) ∧ must ⊆ s.acked
  | .call op => op = .read ∨ ∃ w, op = .write w
  | .changed _ _ _ | .built _ _ _ _ | .installed _ _ _ _ => False
  | .running k must op => Inside s k must op
  | .flushing k must op => Inside s k must op
  | .serialized must image | .stored must image | .published must image | .flushed must image =>
    must ⊆ image
  | .flush | .failed => True

def Refreshes : Task W R → Prop
  | .running _ _ op | .flushing _ _ op => Adapter.Refreshes op
  | _ => False

def Apart (t u : Task W R) : Prop := ¬ (Refreshes t ∧ Refreshes u)

/-! ## What a settled step can do -/

/-- The graphs are as they were. -/
structure Same (s s' : HotSwap W R) : Prop where
  graphs : s'.graphs = s.graphs
  inner : s'.inner = s.inner
  swapping : s'.swapping = s.swapping

def inside (flushes : Bool) (must : List W) (op : Caller W) : Task W R :=
  if flushes then .flushing 0 must op else .running 0 must op

/-- Either a caller inside the graph steps there, or the graph is left alone. -/
inductive Moves (s : HotSwap W R) : Task W R → HotSwap W R → Task W R → Prop
  | work {g g' : Adapter W} {op op' : Caller W} {must : List W} (flushes : Bool) :
      s.graphs = [g] → Adapter.Step g op g' op' → Inside s 0 must op →
      Moves s (inside flushes must op) { s with graphs := [g'] } (inside flushes must op')
  | leave {t t' : Task W R} {s' : HotSwap W R} : Same s s' → Local s' t' → ¬ Refreshes t' →
      Moves s t s' t'

variable {s : HotSwap W R} {must : List W} {op : Caller W}

theorem local_inside {flushes : Bool} : Local s (inside flushes must op) ↔ Inside s 0 must op := by
  cases flushes <;> exact Iff.rfl

theorem refreshes_inside {flushes : Bool} :
    Refreshes (inside flushes must op : Task W R) ↔ Adapter.Refreshes op := by
  cases flushes <;> exact Iff.rfl

theorem moves_leave {t t' : Task W R} (hlocal : Local s t') (hnot : ¬ Refreshes t') :
    Moves s t s t' := .leave ⟨rfl, rfl, rfl⟩ hlocal hnot

variable {g : Adapter W}

theorem Only.acked (h : s.graphs = [g]) : s.acked = g.acked.map Prod.fst := by
  rw [HotSwap.acked, h, List.flatMap_cons, List.flatMap_nil, List.append_nil]

variable {env : Env}

theorem moves_within (hgood : Good s) (flushes : Bool)
    (hcalm : ∀ g, s.graphs[0]? = some g → Adapter.Calm env.answer g op) (h : Inside s 0 must op) :
    Moves s (inside flushes must op) (s.within env 0 op (inside flushes must)).1
      (s.within env 0 op (inside flushes must)).2 := by
  obtain ⟨g, honly, -⟩ := hgood
  have hget : s.graphs[0]? = some g := by rw [honly.graphs]; rfl
  have hstep := Adapter.step_advance (hcalm g hget)
  rw [within, hget]
  have hset : s.graphs.set 0 (Adapter.advance env.answer g op).1 =
      [(Adapter.advance env.answer g op).1] := by
    rw [honly.graphs]
    rfl
  dsimp only
  rw [hset]
  exact .work flushes honly.graphs hstep h

variable [DecidableEq R]

variable {k : Nat}

theorem moves_flushing (root : Image W → R) (hgood : Good s)
    (hsettled : Settled env s (.flushing k must op)) (h : Inside s k must op) :
    Moves s (.flushing k must op) (advance root env s (.flushing k must op)).1
      (advance root env s (.flushing k must op)).2 := by
  obtain ⟨rfl, hin⟩ := h
  have hwork := moves_within hgood true hsettled ⟨rfl, hin⟩
  obtain ⟨g, honly, -⟩ := hgood
  cases op with
  | answered m image =>
    obtain ⟨hsub, hcarries⟩ := hin g honly.graphs
    exact moves_leave (List.Subset.trans hcarries hsub) not_false
  | _ => exact hwork

theorem moves_advance (root : Image W → R) {t : Task W R} (hgood : Good s)
    (hsettled : Settled env s t)
    (h : Local s t) : Moves s t (advance root env s t).1 (advance root env s t).2 := by
  cases t with
  | call op => exact moves_leave ⟨h, List.Subset.refl _⟩ not_false
  | polled op must current =>
    have hroot : current = s.lastRoot := hsettled
    have hagree : advance root env s (.polled op must current) = (s, .same op must) := by
      rw [advance, if_pos hroot]
    rw [hagree]
    exact moves_leave h not_false
  | same op must =>
    obtain ⟨g, honly, -⟩ := hgood
    have henter : advance root env s (.same op must) = (s, .running 0 must op) := by
      rw [advance, honly.swapping, honly.inner]
      rfl
    rw [henter]
    obtain ⟨hop, hmust⟩ := h
    rw [Only.acked honly.graphs] at hmust
    rcases hop with rfl | ⟨w, rfl⟩
    · refine moves_leave ⟨rfl, fun g' hg' => ⟨trivial, ?_⟩⟩ not_false
      obtain rfl : g = g' := by simpa [honly.graphs] using hg'
      exact hmust
    · exact moves_leave ⟨rfl, fun _ _ => ⟨trivial, trivial⟩⟩ not_false
  | changed op must current | built op must current g | installed op must current k => exact h.elim
  | running k must op =>
    obtain ⟨rfl, hin⟩ := h
    exact moves_within hgood false hsettled ⟨rfl, hin⟩
  | flush =>
    obtain ⟨g, honly, -⟩ := hgood
    have hbegin : advance root env s .flush = (s, .flushing 0 s.acked .serialize) := by
      rw [advance, honly.swapping, honly.inner]
      rfl
    rw [hbegin]
    refine moves_leave ⟨rfl, fun g' hg' => ⟨trivial, ?_⟩⟩ not_false
    rw [Only.acked hg']
    exact List.Subset.refl _
  | flushing k must op => exact moves_flushing root hgood hsettled h
  | serialized must image | stored must image =>
    rw [advance]
    split
    · exact moves_leave trivial not_false
    · exact .leave ⟨rfl, rfl, rfl⟩ h not_false
  | published must image => exact .leave ⟨rfl, rfl, rfl⟩ h not_false
  | flushed must image | failed => exact moves_leave h not_false

/-! ## What every settled step keeps -/

omit [DecidableEq R]

variable {s s' : HotSwap W R} {t t' : Task W R}

theorem Good.moves (hmoves : Moves s t s' t') (h : Good s) : Good s' := by
  obtain ⟨g, honly, hg⟩ := h
  cases hmoves with
  | work flushes hgraphs hstep hin =>
    obtain rfl := List.singleton_injective (honly.graphs.symm.trans hgraphs)
    exact ⟨_, ⟨rfl, honly.inner, honly.swapping⟩, hg.step hstep (hin.2 _ honly.graphs).1⟩
  | leave hsame _ _ =>
    exact ⟨g, ⟨hsame.graphs.trans honly.graphs, hsame.inner.trans honly.inner,
      hsame.swapping.trans honly.swapping⟩, hg⟩

theorem Inside.work {g g' : Adapter W} {op op' : Caller W} (hgraphs : s.graphs = [g])
    (hgood : Adapter.Good g) (hstep : Adapter.Step g op g' op') (h : Inside s 0 must op) :
    Inside { s with graphs := [g'] } 0 must op' := by
  obtain ⟨hlocal, hcarries⟩ := h.2 g hgraphs
  refine ⟨rfl, fun g'' hg'' => ?_⟩
  obtain rfl := List.singleton_injective hg''
  exact ⟨hlocal.own hstep hgood, hcarries.own hstep⟩

theorem Inside.other {g g' : Adapter W} {op op' u : Caller W} (hgraphs : s.graphs = [g])
    (hop : Adapter.Local g op) (hstep : Adapter.Step g op g' op') (hapart : Adapter.Apart op u)
    (h : Inside s k must u) :
    Inside { s with graphs := [g'] } k must u := by
  obtain ⟨hlocal, hcarries⟩ := h.2 g hgraphs
  refine ⟨h.1, fun g'' hg'' => ?_⟩
  obtain rfl := List.singleton_injective hg''
  exact ⟨Adapter.Local.other hstep hop hapart hlocal, hcarries.other hstep⟩

theorem Inside.congr {u : Caller W} (hgraphs : s'.graphs = s.graphs) (h : Inside s k must u) :
    Inside s' k must u := ⟨h.1, fun g hg => h.2 g (hgraphs.symm.trans hg)⟩

theorem Local.own (hmoves : Moves s t s' t') (hgood : Good s) : Local s' t' := by
  cases hmoves with
  | work flushes hgraphs hstep hin =>
    obtain ⟨g, honly, hg⟩ := hgood
    obtain rfl := List.singleton_injective (honly.graphs.symm.trans hgraphs)
    exact local_inside.mpr (hin.work hgraphs hg hstep)
  | leave _ hlocal _ => exact hlocal

variable {u : Task W R}

theorem Local.mono (hacked : s.acked ⊆ s'.acked)
    (hinside : ∀ k must op, (u = .running k must op ∨ u = .flushing k must op) →
      Inside s k must op → Inside s' k must op)
    (h : Local s u) : Local s' u := by
  cases u with
  | polled op must current | same op must => exact ⟨h.1, List.Subset.trans h.2 hacked⟩
  | running k must op => exact hinside k must op (.inl rfl) h
  | flushing k must op => exact hinside k must op (.inr rfl) h
  | _ => exact h

theorem Local.other (hmoves : Moves s t s' t') (hapart : Apart t u) (h : Local s u) :
    Local s' u := by
  cases hmoves with
  | work flushes hgraphs hstep hin =>
    refine h.mono ?_ fun k must op hu hinside => ?_
    · rw [Only.acked hgraphs, Only.acked rfl]
      exact hstep.map_acked
    · refine hinside.other hgraphs (hin.2 _ hgraphs).1 hstep fun hboth =>
        hapart ⟨refreshes_inside.mpr hboth.1, ?_⟩
      rcases hu with rfl | rfl
      · exact hboth.2
      · exact hboth.2
  | leave hsame _ _ =>
    refine h.mono ?_ fun k must op _ hinside => hinside.congr hsame.graphs
    rw [HotSwap.acked, HotSwap.acked, hsame.graphs]
    exact List.Subset.refl _

theorem Local.locked (hgraphs : s.graphs = [g]) (h : Local s u) (hu : Refreshes u) :
    g.locked = true := by
  cases u with
  | running k must op | flushing k must op => exact (h.2 g hgraphs).1.locked hu
  | _ => exact hu.elim

theorem Apart.moves (hmoves : Moves s t s' t') (hu : Local s u) (h : Apart t u) : Apart t' u := by
  rintro ⟨ht', hrefreshes⟩
  cases hmoves with
  | work flushes hgraphs hstep hin =>
    rcases hstep.refreshes (refreshes_inside.mp ht') with hop | hfree
    · exact h ⟨refreshes_inside.mpr hop, hrefreshes⟩
    · exact Bool.noConfusion ((hu.locked hgraphs hrefreshes).symm.trans hfree)
  | leave _ _ hnot => exact hnot ht'

theorem Apart.symm {t u : Task W R} (h : Apart t u) : Apart u t := fun hboth => h hboth.symm

theorem keeps [DecidableEq R] {root : Image W → R} :
    Pool.KeepsWhen (program root) Settled Good Local Apart where
  enter call s _ := by
    cases call with
    | read => exact .inl rfl
    | write w => exact .inr ⟨w, rfl⟩
    | flush => trivial
  enterPair call u := by
    have hnot : ¬ Refreshes ((program root).enter call) := by cases call <;> exact id
    exact ⟨fun hboth => hnot hboth.1, fun hboth => hnot hboth.2⟩
  shared _ _ _ hsettled hgood ht := hgood.moves (moves_advance root hgood hsettled ht)
  own _ _ _ hsettled hgood ht := Local.own (moves_advance root hgood hsettled ht) hgood
  other _ _ _ _ hsettled hgood ht hu hapart _ :=
    hu.other (moves_advance root hgood hsettled ht) hapart
  pair _ _ _ _ hsettled hgood ht hu hapart _ := by
    have hpair := hapart.moves (moves_advance root hgood hsettled ht) hu
    exact ⟨hpair, hpair.symm⟩

theorem inv_start (root : Image W → R) (poolSize made : Nat) :
    Pool.Inv Good Local Apart (start root poolSize made) := by
  refine ⟨⟨Adapter.build poolSize made [], ⟨rfl, rfl, rfl⟩, Adapter.good_build poolSize made []⟩,
    ?_, ?_⟩
  · intro i t hi
    simp [start] at hi
  · intro i j t u _ hi _
    simp [start] at hi

/-! ## Flushing loses no write -/

/-- A read that has answered did so from an image with every write promised before it began,
and so has the image with which a flush has answered. -/
def KeepsWrites (w : World W R) : Prop :=
  (∀ (i k : Nat) (must m : List W) (image : Image W),
      w.callers[i]? = some (.running k must (.answered m image)) → must ⊆ image) ∧
    ∀ (i : Nat) (must : List W) (image : Image W),
      w.callers[i]? = some (.published must image) ∨ w.callers[i]? = some (.flushed must image) →
      must ⊆ image

theorem keepsWrites_of_inv {w : World W R} (h : Pool.Inv Good Local Apart w) : KeepsWrites w := by
  obtain ⟨g, honly, -⟩ := h.shared
  constructor
  · intro i k must m image hi
    obtain ⟨hsub, hcarries⟩ := (h.each i _ hi).2 g honly.graphs
    exact List.Subset.trans hcarries hsub
  · intro i must image hi
    rcases hi with hi | hi
    · exact h.each i _ hi
    · exact h.each i _ hi

/-- The step that publishes leaves in the arena, under the root it has set, an image with every
write promised before the flush began. -/
def Publishes (root : Image W → R) (env : Env) (s : HotSwap W R) : Task W R → Prop
  | .stored must image => env.answer ≠ .error →
    let published := (advance root env s (.stored must image)).1
    published.currentRoot = root published.arena ∧ must ⊆ published.arena
  | _ => True

theorem publishes_of_settled [DecidableEq R] {root : Image W → R} (hsettled : Settled env s t)
    (h : Local s t) :
    Publishes root env s t := by
  cases t with
  | stored must image =>
    intro herror
    obtain rfl : s.arena = image := hsettled.resolve_left herror
    rw [advance, if_neg herror]
    exact ⟨rfl, h⟩
  | _ => trivial

/-- In every run whose steps are settled, flushing loses no write: no read that answers misses
one, and no flush publishes without one. -/
theorem flush_keeps_writes [DecidableEq R] (root : Image W → R) (poolSize made : Nat)
    (actions : List (Pool.Action (Call W) Env))
    (hsettled : Pool.Along (program root) (Pool.Meets Settled) (start root poolSize made) actions) :
    KeepsWrites (Pool.run (program root) (start root poolSize made) actions) ∧
      Pool.Along (program root) (Pool.Meets (Publishes root))
      (start root poolSize made) actions := by
  have hstart := inv_start root poolSize made
  refine ⟨keepsWrites_of_inv (hstart.along keeps hsettled), ?_⟩
  refine hsettled.within (fun w a hw ha => hw.nextWhen keeps ha) (fun w a hw ha => ?_) hstart
  cases a with
  | call c => trivial
  | step i env => exact fun t hi => publishes_of_settled (ha t hi) (hw.each i t hi)

def steps (i n : Nat) : List (Pool.Action (Call Nat) Env) := List.replicate n (.step i ⟨.ok, 1, 1⟩)

def flushThenRead : List (Pool.Action (Call Nat) Env) :=
  .call (.write 7) :: steps 0 9 ++ .call .flush :: steps 1 6 ++ .call .read :: steps 2 7

theorem flush_keeps_writes_one :
    Pool.Along (program id) (Pool.Meets Settled) (start id 1 1) flushThenRead ∧
      (Pool.run (program id) (start id 1 1) flushThenRead).callers[1]? = some (.flushed [7] [7]) ∧
      KeepsWrites (Pool.run (program id) (start id 1 1) flushThenRead) ∧
      Pool.Along (program id) (Pool.Meets (Publishes id)) (start id 1 1) flushThenRead := by
  have hsettled : Pool.Along (program id) (Pool.Meets Settled)
      (start id 1 1) flushThenRead := by decide +kernel
  exact ⟨hsettled, by rfl, flush_keeps_writes id 1 1 flushThenRead hsettled⟩

/-- The first flush writes the arena when the second one, which has serialised more, has
written it and not yet published. -/
def overlapping : List (Pool.Action (Call Nat) Env) :=
  .call (.write 1) :: steps 0 9 ++ .call .flush :: steps 1 3 ++ .call (.write 2) :: steps 2 9 ++
    .call .flush :: steps 3 4 ++ steps 1 1 ++ steps 3 2

example : (Pool.run (program id) (start id 1 1) overlapping).shared.currentRoot = [1, 2] ∧
    (Pool.run (program id) (start id 1 1) overlapping).shared.arena = [1] := ⟨rfl, rfl⟩

/-- A flush has serialised the first write when the second one is made and returns. The flush
publishes, and a read polls before the flush has acknowledged its root. -/
def polledInBetween : List (Pool.Action (Call Nat) Env) :=
  .call (.write 1) :: steps 0 9 ++ .call .flush :: steps 1 4 ++ .call (.write 2) :: steps 2 9 ++
    steps 1 1 ++ .call .read :: steps 3 9

theorem flush_loses_write :
    ¬ KeepsWrites (Pool.run (program id) (start id 1 1) polledInBetween) := by
  intro h
  have hmust : ([1, 2] : List Nat) ⊆ [1] := h.1 3 1 [1, 2] [] [1] (by rfl)
  exact absurd (hmust (List.mem_cons_of_mem _ List.mem_cons_self)) (by decide)

end HotSwap

end LeyLine.Fs
