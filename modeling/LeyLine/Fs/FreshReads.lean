import LeyLine.Fs.ReaderPool

/-!
# A read sees the writes that returned before it

The generation is counted up before the bytes are replaced. A read that takes the new
generation and makes its copy in between makes it of the old bytes, and leaves it in the
pool under the generation of the new ones. Where no step does that, a copy of the current
generation has all that the bytes have, and every read answers from an image with the
writes promised before it.
-/

namespace LeyLine.Fs.Adapter

variable {W : Type}

/-- The steps that keep the pool fresh. No copy is made of the current generation between
counting it up and replacing the bytes, a write finds nothing to change only when every
write in the database has been refreshed, and the counter does not wrap. -/
def Calm (answer : Answer) (s : Adapter W) : Caller W → Prop
  | .making gen _ => answer ≠ .error → gen = s.readerGen → s.refreshing = false
  | .write _ => answer = .unchanged → s.locked = false → s.database ⊆ s.readerBytes
  | .serialized _ _ => s.readerGen + 1 < 2 ^ 64
  | _ => True

instance [DecidableEq W] (answer : Answer) (s : Adapter W) : ∀ t :
    Caller W, Decidable (Calm answer s t)
  | .making gen _ =>
    inferInstanceAs (Decidable (answer ≠ .error → gen = s.readerGen → s.refreshing = false))
  | .write _ =>
    inferInstanceAs (Decidable (answer = .unchanged → s.locked = false →
        s.database ⊆ s.readerBytes))
  | .serialized _ _ => inferInstanceAs (Decidable (s.readerGen + 1 < 2 ^ 64))
  | .read | .popping _ _ | .reading _ _ _ | .current _ _ _ | .answered _ _ | .applied _
  | .bumped _ _ | .drained _ _ | .written _ | .serialize | .failed => isTrue trivial

/-! ## What a step can do -/

inductive Step (s : Adapter W) : Caller W → Adapter W → Caller W → Prop
  | load : Step s .read s (.popping s.readerGen (s.acked.map Prod.fst))
  | take {image gen must readers} : s.readers = (image, gen) :: readers →
      Step s (.popping gen must) { s with readers } (.reading gen must image)
  | drop {image g gen must readers} : s.readers = (image, g) :: readers →
      Step s (.popping gen must) { s with readers } (.popping gen must)
  | empty {gen must} : Step s (.popping gen must) s (.making gen must)
  | make {gen must} : (gen = s.readerGen → s.refreshing = false) →
      Step s (.making gen must) s (.reading gen must s.readerBytes)
  | keep {gen must image} : Step s (.reading gen must image) s (.current gen must image)
  | leave {gen must image} : Step s (.reading gen must image) s (.answered must image)
  | push {gen must image} :
      Step s (.current gen must image) { s with readers := s.readers ++
      [(image, gen)] } (.answered must image)
  | full {gen must image} : Step s (.current gen must image) s (.answered must image)
  | apply {w} : s.locked = false →
      Step s (.write w) { s with database := s.database ++ [w] } (.applied w)
  | nothing {w} : s.locked = false → s.database ⊆ s.readerBytes →
      Step s (.write w) { s with acked := s.acked ++ s.database.map (·, s.readerGen) } (.written w)
  | refresh {w} : s.locked = false →
      Step s (.applied w) { s with locked := true } (.serialized w s.database)
  | bump {w bytes} :
      Step s (.serialized w bytes)
        { s with readerGen := s.readerGen + 1, refreshing := true } (.bumped w bytes)
  | drain {w bytes reader readers} : s.readers = reader :: readers →
      Step s (.bumped w bytes) { s with readers } (.bumped w bytes)
  | drained {w bytes} : Step s (.bumped w bytes) s (.drained w bytes)
  | finish {w bytes} : Step s (.drained w bytes) (s.finishRefresh w bytes) (.written w)
  | serialize : s.locked = false → Step s .serialize s (.answered (s.acked.map Prod.fst) s.database)
  | fail {t} : Step s t s .failed
  | wait {t} : Step s t s t

variable (s : Adapter W)

theorem step_pop (gen : Nat) (must : List W) :
    Step s (.popping gen must) (s.pop gen must).1 (s.pop gen must).2 := by
  rw [pop]
  split
  · exact .empty
  · rename_i image g readers hreaders
    by_cases hg : g = gen
    · subst hg
      rw [if_pos rfl]
      exact .take hreaders
    · rw [if_neg hg]
      exact .drop hreaders

theorem step_apply {s : Adapter W} (w : W) {answer : Answer} (hlocked : s.locked = false)
    (hcalm : Calm answer s (.write w)) :
    Step s (.write w) (s.apply w answer).1 (s.apply w answer).2 := by
  cases answer with
  | ok => exact .apply hlocked
  | unchanged => exact .nothing hlocked (hcalm rfl hlocked)
  | error => exact .fail

theorem step_advance {answer : Answer} {s : Adapter W} {t : Caller W} (hcalm : Calm answer s t) :
    Step s t (advance answer s t).1 (advance answer s t).2 := by
  cases t with
  | read => exact .load
  | popping gen must => exact step_pop s gen must
  | making gen must =>
    cases answer with
    | error => exact .fail
    | ok | unchanged => exact .make (hcalm nofun)
  | reading gen must image =>
    by_cases hgen : gen = s.readerGen
    · simp only [advance, if_pos hgen]
      exact .keep
    · simp only [advance, if_neg hgen]
      exact .leave
  | current gen must image =>
    rw [advance, Adapter.push]
    split
    · exact .push
    · exact .full
  | write w =>
    rcases hlocked : s.locked with _ | _
    · rw [advance, hlocked]
      exact step_apply w hlocked hcalm
    · rw [advance, hlocked]
      exact .wait
  | applied w =>
    rcases hlocked : s.locked with _ | _
    · cases answer with
      | error =>
        rw [advance, hlocked]
        exact .fail
      | ok | unchanged =>
        rw [advance, hlocked]
        exact .refresh hlocked
    · rw [advance, hlocked]
      exact .wait
  | serialized w bytes =>
    have hwrap : (s.readerGen + 1) % 2 ^ 64 = s.readerGen + 1 := Nat.mod_eq_of_lt hcalm
    simp only [advance, Adapter.bump, hwrap]
    exact .bump
  | bumped w bytes =>
    rw [advance, Adapter.drain]
    split
    · exact .drained
    · rename_i reader readers hreaders
      exact .drain hreaders
  | drained w bytes => exact .finish
  | serialize =>
    rcases hlocked : s.locked with _ | _
    · cases answer with
      | error =>
        rw [advance, hlocked]
        exact .fail
      | ok | unchanged =>
        rw [advance, hlocked]
        exact .serialize hlocked
    · rw [advance, hlocked]
      exact .wait
  | answered must image | written w | failed => exact .wait

/-! ## What every step keeps -/

/-- A copy of a generation has the writes promised up to that generation, and one of the
current generation all that the bytes have. -/
structure Fresh (s : Adapter W) (image : Image W) (gen : Nat) : Prop where
  le : gen ≤ s.readerGen
  sees : ∀ w a, (w, a) ∈ s.acked → a ≤ gen → w ∈ image
  current : gen = s.readerGen → s.refreshing = false ∧ s.readerBytes ⊆ image

structure Good (s : Adapter W) : Prop where
  acked : ∀ w a, (w, a) ∈ s.acked → a ≤ s.readerGen ∧ w ∈ s.readerBytes
  bytes : s.readerBytes ⊆ s.database
  free : s.locked = false → s.refreshing = false
  pool : ∀ reader ∈ s.readers, Fresh s reader.1 reader.2

/-- A refresh that holds the lock, with the database as it serialised it. -/
structure Holds (s : Adapter W) (w : W) (bytes : Image W) : Prop where
  locked : s.locked = true
  whole : bytes = s.database
  mem : w ∈ bytes

def Owes (gen : Nat) (must : List W) : Prop :=
  gen ≤ s.readerGen ∧ ∀ w ∈ must, ∃ a ≤ gen, (w, a) ∈ s.acked

def Local : Caller W → Prop
  | .popping gen must | .making gen must => Owes s gen must
  | .reading gen must image | .current gen must image => must ⊆ image ∧ Fresh s image gen
  | .answered must image => must ⊆ image
  | .applied w => w ∈ s.database
  | .serialized w bytes => Holds s w bytes ∧ s.refreshing = false
  | .bumped w bytes | .drained w bytes => Holds s w bytes ∧ s.refreshing = true
  | _ => True

/-- A caller inside `refresh_readers`. -/
def Refreshes : Caller W → Prop
  | .serialized _ _ | .bumped _ _ | .drained _ _ => True
  | _ => False

def Apart (t u : Caller W) : Prop := ¬ (Refreshes t ∧ Refreshes u)

theorem Local.locked {s : Adapter W} {t : Caller W} (h : Local s t) (ht : Refreshes t) :
    s.locked = true := by
  cases t with
  | serialized w bytes | bumped w bytes | drained w bytes => exact h.1.locked
  | _ => exact ht.elim

variable {image : Image W} {gen : Nat}

theorem Fresh.congr {s s' : Adapter W} (h : Fresh s image gen)
    (hgen : s'.readerGen = s.readerGen) (hacked : s'.acked = s.acked)
    (hbytes : s'.readerBytes = s.readerBytes)
    (hrefreshing : s'.refreshing = s.refreshing) : Fresh s' image gen := by
  refine ⟨hgen ▸ h.le, fun w a hw => h.sees w a (hacked ▸ hw), fun heq => ?_⟩
  obtain ⟨hcalm, hsub⟩ := h.current (heq.trans hgen)
  exact ⟨hrefreshing.trans hcalm, hbytes ▸ hsub⟩

variable {s s' : Adapter W} {t t' : Caller W}

theorem Fresh.step (hstep : Step s t s' t') (ht : Local s t)
    (h : Fresh s image gen) : Fresh s' image gen := by
  cases hstep with
  | nothing hlocked hrefreshed =>
    refine ⟨h.le, fun w a hw ha => ?_, h.current⟩
    rcases List.mem_append.mp hw with hw | hw
    · exact h.sees w a hw ha
    · obtain ⟨v, hv, heq⟩ := List.mem_map.mp hw
      cases heq
      exact (h.current (le_antisymm h.le ha)).2 (hrefreshed hv)
  | bump =>
    refine ⟨h.le.trans (Nat.le_succ _), h.sees, fun heq => ?_⟩
    have hle := h.le
    dsimp only at heq
    omega
  | finish =>
    -- a copy of the generation just counted up would have been made of the old bytes
    have hne : gen ≠ s.readerGen := fun heq => by
      have hcalm := (h.current heq).1
      rw [ht.2] at hcalm
      exact Bool.noConfusion hcalm
    refine ⟨h.le, fun w a hw ha => ?_, fun heq => absurd heq hne⟩
    rcases List.mem_append.mp hw with hw | hw
    · exact h.sees w a hw ha
    · cases List.mem_singleton.mp hw
      exact absurd (le_antisymm h.le ha) hne
  | _ => exact h.congr rfl rfl rfl rfl

theorem Step.readers (hstep : Step s t s' t') (ht : Local s t) :
    ∀ reader ∈ s'.readers, reader ∈ s.readers ∨ Fresh s reader.1 reader.2 := by
  cases hstep with
  | take h | drop h | drain h =>
    exact fun reader hreader => .inl (h ▸ List.mem_cons_of_mem _ hreader)
  | push =>
    exact List.forall_mem_append.mpr ⟨fun reader hreader => .inl hreader,
      List.forall_mem_singleton.mpr (.inr ht.2)⟩
  | _ => exact fun reader hreader => .inl hreader

theorem Good.step (hstep : Step s t s' t') (h : Good s) (ht : Local s t) : Good s' := by
  have hpool : ∀ reader ∈ s'.readers, Fresh s' reader.1 reader.2 := by
    intro reader hreader
    rcases hstep.readers ht reader hreader with hold | hnew
    · exact (h.pool reader hold).step hstep ht
    · exact hnew.step hstep ht
  cases hstep with
  | apply hlocked => exact ⟨h.acked, fun w hw => List.mem_append_left _ (h.bytes hw), h.free, hpool⟩
  | nothing hlocked hrefreshed =>
    refine ⟨fun w a hw => ?_, h.bytes, h.free, hpool⟩
    rcases List.mem_append.mp hw with hw | hw
    · exact h.acked w a hw
    · obtain ⟨v, hv, heq⟩ := List.mem_map.mp hw
      cases heq
      exact ⟨le_refl _, hrefreshed hv⟩
  | refresh hlocked => exact ⟨h.acked, h.bytes, nofun, hpool⟩
  | bump =>
    refine ⟨fun w a hw => ?_, h.bytes, fun hfree => ?_, hpool⟩
    · exact ⟨(h.acked w a hw).1.trans (Nat.le_succ _), (h.acked w a hw).2⟩
    · exact Bool.noConfusion (ht.1.locked.symm.trans hfree)
  | finish =>
    obtain ⟨hholds, -⟩ := ht
    refine ⟨fun w a hw => ?_, hholds.whole ▸ List.Subset.refl _, fun _ => rfl, hpool⟩
    rcases List.mem_append.mp hw with hw | hw
    · have hold := h.acked w a hw
      exact ⟨hold.1, hholds.whole ▸ h.bytes hold.2⟩
    · cases List.mem_singleton.mp hw
      exact ⟨le_refl _, hholds.mem⟩
  | _ => exact ⟨h.acked, h.bytes, h.free, hpool⟩

theorem Step.grows (hstep : Step s t s' t') :
    s.readerGen ≤ s'.readerGen ∧ s.acked ⊆ s'.acked ∧ s.database ⊆ s'.database := by
  cases hstep with
  | apply _ => exact ⟨le_refl _, List.Subset.refl _, List.subset_append_left _ _⟩
  | nothing _ _ | finish => exact ⟨le_refl _, List.subset_append_left _ _, List.Subset.refl _⟩
  | bump => exact ⟨Nat.le_succ _, List.Subset.refl _, List.Subset.refl _⟩
  | _ => exact ⟨le_refl _, List.Subset.refl _, List.Subset.refl _⟩

theorem Owes.step (hstep : Step s t s' t') {must : List W} (h : Owes s gen must) :
    Owes s' gen must := by
  obtain ⟨hgen, hacked, -⟩ := hstep.grows
  refine ⟨h.1.trans hgen, fun w hw => ?_⟩
  obtain ⟨a, ha, hmem⟩ := h.2 w hw
  exact ⟨a, ha, hacked hmem⟩

theorem owes_acked (h : Good s) : Owes s s.readerGen (s.acked.map Prod.fst) := by
  refine ⟨le_refl _, fun w hw => ?_⟩
  obtain ⟨⟨v, a⟩, hmem, rfl⟩ := List.mem_map.mp hw
  exact ⟨a, (h.acked v a hmem).1, hmem⟩

theorem fresh_readerBytes (h : Good s) (hle : gen ≤ s.readerGen)
    (hcalm : gen = s.readerGen → s.refreshing = false) : Fresh s s.readerBytes gen :=
  ⟨hle, fun w a hw _ => (h.acked w a hw).2, fun heq => ⟨hcalm heq, List.Subset.refl _⟩⟩

theorem Owes.subset {must : List W} (h : Owes s gen must) (hfresh : Fresh s image gen) :
    must ⊆ image := by
  intro w hw
  obtain ⟨a, ha, hmem⟩ := h.2 w hw
  exact hfresh.sees w a hmem ha

theorem Local.own (hstep : Step s t s' t') (hgood : Good s) (h : Local s t) : Local s' t' := by
  cases hstep with
  | load => exact owes_acked hgood
  | take hreaders =>
    have hfresh := hgood.pool _ (hreaders ▸ List.mem_cons_self)
    exact ⟨h.subset hfresh, hfresh.congr rfl rfl rfl rfl⟩
  | make hcalm =>
    have hfresh := fresh_readerBytes hgood h.1 hcalm
    exact ⟨h.subset hfresh, hfresh⟩
  | leave | push | full => exact h.1
  | apply _ => exact List.mem_append_right _ (List.mem_singleton_self _)
  | refresh hlocked => exact ⟨⟨rfl, rfl, h⟩, hgood.free hlocked⟩
  | bump => exact ⟨⟨h.1.locked, h.1.whole, h.1.mem⟩, rfl⟩
  | drain _ => exact ⟨⟨h.1.locked, h.1.whole, h.1.mem⟩, h.2⟩
  | serialize _ =>
    intro w hw
    obtain ⟨⟨v, a⟩, hmem, rfl⟩ := List.mem_map.mp hw
    exact hgood.bytes (hgood.acked v a hmem).2
  | nothing _ _ | finish | fail => trivial
  | _ => exact h

theorem Step.locked (hstep : Step s t s' t') (hlocked : s.locked = true) (ht : ¬ Refreshes t) :
    s'.locked = true ∧ s'.refreshing = s.refreshing ∧ s'.database = s.database := by
  cases hstep with
  | apply hfree | nothing hfree _ | refresh hfree =>
    exact Bool.noConfusion (hlocked.symm.trans hfree)
  | bump | drain _ | finish => exact absurd trivial ht
  | _ => exact ⟨hlocked, rfl, rfl⟩

theorem Holds.other (hstep : Step s t s' t') (ht : ¬ Refreshes t) {w : W} {bytes : Image W}
    (h : Holds s w bytes) :
    Holds s' w bytes ∧ s'.refreshing = s.refreshing := by
  obtain ⟨hlocked, hrefreshing, hdatabase⟩ := hstep.locked h.locked ht
  exact ⟨⟨hlocked, h.whole.trans hdatabase.symm, h.mem⟩, hrefreshing⟩

variable {u : Caller W}

theorem Local.other (hstep : Step s t s' t') (ht : Local s t) (hapart : Apart t u)
    (h : Local s u) : Local s' u := by
  have hnot : Refreshes u → ¬ Refreshes t := fun hu ht => hapart ⟨ht, hu⟩
  cases u with
  | popping gen must | making gen must => exact Owes.step hstep h
  | reading gen must image | current gen must image => exact ⟨h.1, h.2.step hstep ht⟩
  | applied w => exact hstep.grows.2.2 h
  | serialized w bytes | bumped w bytes | drained w bytes =>
    obtain ⟨hholds, hsame⟩ := h.1.other hstep (hnot trivial)
    exact ⟨hholds, hsame.trans h.2⟩
  | answered must image => exact h
  | read | write w | written w | serialize | failed => trivial

theorem Step.refreshes (hstep : Step s t s' t') (ht' : Refreshes t') :
    Refreshes t ∨ s.locked = false := by
  cases hstep with
  | refresh hfree => exact .inr hfree
  | bump | drain _ | drained => exact .inl trivial
  | wait => exact .inl ht'
  | _ => exact ht'.elim

theorem Apart.step (hstep : Step s t s' t') (hu : Local s u) (h : Apart t u) : Apart t' u := by
  rintro ⟨ht', hrefreshes⟩
  rcases hstep.refreshes ht' with ht | hfree
  · exact h ⟨ht, hrefreshes⟩
  · exact Bool.noConfusion ((hu.locked hrefreshes).symm.trans hfree)

theorem Apart.symm {t u : Caller W} (h : Apart t u) : Apart u t := fun hboth => h hboth.symm

theorem keeps : Pool.KeepsWhen (program (W := W)) Calm Good Local Apart where
  enter op s _ := by cases op <;> trivial
  enterPair op u := by
    have hnot : ¬ Refreshes (program.enter op) := by cases op <;> exact id
    exact ⟨fun hboth => hnot hboth.1, fun hboth => hnot hboth.2⟩
  shared _ _ _ hcalm hgood ht := hgood.step (step_advance hcalm) ht
  own _ _ _ hcalm hgood ht := ht.own (step_advance hcalm) hgood
  other _ _ _ _ hcalm _ ht hu hapart _ := Local.other (step_advance hcalm) ht hapart hu
  pair _ _ _ _ hcalm _ _ hu hapart _ := by
    have hpair := hapart.step (step_advance hcalm) hu
    exact ⟨hpair, hpair.symm⟩

abbrev Inv (w : World W) : Prop := Pool.Inv Good Local Apart w

theorem good_build (poolSize made : Nat) (database : Image W) :
    Good (Adapter.build poolSize made database) := by
  refine ⟨nofun, List.Subset.refl _, fun _ => rfl, fun reader hreader => ?_⟩
  rw [List.eq_of_mem_replicate hreader]
  exact ⟨le_refl _, nofun, fun _ => ⟨rfl, List.Subset.refl _⟩⟩

theorem inv_start (poolSize made : Nat) : Inv (start poolSize made : World W) := by
  refine ⟨good_build poolSize made [], ?_, ?_⟩
  · intro i t hi
    simp [start] at hi
  · intro i j t u _ hi _
    simp [start] at hi

/-! ## Reads -/

/-- A read that has answered did so from an image with every write promised before it began,
and a copy in the pool under the current generation has every write promised by now. -/
def SeesFinished (w : World W) : Prop :=
  (∀ (i : Nat) (must : List W) (image : Image W), w.callers[i]? = some (.answered must image) →
    must ⊆ image) ∧
    ∀ reader ∈ w.shared.readers, reader.2 = w.shared.readerGen →
    w.shared.acked.map Prod.fst ⊆ reader.1

theorem Inv.seesFinished {w : World W} (h : Inv w) : SeesFinished w := by
  refine ⟨fun i must image hi => h.each i _ hi, fun reader hreader hgen v hv => ?_⟩
  obtain ⟨⟨u, a⟩, hmem, rfl⟩ := List.mem_map.mp hv
  have hfresh := h.shared.pool reader hreader
  exact hfresh.sees u a hmem (hgen ▸ (h.shared.acked u a hmem).1)

/-- In every run whose steps are calm, reads see the writes that returned before them. -/
theorem reads_see_finished (poolSize made : Nat) (actions : List (Pool.Action (Op W) Answer))
    (hcalm : Pool.Along program (Pool.Meets Calm) (start poolSize made) actions) :
    SeesFinished (Pool.run program (start poolSize made) actions) :=
  Inv.seesFinished ((inv_start poolSize made).along keeps hcalm)

def writeThenRead : List (Pool.Action (Op Nat) Answer) :=
  .call (.write 7) :: List.replicate 6 (.step 0 .ok) ++
    .call .read :: List.replicate 5 (.step 1 .ok)

theorem reads_see_finished_one : Pool.Along program (Pool.Meets Calm) (start 1 1) writeThenRead ∧
      (Pool.run program (start 1 1) writeThenRead).callers[1]? = some (.answered [7] [7]) ∧
      SeesFinished (Pool.run program (start 1 1) writeThenRead) := by
  have hcalm : Pool.Along program (Pool.Meets Calm) (start 1 1) writeThenRead := by decide +kernel
  exact ⟨hcalm, by decide +kernel, reads_see_finished 1 1 writeThenRead hcalm⟩

/-- Between counting the generation up and replacing the bytes, a read makes its copy and
puts it in the pool. A second read, begun after the write has returned, takes that copy. -/
def madeInBetween : List (Pool.Action (Op Nat) Answer) :=
  .call (.write 7) :: List.replicate 5 (.step 0 .ok) ++
    .call .read :: List.replicate 5 (.step 1 .ok) ++
    .step 0 .ok :: .call .read :: List.replicate 4 (.step 2 .ok)

theorem read_misses_finished : ¬ SeesFinished (Pool.run program (start 1 1) madeInBetween) := by
  intro h
  have hmust : ([7] : List Nat) ⊆ [] := h.1 2 [7] [] (by decide +kernel)
  exact absurd (hmust List.mem_cons_self) List.not_mem_nil

end LeyLine.Fs.Adapter
