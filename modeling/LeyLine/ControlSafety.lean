import LeyLine.Control

/-!
# Publication is safe under its condition

`Inv` is what every clean step keeps: at an even counter the payload is a
published one, the stores a publisher has made are in memory, and every copy in
progress tracks the memory. From it, no reader is told a root that no call stored
in full (`safe_of_clean_run`). Without the condition it is:
`setArena_publishes_torn_root` runs a call that leaves the root alone over a root
a dead publisher tore.
-/

namespace LeyLine.Control

def World.Good (w : World) (s : Snapshot) : Prop := s.root = zeroRoot ∨ w.Published s

def World.Holder (w : World) (p : Publisher) : Prop :=
  p.call ∈ w.calls ∧ p.call.path.length < arenaPathLen ∧ ∀ rest, p.phase = .storing rest →
    w.seq % 2 = 1 ∧
      ∃ done, p.call.stores = done ++ rest ∧ Seqlock.Stored w.mem done ∧
        (rest = [] → ∀ r, p.call.root = some r → r ∈ w.written)

def World.Reads (w : World) (r : Reader) : Prop :=
  (∀ s, r.last = some s → w.Good s) ∧
    ∀ c, r.pc = .copying c → c.start % 2 = 0 ∧ c.Tracks payloadAddr w.seq w.mem

structure Inv (w : World) : Prop where
  payload_good : w.seq % 2 = 0 → w.Good (payload w.mem)
  publisher : ∀ p, w.publisher = some p → w.Holder p
  readers : ∀ r ∈ w.readers, w.Reads r
  answers : ∀ s ∈ w.answers, w.Good s

variable {w w' : World}

theorem World.Good.mono {s : Snapshot} (h : w.Good s) (hcalls : w.calls ⊆ w'.calls)
    (hwritten : w.written ⊆ w'.written) : w'.Good s := by
  rcases h with h | ⟨⟨r, hr, hroot⟩, p, hp, hpath⟩
  · exact .inl h
  · exact .inr ⟨⟨r, hwritten hr, hroot⟩, p, hcalls hp, hpath⟩

theorem World.Reads.mono {r : Reader} (h : w.Reads r) (hcalls : w.calls ⊆ w'.calls)
    (hwritten : w.written ⊆ w'.written)
    (htracks : ∀ c : Seqlock.Copy UInt8, c.start % 2 = 0 → c.Tracks payloadAddr w.seq w.mem →
      c.Tracks payloadAddr w'.seq w'.mem) : w'.Reads r :=
  ⟨fun s hs => (h.1 s hs).mono hcalls hwritten,
    fun c hc => ⟨(h.2 c hc).1, htracks c (h.2 c hc).1 (h.2 c hc).2⟩⟩

theorem inv_init : Inv World.init where
  payload_good := fun _ => .inl (by rw [payload_root]; decide)
  publisher := fun p h => by simp [World.init] at h
  readers := fun r h => by simp [World.init] at h
  answers := fun s h => by simp [World.init] at h

/-! ## The publisher's steps -/

theorem Inv.take {p : Publish} (h : Inv w) (hs : step w (.take p) = some w') : Inv w' := by
  simp only [step] at hs
  split at hs
  · rename_i hguard
    cases hs
    refine ⟨fun heven => (h.payload_good heven).mono (List.subset_cons_self _ _) (fun _ => id),
      fun q hq => ?_, fun r hr => (h.readers r hr).mono (List.subset_cons_self _ _) (fun _ => id)
        (fun _ _ => id), fun s hs => (h.answers s hs).mono (List.subset_cons_self _ _)
        (fun _ => id)⟩
    cases hq
    exact ⟨List.mem_cons_self, hguard.2.1, fun rest hrest => by simp at hrest⟩
  · simp at hs

theorem counter_mod_two (w : World) : w.counter % 2 = w.seq % 2 :=
  Nat.mod_mod_of_dvd w.seq (by decide)

theorem Publish.stores_ne_nil (p : Publish) : p.stores ≠ [] := by
  have hsize : (offArenaPath + p.path.length, 0) ∈ p.stores :=
    List.mem_append_left _ (List.mem_append_left _ (List.mem_append_right _ List.mem_cons_self))
  exact List.ne_nil_of_mem hsize

theorem Inv.seqBegin (h : Inv w) (hs : step w .seqBegin = some w') : Inv w' := by
  simp only [step] at hs
  split at hs
  · rename_i p hpub
    cases hs
    rw [counter_mod_two]
    obtain ⟨hcall, hlen, -⟩ := h.publisher _ hpub
    have hodd : (if w.seq % 2 = 1 then w.seq else w.seq + 1) % 2 = 1 := by
      split <;> omega
    refine ⟨fun heven => ?_, fun q hq => ?_, fun r hr => ?_, h.answers⟩
    · simp only at heven
      omega
    · cases hq
      refine ⟨hcall, hlen, fun rest hrest => ⟨hodd, [], ?_, nofun, fun hnil => ?_⟩⟩
      · simpa using hrest
      · obtain rfl : p.stores = rest := by simpa using hrest
        exact absurd hnil p.stores_ne_nil
    · refine (h.readers r hr).mono (fun _ => id) (fun _ => id) fun c _ hc => ?_
      simp only
      split
      · exact hc
      · exact hc.bump (by omega)
  · simp at hs

theorem Inv.store (h : Inv w) (hs : step w .store = some w') : Inv w' := by
  simp only [step] at hs
  split at hs
  · rename_i p a b rest hpub
    cases hs
    obtain ⟨hcall, hlen, hphase⟩ := h.publisher _ hpub
    obtain ⟨hodd, done, hstores, hdone, -⟩ := hphase _ rfl
    have hwritten : w.written ⊆ if rest = [] then p.root.toList ++ w.written else w.written := by
      split
      · exact List.subset_append_right _ _
      · exact fun _ => id
    refine ⟨fun heven => ?_, fun q hq => ?_, fun r hr => ?_, fun s hs =>
      (h.answers s hs).mono (fun _ => id) hwritten⟩
    · simp only at heven
      omega
    · cases hq
      refine ⟨hcall, hlen, fun rest' hrest => ⟨hodd, done ++ [(a, b)], ?_, ?_, fun hnil r hr => ?_⟩⟩
      · obtain rfl : rest = rest' := by simpa using hrest
        rw [hstores, List.append_assoc]
        rfl
      · refine hdone.store fun x hx => ?_
        have hpair := p.pairwise_stores hlen
        rw [hstores] at hpair
        exact (List.pairwise_append.mp hpair).2.2 x hx (a, b) List.mem_cons_self
      · obtain rfl : rest = rest' := by simpa using hrest
        simp only at hr
        simp only [hnil, if_true, hr]
        exact List.mem_append_left _ List.mem_cons_self
    · refine (h.readers r hr).mono (fun _ => id) hwritten fun c hc htr => htr.store ?_
      omega
  · simp at hs

theorem Inv.seqEnd (h : Inv w) (hclean : Clean w .seqEnd) (hs : step w .seqEnd = some w') :
    Inv w' := by
  simp only [step] at hs
  split at hs
  · rename_i p hpub
    cases hs
    obtain ⟨hcall, hlen, hphase⟩ := h.publisher _ hpub
    obtain ⟨hodd, done, hstores, hdone, hroot⟩ := hphase _ rfl
    rw [List.append_nil] at hstores
    rw [← hstores, Publish.stores] at hdone
    have hpath := payload_of_stored hlen fun x hx => hdone x (List.mem_append_left _ hx)
    refine ⟨fun _ => ?_, fun q hq => ?_, fun r hr => ?_, h.answers⟩
    · -- the root is the one just stored, or the one the condition vouches for
      cases hr : p.root with
      | some r =>
        refine .inr ⟨⟨r, hroot rfl r hr, ?_⟩, p, hcall, hpath⟩
        have hstored : Seqlock.Stored w.mem (copyIn offCurrentRoot r.bytes) := fun x hx =>
          hdone x (List.mem_append_right _ (by rw [hr]; exact hx))
        have hread := map_range_of_stored hstored
        rw [r.length_eq] at hread
        exact (payload_root w).trans hread
      | none =>
        rcases hclean _ hpub hr with hz | ⟨r, hmem, hr⟩
        · exact .inl ((payload_root w).trans hz)
        · exact .inr ⟨⟨r, hmem, (payload_root w).trans hr⟩, p, hcall, hpath⟩
    · cases hq
      exact ⟨hcall, hlen, fun rest hrest => by simp at hrest⟩
    · exact (h.readers r hr).mono (fun _ => id) (fun _ => id) fun c _ hc => hc.bump (by simp)
  · simp at hs

theorem Inv.release (h : Inv w) : Inv { w with publisher := none } :=
  ⟨h.payload_good, fun p hp => by simp at hp, h.readers, h.answers⟩

/-! ## The reader's steps -/

theorem World.Reads.of_last {r : Reader} (h : w.Reads r) {pc : ReaderAt}
    (hpc : ∀ c, pc ≠ .copying c) : w.Reads ⟨r.last, pc⟩ :=
  ⟨h.1, fun c hc => absurd hc (hpc c)⟩

theorem readerStep_good {r r' : Reader} {a : ReaderAction} {ans : Option Snapshot} (h : Inv w)
    (hr : w.Reads r) (hclean : a = .check → ∀ c, r.pc = .copying c → w.seq < c.start + 2 ^ 64)
    (hs : readerStep w r a = some (r', ans)) : w.Reads r' ∧ ∀ s, ans = some s → w.Good s := by
  cases a with
  | load =>
    simp only [readerStep] at hs
    split at hs
    · split at hs
      · cases hs
        exact ⟨hr.of_last (by simp), by simp⟩
      · rename_i heven
        rw [counter_mod_two] at heven
        cases hs
        refine ⟨⟨hr.1, fun c hc => ?_⟩, by simp⟩
        obtain rfl := ReaderAt.copying.inj hc
        exact ⟨by simp only; omega, Seqlock.Copy.tracks_start⟩
    · simp at hs
  | read =>
    simp only [readerStep] at hs
    split at hs
    · rename_i c hpc
      split at hs
      · cases hs
        refine ⟨⟨hr.1, fun c' hc' => ?_⟩, by simp⟩
        obtain rfl := ReaderAt.copying.inj hc'
        exact ⟨(hr.2 c hpc).1, (hr.2 c hpc).2.read⟩
      · simp at hs
    · simp at hs
  | check =>
    simp only [readerStep] at hs
    split at hs
    · rename_i c hpc
      split at hs
      · rename_i hlen
        split at hs
        · rename_i heq
          cases hs
          obtain ⟨heven, htracks⟩ := hr.2 c hpc
          obtain ⟨hseq, hvalues⟩ := htracks.accept heq (hclean rfl c hpc)
          -- the counter never moved, so the copy is the payload at rest
          have hgood : w.Good (.ofBytes c.values) := by
            have hpay := h.payload_good (by omega)
            rwa [payload, ← hlen, ← hvalues] at hpay
          refine ⟨⟨fun s hs => ?_, fun c hc => by simp at hc⟩, fun s hs => ?_⟩
          · cases hs
            exact hgood
          · cases hs
            exact hgood
        · cases hs
          exact ⟨hr.of_last (by simp), by simp⟩
      · simp at hs
    · simp at hs
  | probe | reload =>
    simp only [readerStep] at hs
    split at hs
    · split at hs <;>
      · cases hs
        exact ⟨hr.of_last (by simp), by simp⟩
    · simp at hs
  | probeFails =>
    simp only [readerStep] at hs
    split at hs
    · cases hs
      exact ⟨hr.of_last (by simp), by simp⟩
    · simp at hs
  | readHeld =>
    simp only [readerStep] at hs
    split at hs
    · split at hs
      · cases hs
        exact ⟨hr.of_last (by simp), by simp⟩
      · simp at hs
    · simp at hs
  | answer =>
    simp only [readerStep] at hs
    split at hs
    · split at hs
      · cases hs
        refine ⟨hr.of_last (by simp), fun s hs => ?_⟩
        cases hs
        cases hlast : r.last with
        | some s => exact hr.1 s hlast
        | none => exact .inl rfl
      · simp at hs
    · simp at hs
  | close =>
    cases hs
    exact ⟨⟨fun s hs => by simp at hs, fun c hc => by simp at hc⟩, by simp⟩

theorem Inv.reader {i : Nat} {a : ReaderAction} (h : Inv w) (hclean : Clean w (.reader i a))
    (hs : step w (.reader i a) = some w') : Inv w' := by
  simp only [step, Option.bind_eq_bind, Option.bind_eq_some_iff] at hs
  obtain ⟨r, hr, ⟨r', ans⟩, hstep, hs⟩ := hs
  cases hs
  have hmem : r ∈ w.readers := List.mem_of_getElem? hr
  obtain ⟨hreads, hans⟩ := readerStep_good h (h.readers r hmem)
    (fun ha c hc => by subst ha; exact hclean r c hr hc) hstep
  refine ⟨h.payload_good, h.publisher, fun x hx => ?_, fun s hs => ?_⟩
  · rcases List.mem_or_eq_of_mem_set hx with hx | rfl
    · exact h.readers x hx
    · exact hreads
  · rcases List.mem_append.mp hs with hs | hs
    · exact hans s (by simpa using hs)
    · exact h.answers s hs

/-! ## Whole runs -/

theorem Inv.step {a : Action} (h : Inv w) (hclean : Clean w a)
    (hs : Control.step w a = some w') : Inv w' := by
  cases a with
  | take p => exact h.take hs
  | seqBegin => exact h.seqBegin hs
  | store => exact h.store hs
  | seqEnd => exact h.seqEnd hclean hs
  | unlock | die =>
    simp only [Control.step] at hs
    split at hs
    · cases hs
      exact h.release
    · simp at hs
  | openReader =>
    cases hs
    refine ⟨h.payload_good, h.publisher, fun r hr => ?_, h.answers⟩
    rcases List.mem_append.mp hr with hr | hr
    · exact h.readers r hr
    · rw [List.mem_singleton.mp hr]
      exact ⟨fun s hs => by simp at hs, fun c hc => by simp at hc⟩
  | reader i a => exact h.reader hclean hs

def CleanStep (w : World) (a : Action) (w' : World) : Prop :=
  Clean w a ∧ Control.step w a = some w'

/-- **Publication is safe in every clean run**: in any interleaving of readers
and publishers that die where they may, a non-zero root a reader is told was
stored in full, with the path and size of one call. -/
theorem safe_of_clean_run (actions : List Action) (w : World)
    (hrun : Steps CleanStep World.init actions w) : w.Safe := by
  have hinv : Inv w := hrun.invariant (fun _ _ _ hs h => h.step hs.1 hs.2) inv_init
  intro s hs hroot
  exact (hinv.answers s hs).resolve_left hroot

/-! ## A reader on its own -/

def snapshotOnce (i : Nat) : List Action :=
  [.openReader, .reader i .load] ++ List.replicate payloadLen (.reader i .read) ++
    [.reader i .check]

theorem steps_read {i : Nat} {last : Option Snapshot} {start : Nat} :
    ∀ (n : Nat) (values : Bytes) (w : World),
      w.readers[i]? = some ⟨last, .copying ⟨start, values⟩⟩ → values.length + n ≤ payloadLen →
      Steps CleanStep w (List.replicate n (.reader i .read))
        { w with readers := w.readers.set i ⟨last, .copying ⟨start, values ++
          (List.range n).map fun j => w.mem (payloadAddr (values.length + j))⟩⟩ }
  | 0, values, w, hr, _ => by
    obtain ⟨hi, hget⟩ := List.getElem?_eq_some_iff.mp hr
    rw [List.range_zero, List.map_nil, List.append_nil, ← hget, List.set_getElem_self]
    exact .nil w
  | n + 1, values, w, hr, hlen => by
    obtain ⟨hi, -⟩ := List.getElem?_eq_some_iff.mp hr
    have hstep : CleanStep w (.reader i .read)
        { w with readers := w.readers.set i ⟨last, .copying ⟨start,
          values ++ [w.mem (payloadAddr values.length)]⟩⟩ } := by
      refine ⟨trivial, ?_⟩
      simp only [Control.step, hr, readerStep, Option.bind_eq_bind, Option.bind_some]
      rw [if_pos (by omega)]
      rfl
    have hrest := steps_read n (values ++ [w.mem (payloadAddr values.length)])
      { w with readers := w.readers.set i ⟨last, .copying ⟨start,
        values ++ [w.mem (payloadAddr values.length)]⟩⟩ }
      (List.getElem?_set_self hi) (by rw [List.length_append, List.length_singleton]; omega)
    refine .cons hstep ?_
    rw [List.range_succ_eq_map, List.map_cons, List.map_map]
    simpa [Function.comp_def, Nat.add_assoc, Nat.add_comm 1] using hrest

/-- **A reader left alone at an even counter returns the payload.** -/
theorem steps_snapshotOnce (w : World) (heven : w.seq % 2 = 0) :
    Steps CleanStep w (snapshotOnce w.readers.length) { w with
        readers := w.readers ++ [⟨some (payload w.mem), .idle⟩]
        answers := payload w.mem :: w.answers } := by
  let i := w.readers.length
  let at' := fun r : Reader => { w with readers := w.readers ++ [r] }
  have hset : ∀ r r' : Reader, (w.readers ++ [r]).set i r' = w.readers ++ [r'] := by
    simp [i]
  have hget : ∀ r : Reader, (at' r).readers[i]? = some r := by
    simp [at', i]
  have hopen : CleanStep w .openReader (at' {}) := ⟨trivial, rfl⟩
  have hload : CleanStep (at' {}) (.reader i .load) (at' ⟨none, .copying ⟨w.seq, []⟩⟩) := by
    refine ⟨trivial, ?_⟩
    simp only [Control.step, hget, readerStep, Option.bind_eq_bind, Option.bind_some]
    rw [if_neg (by rw [counter_mod_two]; simp only [at']; omega)]
    simp [at', hset]
  have hreads := steps_read payloadLen [] (at' ⟨none, .copying ⟨w.seq, []⟩⟩) (hget _) (by simp)
  simp only [at', hset, List.nil_append, List.length_nil, Nat.zero_add] at hreads
  have hcheck : CleanStep (at' ⟨none, .copying ⟨w.seq,
        (List.range payloadLen).map fun j => w.mem (payloadAddr j)⟩⟩) (.reader i .check)
      { w with
        readers := w.readers ++ [⟨some (payload w.mem), .idle⟩]
        answers := payload w.mem :: w.answers } := by
    refine ⟨fun r c hr hc => ?_, ?_⟩
    · obtain rfl := Option.mem_unique (hget _) hr
      obtain rfl := ReaderAt.copying.inj hc
      simp [at']
    · simp only [Control.step, hget, readerStep, Option.bind_eq_bind, Option.bind_some]
      rw [if_pos (by simp), if_pos (show (at' _).counter = w.seq % 2 ^ 64 from rfl)]
      simp [at', hset, payload, Function.comp_def]
  exact .cons hopen (.cons hload (hreads.append (.cons hcheck (.nil _))))

/-! ## A torn root -/

def publishAll (p : Publish) : List Action :=
  [.take p, .seqBegin] ++ List.replicate p.stores.length .store ++ [.seqEnd, .unlock]

/-- A call that dies after `n` stores. -/
def publishSome (p : Publish) (n : Nat) : List Action :=
  [.take p, .seqBegin] ++ List.replicate n .store ++ [.die]

def uniformRoot (b : UInt8) : Digest := ⟨List.replicate 32 b, by simp⟩

/-- A publisher dies half way through its root; the next re-advertises the arena
and makes the counter even; a reader is told the torn root. -/
theorem setArena_publishes_torn_root :
    ∃ actions w, Steps (fun w a w' => Control.step w a = some w') World.init actions w ∧
    ¬ w.Safe := by
  have htorn : ((publishAll (setArenaWithRoot [97] 1 (uniformRoot 17)) ++
      publishSome (setArenaWithRoot [97] 1 (uniformRoot 34)) 26 ++
      publishAll (setArena [97] 1)).foldlM step World.init).any (fun w =>
        w.seq % 2 = 0 ∧ w.root = List.replicate 16 34 ++ List.replicate 16 17 ∧
          w.written = [uniformRoot 17]) = true := by decide +kernel
  obtain ⟨w, hw, hstate⟩ := (Option.any_eq_true _ _).mp htorn
  obtain ⟨heven, hroot, hwritten⟩ := of_decide_eq_true hstate
  have hread := (steps_snapshotOnce w heven).mono fun _ _ _ _ hs => hs.2
  refine ⟨_, _, (Steps.foldlM_some hw).append hread, fun hsafe => ?_⟩
  have hroot' : (payload w.mem).root = List.replicate 16 34 ++ List.replicate 16 17 :=
    (payload_root w).trans hroot
  obtain ⟨⟨r, hr, heq⟩, -⟩ := hsafe (payload w.mem) List.mem_cons_self (by rw [hroot']; decide)
  rw [hroot'] at heq
  simp only [hwritten, List.mem_singleton] at hr
  subst hr
  cases heq

def isClean (w : World) : Action → Bool
  | .reader _ _ => false
  | .seqEnd => w.publisher.all fun p =>
      p.call.root.isSome || w.root == zeroRoot || w.written.any (w.root == ·.bytes)
  | _ => true

/-- A publisher's step, if it is clean. -/
def cleanStep? (w : World) (a : Action) : Option World := if isClean w a then step w a else none

theorem cleanStep_of_eq_some {w w' : World} {a : Action} (h : cleanStep? w a = some w') :
    CleanStep w a w' := by
  unfold cleanStep? at h
  split at h
  case isFalse => cases h
  case isTrue hclean =>
    refine ⟨?_, h⟩
    cases a with
    | reader i r => cases hclean
    | seqEnd =>
      intro p hp hnone
      simpa [isClean, hp, hnone] using hclean
    | _ => trivial

/-- A whole publish, a publisher that dies before its root, a call that leaves the root as it
is, and a reader after them. -/
theorem safe_of_clean_run_publish :
    ∃ actions w, .die ∈ actions ∧ Steps CleanStep World.init actions w ∧ w.Safe ∧
      ∃ s ∈ w.answers, s.root = List.replicate 32 17 := by
  have hpublished : ((publishAll (setArenaWithRoot [97] 1 (uniformRoot 17)) ++
      publishSome (setArenaWithRoot [98] 1 (uniformRoot 34)) 5 ++
      publishAll (setArena [99] 1)).foldlM cleanStep? World.init).any (fun w =>
        w.seq % 2 = 0 ∧ w.root = List.replicate 32 17) = true := by decide +kernel
  obtain ⟨w, hw, hstate⟩ := (Option.any_eq_true _ _).mp hpublished
  obtain ⟨heven, hroot⟩ := of_decide_eq_true hstate
  have hclean := (Steps.foldlM_some hw).mono fun _ _ _ _ hs => cleanStep_of_eq_some hs
  have hrun := hclean.append (steps_snapshotOnce w heven)
  refine ⟨_, _, ?_, hrun, safe_of_clean_run _ _ hrun, payload w.mem, List.mem_cons_self, ?_⟩
  · simp [publishSome]
  · exact (payload_root w).trans hroot

end LeyLine.Control
