import LeyLine.Daemon.Events

/-!
# What a subscriber receives

A subscription reads the log and registers under two locks, and an emit numbers, logs and
dispatches its event under three. Along a run in which events are logged and dispatched in
the order of their numbers, none is dispatched between a subscription's read and its
registration, and none stands logged but undispatched when a log is read, every subscriber
receives every event it asked for once and in order. A cursor of zero asks for more than
the log says it has dropped, so there the log must have dropped nothing.
-/

namespace LeyLine.Daemon

open List (mem_append mem_append_left mem_filter mem_singleton)
open Subscriber (offer readLog received)

variable {Data : Type}

/-! ## The law -/

/-- Of the events above its cursor a subscriber receives, in increasing order, those that
match it: every one that was dispatched, and no other. -/
structure Delivered (r : Router Data) (sub : Subscriber Data) : Prop where
  increasing : (sub.received.filter (sub.since < ·.seq)).Pairwise (·.seq < ·.seq)
  complete : ∀ e ∈ r.dispatched, sub.matches e = true → sub.since < e.seq → e ∈ sub.received
  sound : ∀ e ∈ sub.received, sub.since < e.seq → sub.matches e = true ∧ e ∈ r.logged

/-- Every subscriber that missed nothing, and whose subscription reported no gap. -/
def DeliveredAll (r : Router Data) : Prop :=
  ∀ sub ∈ r.subscribers, sub.gap = false → sub.missed = false → Delivered r sub

/-- The locked steps are taken in turn: events are logged and dispatched in order, none is
dispatched while a subscription has read the log but not registered, and the log is read
when all of it is dispatched, for a cursor of zero before it drops anything. That a
dispatch is not overlapped by another is not asked here: it is one step of `advance`. -/
def InTurn (w : Bus Data) : Task Data → Prop
  | .append _ e => ∀ x ∈ w.shared.logged, x.seq < e.seq
  | .dispatch _ e => (∀ x ∈ w.shared.dispatched, x.seq < e.seq) ∧ ∀ sub, .register sub ∉ w.callers
  | .readLog sub => (∀ e ∈ w.shared.logged, e ∈ w.shared.dispatched) ∧
      (sub.since = 0 → w.shared.log.events = w.shared.logged)
  | _ => True

def Serial (w : Bus Data) : BusAction Data → Prop
  | .call _ => True
  | .step i _ => ∀ t : Task Data, w.callers[i]? = some t → InTurn w t

/-! ## The log -/

/-- The log is the end of what was logged, in order. -/
structure LogKept (r : Router Data) : Prop where
  suffix : r.log.events <:+ r.logged
  nonempty : r.logged ≠ [] → r.log.events ≠ []
  ordered : r.logged.Pairwise (·.seq < ·.seq)
  dispatched : ∀ e ∈ r.dispatched, e ∈ r.logged

variable {r : Router Data}

variable {e : Event Data}

theorem LogKept.append (h : LogKept r) (he : ∀ x ∈ r.logged, x.seq < e.seq) :
    LogKept (r.append e) := by
  refine ⟨?_, fun _ => List.append_ne_nil_of_right_ne_nil _ (List.cons_ne_nil e []), ?_,
    fun x hx => mem_append_left _ (h.dispatched x hx)⟩
  · change (if _ then _ else _) ++ [e] <:+ r.logged ++ [e]
    rw [List.suffix_append_self_iff]
    split_ifs
    · exact (List.tail_suffix _).trans h.suffix
    · exact h.suffix
  · rw [Router.append, List.pairwise_append]
    refine ⟨h.ordered, List.pairwise_singleton _ _, fun x hx y hy => ?_⟩
    rw [mem_singleton.mp hy]
    exact he x hx

theorem LogKept.mem_log (h : LogKept r) (he : e ∈ r.logged)
    (hfirst : r.log.firstSeq ≤ e.seq) : e ∈ r.log.events := by
  obtain ⟨dropped, hdropped⟩ := h.suffix
  have hlog : r.log.events ≠ [] := h.nonempty (List.ne_nil_of_mem he)
  obtain ⟨x, rest, hrest⟩ := List.exists_cons_of_ne_nil hlog
  have hordered := h.ordered
  rw [← hdropped] at he hordered
  refine (mem_append.mp he).resolve_left fun hmem => ?_
  have hlt := (List.pairwise_append.mp hordered).2.2 e hmem x (hrest ▸ List.mem_cons_self)
  rw [EventLog.firstSeq, hrest] at hfirst
  exact absurd hlt (not_lt.mpr hfirst)

/-! ## One subscriber -/

variable {sub : Subscriber Data}

theorem Delivered.append (h : Delivered r sub) (e : Event Data) : Delivered (r.append e) sub :=
  ⟨h.increasing, h.complete, fun x hx hlt =>
    ⟨(h.sound x hx hlt).1, mem_append_left _ (h.sound x hx hlt).2⟩⟩

/-- An event dispatched after all a subscriber has received, and taken by its channel if it
matches, leaves the subscriber with all it should have. -/
theorem Delivered.dispatch (h : Delivered r sub)
    (hreceived : ∀ x ∈ sub.received, x.seq < e.seq) (he : e ∈ r.logged)
    (answer : Nat → SendResult) (hmissed : (sub.offer e answer).missed = false) :
    Delivered (r.dispatch e answer) (sub.offer e answer) := by
  by_cases hmatch : sub.matches e = true
  · have hok : answer sub.id = .ok := by
      cases hans : answer sub.id with
      | ok => rfl
      | full | closed => simp [offer, hmatch, hans] at hmissed
    have hoffer : sub.offer e answer = { sub with sent := sub.sent ++ [e] } := by
      rw [offer, if_pos hmatch, hok]
    rw [hoffer]
    have hrec : received { sub with sent := sub.sent ++ [e] } = sub.received ++ [e] :=
      (List.append_assoc _ _ _).symm
    refine ⟨?_, fun x hx hm hlt => ?_, fun x hx hlt => ?_⟩
    · rw [hrec, List.filter_append, List.pairwise_append]
      refine ⟨h.increasing, List.Pairwise.filter _ (List.pairwise_singleton _ _),
        fun x hx y hy => ?_⟩
      rw [mem_singleton.mp (mem_filter.mp hy).1]
      exact hreceived x (mem_filter.mp hx).1
    · rw [hrec]
      rcases mem_append.mp hx with hx | hx
      · exact mem_append_left _ (h.complete x hx hm hlt)
      · exact List.mem_append_right _ hx
    · rw [hrec] at hx
      rcases mem_append.mp hx with hx | hx
      · exact h.sound x hx hlt
      · rw [mem_singleton.mp hx]
        exact ⟨hmatch, he⟩
  · have hoffer : sub.offer e answer = sub := by rw [offer, if_neg hmatch]
    rw [hoffer]
    refine ⟨h.increasing, fun x hx hm hlt => ?_, h.sound⟩
    rcases mem_append.mp hx with hx | hx
    · exact h.complete x hx hm hlt
    · exact absurd (mem_singleton.mp hx ▸ hm) hmatch

theorem offer_received {answer : Nat → SendResult} :
    ∀ x ∈ (sub.offer e answer).received, x ∈ sub.received ∨ x = e := by
  intro x hx
  unfold offer at hx
  split_ifs at hx
  · cases hans : answer sub.id with
    | ok =>
      rw [hans, received, ← List.append_assoc] at hx
      exact (mem_append.mp hx).imp_right mem_singleton.mp
    | full | closed =>
      rw [hans] at hx
      exact .inl hx
  · exact .inl hx

theorem offer_gap (sub : Subscriber Data) (e : Event Data) (answer : Nat → SendResult) :
    (sub.offer e answer).gap = sub.gap := by
  unfold offer
  split_ifs
  · cases answer sub.id <;> rfl
  · rfl

theorem offer_missed {answer : Nat → SendResult}
    (h : (sub.offer e answer).missed = false) : sub.missed = false := by
  unfold offer at h
  split_ifs at h
  · cases hans : answer sub.id with
    | ok =>
      rw [hans] at h
      exact h
    | full | closed =>
      rw [hans] at h
      simp at h
  · exact h

theorem readLog_delivered (h : LogKept r)
    (hsent : sub.sent = []) (hzero : sub.since = 0 → r.log.events = r.logged)
    (hgap : (sub.readLog r.log).gap = false) :
    Delivered r (sub.readLog r.log) := by
  have hreceived : (sub.readLog r.log).received =
      r.log.events.filter fun e => sub.since < e.seq && sub.matches e := by
    rw [received, readLog, hsent, List.append_nil, EventLog.sinceMatching]
  have hlog : r.log.events.Pairwise (·.seq < ·.seq) := h.ordered.sublist h.suffix.sublist
  refine ⟨?_, fun e he hmatch hlt => ?_, fun e he _ => ?_⟩
  · rw [hreceived]
    exact (hlog.filter _).filter _
  · rw [hreceived]
    refine mem_filter.mpr ⟨?_, ?_⟩
    · by_cases hsince : sub.since = 0
      · rw [hzero hsince]
        exact h.dispatched e he
      · -- No gap was reported, so the log starts at or below the cursor.
        refine h.mem_log (h.dispatched e he) (le_of_lt (lt_of_le_of_lt ?_ hlt))
        have hnot : ¬ (0 < sub.since ∧ sub.since < r.log.firstSeq) := by
          simpa [readLog, EventLog.sinceMatching] using hgap
        exact not_lt.mp fun hlt' => hnot ⟨Nat.pos_of_ne_zero hsince, hlt'⟩
    · simpa using ⟨hlt, hmatch⟩
  · rw [hreceived] at he
    obtain ⟨hmem, hpass⟩ := mem_filter.mp he
    exact ⟨(Bool.and_eq_true_iff.mp hpass).2, h.suffix.subset hmem⟩

theorem readLog_received (h : LogKept r)
    (hsent : sub.sent = []) : ∀ e ∈ (sub.readLog r.log).received, e ∈ r.logged := by
  intro e he
  rw [received, readLog, hsent, List.append_nil] at he
  exact h.suffix.subset (mem_filter.mp he).1

/-! ## The bus -/

/-- A subscriber has been sent dispatched events only, and all it should have. -/
structure Served (r : Router Data) (sub : Subscriber Data) : Prop where
  received : ∀ e ∈ sub.received, e ∈ r.dispatched
  delivered : sub.gap = false → sub.missed = false → Delivered r sub

structure Kept (r : Router Data) : Prop where
  log : LogKept r
  served : ∀ sub ∈ r.subscribers, Served r sub

def TaskKept (r : Router Data) : Task Data → Prop
  | .dispatch _ e => e ∈ r.logged
  | .readLog sub => sub.sent = []
  | .register sub => Served r sub
  | _ => True

theorem Served.append (h : Served r sub) (e : Event Data) :
    Served (r.append e) sub := ⟨h.received, fun hg hm => (h.delivered hg hm).append e⟩

theorem Served.dispatch (h : Served r sub)
    (horder : ∀ x ∈ r.dispatched, x.seq < e.seq) (he : e ∈ r.logged) (answer : Nat → SendResult) :
    Served (r.dispatch e answer) (sub.offer e answer) := by
  refine ⟨fun x hx => ?_, fun hgap hmissed => ?_⟩
  · exact mem_append.mpr ((offer_received x hx).imp (h.received x) mem_singleton.mpr)
  · have hsub := h.delivered ((offer_gap sub e answer).symm.trans hgap) (offer_missed hmissed)
    exact hsub.dispatch (fun x hx => horder x (h.received x hx)) he answer hmissed

theorem Kept.congr {r r' : Router Data} (h : Kept r) (hlog : r'.log = r.log)
    (hlogged : r'.logged = r.logged) (hdispatched : r'.dispatched = r.dispatched)
    (hsubs : ∀ sub ∈ r'.subscribers, sub ∈ r.subscribers) : Kept r' := by
  refine ⟨⟨?_, ?_, ?_, ?_⟩, fun sub hsub => ⟨?_, fun hg hm => ⟨?_, ?_, ?_⟩⟩⟩
  · rw [hlog, hlogged]
    exact h.log.suffix
  · rw [hlog, hlogged]
    exact h.log.nonempty
  · rw [hlogged]
    exact h.log.ordered
  · rw [hdispatched, hlogged]
    exact h.log.dispatched
  · rw [hdispatched]
    exact (h.served sub (hsubs sub hsub)).received
  · exact ((h.served sub (hsubs sub hsub)).delivered hg hm).increasing
  · rw [hdispatched]
    exact ((h.served sub (hsubs sub hsub)).delivered hg hm).complete
  · rw [hlogged]
    exact ((h.served sub (hsubs sub hsub)).delivered hg hm).sound

theorem TaskKept.congr {r r' : Router Data} {t : Task Data} (h : TaskKept r t)
    (hsame : r'.logged = r.logged ∧ r'.dispatched = r.dispatched) : TaskKept r' t := by
  obtain ⟨hlogged, hdispatched⟩ := hsame
  cases t with
  | dispatch origin e => exact (hlogged ▸ h : e ∈ r'.logged)
  | readLog sub => exact h
  | register sub =>
    refine ⟨fun e he => hdispatched ▸ h.received e he,
      fun hg hm => ⟨(h.delivered hg hm).increasing, ?_, ?_⟩⟩
    · rw [hdispatched]
      exact (h.delivered hg hm).complete
    · rw [hlogged]
      exact (h.delivered hg hm).sound
  | _ => trivial

theorem advance_kept {w : Bus Data} {t : Task Data} (hturn : InTurn w t) (h : Kept w.shared)
    (ht : TaskKept w.shared t) (answer : Nat → SendResult) : Kept (advance answer w.shared t).1 ∧
      TaskKept (advance answer w.shared t).1 (advance answer w.shared t).2 ∧
      ∀ u ∈ w.callers, TaskKept w.shared u → TaskKept (advance answer w.shared t).1 u := by
  cases t with
  | append origin e =>
    refine ⟨⟨h.log.append hturn, fun sub hsub => (h.served sub hsub).append e⟩,
      List.mem_append_right _ (List.mem_singleton_self e), fun u _ hu => ?_⟩
    cases u with
    | dispatch origin' e' => exact mem_append_left _ hu
    | readLog sub => exact hu
    | register sub => exact Served.append hu e
    | _ => trivial
  | dispatch origin e =>
    refine ⟨⟨⟨h.log.suffix, h.log.nonempty, h.log.ordered, fun x hx => ?_⟩, fun sub hsub => ?_⟩,
      trivial, fun u hmem hu => ?_⟩
    · rcases mem_append.mp hx with hx | hx
      · exact h.log.dispatched x hx
      · rw [mem_singleton.mp hx]
        exact ht
    · obtain ⟨old, hold, rfl⟩ := List.mem_map.mp hsub
      exact (h.served old hold).dispatch hturn.1 ht answer
    · cases u with
      | dispatch origin' e' | readLog sub => exact hu
      | register sub => exact absurd hmem (hturn.2 sub)
      | _ => trivial
  | readLog sub =>
    refine ⟨h, ⟨fun e he => ?_, fun hgap _ => ?_⟩, fun u _ hu => hu⟩
    · exact hturn.1 e (readLog_received h.log ht e he)
    · exact readLog_delivered h.log ht hturn.2 hgap
  | register sub =>
    refine ⟨⟨⟨h.log.suffix, h.log.nonempty, h.log.ordered, h.log.dispatched⟩, fun s hs => ?_⟩,
      trivial, fun u _ hu => hu.congr ⟨rfl, rfl⟩⟩
    have hs' : Served w.shared s := by
      rcases mem_append.mp hs with hs | hs
      · exact h.served s hs
      · rw [mem_singleton.mp hs]
        exact ht
    exact ⟨hs'.received, fun hg hm => ⟨(hs'.delivered hg hm).increasing,
      (hs'.delivered hg hm).complete, (hs'.delivered hg hm).sound⟩⟩
  | prune origin dead seq =>
    simp only [advance]
    split_ifs
    · exact ⟨h, by cases origin <;> trivial, fun u _ hu => hu⟩
    · refine ⟨h.congr rfl rfl rfl fun sub hsub => (mem_filter.mp hsub).1, ?_,
        fun u _ hu => hu.congr ⟨rfl, rfl⟩⟩
      cases origin <;> trivial
  | idle =>
    simp only [advance]
    cases w.shared.queue with
    | nil => exact ⟨h, trivial, fun u _ hu => hu⟩
    | cons raw queue =>
      exact ⟨h.congr rfl rfl rfl fun _ hs => hs, trivial, fun u _ hu => hu.congr ⟨rfl, rfl⟩⟩
  | enqueue raw =>
    simp only [advance]
    split_ifs
    · exact ⟨h.congr rfl rfl rfl fun _ hs => hs, trivial, fun u _ hu => hu.congr ⟨rfl, rfl⟩⟩
    · exact ⟨h, trivial, fun u _ hu => hu⟩
  | assign origin raw =>
    exact ⟨h.congr rfl rfl rfl fun _ hs => hs, trivial, fun u _ hu => hu.congr ⟨rfl, rfl⟩⟩
  | subscribe topics identity since overflow =>
    exact ⟨h.congr rfl rfl rfl fun _ hs => hs, rfl, fun u _ hu => hu.congr ⟨rfl, rfl⟩⟩
  | returned | subscribed | done => exact ⟨h, trivial, fun u _ hu => hu⟩

/-! ## Runs -/

def BusKept (w : Bus Data) : Prop :=
  Kept w.shared ∧ ∀ t ∈ w.callers, TaskKept w.shared t

theorem enter_kept (r : Router Data) (c : Call Data) : TaskKept r c.enter := by
  cases c <;> trivial

theorem BusKept.next {w : Bus Data} (h : BusKept w) {action : BusAction Data}
    (hserial : Serial w action) : BusKept (Pool.next program w action) := by
  refine Pool.next_cases w action (fun c _ => ⟨h.1, fun t ht => ?_⟩)
    (fun i answer t haction hi => ?_) h
  · rcases mem_append.mp ht with ht | ht
    · exact h.2 t ht
    · rw [mem_singleton.mp ht]
      exact enter_kept w.shared c
  · have hturn : InTurn w t := (haction ▸ hserial : Serial w (.step i answer)) t hi
    obtain ⟨hkept, hown, hothers⟩ := advance_kept hturn h.1 (h.2 t (List.mem_of_getElem? hi)) answer
    refine ⟨hkept, fun u hu => ?_⟩
    rcases List.mem_or_eq_of_mem_set hu with hu | rfl
    · exact hothers u hu (h.2 u hu)
    · exact hown

theorem new_kept (logCapacity queueBuffer : Nat) :
    BusKept (Bus.new logCapacity queueBuffer : Bus Data) := by
  refine ⟨⟨⟨List.suffix_refl _, fun h => absurd rfl h, List.Pairwise.nil, nofun⟩, nofun⟩,
    fun t ht => ?_⟩
  rw [mem_singleton.mp ht]
  trivial

/-- Along a run whose locked steps are taken in turn, every subscriber that misses nothing
receives, in its replay and then its channel, every event it asked for, once and in order,
unless its subscription reported a gap. -/
theorem events_delivered (logCapacity queueBuffer : Nat)
    (actions : List (BusAction Data))
    (hserial : Pool.Along program Serial (Bus.new logCapacity queueBuffer) actions) :
    DeliveredAll (busRun logCapacity queueBuffer actions).shared := by
  have hkept := hserial.run (fun _ _ h hs => h.next hs) (new_kept logCapacity queueBuffer)
  exact fun sub hsub hgap hmissed => (hkept.1.served sub hsub).delivered hgap hmissed

/-! ## Steps out of turn -/

theorem not_delivered_of_missing [DecidableEq Data] {r : Router Data}
    (h : ∃ sub ∈ r.subscribers, sub.gap = false ∧ sub.missed = false ∧
      ∃ e ∈ r.dispatched, sub.matches e = true ∧ sub.since < e.seq ∧ e ∉ sub.received) :
    ¬ DeliveredAll r := by
  obtain ⟨sub, hsub, hgap, hmissed, e, he, hmatch, hlt, hnot⟩ := h
  exact fun hall => hnot ((hall sub hsub hgap hmissed).complete e he hmatch hlt)

theorem not_delivered_of_disorder (h : ∃ sub ∈ r.subscribers, sub.gap = false ∧ sub.missed = false ∧
      ¬ (sub.received.filter (sub.since < ·.seq)).Pairwise (·.seq < ·.seq)) : ¬ DeliveredAll r := by
  obtain ⟨sub, hsub, hgap, hmissed, hnot⟩ := h
  exact fun hall => hnot (hall sub hsub hgap hmissed).increasing

def anEvent : RawEvent Unit := ⟨['a'], ['b'], ()⟩

def subscribeAll : BusAction Unit :=
  .call (.subscribe [['*', '*']] none 0 .dropOldest)

def stepOf (i : Nat) : BusAction Unit := .step i fun _ => .ok

/-- An event is emitted between a subscription's read of the log and its registration. -/
def emittedBetween : List (BusAction Unit) :=
  [subscribeAll, stepOf 1, stepOf 1, .call (.emitExternal anEvent), stepOf 2, stepOf 2, stepOf 2,
    stepOf 1]

/-- A subscription comes between an event's logging and its dispatch. -/
def subscribedBetween : List (BusAction Unit) :=
  [.call (.emitExternal anEvent), stepOf 1, stepOf 1, subscribeAll, stepOf 2, stepOf 2, stepOf 2,
    stepOf 1]

/-- Two events overtake each other between their numbers and the log. -/
def overtaken : List (BusAction Unit) :=
  [subscribeAll, stepOf 1, stepOf 1, stepOf 1, .call (.emitExternal anEvent), stepOf 2,
    .call (.emitExternal anEvent), stepOf 3, stepOf 3, stepOf 3, stepOf 2, stepOf 2]

def droppedBefore : List (BusAction Unit) :=
  [.call (.emitExternal anEvent), stepOf 1, stepOf 1, stepOf 1, .call (.emitExternal anEvent),
    stepOf 2, stepOf 2, stepOf 2, subscribeAll, stepOf 3, stepOf 3, stepOf 3]

theorem events_not_delivered : ¬ DeliveredAll (busRun 8 8 emittedBetween).shared ∧
      ¬ DeliveredAll (busRun 8 8 subscribedBetween).shared ∧
      ¬ DeliveredAll (busRun 8 8 overtaken).shared ∧
      ¬ DeliveredAll (busRun 1 8 droppedBefore).shared :=
  ⟨not_delivered_of_missing (by decide +kernel), not_delivered_of_disorder (by decide +kernel),
    not_delivered_of_disorder (by decide +kernel), not_delivered_of_missing (by decide +kernel)⟩

instance : ∀ t : Task Data, Decidable (∃ sub, t = .register sub)
  | .register sub => isTrue ⟨sub, rfl⟩
  | .idle | .enqueue _ | .assign _ _ | .append _ _ | .dispatch _ _ | .prune _ _ _
  | .subscribe _ _ _ _ | .readLog _ | .returned _ | .subscribed _ _ _ | .done =>
    isFalse (by rintro ⟨_, ⟨⟩⟩)

instance [DecidableEq Data] (w : Bus Data) : ∀ t : Task Data, Decidable (InTurn w t)
  | .append _ e => inferInstanceAs (Decidable (∀ x ∈ w.shared.logged, x.seq < e.seq))
  | .dispatch _ e => decidable_of_iff ((∀ x ∈ w.shared.dispatched, x.seq < e.seq) ∧
      ∀ t ∈ w.callers, ¬ ∃ sub, t = .register sub)
      (and_congr_right fun _ =>
        ⟨fun h sub hmem => h _ hmem ⟨sub, rfl⟩, fun h _ hmem ⟨sub, ht⟩ => h sub (ht ▸ hmem)⟩)
  | .readLog sub => inferInstanceAs (Decidable ((∀ e ∈ w.shared.logged, e ∈ w.shared.dispatched) ∧
      (sub.since = 0 → w.shared.log.events = w.shared.logged)))
  | .idle | .enqueue _ | .assign _ _ | .prune _ _ _ | .subscribe _ _ _ _ | .register _
  | .returned _ | .subscribed _ _ _ | .done => isTrue trivial

instance [DecidableEq Data] (w : Bus Data) :
    ∀ a : BusAction Data, Decidable (Serial w a)
  | .call _ => isTrue trivial
  | .step i _ => inferInstanceAs (Decidable (∀ t, w.callers[i]? = some t → InTurn w t))

/-- One event before a subscription, which is replayed to it, and two after. -/
def emittedAround : List (BusAction Unit) :=
  .call (.emitExternal anEvent) :: List.replicate 4 (stepOf 1) ++
    subscribeAll :: List.replicate 3 (stepOf 2) ++
    .call (.emitExternal anEvent) :: List.replicate 4 (stepOf 3) ++
    .call (.emitExternal anEvent) :: List.replicate 4 (stepOf 4)

theorem events_delivered_around :
    (busRun 8 8 emittedAround).shared.subscribers.map (·.replay.map (·.seq)) = [[1]] ∧
      (busRun 8 8 emittedAround).shared.subscribers.map (·.received.map (·.seq)) = [[1, 2, 3]] ∧
      DeliveredAll (busRun 8 8 emittedAround).shared :=
  ⟨by decide +kernel, by decide +kernel, events_delivered 8 8 _ (by decide +kernel)⟩

end LeyLine.Daemon
