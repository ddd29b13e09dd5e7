import LeyLine.Runtime.StartOnce

/-!
# The lifecycle log

Cancel, cleanup and refresh test a run's state under one lock, call the backend without
it, and write under another without testing again (refresh apart). The log stays a
lifecycle exactly along the runs in which each such write finds the state it was meant
for: the condition is one on the state before the step, and every step that does not meet
it breaks the law there and then.
-/

namespace LeyLine.Runtime

variable {Resources : Type}

/-! ## The law -/

def lifecycles : List (List RunState) :=
  [[], [.succeeded], [.failed], [.cancelled]].flatMap fun ended =>
    [[], [.cleaning, .cleaned]].map fun cleaned =>
      [.accepted, .provisioning, .ready, .running] ++ ended ++ cleaned

/-- A log numbered from 1 that follows a lifecycle, with the run's state its last. -/
structure LogOk (log : List RunEventRecord) (state : RunState) : Prop where
  sequence : log.map (·.sequence) = (List.range log.length).map (· + 1)
  path : log.map (·.state) ∈ lifecycles
  last : (log.map (·.state)).getLast? = some state

/-- Every run has a log that is right for its state, and there is no other log. -/
def LogLaw (s : ServiceState) : Prop :=
  ∀ id : Text, (s.runs[id]? = none ∧ s.events[id]? = none) ∨
    ∃ record log, s.runs[id]? = some record ∧ s.events[id]? = some log ∧ LogOk log record.state

def Completed (s : ServiceState) (id : Text) (terminal : RunState × Option Text) : Prop :=
  ∃ e ∈ eventsOf id s, e.state = terminal.1 ∧ e.detailDigest = terminal.2

def RunState.final (state : RunState) : Bool := state.terminal || state = .cleaned

/-- What a step owes its caller: a completion reported to it is recorded; cancelling a run
in a final state, and cleaning a cleaned one, answer its record and change nothing. -/
def Owed (env : Env Resources) (s : Shared Resources) : Caller Resources →
    Shared Resources × Caller Resources → Prop
  | .completing _ id status, next => Completed next.1.service id (status.terminal env.detailDigest)
  | .proceed .cancel id, next => ∀ record : RunRecord, s.service.runs[id]? = some record →
      record.state.final = true → next = (s, .returned (.ok (.record record)))
  | .proceed .cleanup id, next => ∀ record : RunRecord, s.service.runs[id]? = some record →
      record.state = .cleaned → next = (s, .returned (.ok (.record record)))
  | _, _ => True

/-- An action after which the law holds, and that does what it owes. -/
def Lawful (env : Env Resources) (w : Service Resources)
    (action : Pool.Action (Call Resources) Answer) :
    Prop :=
  LogLaw (Pool.next (program env) w action).shared.service ∧
    ∀ (i : Nat) (a : Answer) (t : Caller Resources), action = .step i a → w.callers[i]? = some t →
      Owed env w.shared t (advance env a w.shared t)

/-- A write finds the state it was meant for: a cancellation an active run, a cleanup one
not cleaned, a completion an active run or its own event; and no cancel call finds its run
cleaned. -/
def Meets (env : Env Resources) (s : ServiceState) : Caller Resources → Prop
  | .completing _ id status => ∀ record : RunRecord, s.runs[id]? = some record →
      record.state.active = true ∨ Completed s id (status.terminal env.detailDigest)
  | .cancelled id => ∀ record : RunRecord, s.runs[id]? = some record → record.state.active = true
  | .cleaned id => ∀ record : RunRecord, s.runs[id]? = some record → record.state ≠ .cleaned
  | .proceed .cancel id => ∀ record : RunRecord, s.runs[id]? = some record → record.state ≠ .cleaned
  | _ => True

def Orderly (env : Env Resources) (w : Service Resources) :
    Pool.Action (Call Resources) Answer → Prop
  | .call _ => True
  | .step i _ => ∀ t : Caller Resources, w.callers[i]? = some t → Meets env w.shared.service t

/-! ## Appending to a log -/

theorem ended_append : ∀ state ∈ [RunState.succeeded, .failed, .cancelled], ∀ l ∈ lifecycles,
    (l ++ [state] ∈ lifecycles ↔ l.getLast?.any (·.active) = true) := by decide

theorem cleaned_append : ∀ l ∈ lifecycles,
    (l ++ [.cleaning, .cleaned] ∈ lifecycles ↔ l.getLast? ≠ some .cleaned) := by decide

variable {log : List RunEventRecord}

theorem sequence_concat {e : RunEventRecord}
    (h : log.map (·.sequence) = (List.range log.length).map (· + 1))
    (he : e.sequence = log.length + 1) :
    (log ++ [e]).map (·.sequence) = (List.range (log ++ [e]).length).map (· + 1) := by
  rw [List.map_append, h, List.length_append, List.length_singleton, List.range_succ,
    List.map_append]
  exact congrArg _ (congrArg (fun n => [n]) he)

theorem LogOk.end_iff {state : RunState} (h : LogOk log state)
    {e : RunEventRecord} (hseq : e.sequence = log.length + 1)
    (he : e.state ∈ [RunState.succeeded, .failed, .cancelled]) :
    LogOk (log ++ [e]) e.state ↔ state.active = true := by
  have hpath := ended_append e.state he _ h.path
  rw [h.last, Option.any_some] at hpath
  rw [← hpath]
  constructor
  · intro h'
    simpa using h'.path
  · intro h'
    exact ⟨sequence_concat h.sequence hseq, by simpa using h', by simp⟩

theorem LogOk.clean_iff {state : RunState} (h : LogOk log state) (now : Nat → Nat) :
    LogOk (log ++ [event (log.length + 1) .cleaning (now 0),
      event (log.length + 2) .cleaned (now 1)]) .cleaned ↔ state ≠ .cleaned := by
  have hpath := cleaned_append _ h.path
  rw [h.last, ne_eq, Option.some.injEq] at hpath
  rw [ne_eq, ← hpath]
  constructor
  · intro h'
    simpa [event] using h'.path
  · intro h'
    refine ⟨?_, by simpa [event] using h', by simp [event]⟩
    rw [show ∀ x y : RunEventRecord, log ++ [x, y] = log ++ [x] ++ [y] by simp]
    exact sequence_concat (sequence_concat h.sequence rfl) (by simp [event])

/-! ## One step -/

section Step

variable {s : Shared Resources} {id : Text} {record : RunRecord}

theorem LogLaw.logOk (h : LogLaw s.service) (hrun : s.service.runs[id]? = some record) :
    LogOk (eventsOf id s.service) record.state := by
  rcases h id with ⟨hnone, -⟩ | ⟨record', log, hrun', hlog, hok⟩
  · cases hnone.symm.trans hrun
  · obtain rfl := Option.mem_unique hrun' hrun
    rw [eventsOf, hlog]
    exact hok

theorem mark_events (state : RunState) (appended : Nat → List RunEventRecord)
    (service : ServiceState) :
    eventsOf id (mark id record state appended service) =
      eventsOf id service ++ appended ((eventsOf id service).length + 1) := by
  rw [eventsOf, mark, Table.get_insert, if_pos rfl]
  rfl

theorem LogLaw.mark_iff (h : LogLaw s.service) (state : RunState)
    (appended : Nat → List RunEventRecord) : LogLaw (mark id record state appended s.service) ↔
      LogOk (eventsOf id s.service ++ appended ((eventsOf id s.service).length + 1)) state := by
  have hruns : ∀ id' : Text, (mark id record state appended s.service).runs[id']? =
      if id = id' then some { record with state := state } else s.service.runs[id']? :=
    fun id' => Table.get_insert _ _ _ _
  have hevents : ∀ id' : Text, (mark id record state appended s.service).events[id']? =
      if id = id' then some (eventsOf id s.service ++ appended ((eventsOf id s.service).length + 1))
        else s.service.events[id']? := fun id' => Table.get_insert _ _ _ _
  constructor
  · intro h'
    rcases h' id with ⟨hnone, -⟩ | ⟨record', log, hrun, hlog, hok⟩
    · rw [hruns, if_pos rfl] at hnone
      simp at hnone
    · rw [hruns, if_pos rfl] at hrun
      rw [hevents, if_pos rfl] at hlog
      cases hrun
      cases hlog
      exact hok
  · intro hok id'
    rw [hruns, hevents]
    by_cases heq : id = id'
    · rw [if_pos heq, if_pos heq]
      exact .inr ⟨_, _, rfl, rfl, hok⟩
    · rw [if_neg heq, if_neg heq]
      exact h id'

theorem LogLaw.settled (h : LogLaw s.service) (req : ExecutionRequest Resources)
    (started : BackendRun) (now : Nat → Nat) : LogLaw (settle req started now s.service) := by
  intro id
  have hruns : (settle req started now s.service).runs[id]? =
      if req.runId = id then some (startedRecord req started) else s.service.runs[id]? :=
    Table.get_insert _ _ _ _
  have hevents : (settle req started now s.service).events[id]? =
      if req.runId = id then some [event 1 .accepted (now 0), event 2 .provisioning (now 1),
        event 3 .ready (now 2), event 4 .running (now 3)] else s.service.events[id]? :=
    Table.get_insert _ _ _ _
  rw [hruns, hevents]
  by_cases heq : req.runId = id
  · rw [if_pos heq, if_pos heq]
    refine .inr ⟨_, _, rfl, rfl, ⟨rfl, ?_, rfl⟩⟩
    change [RunState.accepted, .provisioning, .ready, .running] ∈ lifecycles
    decide
  · rw [if_neg heq, if_neg heq]
    exact h id

def Caller.marks : Caller Resources → Bool
  | .completing .. | .cancelled _ | .cleaned _ => true
  | _ => false

theorem Moved.logLaw {env : Env Resources} {a : Answer} {s' : Shared Resources}
    {t t' : Caller Resources} (h : Moved env a s t s' t') (hs : LogLaw s.service)
    (ht : t.marks = false) : LogLaw s'.service := by
  cases h with
  | settled => exact hs.settled _ _ _
  | completed | cancelled | cleaned => simp [Caller.marks] at ht
  | _ => exact hs

variable (env : Env Resources) (a : Answer)

theorem completing_iff (hs : LogLaw s.service) (op : Op) (status : BackendRunStatus)
    (hrun : s.service.runs[id]? = some record) :
    LogLaw (advance env a s (.completing op id status)).1.service ∧
      Completed (advance env a s (.completing op id status)).1.service id
      (status.terminal env.detailDigest) ↔
    record.state.active = true ∨ Completed s.service id (status.terminal env.detailDigest) := by
  simp only [advance, recordCompletion, hrun]
  by_cases hactive : record.state.active = true
  · simp only [if_pos hactive]
    refine iff_of_true ⟨?_, ?_⟩ (.inl hactive)
    · rw [hs.mark_iff]
      refine ((hs.logOk hrun).end_iff rfl ?_).mpr hactive
      cases status <;> simp [BackendRunStatus.terminal]
    · refine ⟨⟨(eventsOf id s.service).length + 1, _, a.now 0, _⟩, ?_, rfl, rfl⟩
      rw [mark_events]
      exact List.mem_append_right _ (List.mem_singleton_self _)
  · simp only [if_neg hactive]
    rw [or_iff_right hactive, and_iff_right hs]

theorem cancelled_iff (hs : LogLaw s.service) (hrun : s.service.runs[id]? = some record) :
    LogLaw (advance env a s (.cancelled id)).1.service ↔ record.state.active = true := by
  simp only [advance, markCancelled, hrun]
  rw [hs.mark_iff]
  exact (hs.logOk hrun).end_iff rfl (by simp [event])

theorem cleaned_iff (hs : LogLaw s.service) (hrun : s.service.runs[id]? = some record) :
    LogLaw (advance env a s (.cleaned id)).1.service ↔ record.state ≠ .cleaned := by
  simp only [advance, markCleaned, hrun]
  rw [hs.mark_iff]
  exact (hs.logOk hrun).clean_iff a.now

theorem cancel_owed_iff : Owed env s (.proceed .cancel id) (advance env a s (.proceed .cancel id)) ↔
      Meets env s.service (.proceed .cancel id) := by
  refine forall_congr' fun record => forall_congr' fun hrun => ?_
  have hproceed : proceed env id s.service .cancel =
      if record.state.terminal = true then .returned (.ok (.record record))
      else .cancelling id := by
    rw [proceed, lookup, hrun, Option.elim_some]
  change (record.state.final = true → (s, proceed env id s.service .cancel) = _) ↔ _
  rw [hproceed]
  cases record.state <;> simp [RunState.final, RunState.terminal]

theorem cleanup_owed : Owed env s (.proceed .cleanup id)
    (advance env a s (.proceed .cleanup id)) := by
  intro record hrun hclean
  simp only [advance, proceed, lookup, hrun, Option.elim_some, if_pos hclean]

theorem advance_lawful_iff (hs : LogLaw s.service) (t : Caller Resources)
    (hfound : ∀ id, t.found = some id → s.service.runs[id]? ≠ none) :
    LogLaw (advance env a s t).1.service ∧ Owed env s t (advance env a s t) ↔
    Meets env s.service t := by
  have hother : t.marks = false → LogLaw (advance env a s t).1.service :=
    (advance_moved env a s t).logLaw hs
  have hrun : ∀ id, t.found = some id → ∃ record, s.service.runs[id]? = some record :=
    fun id hid => Option.ne_none_iff_exists'.mp (hfound id hid)
  have hthe : ∀ {id : Text} {record : RunRecord} {P : RunRecord → Prop},
      s.service.runs[id]? = some record →
      ((∀ r : RunRecord, s.service.runs[id]? = some r → P r) ↔ P record) := by
    intro id record P h
    constructor
    · intro hall
      exact hall record h
    · intro hP r hr
      exact Option.mem_unique h hr ▸ hP
  cases t with
  | completing op id status =>
    obtain ⟨record, hget⟩ := hrun id rfl
    exact (completing_iff env a hs op status hget).trans (hthe (P := fun r => r.state.active =
      true ∨ Completed s.service id (status.terminal env.detailDigest)) hget).symm
  | cancelled id =>
    obtain ⟨record, hget⟩ := hrun id rfl
    exact ((and_iff_left trivial).trans (cancelled_iff env a hs hget)).trans
      (hthe (P := fun r => r.state.active = true) hget).symm
  | cleaned id =>
    obtain ⟨record, hget⟩ := hrun id rfl
    exact ((and_iff_left trivial).trans (cleaned_iff env a hs hget)).trans
      (hthe (P := fun r => r.state ≠ .cleaned) hget).symm
  | proceed op id =>
    cases op with
    | cancel => exact (and_iff_right (hother rfl)).trans (cancel_owed_iff env a)
    | cleanup => exact iff_of_true ⟨hother rfl, cleanup_owed env a⟩ trivial
    | _ => exact iff_of_true ⟨hother rfl, trivial⟩ trivial
  | _ => exact iff_of_true ⟨hother rfl, trivial⟩ trivial

end Step

/-! ## Runs -/

def FoundThere (s : Shared Resources) (t : Caller Resources) : Prop :=
  ∀ id, t.found = some id → s.service.runs[id]? ≠ none

section Found

variable {env : Env Resources} {a : Answer} {s s' : Shared Resources} {t t' : Caller Resources}

theorem Moved.runs (h : Moved env a s t s' t') {id : Text} (hrun : s.service.runs[id]? ≠ none) :
    s'.service.runs[id]? ≠ none := by
  have hinsert : ∀ (m : Std.ExtTreeMap Text RunRecord) (key : Text) (record : RunRecord),
      m[id]? ≠ none → (m.insert key record)[id]? ≠ none := by
    intro m key record hm
    rw [Table.get_insert]
    split_ifs
    · simp
    · exact hm
  cases h with
  | settled | completed | cancelled | cleaned => exact hinsert _ _ _ hrun
  | _ => exact hrun

theorem Moved.foundThere (h : Moved env a s t s' t') (ht : FoundThere s t) : FoundThere s' t' := by
  have hruns : ∀ id : Text, s.service.runs[id]? ≠ none → s'.service.runs[id]? ≠ none :=
    fun _ => h.runs
  cases h with
  | replayed | settled => exact fun id hid => absurd hid (by simp)
  | quiet _ _ _ _ _ hfound =>
    exact fun id hid => (hfound id hid).elim (hruns id) fun ht' => hruns id (ht id ht')
  | _ => exact nofun

theorem found_keeps (env : Env Resources) :
    Pool.Keeps (program env) (fun _ => True) FoundThere fun _ _ => True where
  enter c _ _ := by cases c <;> exact nofun
  enterPair _ _ := ⟨trivial, trivial⟩
  shared _ _ _ _ _ := trivial
  own a s t _ ht := (advance_moved env a s t).foundThere ht
  other a s t _ _ _ hu _ _ := fun id hid => (advance_moved env a s t).runs (hu id hid)
  pair _ _ _ _ _ _ _ _ _ := ⟨trivial, trivial⟩

end Found

def Lived (w : Service Resources) : Prop :=
  LogLaw w.shared.service ∧ Pool.Inv (fun _ => True) FoundThere (fun _ _ => True) w

theorem lawful_iff_orderly (env : Env Resources) (w : Service Resources)
    (action : Pool.Action (Call Resources) Answer) (hw : Lived w) :
    Lawful env w action ↔ Orderly env w action := by
  cases action with
  | call c => exact iff_of_true ⟨hw.1, fun _ _ _ h => absurd h (by simp)⟩ trivial
  | step i a =>
    rcases hi : w.callers[i]? with _ | t
    · have hnext : Pool.next (program env) w (.step i a) = w := by rw [Pool.next, hi]
      refine iff_of_true ⟨by rw [hnext]; exact hw.1, ?_⟩ ?_
      · rintro _ _ t ⟨rfl, rfl⟩ ht
        cases hi.symm.trans ht
      · exact fun t ht => absurd (hi.symm.trans ht) (by simp)
    · have hstep := advance_lawful_iff env a hw.1 t (hw.2.each i t hi)
      rw [Lawful, Pool.next_step hi]
      constructor
      · rintro ⟨hlaw, howed⟩ u hu
        obtain rfl := Option.mem_unique hi hu
        exact hstep.mp ⟨hlaw, howed i a t rfl hi⟩
      · intro horderly
        obtain ⟨hlaw, howed⟩ := hstep.mpr (horderly t hi)
        refine ⟨hlaw, ?_⟩
        rintro _ _ u ⟨rfl, rfl⟩ hu
        obtain rfl := Option.mem_unique hi hu
        exact howed

theorem new_lived : Lived (Service.new : Service Resources) := by
  refine ⟨fun id => ?_, trivial, fun i t h => ?_, fun _ _ _ _ _ _ _ => trivial⟩
  · exact .inl (by simp [Service.new])
  · simp [Service.new] at h

theorem Lived.next {env : Env Resources} {w : Service Resources}
    {action : Pool.Action (Call Resources) Answer} (hw : Lived w) (hlaw : Lawful env w action) :
    Lived (Pool.next (program env) w action) := ⟨hlaw.1, hw.2.next (found_keeps env) action⟩

/-- Along any interleaving of any calls, over any backend: every state has the law and
every step does what it owes exactly when every write finds the state it was meant for. -/
theorem lifecycle_iff (env : Env Resources) (actions : List (Pool.Action (Call Resources) Answer)) :
    Pool.Along (program env) (Lawful env) Service.new actions ↔
      Pool.Along (program env) (Orderly env) Service.new actions :=
  Pool.along_congr (lawful_iff_orderly env) (fun _ _ hw hlaw => hw.next hlaw) new_lived actions

/-! Two cleanups that both saw the run uncleaned both write; and a cancel call on a cleaned
run asks the backend, which has it no more. -/

def startRun : List (Pool.Action (Call Unit) Answer) :=
  .call (.start (plainRequest ['r'] ['k'])) :: List.replicate 4 (.step 0 plainAnswer)

def cleanedTwice : List (Pool.Action (Call Unit) Answer) :=
  startRun ++ [.call (.onRun .cleanup ['r']), .call (.onRun .cleanup ['r'])] ++
    List.replicate 4 (.step 1 plainAnswer) ++ List.replicate 4 (.step 2 plainAnswer) ++
    [.step 1 plainAnswer, .step 2 plainAnswer]

def cleanedThenCancelled : List (Pool.Action (Call Unit) Answer) :=
  startRun ++ .call (.onRun .cleanup ['r']) :: List.replicate 5 (.step 1 plainAnswer) ++
    .call (.onRun .cancel ['r']) :: List.replicate 3
    (.step 2 { plainAnswer with cancel := .ok false })

theorem lifecycle_broken : ¬ LogLaw (served plainEnv cleanedTwice).shared.service ∧
      (served plainEnv cleanedThenCancelled).shared.service.runs[['r']]? =
        some ⟨['r'], ['k'], .cleaned, []⟩ ∧
      ((served plainEnv cleanedThenCancelled).callers[2]?).bind Caller.reply =
        some (.error (.backend "backend no longer owns the active run")) := by
  refine ⟨fun hlaw => ?_, by decide +kernel, by decide +kernel⟩
  have hrun : (served plainEnv cleanedTwice).shared.service.runs[['r']]? =
      some ⟨['r'], ['k'], .cleaned, []⟩ := by decide +kernel
  exact absurd (hlaw.logOk hrun).path (by decide +kernel)

end LeyLine.Runtime
