import LeyLine.Runtime.Service

/-!
# What a step of the service can do

One inversion of `advance`: a step reserves, settles, files or marks, each with what its
locked access saw, or leaves runs, events, reservations and receipts as they are. Every
invariant of the service is proved from it.
-/

namespace LeyLine.Runtime

variable {Resources : Type}

def Caller.holds : Caller Resources → Option (ExecutionRequest Resources)
  | .starting req _ => some req
  | .settling req _ _ => some req
  | _ => none

def Caller.found : Caller Resources → Option Text
  | .polling _ runId => some runId
  | .completing _ runId _ => some runId
  | .cancelling runId => some runId
  | .cancelled runId => some runId
  | .cleaning runId => some runId
  | .cleaned runId => some runId
  | _ => none

def Caller.files : Caller Resources → Option (RunRecord × AuthorizedExecution)
  | .filing record auth => some (record, auth)
  | _ => none

@[simp] theorem startReturns_holds (record : RunRecord) (auth : Option AuthorizedExecution) :
    (startReturns record auth : Caller Resources).holds = none := by
  cases auth <;> rfl

@[simp] theorem startReturns_found (record : RunRecord) (auth : Option AuthorizedExecution) :
    (startReturns record auth : Caller Resources).found = none := by
  cases auth <;> rfl

theorem startReturns_files (record : RunRecord) (auth : Option AuthorizedExecution) :
    (startReturns record auth : Caller Resources).files = auth.map (record, ·) := by
  cases auth <;> rfl

def ServiceState.reprovision (s : ServiceState) (p : Bool) (backend : Option Text) : ServiceState :=
  { s with provisioned := p, provisionedBackend := backend }

/-- A step of a caller, by what it does. -/
inductive Moved (env : Env Resources) (a : Answer) (s : Shared Resources) :
    Caller Resources → Shared Resources → Caller Resources → Prop where
  | reserved {req : ExecutionRequest Resources} {auth : Option AuthorizedExecution} :
      s.service.replay[req.replayKey]? = none →
      (∀ id : Text, s.service.starting[id]? ≠ some req.replayKey) →
      s.service.runs[req.runId]? = none → s.service.starting[req.runId]? = none →
      Moved env a s (.reserving req auth)
        { s with
          service := { s.service with
            starting := s.service.starting.insert req.runId req.replayKey } }
        (.starting req auth)
  | replayed {req : ExecutionRequest Resources} {auth : Option AuthorizedExecution}
      {id record} : s.service.replay[req.replayKey]? = some id → s.service.runs[id]? = some record →
      Moved env a s (.reserving req auth) s (startReturns record auth)
  | begun {req auth started} :
      Moved env a s (.starting req auth) { s with started := s.started ++ [(req, auth)] }
        (.settling req auth (.ok started))
  | failed {req auth e} :
      Moved env a s (.starting req auth) s (.settling req auth (.error e))
  | settled {req auth started} :
      Moved env a s (.settling req auth (.ok started))
        { s with service := settle req started a.now s.service }
        (startReturns (startedRecord req started) auth)
  | abandoned {req auth e} :
      Moved env a s (.settling req auth (.error e)) { s with service := abandon req s.service }
        (.returned (.error e))
  | filed {record auth} : Moved env a s (.filing record auth)
        { s with service := fileReceipt record.runId auth.receiptContext s.service }
        (.returned (.ok (.record record)))
  | completed {op runId status record} :
      s.service.runs[runId]? = some record → record.state.active = true →
      Moved env a s (.completing op runId status)
        { s with
          service := mark runId record (status.terminal env.detailDigest).1
            (fun n => [⟨n, (status.terminal env.detailDigest).1, a.now 0,
              (status.terminal env.detailDigest).2⟩]) s.service }
        (.proceed op runId)
  | cancelled {runId record} : s.service.runs[runId]? = some record →
      Moved env a s (.cancelled runId)
        { s with
          service :=
            mark runId record .cancelled (fun n => [event n .cancelled (a.now 0)]) s.service }
        (.returned (.ok (.record { record with state := .cancelled })))
  | cleaned {runId record} : s.service.runs[runId]? = some record →
      Moved env a s (.cleaned runId)
        { s with
          service := mark runId record .cleaned
            (fun n => [event n .cleaning (a.now 0), event (n + 1) .cleaned (a.now 1)]) s.service }
        (.returned (.ok (.record { record with state := .cleaned })))
  | quiet {t t' : Caller Resources} (p : Bool) (backend : Option Text) :
      t.holds = none → t'.holds = none → t'.files = none →
      (∀ id, t'.found = some id → s.service.runs[id]? ≠ none ∨ t.found = some id) →
      Moved env a s t { s with service := s.service.reprovision p backend } t'

theorem Moved.still {env : Env Resources} {a : Answer} {s : Shared Resources}
    {t t' : Caller Resources}
    (ht : t.holds = none) (ht' : t'.holds = none) (hfiles : t'.files = none)
    (hfound : ∀ id, t'.found = some id → s.service.runs[id]? ≠ none ∨ t.found = some id) :
    Moved env a s t s t' :=
  .quiet s.service.provisioned s.service.provisionedBackend ht ht' hfiles hfound

theorem starting_any_iff {m : Std.ExtTreeMap Text Text} {key : Text} :
    (m.toList.any fun x => x.2 = key) = true ↔ ∃ id : Text, m[id]? = some key := by
  simp only [List.any_eq_true, decide_eq_true_eq]
  constructor
  · rintro ⟨⟨id, k⟩, hmem, rfl⟩
    exact ⟨id, Std.ExtTreeMap.mem_toList_iff_getElem?_eq_some.mp hmem⟩
  · rintro ⟨id, hid⟩
    exact ⟨(id, key), Std.ExtTreeMap.mem_toList_iff_getElem?_eq_some.mpr hid, rfl⟩

variable (env : Env Resources) (a : Answer) (s : Shared Resources)

theorem reserving_moved (req : ExecutionRequest Resources) (auth : Option AuthorizedExecution) :
    Moved env a s (.reserving req auth) (advance env a s (.reserving req auth)).1
      (advance env a s (.reserving req auth)).2 := by
  simp only [advance, reserve]
  cases hkey : s.service.replay[req.replayKey]? with
  | some id =>
    cases hrun : s.service.runs[id]? with
    | some record => simpa only [hkey, hrun] using .replayed hkey hrun
    | none => simpa only [hkey, hrun] using .still rfl rfl rfl nofun
  | none =>
    split_ifs with hkeys hruns hids
    · exact .still rfl rfl rfl nofun
    · exact .still rfl rfl rfl nofun
    · exact .still rfl rfl rfl nofun
    · refine .reserved hkey (fun id hid => hkeys (starting_any_iff.mpr ⟨id, hid⟩)) ?_ ?_
      · simpa using hruns
      · simpa using hids

theorem proceed_spec (runId : Text) (op : Op) (service : ServiceState) :
    (proceed env runId service op).holds = none ∧ (proceed env runId service op).files = none ∧
      ∀ id, (proceed env runId service op).found = some id → service.runs[id]? ≠ none := by
  have hfound : ∀ record, lookup runId service = .ok record →
      ∀ id, some runId = some id → service.runs[id]? ≠ none := by
    rintro record h id ⟨⟩
    rw [Except.elim_eq_ok_iff.mp h]
    simp
  cases op with
  | cancel =>
    cases hl : lookup runId service with
    | error e => simp [proceed, hl, Caller.holds, Caller.files, Caller.found]
    | ok record =>
      by_cases hterm : record.state.terminal = true
      · simp [proceed, hl, hterm, Caller.holds, Caller.files, Caller.found]
      · simp only [proceed, hl, if_neg hterm]
        exact ⟨rfl, rfl, hfound record hl⟩
  | cleanup =>
    cases hl : lookup runId service with
    | error e => simp [proceed, hl, Caller.holds, Caller.files, Caller.found]
    | ok record =>
      by_cases hclean : record.state = .cleaned
      · simp [proceed, hl, hclean, Caller.holds, Caller.files, Caller.found]
      · simp only [proceed, hl, if_neg hclean]
        exact ⟨rfl, rfl, hfound record hl⟩
  | _ => exact ⟨rfl, rfl, nofun⟩

theorem completing_moved (op : Op) (runId : Text) (status : BackendRunStatus) :
    Moved env a s (.completing op runId status) (advance env a s (.completing op runId status)).1
      (advance env a s (.completing op runId status)).2 := by
  simp only [advance, recordCompletion]
  cases hrun : s.service.runs[runId]? with
  | none => simpa only [hrun] using .still rfl rfl rfl nofun
  | some record =>
    by_cases hactive : record.state.active = true
    · simpa only [hrun, if_pos hactive] using .completed hrun hactive
    · simpa only [hrun, if_neg hactive] using .still rfl rfl rfl nofun

theorem advance_moved (t : Caller Resources) :
    Moved env a s t (advance env a s t).1 (advance env a s t).2 := by
  cases t with
  | authorized answer resolve =>
    simp only [advance]
    split_ifs
    · cases resolveAuthorized answer resolve with
      | ok x | error e => exact .still rfl rfl rfl nofun
    · exact .still rfl rfl rfl nofun
  | enter req auth =>
    simp only [advance]
    cases validate env req with
    | error e => exact .still rfl rfl rfl nofun
    | ok _ => cases a.limits <;> exact .still rfl rfl rfl nofun
  | reserving req auth => exact reserving_moved env a s req auth
  | starting req auth =>
    simp only [advance]
    cases a.start with
    | ok started => exact .begun
    | error e => exact .failed
  | settling req auth started =>
    cases started with
    | ok started => exact .settled
    | error e => exact .abandoned
  | filing record auth => exact .filed
  | refresh op runId =>
    simp only [advance]
    by_cases hactive : isActive runId s.service = true
    · rw [if_pos hactive]
      refine .still rfl rfl rfl fun id hid => .inl fun hnone => ?_
      cases hid
      rw [isActive, hnone] at hactive
      simp at hactive
    · rw [if_neg hactive]
      exact .still rfl rfl rfl nofun
  | polling op runId =>
    simp only [advance]
    rcases a.poll with e | _ | status
    · exact .still rfl rfl rfl nofun
    · exact .still rfl rfl rfl nofun
    · exact .still rfl rfl rfl fun id hid => .inr hid
  | completing op runId status => exact completing_moved env a s op runId status
  | proceed op runId =>
    obtain ⟨hholds, hfiles, hfound⟩ := proceed_spec env runId op s.service
    exact .still rfl hholds hfiles fun id hid => .inl (hfound id hid)
  | cancelling runId =>
    simp only [advance]
    rcases a.cancel with e | _ | _
    · exact .still rfl rfl rfl nofun
    · exact .still rfl rfl rfl nofun
    · exact .still rfl rfl rfl fun id hid => .inr hid
  | cancelled runId =>
    simp only [advance, markCancelled]
    cases hrun : s.service.runs[runId]? with
    | none => simpa only [hrun] using .still rfl rfl rfl nofun
    | some record => simpa only [hrun] using .cancelled hrun
  | cleaning runId =>
    simp only [advance]
    cases a.cancel with
    | error e => exact .still rfl rfl rfl nofun
    | ok _ => exact .still rfl rfl rfl fun id hid => .inr hid
  | cleaned runId =>
    simp only [advance, markCleaned]
    cases hrun : s.service.runs[runId]? with
    | none => simpa only [hrun] using .still rfl rfl rfl nofun
    | some record => simpa only [hrun] using .cleaned hrun
  | provisioning backendClass key =>
    simp only [advance]
    split_ifs
    · exact .still rfl rfl rfl nofun
    · cases a.provision with
      | error e => exact .still rfl rfl rfl nofun
      | ok capabilities =>
        by_cases hclass : capabilities.backendClass = backendClass
        · simpa only [if_pos hclass] using .still rfl rfl rfl nofun
        · simpa only [if_neg hclass] using .still rfl rfl rfl nofun
  | provisioned capabilities => exact .quiet true (some capabilities.backendId) rfl rfl rfl nofun
  | returned reply => exact .still rfl rfl rfl nofun

end LeyLine.Runtime
