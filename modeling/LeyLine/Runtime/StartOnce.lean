import LeyLine.Runtime.Moves

/-!
# One backend start per identity

A start reserves its run id and replay key before it calls the backend, and a run once
recorded keeps both. The reservation map is searched by run id and by replay key, so what
carries the proof is that it is injective and that each entry is one caller's.
-/

namespace LeyLine.Runtime

variable {Resources : Type}

/-! ## The invariant -/

/-- The identities in the shared state. -/
structure Identities (s : Shared Resources) : Prop where
  /-- No two backend starts that succeeded share an identity. -/
  runIds : (s.started.map (·.1.runId)).Nodup
  replayKeys : (s.started.map (·.1.replayKey)).Nodup
  /-- A recorded run is found under its id, by its replay key, and was started. -/
  recorded : ∀ (id : Text) (record : RunRecord), s.service.runs[id]? = some record →
    record.runId = id ∧ s.service.replay[record.replayKey]? = some id ∧
      ∃ x ∈ s.started, x.1.runId = id ∧ x.1.replayKey = record.replayKey
  replayed : ∀ key id : Text, s.service.replay[key]? = some id →
    ∃ record, s.service.runs[id]? = some record ∧ record.replayKey = key
  /-- A start is recorded, or its caller still holds the reservation. -/
  accounted : ∀ x ∈ s.started,
    (∃ record, s.service.runs[x.1.runId]? = some record ∧ record.replayKey = x.1.replayKey) ∨
      s.service.starting[x.1.runId]? = some x.1.replayKey
  /-- A reservation is for identities no run has, and no other reservation. -/
  reserved : ∀ id key : Text, s.service.starting[id]? = some key →
    s.service.runs[id]? = none ∧ s.service.replay[key]? = none ∧
      ∀ id' : Text, s.service.starting[id']? = some key → id' = id

/-- The identities of a request are of no backend start that succeeded. -/
def Unstarted (s : Shared Resources) (req : ExecutionRequest Resources) : Prop :=
  ∀ x ∈ s.started, x.1.runId ≠ req.runId ∧ x.1.replayKey ≠ req.replayKey

def OwnStart (s : Shared Resources) : Caller Resources → Prop
  | .starting req _ => s.service.starting[req.runId]? = some req.replayKey ∧ Unstarted s req
  | .settling req auth (.ok _) =>
    s.service.starting[req.runId]? = some req.replayKey ∧ (req, auth) ∈ s.started
  | .settling req _ (.error _) => s.service.starting[req.runId]? = some req.replayKey ∧
      Unstarted s req
  | _ => True

def Apart (t u : Caller Resources) : Prop :=
  ∀ req req', t.holds = some req → u.holds = some req' → req.runId ≠ req'.runId

variable {t : Caller Resources}

theorem OwnStart.of_idle {s : Shared Resources} (h : t.holds = none) : OwnStart s t := by
  cases t with
  | starting | settling => simp [Caller.holds] at h
  | _ => trivial

theorem OwnStart.reserved {s : Shared Resources} (h : OwnStart s t)
    {req : ExecutionRequest Resources} (ht : t.holds = some req) :
    s.service.starting[req.runId]? = some req.replayKey := by
  cases t with
  | starting req' auth =>
    cases ht
    exact h.1
  | settling req' auth started =>
    cases ht
    cases started <;> exact h.1
  | _ => simp [Caller.holds] at ht

variable {s s' : Shared Resources}

theorem OwnStart.mono (h : OwnStart s t)
    (hstarting : ∀ req, t.holds = some req → s'.service.starting[req.runId]? =
      s.service.starting[req.runId]?)
    (hmem : ∀ x ∈ s.started, x ∈ s'.started)
    (hun : ∀ req, t.holds = some req → Unstarted s req → Unstarted s' req) : OwnStart s' t := by
  cases t with
  | starting req auth => exact ⟨(hstarting req rfl).trans h.1, hun req rfl h.2⟩
  | settling req auth started =>
    cases started with
    | ok started => exact ⟨(hstarting req rfl).trans h.1, hmem _ h.2⟩
    | error e => exact ⟨(hstarting req rfl).trans h.1, hun req rfl h.2⟩
  | _ => trivial

/-! ## Steps that keep the identities -/

/-- Identities, reservations and starts are the same; a run's state may change. -/
structure SameIdentities (s s' : Shared Resources) : Prop where
  started : s'.started = s.started
  starting : s'.service.starting = s.service.starting
  replay : s'.service.replay = s.service.replay
  runs : ∀ id : Text, (s'.service.runs[id]?).map (fun r => (r.runId, r.replayKey)) =
    (s.service.runs[id]?).map fun r => (r.runId, r.replayKey)

theorem SameIdentities.symm (h : SameIdentities s s') : SameIdentities s' s :=
  ⟨h.started.symm, h.starting.symm, h.replay.symm, fun id => (h.runs id).symm⟩

theorem SameIdentities.record {s s' : Shared Resources} (h : SameIdentities s s') {id : Text}
    {record : RunRecord} (hrun : s'.service.runs[id]? = some record) :
    ∃ old, s.service.runs[id]? = some old ∧ old.runId = record.runId ∧
    old.replayKey = record.replayKey := by
  have hmap := h.runs id
  rw [hrun] at hmap
  obtain ⟨old, hold, heq⟩ := Option.map_eq_some_iff.mp hmap.symm
  exact ⟨old, hold, congrArg Prod.fst heq, congrArg Prod.snd heq⟩

theorem SameIdentities.none {s s' : Shared Resources} (h : SameIdentities s s') {id : Text}
    (hrun : s.service.runs[id]? = none) : s'.service.runs[id]? = none := by
  have hmap := h.runs id
  rw [hrun] at hmap
  exact Option.map_eq_none_iff.mp hmap

theorem SameIdentities.identities (h : SameIdentities s s') (hs : Identities s) :
    Identities s' := by
  refine ⟨h.started ▸ hs.runIds, h.started ▸ hs.replayKeys, fun id record hrun => ?_,
    fun key id hkey => ?_, fun x hx => ?_, fun id key hid => ?_⟩
  · obtain ⟨old, hold, hid, hkey⟩ := h.record hrun
    obtain ⟨hid', hkey', hstarted⟩ := hs.recorded id old hold
    rw [h.replay, h.started, ← hkey, ← hid]
    exact ⟨hid', hkey', hstarted⟩
  · obtain ⟨old, hold, hkey⟩ := hs.replayed key id (h.replay ▸ hkey)
    obtain ⟨record, hrun, -, hkey'⟩ := h.symm.record hold
    exact ⟨record, hrun, hkey'.trans hkey⟩
  · rcases hs.accounted x (h.started ▸ hx) with ⟨old, hold, hkey⟩ | hpending
    · obtain ⟨record, hrun, -, hkey'⟩ := h.symm.record hold
      exact .inl ⟨record, hrun, hkey'.trans hkey⟩
    · exact .inr (h.starting ▸ hpending)
  · obtain ⟨hrun, hkey, hinj⟩ := hs.reserved id key (h.starting ▸ hid)
    rw [h.replay, h.starting]
    exact ⟨h.none hrun, hkey, hinj⟩

theorem SameIdentities.ownStart (h : SameIdentities s s') (ht : OwnStart s t) : OwnStart s' t :=
  ht.mono (fun _ _ => by rw [h.starting]) (fun _ hx => h.started ▸ hx) fun _ _ hun x hx =>
    hun x (h.started ▸ hx)

theorem same_mark {s : Shared Resources} {runId : Text} {record : RunRecord}
    (hrun : s.service.runs[runId]? = some record) (state : RunState)
    (appended : Nat → List RunEventRecord) :
    SameIdentities s { s with service := mark runId record state appended s.service } := by
  refine ⟨rfl, rfl, rfl, fun id => ?_⟩
  simp only [mark, Table.get_insert]
  by_cases heq : runId = id
  · rw [if_pos heq, ← heq, hrun]
    rfl
  · rw [if_neg heq]

/-! ## Steps of a start -/

section Start

variable {s : Shared Resources} {req : ExecutionRequest Resources}

/-- Both identities are free of runs and reservations. -/
structure Free (s : ServiceState) (req : ExecutionRequest Resources) : Prop where
  key : s.replay[req.replayKey]? = none
  keys : ∀ id : Text, s.starting[id]? ≠ some req.replayKey
  run : s.runs[req.runId]? = none
  id : s.starting[req.runId]? = none

theorem Free.unstarted (hfree : Free s.service req) (hs : Identities s) : Unstarted s req := by
  intro x hx
  rcases hs.accounted x hx with ⟨record, hrun, hkey⟩ | hpending
  · refine ⟨fun heq => ?_, fun heq => ?_⟩
    · rw [heq, hfree.run] at hrun
      simp at hrun
    · obtain ⟨-, hreplay, -⟩ := hs.recorded _ record hrun
      rw [hkey, heq, hfree.key] at hreplay
      simp at hreplay
  · refine ⟨fun heq => ?_, fun heq => ?_⟩
    · rw [heq, hfree.id] at hpending
      simp at hpending
    · exact hfree.keys _ (heq ▸ hpending)

def reserveFor (req : ExecutionRequest Resources) (s : Shared Resources) : Shared Resources :=
  { s with service := { s.service with
      starting := s.service.starting.insert req.runId req.replayKey } }

theorem reserveFor_get (id : Text) : (reserveFor req s).service.starting[id]? =
    if req.runId = id then some req.replayKey else s.service.starting[id]? :=
  Table.get_insert _ _ _ _

theorem Free.identities (hfree : Free s.service req) (hs : Identities s) :
    Identities (reserveFor req s) := by
  refine ⟨hs.runIds, hs.replayKeys, hs.recorded, hs.replayed, fun x hx => ?_, fun id key hid => ?_⟩
  · refine (hs.accounted x hx).imp_right fun hpending => ?_
    rw [reserveFor_get, if_neg (hfree.unstarted hs x hx).1.symm]
    exact hpending
  · have hinj : ∀ id' : Text, (reserveFor req s).service.starting[id']? = some req.replayKey →
        id' = req.runId := by
      intro id' hid'
      rw [reserveFor_get] at hid'
      by_contra hne
      rw [if_neg (Ne.symm hne)] at hid'
      exact hfree.keys id' hid'
    by_cases heq : req.runId = id
    · rw [reserveFor_get, if_pos heq] at hid
      obtain rfl := heq
      cases hid
      exact ⟨hfree.run, hfree.key, hinj⟩
    · rw [reserveFor_get, if_neg heq] at hid
      obtain ⟨hrun, hkey, hold⟩ := hs.reserved id key hid
      refine ⟨hrun, hkey, fun id' hid' => ?_⟩
      rw [reserveFor_get] at hid'
      split_ifs at hid' with heq'
      · exact absurd (Option.some.inj hid' ▸ hid) (hfree.keys id)
      · exact hold id' hid'

theorem Identities.begun (hs : Identities s) {auth : Option AuthorizedExecution}
    (hheld : s.service.starting[req.runId]? = some req.replayKey) (hun : Unstarted s req) :
    Identities { s with started := s.started ++ [(req, auth)] } := by
  refine ⟨?_, ?_, fun id record hrun => ?_, hs.replayed, fun x hx => ?_, hs.reserved⟩
  · rw [List.map_append, List.nodup_append]
    refine ⟨hs.runIds, List.nodup_singleton _, fun id hid id' hid' => ?_⟩
    obtain ⟨x, hx, rfl⟩ := List.mem_map.mp hid
    obtain rfl := List.mem_singleton.mp hid'
    exact (hun x hx).1
  · rw [List.map_append, List.nodup_append]
    refine ⟨hs.replayKeys, List.nodup_singleton _, fun key hkey key' hkey' => ?_⟩
    obtain ⟨x, hx, rfl⟩ := List.mem_map.mp hkey
    obtain rfl := List.mem_singleton.mp hkey'
    exact (hun x hx).2
  · obtain ⟨hid, hkey, x, hx, hxid⟩ := hs.recorded id record hrun
    exact ⟨hid, hkey, x, List.mem_append_left _ hx, hxid⟩
  · rcases List.mem_append.mp hx with hx | hx
    · exact hs.accounted x hx
    · obtain rfl := List.mem_singleton.mp hx
      exact .inr hheld

theorem erase_get (req : ExecutionRequest Resources) (m : Std.ExtTreeMap Text Text) (id : Text) :
    (m.erase req.runId)[id]? = if req.runId = id then none else m[id]? := Table.get_erase _ _ _

theorem erase_some {m : Std.ExtTreeMap Text Text} {id key : Text}
    (h : (m.erase req.runId)[id]? = some key) : req.runId ≠ id ∧ m[id]? = some key := by
  rw [erase_get] at h
  split_ifs at h with heq
  exact ⟨heq, h⟩

theorem Identities.settled (hs : Identities s) {auth : Option AuthorizedExecution}
    (hheld : s.service.starting[req.runId]? = some req.replayKey) (hmem : (req, auth) ∈ s.started)
    (started : BackendRun) (now : Nat → Nat) :
    Identities { s with service := settle req started now s.service } := by
  obtain ⟨hrunNone, hkeyNone, hinj⟩ := hs.reserved _ _ hheld
  have hruns : ∀ id : Text, (settle req started now s.service).runs[id]? =
      if req.runId = id then some (startedRecord req started) else s.service.runs[id]? :=
    fun id => Table.get_insert _ _ _ _
  have hreplay : ∀ key : Text, (settle req started now s.service).replay[key]? =
      if req.replayKey = key then some req.runId else s.service.replay[key]? :=
    fun key => Table.get_insert _ _ _ _
  refine ⟨hs.runIds, hs.replayKeys, fun id record hrun => ?_, fun key id hkey => ?_, fun x hx => ?_,
    fun id key hid => ?_⟩
  · rw [hruns] at hrun
    split_ifs at hrun with heq
    · cases hrun
      exact ⟨heq, by rw [← heq]; exact (hreplay _).trans (if_pos rfl), (req, auth), hmem, heq, rfl⟩
    · obtain ⟨hid, hkey, hstarted⟩ := hs.recorded id record hrun
      refine ⟨hid, ?_, hstarted⟩
      rw [hreplay, if_neg, hkey]
      intro hsame
      rw [← hsame, hkeyNone] at hkey
      simp at hkey
  · rw [hreplay] at hkey
    split_ifs at hkey with heq
    · cases hkey
      exact ⟨startedRecord req started, (hruns _).trans (if_pos rfl), heq⟩
    · obtain ⟨record, hrun, hrec⟩ := hs.replayed key id hkey
      refine ⟨record, (hruns id).trans ?_, hrec⟩
      rw [if_neg, hrun]
      rintro rfl
      rw [hrunNone] at hrun
      simp at hrun
  · by_cases heq : req.runId = x.1.runId
    · have hx' : x = (req, auth) := List.inj_on_of_nodup_map hs.runIds hx hmem heq.symm
      subst hx'
      exact .inl ⟨startedRecord req started, (hruns _).trans (if_pos rfl), rfl⟩
    · rcases hs.accounted x hx with ⟨record, hrun, hkey⟩ | hpending
      · exact .inl ⟨record, ((hruns _).trans (if_neg heq)).trans hrun, hkey⟩
      · exact .inr (((erase_get req _ _).trans (if_neg heq)).trans hpending)
  · obtain ⟨hne, hid⟩ := erase_some hid
    obtain ⟨hrun, hkey, hold⟩ := hs.reserved id key hid
    refine ⟨((hruns id).trans (if_neg hne)).trans hrun, ?_,
      fun id' hid' => hold id' (erase_some hid').2⟩
    rw [hreplay, if_neg, hkey]
    rintro rfl
    exact hne (hinj id hid).symm

theorem Identities.abandoned (hs : Identities s) (hun : Unstarted s req) :
    Identities { s with service := abandon req s.service } := by
  refine ⟨hs.runIds, hs.replayKeys, hs.recorded, hs.replayed, fun x hx => ?_, fun id key hid => ?_⟩
  · refine (hs.accounted x hx).imp_right fun hpending => ?_
    exact ((erase_get req _ _).trans (if_neg (hun x hx).1.symm)).trans hpending
  · obtain ⟨-, hid⟩ := erase_some hid
    obtain ⟨hrun, hkey, hold⟩ := hs.reserved id key hid
    exact ⟨hrun, hkey, fun id' hid' => hold id' (erase_some hid').2⟩

end Start

/-! ## Every step -/

section Steps

variable {env : Env Resources} {a : Answer} {s s' : Shared Resources} {t t' u : Caller Resources}

theorem same_file (record : RunRecord) (auth : AuthorizedExecution) : SameIdentities s
    { s with service := fileReceipt record.runId auth.receiptContext s.service } :=
  ⟨rfl, rfl, rfl, fun _ => rfl⟩

theorem same_reprovision (p : Bool) (backend : Option Text) : SameIdentities s
    { s with service := s.service.reprovision p backend } := ⟨rfl, rfl, rfl, fun _ => rfl⟩

theorem Moved.identities (h : Moved env a s t s' t') (hs : Identities s) (ht : OwnStart s t) :
    Identities s' := by
  cases h with
  | reserved hkey hkeys hrun hid => exact Free.identities ⟨hkey, hkeys, hrun, hid⟩ hs
  | replayed | failed => exact hs
  | begun => exact hs.begun ht.1 ht.2
  | settled => exact hs.settled ht.1 ht.2 _ _
  | abandoned => exact hs.abandoned ht.2
  | filed => exact (same_file _ _).identities hs
  | completed hrun _ | cancelled hrun | cleaned hrun => exact (same_mark hrun _ _).identities hs
  | quiet p backend => exact (same_reprovision p backend).identities hs

theorem Moved.ownStart (h : Moved env a s t s' t') (hs : Identities s) (ht : OwnStart s t) :
    OwnStart s' t' := by
  cases h with
  | reserved hkey hkeys hrun hid =>
    have hun : Unstarted s _ := Free.unstarted ⟨hkey, hkeys, hrun, hid⟩ hs
    exact ⟨(reserveFor_get _).trans (if_pos rfl), hun⟩
  | replayed | settled => exact .of_idle (startReturns_holds _ _)
  | begun => exact ⟨ht.1, List.mem_append_right _ (List.mem_singleton_self _)⟩
  | failed => exact ht
  | quiet _ _ _ ht' => exact .of_idle ht'
  | _ => trivial

theorem Moved.other (h : Moved env a s t s' t') (hs : Identities s) (ht : OwnStart s t)
    (hu : OwnStart s u) (htu : Apart t u) : OwnStart s' u := by
  cases h with
  | reserved hkey hkeys hrun hid =>
    refine hu.mono (fun req' hreq' => ?_) (fun _ hx => hx) fun _ _ hun => hun
    refine (reserveFor_get _).trans (if_neg ?_)
    intro heq
    have hheld := hu.reserved hreq'
    rw [← heq, hid] at hheld
    simp at hheld
  | replayed | failed => exact hu
  | @begun req auth started =>
    refine hu.mono (fun _ _ => rfl) (fun _ hx => List.mem_append_left _ hx) ?_
    intro req' hreq' hun x hx
    rcases List.mem_append.mp hx with hx | hx
    · exact hun x hx
    · obtain rfl := List.mem_singleton.mp hx
      have hne := htu req req' rfl hreq'
      refine ⟨hne, fun hkey => hne ?_⟩
      exact (hs.reserved _ _ (hu.reserved hreq')).2.2 _ (hkey ▸ ht.1)
  | settled | abandoned =>
    refine hu.mono (fun req' hreq' => ?_) (fun _ hx => hx) fun _ _ hun => hun
    exact (erase_get _ _ _).trans (if_neg (htu _ req' rfl hreq'))
  | filed => exact (same_file _ _).ownStart hu
  | completed hrun _ | cancelled hrun | cleaned hrun => exact (same_mark hrun _ _).ownStart hu
  | quiet p backend => exact (same_reprovision p backend).ownStart hu

theorem Apart.symm (h : Apart t u) : Apart u t := fun req req' hu ht => (h req' req ht hu).symm

theorem Apart.of_idle (h : t.holds = none) (u : Caller Resources) : Apart t u :=
  fun _ _ ht _ => absurd (h.symm.trans ht) (by simp)

theorem Moved.apart (h : Moved env a s t s' t') (hu : OwnStart s u) (htu : Apart t u) :
    Apart t' u := by
  cases h with
  | reserved hkey hkeys hrun hid =>
    intro req req' hreq hreq' heq
    cases hreq
    have hheld := hu.reserved hreq'
    rw [← heq, hid] at hheld
    simp at hheld
  | begun | failed => exact htu
  | replayed | settled => exact .of_idle (startReturns_holds _ _) u
  | quiet _ _ _ ht' => exact .of_idle ht' u
  | _ => exact .of_idle rfl u

theorem enter_holds (c : Call Resources) : c.enter.holds = none := by
  cases c <;> rfl

theorem program_keeps (env : Env Resources) :
    Pool.Keeps (program env) Identities OwnStart Apart where
  enter c _ _ := .of_idle (enter_holds c)
  enterPair c u := ⟨.of_idle (enter_holds c) u, (Apart.of_idle (enter_holds c) u).symm⟩
  shared a s t := (advance_moved env a s t).identities
  own a s t := (advance_moved env a s t).ownStart
  other a s t _ hs ht hu htu _ := (advance_moved env a s t).other hs ht hu htu
  pair a s t _ _ _ hu htu _ :=
    ⟨(advance_moved env a s t).apart hu htu, ((advance_moved env a s t).apart hu htu).symm⟩

theorem new_inv : Pool.Inv Identities OwnStart Apart (Service.new : Service Resources) := by
  refine ⟨⟨List.nodup_nil, List.nodup_nil, fun id record h => ?_, fun key id h => ?_,
    fun x hx => absurd hx List.not_mem_nil, fun id key h => ?_⟩, fun i t h => ?_,
    fun i j t u _ h => ?_⟩
  all_goals simp [Service.new] at h

theorem run_inv (env : Env Resources) (actions : List (Pool.Action (Call Resources) Answer)) :
    Pool.Inv Identities OwnStart Apart (served env actions) :=
  new_inv.run (program_keeps env) actions

end Steps

/-! ## One start per identity -/

/-- In every state of every interleaving: the starts that succeeded share no identity, nor
do two in progress; a start that reaches the reservation with the replay key of a recorded
run answers with that run and starts nothing; and a start that failed leaves both its
identities free. -/
theorem start_once (env : Env Resources) (actions : List (Pool.Action (Call Resources) Answer)) :
    (((served env actions).shared.started.map (·.1.runId)).Nodup ∧
      ((served env actions).shared.started.map (·.1.replayKey)).Nodup) ∧
    (∀ (i j : Nat) (req req' : ExecutionRequest Resources)
      (auth auth' : Option AuthorizedExecution),
      i ≠ j → (served env actions).callers[i]? = some (.starting req auth) →
        (served env actions).callers[j]? = some (.starting req' auth') →
        req.runId ≠ req'.runId ∧ req.replayKey ≠ req'.replayKey) ∧
    (∀ (i : Nat) (req : ExecutionRequest Resources) (auth : Option AuthorizedExecution) (id : Text)
      (record : RunRecord) (a : Answer),
        (served env actions).callers[i]? = some (.reserving req auth) →
        (served env actions).shared.service.runs[id]? = some record →
        record.replayKey = req.replayKey →
        served env (actions ++ [.step i a]) = ⟨(served env actions).shared,
          (served env actions).callers.set i (startReturns record auth)⟩) ∧
    ∀ (i : Nat) (req : ExecutionRequest Resources) (auth : Option AuthorizedExecution)
      (e : ExecutionError) (a : Answer),
        (served env actions).callers[i]? = some (.settling req auth (.error e)) →
        Free (served env (actions ++ [.step i a])).shared.service req := by
  obtain ⟨hs, heach, hpairs⟩ := run_inv env actions
  refine ⟨⟨hs.runIds, hs.replayKeys⟩, fun i j req req' auth auth' hij hi hj => ?_,
    fun i req auth id record a hi hrun hkey => ?_, fun i req auth e a hi => ?_⟩
  · have hne := hpairs i j _ _ hij hi hj req req' rfl rfl
    refine ⟨hne, fun hkey => hne ?_⟩
    exact (hs.reserved _ _ (heach j _ hj).1).2.2 _ (hkey ▸ (heach i _ hi).1)
  · obtain ⟨-, hreplay, -⟩ := hs.recorded id record hrun
    rw [served, Pool.run_concat, ← served, Pool.next_step hi]
    simp only [program, advance, reserve, ← hkey, hreplay, hrun]
  · obtain ⟨hheld, -⟩ : _ ∧ _ := heach i _ hi
    obtain ⟨hrun, hkey, hinj⟩ := hs.reserved _ _ hheld
    rw [served, Pool.run_concat, ← served, Pool.next_step hi]
    refine ⟨hkey, fun id hid => ?_, hrun, (erase_get req _ _).trans (if_pos rfl)⟩
    obtain ⟨hne, hid⟩ := erase_some hid
    exact hne (hinj id hid).symm

/-! A request that `validate` refuses is answered with its error before the replay key is
looked at. -/

def plainEnv : Env Unit := ⟨fun _ => .ok (), fun _ => [], fun _ => .ok []⟩

def plainRequest (runId replayKey : Text) : ExecutionRequest Unit :=
  ⟨runId, replayKey, [], [], [], ()⟩

/-- A backend that does what it is asked, and has not seen its run end. -/
def plainAnswer : Answer where
  limits := .ok ()
  provision := .ok ⟨[], .native⟩
  start := .ok ⟨[], []⟩
  poll := .ok none
  cancel := .ok true
  now := id

def startedTwice : List (Pool.Action (Call Unit) Answer) :=
  .call (.start (plainRequest ['r'] ['k'])) :: List.replicate 4 (.step 0 plainAnswer) ++
    [.call (.start (plainRequest [] ['k'])), .step 1 plainAnswer]

theorem replay_refused :
    (served plainEnv startedTwice).shared.service.runs[['r']]? = some ⟨['r'], ['k'], .running, []⟩ ∧
      ((served plainEnv startedTwice).callers[1]?).bind Caller.reply =
        some (.error (.invalid "run_id must not be empty")) := by
  decide +kernel

end LeyLine.Runtime
