import LeyLine.Runtime.StartOnce

/-!
# Which authorization a receipt names

An authorized start files its context under the run its `start` answered. When the replay
key was an earlier run's, that is the earlier run's id: the receipt names the new
authorization then. It names what ran along every run in which a replayed key is presented
under the context its run was started under, and only along those.
-/

namespace LeyLine.Runtime

open Pool

variable {Resources : Type}

/-- The backend started a run under an authorization with this context. -/
def StartedUnder (s : Shared Resources) (id : Text) (context : ReceiptContext) : Prop :=
  ∃ x ∈ s.started, x.1.runId = id ∧ ∃ auth, x.2 = some auth ∧ auth.receiptContext = context

/-- Every receipt context held names the authorization its run was started under. -/
def Named (s : Shared Resources) : Prop :=
  ∀ (id : Text) (context : ReceiptContext), s.service.receipts[id]? = some context →
    StartedUnder s id context

/-- A caller about to file will file what its run was started under. -/
def FilesNamed (s : Shared Resources) (t : Caller Resources) : Prop :=
  ∀ record auth, t.files = some (record, auth) → StartedUnder s record.runId auth.receiptContext

/-- An authorized start that finds its replay key recorded presents the context the run was
started under. -/
def Presents (w : Service Resources) : Pool.Action (Call Resources) Answer → Prop
  | .call _ => True
  | .step i _ => ∀ (req : ExecutionRequest Resources) (auth : AuthorizedExecution) (id : Text),
      w.callers[i]? = some (.reserving req (some auth)) →
      w.shared.service.replay[req.replayKey]? = some id →
      StartedUnder w.shared id auth.receiptContext

/-! ## A run has one start -/

variable {context : ReceiptContext} {id : Text}

theorem StartedUnder.mono {s s' : Shared Resources} (hmem : ∀ x ∈ s.started, x ∈ s'.started)
    (h : StartedUnder s id context) : StartedUnder s' id context := by
  obtain ⟨x, hx, hid, hauth⟩ := h
  exact ⟨x, hmem x hx, hid, hauth⟩

theorem StartedUnder.unique {s : Shared Resources} (hs : Identities s)
    {context context' : ReceiptContext} (h : StartedUnder s id context)
    (h' : StartedUnder s id context') : context = context' := by
  obtain ⟨x, hx, hid, auth, hauth, rfl⟩ := h
  obtain ⟨y, hy, hid', auth', hauth', rfl⟩ := h'
  obtain rfl : x = y := List.inj_on_of_nodup_map hs.runIds hx hy (hid.trans hid'.symm)
  rw [Option.mem_unique hauth hauth']

section Step

variable {env : Env Resources} {a : Answer} {s s' : Shared Resources} {t t' : Caller Resources}

theorem Moved.started (h : Moved env a s t s' t') : ∀ x ∈ s.started, x ∈ s'.started := by
  cases h with
  | begun => exact fun x hx => List.mem_append_left _ hx
  | _ => exact fun x hx => hx

theorem Moved.receipts (h : Moved env a s t s' t') : s'.service.receipts = s.service.receipts ∨
    ∃ record auth, t.files = some (record, auth) ∧
      s'.service.receipts = s.service.receipts.insert record.runId auth.receiptContext := by
  cases h with
  | filed => exact .inr ⟨_, _, rfl, rfl⟩
  | _ => exact .inl rfl

theorem Moved.named (h : Moved env a s t s' t') (hs : Named s) (ht : FilesNamed s t) :
    Named s' := by
  intro id context hget
  rcases h.receipts with heq | ⟨record, auth, hfiles, heq⟩
  · exact (hs id context (heq ▸ hget)).mono h.started
  · rw [heq, Table.get_insert] at hget
    split_ifs at hget with hid
    · cases hget
      exact hid ▸ (ht record auth hfiles).mono h.started
    · exact (hs id context hget).mono h.started

theorem Moved.kept (h : Moved env a s t s' t') (hids : Identities s) (hs : Named s)
    (ht : FilesNamed s t)
    (hget : s.service.receipts[id]? = some context) : s'.service.receipts[id]? = some context := by
  rcases h.receipts with heq | ⟨record, auth, hfiles, heq⟩
  · rw [heq, hget]
  · rw [heq, Table.get_insert]
    split_ifs with hid
    · have hnew := ht record auth hfiles
      rw [hid] at hnew
      rw [hnew.unique hids (hs id context hget)]
    · exact hget

theorem Moved.filesNamed (h : Moved env a s t s' t') (hids : Identities s) (hown : OwnStart s t)
    (hpresents : ∀ (req : ExecutionRequest Resources) (auth : AuthorizedExecution) (id : Text),
      t = .reserving req (some auth) → s.service.replay[req.replayKey]? = some id →
      StartedUnder s id auth.receiptContext) :
    FilesNamed s' t' := by
  cases h with
  | @replayed req auth id record hkey hrun =>
    intro record' auth' hfiles
    rw [startReturns_files] at hfiles
    obtain ⟨_, rfl, hpair⟩ := Option.map_eq_some_iff.mp hfiles
    cases hpair
    rw [(hids.recorded id record hrun).1]
    exact hpresents req _ id rfl hkey
  | @settled req auth started =>
    intro record' auth' hfiles
    rw [startReturns_files] at hfiles
    obtain ⟨_, rfl, hpair⟩ := Option.map_eq_some_iff.mp hfiles
    cases hpair
    exact ⟨_, hown.2, rfl, _, rfl, rfl⟩
  | quiet _ _ _ _ hfiles => exact fun record auth hf => absurd (hfiles.symm.trans hf) (by simp)
  | _ => exact nofun

end Step

/-! ## Runs -/

/-- The receipts held, and those about to be filed, name what ran. -/
structure NamedService (w : Service Resources) : Prop where
  inv : Pool.Inv Identities OwnStart Apart w
  named : Named w.shared
  files : ∀ (i : Nat) (t : Caller Resources), w.callers[i]? = some t → FilesNamed w.shared t

theorem enter_files (c : Call Resources) : c.enter.files = none := by
  cases c <;> rfl

variable {env : Env Resources} {w : Service Resources}

theorem NamedService.next (h : NamedService w) {action : Pool.Action (Call Resources) Answer}
    (hpresents : Presents w action) : NamedService (next (program env) w action) := by
  refine ⟨h.inv.next (program_keeps env) action, ?_, ?_⟩
  · refine next_cases (motive := fun w' => Named w'.shared) w action (fun c _ => h.named) ?_ h.named
    intro i a t _ hi
    exact (advance_moved env a w.shared t).named h.named (h.files i t hi)
  · refine next_cases (motive := fun w' : Service Resources =>
      ∀ (i : Nat) (t : Caller Resources), w'.callers[i]? = some t → FilesNamed w'.shared t) w action
      (fun c _ j u hj => ?_) (fun i a t haction hi j u hj => ?_) h.files
    · rcases getElem?_concat_cases hj with ⟨-, rfl⟩ | hj
      · exact fun record auth hf => absurd ((enter_files c).symm.trans hf) (by simp)
      · exact h.files j u hj
    · rcases getElem?_set_cases hj with ⟨-, rfl⟩ | ⟨-, hj⟩
      · refine (advance_moved env a w.shared t).filesNamed h.inv.shared (h.inv.each i t hi) ?_
        rintro req auth id rfl hkey
        exact (haction ▸ hpresents : Presents w (.step i a)) req auth id hi hkey
      · exact fun record auth hf =>
          (h.files j u hj record auth hf).mono (advance_moved env a w.shared t).started

theorem NamedService.kept (h : NamedService w) (action : Pool.Action (Call Resources) Answer)
    (hget : w.shared.service.receipts[id]? = some context) :
    (Pool.next (program env) w action).shared.service.receipts[id]? = some context :=
  next_cases (motive := fun w' : Service Resources =>
      w'.shared.service.receipts[id]? = some context) w action (fun _ _ => hget)
    (fun i a t _ hi => (advance_moved env a w.shared t).kept h.inv.shared h.named (h.files i t hi)
      hget)
    hget

theorem new_named : NamedService (Service.new : Service Resources) := by
  refine ⟨new_inv, fun id context h => ?_, fun i t h => ?_⟩
  all_goals simp [Service.new] at h

theorem replayed_filed {actions : List (Pool.Action (Call Resources) Answer)} {i : Nat}
    {req : ExecutionRequest Resources} {auth : AuthorizedExecution} (a b : Answer)
    (hi : (served env actions).callers[i]? = some (.reserving req (some auth)))
    (hkey : (served env actions).shared.service.replay[req.replayKey]? = some id) :
    (served env (actions ++ [.step i a, .step i b])).shared.service.receipts[id]? =
        some auth.receiptContext ∧ (served env (actions ++ [.step i a, .step i b])).shared.started =
        (served env actions).shared.started := by
  have hids := (run_inv env actions).shared
  obtain ⟨record, hrun, -⟩ := hids.replayed _ id hkey
  have hlt : i < (served env actions).callers.length := (List.getElem?_eq_some_iff.mp hi).1
  have hfirst : next (program env) (served env actions) (.step i a) =
      ⟨(served env actions).shared, (served env actions).callers.set i (.filing record auth)⟩ := by
    rw [next_step hi]
    simp only [program, advance, reserve, hkey, hrun, startReturns]
  have hfiling : ((served env actions).callers.set i (.filing record auth))[i]? =
      some (.filing record auth) := by
    rw [List.getElem?_set_self hlt]
  have hboth : served env (actions ++ [.step i a, .step i b]) =
      next (program env) (next (program env) (served env actions) (.step i a)) (.step i b) := by
    rw [served, run_append]
    rfl
  rw [hboth, hfirst, next_step hfiling]
  refine ⟨?_, rfl⟩
  simp only [program, advance, fileReceipt, Table.get_insert]
  rw [if_pos (hids.recorded id record hrun).1]

/-- Along a run in which every replayed key is presented under the context its run was
started under, every receipt names what ran and none is replaced. Where a key is presented
under another, the caller's next step files it under the run. -/
theorem receipts_name_start (env : Env Resources)
    (actions : List (Pool.Action (Call Resources) Answer)) :
    (Pool.Along (program env) Presents Service.new actions → Named (served env actions).shared ∧
        ∀ before after, actions = before ++ after → ∀ (id : Text) (context : ReceiptContext),
          (served env before).shared.service.receipts[id]? = some context →
          (served env actions).shared.service.receipts[id]? = some context) ∧
    ∀ (i : Nat) (a b : Answer), ¬ Presents (served env actions) (.step i a) →
      ¬ Named (served env (actions ++ [.step i a, .step i b])).shared := by
  refine ⟨fun halong => ⟨?_, ?_⟩, fun i a b hnot hnamed => hnot ?_⟩
  · exact (halong.run (fun _ _ h hp => h.next hp) new_named).named
  · rintro before after rfl id context hget
    obtain ⟨hbefore, hafter⟩ := Pool.along_append.mp halong
    have hnamed : NamedService (served env before) :=
      hbefore.run (fun _ _ h hp => h.next hp) new_named
    rw [served, Pool.run_append]
    exact (hafter.run (I := fun w => NamedService w ∧ w.shared.service.receipts[id]? = some context)
      (fun _ action h hp => ⟨h.1.next hp, h.1.kept action h.2⟩) ⟨hnamed, hget⟩).2
  · intro req auth id hi hkey
    obtain ⟨hget, hstarted⟩ := replayed_filed a b hi hkey
    exact (hnamed id _ hget).mono fun x hx => hstarted ▸ hx

/-! A second grant that carries the first one's replay key is named in the first run's
receipt. -/

def grantOf (runId digest : Text) : AuthorizedExecution :=
  ⟨runId, ['k'], digest, digest, [], .native, [], [], []⟩

def plainResolve (auth : AuthorizedExecution) : Except ExecutionError (ExecutionRequest Unit) :=
  .ok (plainRequest auth.runId auth.replayKey)

/-- Provision, start one grant, and present its replay key again under a second one. -/
def grantedThen (second : AuthorizedExecution) : List (Pool.Action (Call Unit) Answer) :=
  .call (.provision .native ['p']) :: List.replicate 2 (.step 0 plainAnswer) ++
    .call (.startAuthorized (.ok (grantOf ['r'] ['1'])) plainResolve) ::
      List.replicate 6 (.step 1 plainAnswer) ++
    .call (.startAuthorized (.ok second) plainResolve) :: List.replicate 4 (.step 2 plainAnswer)

/-- The second grant is another. -/
def grantedTwice : List (Pool.Action (Call Unit) Answer) := grantedThen (grantOf ['q'] ['2'])

def Caller.reserved : Caller Resources → Option (ExecutionRequest Resources × AuthorizedExecution)
  | .reserving req (some auth) => some (req, auth)
  | _ => none

instance (s : Shared Resources) (id : Text) (context : ReceiptContext) :
    Decidable (StartedUnder s id context) :=
  decidable_of_iff (∃ x ∈ s.started, x.1.runId = id ∧ x.2.any (·.receiptContext = context) = true)
    (by simp [StartedUnder, Option.any_eq_true])

instance (w : Service Resources) :
    ∀ a : Pool.Action (Call Resources) Answer, Decidable (Presents w a)
  | .call _ => isTrue trivial
  | .step i _ => decidable_of_iff (∀ p, w.callers[i]?.bind Caller.reserved = some p →
      ∀ id, w.shared.service.replay[p.1.replayKey]? = some id →
      StartedUnder w.shared id p.2.receiptContext) (by
    constructor
    · intro h req auth id hi hkey
      exact h (req, auth) (by rw [hi]; rfl) id hkey
    · intro h p hp id hkey
      obtain ⟨t, ht, hreserved⟩ := Option.bind_eq_some_iff.mp hp
      unfold Caller.reserved at hreserved
      split at hreserved
      · cases hreserved
        exact h _ _ id ht hkey
      · cases hreserved)

/-- The second grant has the context of the first. -/
def grantedAgain : List (Pool.Action (Call Unit) Answer) := grantedThen (grantOf ['q'] ['1'])

theorem receipts_name_start_again :
    Pool.Along (program plainEnv) Presents Service.new grantedAgain ∧
    (served plainEnv grantedAgain).shared.started.length = 1 ∧
    (served plainEnv grantedAgain).shared.service.receipts[['r']]? =
      some (grantOf ['r'] ['1']).receiptContext ∧ Named (served plainEnv grantedAgain).shared := by
  have halong : Pool.Along (program plainEnv) Presents Service.new grantedAgain := by decide +kernel
  exact ⟨halong, by decide +kernel, by decide +kernel,
    ((receipts_name_start plainEnv grantedAgain).1 halong).1⟩

theorem receipt_renamed : ¬ Named (served plainEnv grantedTwice).shared := by
  intro hnamed
  have hstarted : (served plainEnv grantedTwice).shared.started.map (·.2) =
      [some (grantOf ['r'] ['1'])] := by decide +kernel
  obtain ⟨x, hx, -, auth, hauth, hcontext⟩ :=
    hnamed ['r'] (grantOf ['q'] ['2']).receiptContext (by decide +kernel)
  have hmem : x.2 ∈ (served plainEnv grantedTwice).shared.started.map (·.2) :=
    List.mem_map.mpr ⟨x, hx, rfl⟩
  rw [hstarted, List.mem_singleton, hauth] at hmem
  rw [Option.some.inj hmem] at hcontext
  cases hcontext

end LeyLine.Runtime
