import LeyLine.Sign.KeystoreFlight

/-!
# One read at a time

Among callers that are never dropped, a channel has one leader and is published once, so a
follower's result is that of the read it waited on. That holds of every run. That a spec
has one read at a time holds along runs in which no entry is taken out of the map under a
read in flight, for room or by name: then a leader's entry stays until its read returns.
-/

namespace LeyLine.Sign.Keystore

open Pool (Along getElem?_concat_cases next run)
open Option (mem_unique some_ne_none)

variable {Spec E : Type}

/-! ## The invariant -/

/-- A result that was not the caller's own read is that of a read of the spec that was
under way while the caller waited, or was fresh when it was found. -/
def Sourced (cfg : Config Spec E) (s : Cache Spec E) (spec : Spec) (result : Outcome E) :
    Source → Prop
  | .led _ => True
  | .hit cell clock => ∃ channel fetchedAt, s.channels[cell]? = some channel ∧ channel.spec = spec ∧
      channel.value = some (result, fetchedAt) ∧ clock - fetchedAt < cfg.ttl spec
  | .followed cell since till => ∃ channel fetchedAt, s.channels[cell]? = some channel ∧
      channel.spec = spec ∧
      channel.value = some (result, fetchedAt) ∧ channel.opened ≤ till ∧ since ≤ channel.publishedAt
  | .abandoned _ => False

/-- What holds of a caller: a leader's channel is not published yet, a follower's was not
when it began to wait. -/
def Local (cfg : Config Spec E) (s : Cache Spec E) : Caller Spec E → Prop
  | .following spec cell since =>
    ∃ channel, s.channels[cell]? = some channel ∧ channel.spec = spec ∧
      since ≤ s.moment ∧ channel.opened ≤ since ∧
      (channel.value ≠ none → since ≤ channel.publishedAt)
  | .working spec cell => ∃ channel, s.channels[cell]? = some channel ∧ channel.spec = spec ∧
      channel.value = none
  | .cleaning _ cell _ => ∃ channel, s.channels[cell]? = some channel ∧ channel.value ≠ none
  | .returned spec result source => Sourced cfg s spec result source
  | _ => True

def Distinct (t u : Caller Spec E) : Prop :=
  ∀ k k' c, t = .working k c → u ≠ .working k' c

structure Good (cfg : Config Spec E) (s : Cache Spec E) : Prop where
  listed : s.Listed cfg.maxCacheEntries
  cells : ∀ k c, s.cells k = some c → ∃ channel, s.channels[c]? = some channel ∧ channel.spec = k
  senders : ∀ (c : Nat) channel, s.channels[c]? = some channel → channel.value = none →
    channel.sender = true
  opened : ∀ (c : Nat) channel, s.channels[c]? = some channel → channel.opened ≤ s.moment

/-- No channel is published twice: what is in one stays, and what comes later comes
later. -/
structure Extends (s s' : Cache Spec E) : Prop where
  moment : s.moment ≤ s'.moment
  channels : ∀ (c : Nat) channel, s.channels[c]? = some channel → ∃ channel',
    s'.channels[c]? = some channel' ∧
    channel'.spec = channel.spec ∧ channel'.opened = channel.opened ∧
    (channel'.value = channel.value ∧ channel'.publishedAt = channel.publishedAt ∨
      channel.value = none ∧ channel'.value ≠ none ∧ s.moment ≤ channel'.publishedAt)

theorem Extends.trans {a b c : Cache Spec E} (h : Extends a b) (h' : Extends b c) :
    Extends a c := by
  refine ⟨h.moment.trans h'.moment, fun i channel hi => ?_⟩
  obtain ⟨channel₁, hi₁, hspec₁, hopened₁, hvalue₁⟩ := h.channels i channel hi
  obtain ⟨channel₂, hi₂, hspec₂, hopened₂, hvalue₂⟩ := h'.channels i channel₁ hi₁
  refine ⟨channel₂, hi₂, hspec₂.trans hspec₁, hopened₂.trans hopened₁, ?_⟩
  rcases hvalue₁ with ⟨hsame₁, hat₁⟩ | ⟨hnone, hsome, hat⟩
  · rcases hvalue₂ with ⟨hsame₂, hat₂⟩ | ⟨hnone, hsome, hat⟩
    · exact .inl ⟨hsame₂.trans hsame₁, hat₂.trans hat₁⟩
    · exact .inr ⟨hsame₁ ▸ hnone, hsome, h.moment.trans hat⟩
  · rcases hvalue₂ with ⟨hsame₂, hat₂⟩ | ⟨hnone₂, -, -⟩
    · exact .inr ⟨hnone, hsame₂ ▸ hsome, hat₂ ▸ hat⟩
    · exact absurd hnone₂ hsome

variable {s' : Cache Spec E}

theorem Extends.value {s s' : Cache Spec E} (h : Extends s s') {c : Nat} {channel : Channel Spec E}
    (hc : s.channels[c]? = some channel) (hsome : channel.value ≠ none) :
    ∃ channel', s'.channels[c]? = some channel' ∧ channel'.spec = channel.spec ∧
    channel'.opened = channel.opened ∧
      channel'.value = channel.value ∧ channel'.publishedAt = channel.publishedAt := by
  obtain ⟨channel', hc', hspec, hopened, hvalue⟩ := h.channels c channel hc
  rcases hvalue with ⟨hsame, hat⟩ | ⟨hnone, -, -⟩
  · exact ⟨channel', hc', hspec, hopened, hsame, hat⟩
  · exact absurd hnone hsome

variable {spec : Spec}

theorem Sourced.mono {cfg : Config Spec E} {s s' : Cache Spec E} (h : Extends s s')
    {result : Outcome E} {source : Source} (hsource : Sourced cfg s spec result source) :
    Sourced cfg s' spec result source := by
  cases source with
  | led cell => trivial
  | abandoned cell => exact hsource
  | hit cell clock =>
    obtain ⟨channel, fetchedAt, hc, hspec, hvalue, hfresh⟩ := hsource
    obtain ⟨channel', hc', hspec', -, hvalue', -⟩ := h.value hc (hvalue ▸ some_ne_none _)
    exact ⟨channel', fetchedAt, hc', hspec'.trans hspec, hvalue'.trans hvalue, hfresh⟩
  | followed cell since till =>
    obtain ⟨channel, fetchedAt, hc, hspec, hvalue, hopened, hat⟩ := hsource
    obtain ⟨channel', hc', hspec', hopened', hvalue', hat'⟩ := h.value hc (hvalue ▸ some_ne_none _)
    exact ⟨channel', fetchedAt, hc', hspec'.trans hspec, hvalue'.trans hvalue, hopened' ▸ hopened,
      hat' ▸ hat⟩

theorem Local.mono {cfg : Config Spec E} {s s' : Cache Spec E} (h : Extends s s')
    {t : Caller Spec E} (hworking : ∀ k c, t = .working k c → s'.channels[c]? = s.channels[c]?)
    (ht : Local cfg s t) : Local cfg s' t := by
  cases t with
  | start | dropped => trivial
  | following spec cell since =>
    obtain ⟨channel, hc, hspec, hsince, hopened, hat⟩ := ht
    obtain ⟨channel', hc', hspec', hopened', hvalue⟩ := h.channels cell channel hc
    refine ⟨channel', hc', hspec'.trans hspec, hsince.trans h.moment, hopened' ▸ hopened,
      fun hsome => ?_⟩
    rcases hvalue with ⟨hsame, hat'⟩ | ⟨-, -, hlater⟩
    · exact hat' ▸ hat (hsame ▸ hsome)
    · exact hsince.trans hlater
  | working spec cell =>
    obtain ⟨channel, hc, hchannel⟩ := ht
    exact ⟨channel, (hworking spec cell rfl).trans hc, hchannel⟩
  | cleaning spec cell result =>
    obtain ⟨channel, hc, hsome⟩ := ht
    obtain ⟨channel', hc', -, -, hvalue, -⟩ := h.value hc hsome
    exact ⟨channel', hc', hvalue ▸ hsome⟩
  | returned spec result source => exact Sourced.mono h ht

/-! ## How the channels change -/

theorem extends_tick (s : Cache Spec E) (elapsed : Nat) : Extends s (s.tick elapsed) :=
  ⟨Nat.le_succ _, fun _ channel h => ⟨channel, h, rfl, rfl, .inl ⟨rfl, rfl⟩⟩⟩

variable {s : Cache Spec E} {cell : Nat}

/-- A channel is only published where it was not yet. -/
theorem extends_modify {f : Channel Spec E → Channel Spec E}
    (h : ∀ channel, s.channels[cell]? = some channel →
      (f channel).spec = channel.spec ∧ (f channel).opened = channel.opened ∧
      ((f channel).value = channel.value ∧ (f channel).publishedAt = channel.publishedAt ∨
        channel.value = none ∧ (f channel).value ≠ none ∧ s.moment ≤ (f channel).publishedAt)) :
    Extends s { s with channels := s.channels.modify cell f } := by
  refine ⟨le_refl _, fun c channel hc => ?_⟩
  by_cases heq : cell = c
  · subst heq
    exact ⟨f channel, by simp [hc], h channel hc⟩
  · exact ⟨channel, by simp [heq, hc], rfl, rfl, .inl ⟨rfl, rfl⟩⟩

theorem extends_dropSender (s : Cache Spec E) (cell : Nat) : Extends s (s.dropSender cell) :=
  extends_modify fun _ _ => ⟨rfl, rfl, .inl ⟨rfl, rfl⟩⟩

theorem extends_publish (result : Outcome E)
    (hnone : ∀ channel, s.channels[cell]? = some channel → channel.value = none) :
    Extends s (s.publish cell result) :=
  extends_modify fun channel hc => ⟨rfl, rfl, .inr ⟨hnone channel hc, some_ne_none _, le_refl _⟩⟩

theorem extends_insertLeader [DecidableEq Spec] (cfg : Config Spec E) (s : Cache Spec E)
    (spec : Spec) :
    Extends s (s.insertLeader cfg spec).1 := by
  refine ⟨le_refl _, fun c channel h => ⟨channel, ?_, rfl, rfl, .inl ⟨rfl, rfl⟩⟩⟩
  change (s.channels ++ [_])[c]? = some channel
  rw [List.getElem?_append_left (List.getElem?_eq_some_iff.mp h).1, h]

/-! ## What a step keeps of the map -/

variable {cfg : Config Spec E} {s : Cache Spec E}

theorem Good.tick (h : Good cfg s) (elapsed : Nat) : Good cfg (s.tick elapsed) :=
  ⟨⟨h.listed.nodup, h.listed.mem_iff, h.listed.length_le⟩, h.cells, h.senders,
    fun c channel hc => (h.opened c channel hc).trans (Nat.le_succ _)⟩

theorem Good.modify (h : Good cfg s) (cell : Nat) {f : Channel Spec E → Channel Spec E}
    (hspec : ∀ channel, (f channel).spec = channel.spec)
    (hopened : ∀ channel, (f channel).opened = channel.opened)
    (hsender : ∀ channel, s.channels[cell]? = some channel → (f channel).value = none →
      (f channel).sender = true) :
    Good cfg { s with channels := s.channels.modify cell f } := by
  have hback : ∀ (c : Nat) channel, (s.channels.modify cell f)[c]? = some channel →
      ∃ before, s.channels[c]? = some before ∧ (if cell = c then f before else before) =
      channel := by
    simp [List.getElem?_modify]
  refine ⟨⟨h.listed.nodup, h.listed.mem_iff, h.listed.length_le⟩, fun k c hk => ?_,
    fun c channel hc hnone => ?_, fun c channel hc => ?_⟩
  · obtain ⟨channel, hc, hof⟩ := h.cells k c hk
    refine ⟨if cell = c then f channel else channel, by simp [List.getElem?_modify, hc], ?_⟩
    split_ifs
    · exact (hspec channel).trans hof
    · exact hof
  · obtain ⟨before, hbefore, rfl⟩ := hback c channel hc
    split_ifs at hnone ⊢ with heq
    · exact hsender before (heq ▸ hbefore) hnone
    · exact h.senders c before hbefore hnone
  · obtain ⟨before, hbefore, rfl⟩ := hback c channel hc
    split_ifs
    · exact (hopened before).trans_le (h.opened c before hbefore)
    · exact h.opened c before hbefore

theorem Good.publish (h : Good cfg s) (cell : Nat) (result : Outcome E) :
    Good cfg (s.publish cell result) :=
  h.modify cell (fun _ => rfl) (fun _ => rfl) fun _ _ hnone => absurd hnone (some_ne_none _)

theorem Good.dropSender (h : Good cfg s)
    (hpublished : ∀ channel, s.channels[cell]? = some channel → channel.value ≠ none) :
    Good cfg (s.dropSender cell) :=
  h.modify cell (fun _ => rfl) (fun _ => rfl) fun channel hc hnone =>
    absurd hnone (hpublished channel hc)

theorem Good.cells_eq_none (h : Good cfg s)
    (hnone : ∀ cell, s.cells spec = some cell → s.channels[cell]? = none) :
    s.cells spec = none := by
  cases hcell : s.cells spec with
  | none => rfl
  | some cell =>
    obtain ⟨channel, hc, -⟩ := h.cells spec cell hcell
    exact absurd (hc.symm.trans (hnone cell hcell)) (some_ne_none channel)

variable [DecidableEq Spec]

theorem Good.remove (h : Good cfg s) (spec : Spec) : Good cfg (s.remove spec) :=
  ⟨h.listed.remove spec, fun k c hk => h.cells k c (Cache.remove_some hk), h.senders, h.opened⟩

theorem Good.insertLeader (h : Good cfg s) (hspec : s.cells spec = none) :
    Good cfg (s.insertLeader cfg spec).1 := by
  have hchannels : (s.insertLeader cfg spec).1.channels = s.channels ++
      [⟨spec, none, true, s.moment, 0⟩] := rfl
  refine ⟨h.listed.insertLeader hspec, fun k c hk => ?_, fun c channel hc hnone => ?_,
    fun c channel hc => ?_⟩
  · rw [hchannels]
    rcases Cache.insertLeader_some hk with ⟨rfl, rfl⟩ | hold
    · exact ⟨_, List.getElem?_concat_length, rfl⟩
    · obtain ⟨channel, hc, hk⟩ := h.cells k c hold
      refine ⟨channel, ?_, hk⟩
      rw [List.getElem?_append_left (List.getElem?_eq_some_iff.mp hc).1, hc]
  · rcases getElem?_concat_cases hc with ⟨-, rfl⟩ | hc
    · rfl
    · exact h.senders c channel hc hnone
  · rcases getElem?_concat_cases hc with ⟨-, rfl⟩ | hc
    · exact le_refl _
    · exact h.opened c channel hc

/-! ## Every step -/

abbrev Inv (cfg : Config Spec E) (w : World Spec E) : Prop :=
  Pool.Inv (Good cfg) (Local cfg) Distinct w

def NotCancelled (_ : World Spec E) : Action Spec E → Prop
  | .call _ => True
  | .step _ answer => answer.event ≠ .cancel

variable {w : World Spec E}

variable {i : Nat}

omit [DecidableEq Spec] in
theorem Inv.quiet (h : Inv cfg w) {t' : Caller Spec E}
    (hgood : Good cfg s') (hext : Extends w.shared s') (hown : Local cfg s' t')
    (hnot : ∀ k c, t' ≠ .working k c)
    (hsame : ∀ (j : Nat) k c, i ≠ j → w.callers[j]? = some (.working k c) →
      s'.channels[c]? = w.shared.channels[c]?) :
    Inv cfg ⟨s', w.callers.set i t'⟩ := by
  refine h.set hgood hown (fun j u hne hj => ?_) fun j u hne hj => ⟨?_, ?_⟩
  · refine Local.mono hext (fun k c hu => ?_) (h.each j u hj)
    subst hu
    exact hsame j k c hne hj
  · exact fun k k' c hwork => absurd hwork (hnot k c)
  · exact fun k k' c _ => hnot k' c

theorem Inv.lead (h : Inv cfg w) {s : Cache Spec E} (hs : Good cfg s)
    (hspec : s.cells spec = none) (hext : Extends w.shared s)
    (hchannels : s.channels = w.shared.channels) :
    Inv cfg ⟨(s.insertLeader cfg spec).1,
      w.callers.set i (.working spec (s.insertLeader cfg spec).2)⟩ := by
  have hlength : (s.insertLeader cfg spec).2 = w.shared.channels.length :=
    congrArg List.length hchannels
  have hnew : ∀ (j : Nat) k c, w.callers[j]? = some (.working k c) →
      c < w.shared.channels.length := by
    intro j k c hj
    obtain ⟨channel, hc, -⟩ := h.each j _ hj
    exact (List.getElem?_eq_some_iff.mp hc).1
  refine h.set (hs.insertLeader hspec) ?_ (fun j u hne hj => ?_) fun j u hne hj => ⟨?_, ?_⟩
  · exact ⟨⟨spec, none, true, s.moment, 0⟩, List.getElem?_concat_length, rfl, rfl⟩
  · refine Local.mono (hext.trans (extends_insertLeader cfg s spec)) (fun k c hu => ?_)
      (h.each j u hj)
    subst hu
    change (s.channels ++ [_])[c]? = _
    rw [hchannels, List.getElem?_append_left (hnew j k c hj)]
  · rintro k k' c hwork rfl
    exact (hnew j k' c hj).ne ((Caller.working.inj hwork).2.symm.trans hlength)
  · rintro k k' c rfl hwork
    exact (hnew j k c hj).ne ((Caller.working.inj hwork).2.symm.trans hlength)

omit [DecidableEq Spec] in
theorem local_await (hs : Good cfg s) {cell since : Nat}
    (h : Local cfg s (.following spec cell since)) : Local cfg s (await cfg s spec cell since) := by
  obtain ⟨channel, hc, hspec, hsince, hopened, hat⟩ := h
  unfold await
  rw [hc]
  dsimp only
  split
  · rename_i result fetchedAt hvalue
    exact ⟨channel, fetchedAt, hc, hspec, hvalue, hopened.trans hsince,
      hat (hvalue ▸ some_ne_none _)⟩
  · rename_i hvalue
    rw [if_pos (hs.senders cell channel hc hvalue)]
    exact ⟨channel, hc, hspec, hsince, hopened, hat⟩

omit [DecidableEq Spec] in
theorem await_ne_working {cell since : Nat} (k : Spec) (c : Nat) :
    await cfg s spec cell since ≠ .working k c := by
  unfold await
  split
  · exact nofun
  · split
    · exact nofun
    · split_ifs <;> exact nofun

theorem Inv.begin {w : World Spec E} (h : Inv cfg w) {i : Nat} (elapsed : Nat) (spec : Spec) :
    Inv cfg ⟨(begin cfg (w.shared.tick elapsed) spec).1,
      w.callers.set i (Keystore.begin cfg (w.shared.tick elapsed) spec).2⟩ := by
  have hgood := h.shared.tick elapsed
  have hext := extends_tick w.shared elapsed
  have hfound := Cache.found_lookup cfg (w.shared.tick elapsed) spec
  unfold Keystore.begin
  generalize (w.shared.tick elapsed).lookup cfg spec = found at hfound ⊢
  cases hfound with
  | cacheHit hcell hchannel hvalue hfresh =>
    obtain ⟨channel, hc, hspec⟩ := hgood.cells spec _ hcell
    obtain rfl := mem_unique hchannel hc
    exact h.quiet hgood hext ⟨_, _, hc, hspec, hvalue, hfresh⟩
      (fun _ _ => nofun) fun _ _ _ _ _ => rfl
  | follower hcell hchannel hvalue =>
    obtain ⟨channel, hc, hspec⟩ := hgood.cells spec _ hcell
    obtain rfl := mem_unique hchannel hc
    exact h.quiet hgood hext ⟨_, hc, hspec, le_refl _, hgood.opened _ _ hc,
      fun hsome => absurd hvalue hsome⟩
      (fun _ _ => nofun) fun _ _ _ _ _ => rfl
  | stale hcell hchannel hvalue =>
    refine h.lead (hgood.remove spec) ?_ ⟨hext.moment, hext.channels⟩ rfl
    rw [Cache.remove_cells, if_pos rfl]
  | absent hnone => exact h.lead hgood (hgood.cells_eq_none hnone) hext rfl

omit [DecidableEq Spec] in
theorem Inv.finish {w : World Spec E} (h : Inv cfg w) {i : Nat} {spec : Spec} {cell : Nat}
    (hi : w.callers[i]? = some (.working spec cell)) (elapsed : Nat) (result : Outcome E) :
    Inv cfg ⟨(finish cfg (w.shared.tick elapsed) spec cell result).1,
      w.callers.set i (Keystore.finish cfg (w.shared.tick elapsed) spec cell result).2⟩ := by
  have hgood := (h.shared.tick elapsed).publish cell result
  obtain ⟨channel, hc, hspec, hvalue⟩ := h.each i _ hi
  have hext : Extends w.shared ((w.shared.tick elapsed).publish cell result) := by
    refine (extends_tick w.shared elapsed).trans (extends_publish result fun channel' hc' => ?_)
    rw [← mem_unique hc hc', hvalue]
  have hpublished : ∀ channel', ((w.shared.tick elapsed).publish cell result).channels[cell]? =
      some channel' → channel'.value ≠ none := by
    intro channel' hc'
    rw [getElem?_publish_self hc']
    simp
  -- another leader has another channel
  have hapart : ∀ (j : Nat) k c, i ≠ j → w.callers[j]? = some (.working k c) → cell ≠ c := by
    rintro j k c hne hj rfl
    exact h.pairs i j _ _ hne hi hj spec k cell rfl rfl
  unfold Keystore.finish
  split_ifs
  · refine h.quiet hgood hext ?_ (fun _ _ h => by cases h) fun j k c hne hj => ?_
    · obtain ⟨channel', hc', -⟩ := hext.channels cell channel hc
      exact ⟨channel', hc', hpublished channel' hc'⟩
    · rw [Cache.publish, List.getElem?_modify_ne _ _ (hapart j k c hne hj)]
      rfl
  · refine h.quiet (hgood.dropSender hpublished)
      (hext.trans (extends_dropSender _ cell)) trivial (fun _ _ h => by cases h)
      fun j k c hne hj => ?_
    rw [Cache.dropSender, List.getElem?_modify_ne _ _ (hapart j k c hne hj), Cache.publish,
      List.getElem?_modify_ne _ _ (hapart j k c hne hj)]
    rfl

theorem Inv.clean (h : Inv cfg w) {result : Outcome E}
    (hi : w.callers[i]? = some (.cleaning spec cell result)) (elapsed : Nat) :
    Inv cfg ⟨((w.shared.tick elapsed).remove spec).dropSender cell,
      w.callers.set i (.returned spec result (.led cell))⟩ := by
  obtain ⟨channel, hc, hsome⟩ := h.each i _ hi
  have hpublished : ∀ channel', w.shared.channels[cell]? = some channel' →
      channel'.value ≠ none := by
    intro channel' hc'
    rwa [← mem_unique hc hc']
  refine h.quiet (((h.shared.tick elapsed).remove spec).dropSender hpublished)
    ((extends_tick w.shared elapsed).trans ⟨le_refl _, (extends_dropSender _ cell).channels⟩)
    trivial
    (fun _ _ => nofun) fun j k c hne hj => ?_
  obtain ⟨channel', hc', -, hnone⟩ := h.each j _ hj
  have hapart : cell ≠ c := by
    rintro rfl
    exact hpublished channel' hc' hnone
  rw [Cache.dropSender, List.getElem?_modify_ne _ _ hapart]
  rfl

theorem Inv.next (h : Inv cfg w) (a : Action Spec E) (ha : NotCancelled w a) :
    Inv cfg (next (resolve cfg) w a) := by
  refine Pool.next_cases w a (fun spec _ => ?_) (fun i answer t hstep hi => ?_) h
  · refine ⟨h.shared, fun j u hj => ?_, fun j k t u hjk hj hk => ?_⟩
    · rcases getElem?_concat_cases hj with ⟨-, rfl⟩ | hj
      · trivial
      · exact h.each j u hj
    · rcases getElem?_concat_cases hj with ⟨-, rfl⟩ | hj
      · exact nofun
      · rcases getElem?_concat_cases hk with ⟨-, rfl⟩ | hk
        · exact fun _ _ _ _ => nofun
        · exact h.pairs j k t u hjk hj hk
  · subst hstep
    obtain ⟨elapsed, event⟩ := answer
    cases event with
    | cancel => exact absurd rfl ha
    | go result =>
      have hext := extends_tick w.shared elapsed
      have hown := Local.mono hext (fun _ _ _ => rfl) (h.each i t hi)
      cases t with
      | start spec => exact h.begin elapsed spec
      | following spec cell since =>
        exact h.quiet (h.shared.tick elapsed) hext (local_await (h.shared.tick elapsed) hown)
          await_ne_working
          fun _ _ _ _ _ => rfl
      | working spec cell => exact h.finish hi elapsed result
      | cleaning spec cell result => exact h.clean hi elapsed
      | returned spec result source =>
        exact h.quiet (h.shared.tick elapsed) hext hown (fun _ _ => nofun) fun _ _ _ _ _ => rfl
      | dropped =>
        exact h.quiet (h.shared.tick elapsed) hext hown (fun _ _ => nofun) fun _ _ _ _ _ => rfl

omit [DecidableEq Spec] in
theorem inv_init : Inv cfg (init : World Spec E) :=
  ⟨⟨⟨List.nodup_nil, fun _ => ⟨nofun, nofun⟩, Nat.zero_le _⟩, nofun, nofun, nofun⟩, nofun, nofun⟩

/-! ## One read of a spec -/

def InMap (w : World Spec E) : Prop :=
  ∀ (i : Nat) k c, w.callers[i]? = some (.working k c) → w.shared.cells k = some c

def InFlight (s : Cache Spec E) (spec : Spec) : Prop :=
  ∃ cell channel, s.cells spec = some cell ∧ s.channels[cell]? = some channel ∧ channel.value = none

/-- No entry of a read in flight is taken out of the map: a caller that needs room finds
the oldest entry published, and one that cleans up finds no other's read. -/
def Undisturbed (cfg : Config Spec E) (w : World Spec E) : Action Spec E → Prop
  | .call _ => True
  | .step i _ =>
    (∀ spec, w.callers[i]? = some (.start spec) → w.shared.cells spec = none →
      cfg.maxCacheEntries ≤ w.shared.order.length → ∀ oldest ∈ w.shared.order.head?,
      ¬ InFlight w.shared oldest) ∧
    ∀ spec cell result, w.callers[i]? = some (.cleaning spec cell result) → ¬ InFlight w.shared spec

omit [DecidableEq Spec] in
theorem Inv.inFlight (h : Inv cfg w) (hmap : InMap w) {k : Spec} {c : Nat}
    (hi : w.callers[i]? = some (.working k c)) : InFlight w.shared k := by
  obtain ⟨channel, hc, -, hnone⟩ := h.each i _ hi
  exact ⟨c, channel, hmap i k c hi, hc, hnone⟩

omit [DecidableEq Spec] in
theorem InMap.set (h : InMap w) {t' : Caller Spec E}
    (hown : ∀ k c, t' = .working k c → s'.cells k = some c)
    (hother : ∀ (j : Nat) k c, w.callers[j]? = some (.working k c) →
      s'.cells k = w.shared.cells k) :
    InMap ⟨s', w.callers.set i t'⟩ := by
  intro j k c hj
  rcases Pool.getElem?_set_cases hj with ⟨-, heq⟩ | ⟨-, hj⟩
  · exact hown k c heq.symm
  · exact (hother j k c hj).trans (h j k c hj)

theorem insertLeader_kept (hlisted : s.Listed cfg.maxCacheEntries) {spec k : Spec} (hk : k ≠ spec)
    (hoom : cfg.maxCacheEntries ≤ s.order.length → k ∉ s.order.head?) :
    (s.insertLeader cfg spec).1.cells k = s.cells k := by
  rw [Cache.insertLeader_cells, Function.update_of_ne hk, if_neg]
  intro htake
  have hle := hlisted.length_le
  rw [List.length_append, List.length_singleton] at htake
  by_cases hfull : cfg.maxCacheEntries ≤ s.order.length
  · have hone : s.order.length + 1 - cfg.maxCacheEntries = 1 := by omega
    rw [hone] at htake
    cases horder : s.order with
    | nil =>
      rw [horder, List.nil_append, List.take_succ_cons, List.take_zero] at htake
      exact hk (List.mem_singleton.mp htake)
    | cons oldest order =>
      rw [horder, List.cons_append, List.take_succ_cons, List.take_zero] at htake
      refine hoom hfull ?_
      rw [horder, List.mem_singleton.mp htake]
      rfl
  · have hnone : s.order.length + 1 - cfg.maxCacheEntries = 0 := by omega
    rw [hnone] at htake
    exact List.not_mem_nil htake

theorem insertLeader_own (hlisted : s.Listed cfg.maxCacheEntries) (hpos : 0 < cfg.maxCacheEntries)
    (hspec : s.cells spec = none) :
    (s.insertLeader cfg spec).1.cells spec = some (s.insertLeader cfg spec).2 := by
  rw [Cache.insertLeader_cells, Function.update_self, if_neg]
  · rfl
  intro htake
  have hin : spec ∈ s.order := by
    rw [List.length_append, List.length_singleton,
      List.take_append_of_le_length (by omega)] at htake
    exact List.mem_of_mem_take htake
  rw [hlisted.mem_iff, hspec] at hin
  exact absurd hin Bool.false_ne_true

theorem InMap.next (hpos : 0 < cfg.maxCacheEntries) {w : World Spec E} (hmap : InMap w)
    (h : Inv cfg w) (a : Action Spec E) (ha : NotCancelled w a) (hquiet : Undisturbed cfg w a) :
    InMap (next (resolve cfg) w a) := by
  refine Pool.next_cases w a (fun spec _ => ?_) (fun i answer t hstep hi => ?_) hmap
  · intro j k c hj
    rcases getElem?_concat_cases hj with ⟨-, heq⟩ | hj
    · exact absurd heq nofun
    · exact hmap j k c hj
  · subst hstep
    obtain ⟨hroom, hclean⟩ := hquiet
    obtain ⟨elapsed, event⟩ := answer
    cases event with
    | cancel => exact absurd rfl ha
    | go result =>
      cases t with
      | following spec cell since =>
        exact hmap.set (fun k c heq => absurd heq (await_ne_working k c)) fun _ _ _ _ => rfl
      | returned | dropped => exact hmap.set (fun _ _ => nofun) fun _ _ _ _ => rfl
      | working spec cell =>
        change InMap ⟨(finish cfg (w.shared.tick elapsed) spec cell result).1,
          w.callers.set i (finish cfg (w.shared.tick elapsed) spec cell result).2⟩
        unfold finish
        split_ifs <;> exact hmap.set (fun _ _ => nofun) fun _ _ _ _ => rfl
      | cleaning spec cell result =>
        refine hmap.set (fun _ _ => nofun) fun j k c hj => ?_
        have hne : k ≠ spec := by
          rintro rfl
          exact hclean k cell result hi (h.inFlight hmap hj)
        change ((w.shared.tick elapsed).remove spec).cells k = _
        rw [Cache.remove_cells, if_neg hne]
        rfl
      | start spec =>
        change InMap ⟨(begin cfg (w.shared.tick elapsed) spec).1,
          w.callers.set i (begin cfg (w.shared.tick elapsed) spec).2⟩
        have hgood := h.shared.tick elapsed
        have hfound := Cache.found_lookup cfg (w.shared.tick elapsed) spec
        unfold begin
        generalize (w.shared.tick elapsed).lookup cfg spec = found at hfound ⊢
        cases hfound with
        | cacheHit | follower => exact hmap.set (fun _ _ => nofun) fun _ _ _ _ => rfl
        | stale hcell hchannel hvalue =>
          have hnone : ((w.shared.tick elapsed).remove spec).cells spec = none := by
            rw [Cache.remove_cells, if_pos rfl]
          have hlisted := hgood.listed.remove spec
          -- the entry taken over made room
          have hshorter : ((w.shared.tick elapsed).remove spec).order.length <
              cfg.maxCacheEntries := by
            have hin : spec ∈ (w.shared.tick elapsed).order := by
              rw [hgood.listed.mem_iff, hcell]
              rfl
            refine lt_of_lt_of_le ?_ hgood.listed.length_le
            exact List.length_filter_lt_length_iff_exists.mpr ⟨spec, hin, by simp⟩
          refine hmap.set (fun k c heq => ?_) fun j k c hj => ?_
          · obtain ⟨rfl, rfl⟩ := Caller.working.inj heq
            exact insertLeader_own hlisted hpos hnone
          · have hne : k ≠ spec := by
              rintro rfl
              obtain ⟨cell, channel, hcell', hc, hunpublished⟩ := h.inFlight hmap hj
              obtain rfl := mem_unique hcell hcell'
              obtain rfl := mem_unique hchannel hc
              rw [hvalue] at hunpublished
              cases hunpublished
            refine (insertLeader_kept hlisted hne fun hfull => absurd hshorter
              (not_lt.mpr hfull)).trans ?_
            rw [Cache.remove_cells, if_neg hne]
            rfl
        | absent hnone =>
          have hspec := hgood.cells_eq_none hnone
          refine hmap.set (fun k c heq => ?_) fun j k c hj => ?_
          · obtain ⟨rfl, rfl⟩ := Caller.working.inj heq
            exact insertLeader_own hgood.listed hpos hspec
          · have hflight := h.inFlight hmap hj
            have hne : k ≠ spec := by
              rintro rfl
              obtain ⟨cell, -, hcell, -⟩ := hflight
              exact absurd (hspec.symm.trans hcell) (some_ne_none cell).symm
            exact insertLeader_kept hgood.listed hne fun hfull holdest =>
              hroom spec hi hspec hfull k holdest hflight

def SingleFlight (w : World Spec E) : Prop :=
  ∀ (i j : Nat) k c c', w.callers[i]? = some (.working k c) → w.callers[j]? = some (.working k c') →
    i = j

omit [DecidableEq Spec] in
theorem Inv.singleFlight (h : Inv cfg w) (hmap : InMap w) : SingleFlight w := by
  intro i j k c c' hi hj
  by_contra hne
  obtain rfl : c = c' := mem_unique (hmap i k c hi) (hmap j k c' hj)
  exact h.pairs i j _ _ hne hi hj k k c rfl rfl

/-- **Reads are shared.** Of every run in which no caller is dropped: the eviction order
lists the cached specs, each once and no more than the limit, and a caller that did not
read itself returns what was read while it waited or was fresh when it looked. Along a run
in which no entry is taken out under a read in flight, a spec has one read at a time. -/
theorem single_flight (hpos : 0 < cfg.maxCacheEntries) {actions : List (Action Spec E)}
    (hcancel : Along (resolve cfg) NotCancelled init actions) :
    (run (resolve cfg) init actions).shared.Listed cfg.maxCacheEntries ∧
    (∀ (i : Nat) spec result source,
        (run (resolve cfg) init actions).callers[i]? = some (.returned spec result source) →
          Sourced cfg (run (resolve cfg) init actions).shared spec result source) ∧
      (Along (resolve cfg) (Undisturbed cfg) init actions →
        SingleFlight (run (resolve cfg) init actions)) := by
  have hinv : Inv cfg (run (resolve cfg) init actions) :=
    hcancel.run (fun w a hw ha => hw.next a ha) inv_init
  refine ⟨hinv.shared.listed, fun i spec result source hi => hinv.each i _ hi, fun hquiet => ?_⟩
  have hstep : ∀ (w : World Spec E) a, Inv cfg w ∧ InMap w → NotCancelled w a ∧
      Undisturbed cfg w a → Inv cfg (next (resolve cfg) w a) ∧ InMap (next (resolve cfg) w a) :=
    fun w a hw ha => ⟨hw.1.next a ha.1, hw.2.next hpos hw.1 a ha.1 ha.2⟩
  have hinit : Inv cfg (init : World Spec E) ∧ InMap (init : World Spec E) := ⟨inv_init, nofun⟩
  have hrun := Pool.Along.run hstep (hcancel.and hquiet) hinit
  exact hrun.1.singleFlight hrun.2

def rereadConfig : Config Nat Unit := ⟨fun _ => 0, 1024, ()⟩

/-- A leader publishes, a second takes its stale entry over, the first cleans up by name,
and a third finds no entry. -/
def cleanedUnder : List (Action Nat Unit) :=
  [.call 0, .step 0 ⟨0, .go (.ok [])⟩, .step 0 ⟨0, .go (.ok [])⟩, .call 0,
    .step 1 ⟨0, .go (.ok [])⟩, .step 0 ⟨0, .go (.ok [])⟩, .call 0, .step 2 ⟨0, .go (.ok [])⟩]

theorem two_reads_in_flight : Along (resolve rereadConfig) NotCancelled init cleanedUnder ∧
    ¬ SingleFlight (run (resolve rereadConfig) init cleanedUnder) := by
  refine ⟨by simp [Along, cleanedUnder, NotCancelled], fun hsingle => ?_⟩
  exact absurd (hsingle 1 2 0 1 2 rfl rfl) (by decide)

def oneEntryConfig : Config Nat Unit := ⟨fun _ => 60000, 1, ()⟩

/-- A leader returns; the next one needs the room of its entry, and is followed while it reads. -/
def followedLeader : List (Action Nat Unit) :=
  [.call 0, .step 0 ⟨0, .go (.ok [])⟩, .step 0 ⟨0, .go (.ok [7])⟩, .call 1,
    .step 1 ⟨0, .go (.ok [])⟩, .call 1, .step 2 ⟨0, .go (.ok [])⟩]

theorem single_flight_followed : (run (resolve oneEntryConfig) init followedLeader).callers =
      [.returned 0 (.ok [7]) (.led 0), .working 1 1, .following 1 1 4] ∧
    SingleFlight (run (resolve oneEntryConfig) init followedLeader) := by
  have hquiet : Along (resolve oneEntryConfig)
      (Undisturbed oneEntryConfig) init followedLeader := by
    refine ⟨trivial, ⟨?_, nofun⟩, ⟨nofun, nofun⟩, trivial, ⟨?_, nofun⟩, trivial, ⟨?_, nofun⟩,
      trivial⟩
    · exact fun _ _ _ hfull => absurd hfull (by decide)
    · -- the entry that makes room is published
      rintro spec - - - _ ⟨⟩ ⟨cell, channel, hcell, hchannel, hnone⟩
      cases hcell
      cases hchannel
      cases hnone
    · rintro spec ⟨⟩ hnone
      cases hnone
  exact ⟨rfl,
    (single_flight (by decide) (by simp [Along, followedLeader, NotCancelled])).2.2 hquiet⟩

end LeyLine.Sign.Keystore
