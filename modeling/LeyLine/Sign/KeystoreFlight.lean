import LeyLine.Sign.Keystore

/-!
# Who reads a secret, and who waits

An entry of the resolve cache outlives its leader: one that is dropped while it reads
leaves a channel nobody will publish in, and every later caller waits on that and fails.
And entries are taken out of the map by name, for room or by a leader that keeps nothing,
also while another leader's read is in flight; the next caller then reads beside it.

While no leader is dropped whose channel is in the map, a spec that nobody reads is answered from
the cache or read again (`next_caller_served`). While no entry is taken out under a read in
flight, there is one read of a spec at a time (`single_flight`).
-/

namespace LeyLine.Sign.Keystore

variable {Spec E : Type}

/-! ## Channels -/

/-- Channels that may have been published or lost their sender since. -/
def Later (channels channels' : List (Channel Spec E)) : Prop :=
  ∀ (c : Nat) (channel : Channel Spec E), channels[c]? = some channel → ∃ channel',
    channels'[c]? = some channel' ∧ (channel'.value = none → channel.value = none)

theorem Later.refl (channels : List (Channel Spec E)) : Later channels channels :=
  fun _ channel h => ⟨channel, h, id⟩

theorem Later.trans {a b c : List (Channel Spec E)} (h : Later a b) (h' : Later b c) :
    Later a c := by
  intro i channel hi
  obtain ⟨channel', hi', hvalue⟩ := h i channel hi
  obtain ⟨channel'', hi'', hvalue'⟩ := h' i channel' hi'
  exact ⟨channel'', hi'', hvalue ∘ hvalue'⟩

theorem later_modify {channels : List (Channel Spec E)} (cell : Nat)
    {f : Channel Spec E → Channel Spec E}
    (hf : ∀ channel, (f channel).value = none → channel.value = none) :
    Later channels (channels.modify cell f) := by
  intro c channel h
  by_cases hc : cell = c
  · rw [hc, List.getElem?_modify_eq, h]
    exact ⟨f channel, rfl, hf channel⟩
  · rw [List.getElem?_modify_ne _ _ hc, h]
    exact ⟨channel, rfl, id⟩

theorem later_publish (s : Cache Spec E) (cell : Nat) (result : Outcome E) :
    Later s.channels (s.publish cell result).channels :=
  later_modify cell fun _ h => absurd h (Option.some_ne_none _)

theorem later_dropSender (s : Cache Spec E) (cell : Nat) :
    Later s.channels (s.dropSender cell).channels :=
  later_modify cell fun _ => id

theorem later_append (channels : List (Channel Spec E)) (channel : Channel Spec E) :
    Later channels (channels ++ [channel]) := by
  intro c found h
  refine ⟨found, ?_, id⟩
  rw [List.getElem?_append_left (List.getElem?_eq_some_iff.mp h).1, h]

theorem getElem?_publish_self {s : Cache Spec E} {cell : Nat} {result : Outcome E}
    {channel : Channel Spec E} (h : (s.publish cell result).channels[cell]? = some channel) :
    channel.value = some (result, s.clock) := by
  rw [Cache.publish, List.getElem?_modify_eq] at h
  obtain ⟨channel', -, rfl⟩ := Option.map_eq_some_iff.mp h
  rfl

/-- Every entry has a channel, and one that is not published has its leader reading. -/
def Owned (w : World Spec E) : Prop :=
  ∀ k c, w.shared.cells k = some c → ∃ channel, w.shared.channels[c]? = some channel ∧
    (channel.value = none → ∃ i : Nat, w.callers[i]? = some (.working k c))

variable {w : World Spec E}

/-- A step that adds no entry keeps every entry's leader, if the caller that steps leads
none that is left unpublished. -/
theorem Owned.set (h : Owned w) {s' : Cache Spec E} {i : Nat} {t' : Caller Spec E}
    (hcells : ∀ k c, s'.cells k = some c → w.shared.cells k = some c)
    (hchannels : Later w.shared.channels s'.channels)
    (hself : ∀ k c, w.callers[i]? = some (.working k c) → s'.cells k = some c →
      ∀ channel, s'.channels[c]? = some channel → channel.value ≠ none) :
    Owned ⟨s', w.callers.set i t'⟩ := by
  intro k c hk
  obtain ⟨channel, hchannel, hleader⟩ := h k c (hcells k c hk)
  obtain ⟨channel', hchannel', hvalue⟩ := hchannels c channel hchannel
  refine ⟨channel', hchannel', fun hnone => ?_⟩
  obtain ⟨j, hj⟩ := hleader (hvalue hnone)
  have hne : i ≠ j := by
    rintro rfl
    exact hself k c hj hk channel' hchannel' hnone
  exact ⟨j, by rw [List.getElem?_set_ne hne]; exact hj⟩

variable [DecidableEq Spec] {cfg : Config Spec E}

/-! ## The map -/

section Evict

variable {cap : Nat}

theorem evict_eq (order : List Spec) (cells : Spec → Option Nat) :
    (evict cap order cells).1 = order.drop (order.length - cap) ∧
      ∀ k, (evict cap order cells).2 k = if k ∈ order.take (order.length - cap) then none
      else cells k := by
  induction order generalizing cells with
  | nil => exact ⟨by simp [evict], fun k => by simp [evict]⟩
  | cons spec order ih =>
    rw [evict]
    split_ifs with hlt
    · obtain ⟨horder, hcells⟩ := ih (Function.update cells spec none)
      have hsucc : (spec :: order).length - cap = (order.length - cap) + 1 := by
        rw [List.length_cons] at hlt ⊢
        omega
      rw [hsucc, List.drop_succ_cons, List.take_succ_cons]
      refine ⟨horder, fun k => ?_⟩
      rw [hcells k]
      by_cases hk : k = spec
      · simp [hk]
      · simp [hk]
    · have hzero : (spec :: order).length - cap = 0 := by omega
      rw [hzero]
      exact ⟨rfl, fun k => by simp⟩

theorem evict_some {order : List Spec} {cells : Spec → Option Nat} {k : Spec} {c : Nat}
    (h : (evict cap order cells).2 k = some c) : cells k = some c := by
  rw [(evict_eq order cells).2 k] at h
  split_ifs at h
  exact h

end Evict

namespace Cache

/-- The eviction order lists the cached specs, each once, and no more than fit. -/
structure Listed (cap : Nat) (s : Cache Spec E) : Prop where
  nodup : s.order.Nodup
  mem_iff : ∀ k, k ∈ s.order ↔ (s.cells k).isSome
  length_le : s.order.length ≤ cap

variable {s : Cache Spec E} {spec : Spec}

theorem insertLeader_order : (s.insertLeader cfg spec).1.order =
    (s.order ++ [spec]).drop ((s.order ++ [spec]).length - cfg.maxCacheEntries) :=
  (evict_eq _ _).1

theorem insertLeader_cells (k : Spec) : (s.insertLeader cfg spec).1.cells k =
    if k ∈ (s.order ++ [spec]).take ((s.order ++ [spec]).length - cfg.maxCacheEntries) then none
    else Function.update s.cells spec (some s.channels.length) k :=
  (evict_eq _ _).2 k

theorem Listed.remove {cap : Nat} (h : s.Listed cap) (spec : Spec) :
    (s.remove spec).Listed cap := by
  refine ⟨h.nodup.filter _, fun k => ?_, (List.length_filter_le _ _).trans h.length_le⟩
  by_cases hk : k = spec
  · simp [Cache.remove, hk]
  · simp [Cache.remove, hk, h.mem_iff k]

theorem Listed.insertLeader (h : s.Listed cfg.maxCacheEntries)
    (hspec : s.cells spec = none) : (s.insertLeader cfg spec).1.Listed cfg.maxCacheEntries := by
  have hnotin : spec ∉ s.order := by
    rw [h.mem_iff, hspec]
    exact Bool.false_ne_true
  have hnodup : (s.order ++ [spec]).Nodup :=
    List.nodup_append.mpr ⟨h.nodup, List.nodup_singleton _, fun a ha b hb heq =>
      hnotin (by rwa [← List.mem_singleton.mp hb, ← heq])⟩
  refine ⟨?_, fun k => ?_, ?_⟩
  · rw [insertLeader_order]
    exact hnodup.sublist (List.drop_sublist _ _)
  · rw [insertLeader_order, insertLeader_cells]
    -- with each spec once, the rest of the order is what was not taken from its front
    have hsplit :=
      List.take_append_drop ((s.order ++ [spec]).length - cfg.maxCacheEntries) (s.order ++ [spec])
    rw [← hsplit, List.nodup_append] at hnodup
    have hin : k ∈ s.order ++ [spec] ↔
        (Function.update s.cells spec (some s.channels.length) k).isSome := by
      by_cases hk : k = spec
      · simp [hk]
      · simp [hk, h.mem_iff k]
    split_ifs with htake
    · simpa using fun hdrop => hnodup.2.2 k htake k hdrop rfl
    · rw [← hin]
      constructor
      · exact List.mem_of_mem_drop
      · intro hmem
        rw [← hsplit, List.mem_append] at hmem
        exact hmem.resolve_left htake
  · rw [insertLeader_order, List.length_drop]
    omega

theorem insertLeader_some {k : Spec} {c : Nat} (h : (s.insertLeader cfg spec).1.cells k = some c) :
    k = spec ∧ c = s.channels.length ∨ s.cells k = some c := by
  have hupdate := evict_some h
  by_cases hk : k = spec
  · rw [hk, Function.update_self] at hupdate
    exact .inl ⟨hk, (Option.some.inj hupdate).symm⟩
  · rw [Function.update_of_ne hk] at hupdate
    exact .inr hupdate

theorem remove_cells (k : Spec) : (s.remove spec).cells k = if k = spec then none else s.cells k :=
  Function.update_apply _ _ _ _

theorem remove_some {k : Spec} {c : Nat} (h : (s.remove spec).cells k = some c) :
    s.cells k = some c := by
  rw [remove_cells] at h
  split_ifs at h
  exact h

end Cache

/-! ## A dropped leader -/

def LeadersStay (w : World Spec E) : Action Spec E → Prop
  | .call _ => True
  | .step i answer => answer.event = .cancel → ∀ k c, w.callers[i]? = some (.working k c) →
      w.shared.cells k ≠ some c

theorem Owned.lead (h : Owned w) {s : Cache Spec E} {i : Nat} {spec : Spec}
    (hi : w.callers[i]? = some (.start spec))
    (hcells : ∀ k c, s.cells k = some c → w.shared.cells k = some c)
    (hchannels : s.channels = w.shared.channels) :
    Owned ⟨(s.insertLeader cfg spec).1,
      w.callers.set i (.working spec (s.insertLeader cfg spec).2)⟩ := by
  intro k c hk
  rcases Cache.insertLeader_some hk with ⟨rfl, rfl⟩ | hold
  · refine ⟨⟨k, none, true, s.moment, 0⟩, by simp [Cache.insertLeader], fun _ => ⟨i, ?_⟩⟩
    exact List.getElem?_set_self (List.getElem?_eq_some_iff.mp hi).1
  · obtain ⟨channel, hchannel, hleader⟩ := h k c (hcells k c hold)
    obtain ⟨channel', hchannel', hvalue⟩ :=
      later_append s.channels ⟨spec, none, true, s.moment, 0⟩ c channel
      (by rw [hchannels]; exact hchannel)
    refine ⟨channel', hchannel', fun hnone => ?_⟩
    obtain ⟨j, hj⟩ := hleader (hvalue hnone)
    have hne : i ≠ j := by
      rintro rfl
      cases hi.symm.trans hj
    exact ⟨j, by rw [List.getElem?_set_ne hne]; exact hj⟩

theorem Owned.next (h : Owned w) (a : Action Spec E) (hstay : LeadersStay w a) :
    Owned (Pool.next (resolve cfg) w a) := by
  refine Pool.next_cases w a (fun spec _ => ?_) (fun i answer t ha hi => ?_) h
  · intro k c hk
    obtain ⟨channel, hchannel, hleader⟩ := h k c hk
    refine ⟨channel, hchannel, fun hnone => ?_⟩
    obtain ⟨j, hj⟩ := hleader hnone
    exact ⟨j, by rw [List.getElem?_append_left (List.getElem?_eq_some_iff.mp hj).1]; exact hj⟩
  · subst ha
    have hquiet : ∀ {s' : Cache Spec E} {t' : Caller Spec E},
        (∀ k c, s'.cells k = some c → w.shared.cells k = some c) →
        Later w.shared.channels s'.channels → (∀ k c, t ≠ .working k c) →
        Owned ⟨s', w.callers.set i t'⟩ := by
      intro s' t' hcells hchannels hnot
      refine h.set hcells hchannels fun k c hk => ?_
      exact absurd (Option.mem_unique hi hk) (hnot k c)
    have hsame : ∀ k c, w.shared.cells k = some c → w.shared.cells k = some c := fun _ _ => id
    obtain ⟨elapsed, event⟩ := answer
    cases event with
    | cancel =>
      cases t with
      | start | following | cleaning | returned | dropped =>
        exact hquiet hsame (Later.refl _) (fun _ _ => nofun)
      | working spec cell =>
        refine h.set hsame (later_dropSender _ cell) fun k c hk hcell => ?_
        exact absurd hcell (hstay rfl k c hk)
    | go result =>
      cases t with
      | following | returned | dropped => exact hquiet hsame (Later.refl _) (fun _ _ => nofun)
      | cleaning spec cell result =>
        exact hquiet (fun k c => Cache.remove_some) (later_dropSender _ cell) (fun _ _ => nofun)
      | working spec cell =>
        change Owned ⟨(finish cfg (w.shared.tick elapsed) spec cell result).1,
          w.callers.set i (finish cfg (w.shared.tick elapsed) spec cell result).2⟩
        unfold finish
        split_ifs
        · refine h.set hsame (later_publish (w.shared.tick elapsed) cell result) fun k c hk _
            channel hchannel => ?_
          obtain ⟨rfl, rfl⟩ := Caller.working.inj (Option.mem_unique hi hk)
          rw [getElem?_publish_self hchannel]
          simp
        · refine h.set hsame ((later_publish (w.shared.tick elapsed) cell result).trans
            (later_dropSender _ cell))
            fun k c hk _ channel hchannel => ?_
          obtain ⟨rfl, rfl⟩ := Caller.working.inj (Option.mem_unique hi hk)
          rw [Cache.dropSender, List.getElem?_modify_eq] at hchannel
          obtain ⟨channel', hchannel', rfl⟩ := Option.map_eq_some_iff.mp hchannel
          rw [show ({ channel' with sender := false } : Channel Spec E).value =
            channel'.value from rfl, getElem?_publish_self hchannel']
          simp
      | start spec =>
        change Owned ⟨(begin cfg (w.shared.tick elapsed) spec).1,
          w.callers.set i (begin cfg (w.shared.tick elapsed) spec).2⟩
        unfold begin
        split
        · exact hquiet hsame (Later.refl _) (fun _ _ => nofun)
        · exact hquiet hsame (Later.refl _) (fun _ _ => nofun)
        · exact h.lead hi (fun k c => Cache.remove_some) rfl
        · exact h.lead hi hsame rfl

/-- A caller that comes next, whenever it does, gets a value within its time to live or
reads. -/
def Served (cfg : Config Spec E) (s : Cache Spec E) (spec : Spec) : Prop :=
  ∀ elapsed result,
    (∃ cell value channel fetchedAt, s.channels[cell]? = some channel ∧
    channel.value = some (value, fetchedAt) ∧
      s.clock + elapsed - fetchedAt < cfg.ttl spec ∧
      (advance cfg ⟨elapsed, .go result⟩ s (.start spec)).2 =
      .returned spec value (.hit cell (s.clock + elapsed))) ∨
    ∃ cell, (advance cfg ⟨elapsed, .go result⟩ s (.start spec)).2 = .working spec cell

theorem Owned.served (h : Owned w) {spec : Spec}
    (hnobody : ∀ (i : Nat) c, w.callers[i]? ≠ some (.working spec c)) :
    Served cfg w.shared spec := by
  intro elapsed result
  change (∃ cell value channel fetchedAt, _ ∧ _ ∧ _ ∧
    (begin cfg (w.shared.tick elapsed) spec).2 = _) ∨
    ∃ cell, (begin cfg (w.shared.tick elapsed) spec).2 = _
  have hfound := Cache.found_lookup cfg (w.shared.tick elapsed) spec
  unfold begin
  generalize (w.shared.tick elapsed).lookup cfg spec = found at hfound ⊢
  cases hfound with
  | cacheHit hcell hchannel hvalue hfresh => exact .inl ⟨_, _, _, _, hchannel, hvalue, hfresh, rfl⟩
  | follower hcell hchannel hvalue =>
    -- a read in flight has its leader
    obtain ⟨channel, hchannel', hleader⟩ := h spec _ hcell
    obtain rfl := Option.mem_unique hchannel hchannel'
    obtain ⟨i, hi⟩ := hleader hvalue
    exact absurd hi (hnobody i _)
  | stale | absent => exact .inr ⟨_, rfl⟩

/-- **A spec that nobody reads is answered or read**, along every run in which no leader is
dropped while its channel is in the map. -/
theorem next_caller_served {actions : List (Action Spec E)}
    (hstay : Pool.Along (resolve cfg) LeadersStay init actions) {spec : Spec}
    (hnobody : ∀ (i : Nat) c, (Pool.run (resolve cfg) init actions).callers[i]? ≠
      some (.working spec c)) :
    Served cfg (Pool.run (resolve cfg) init actions).shared spec := by
  have hinit : Owned (init : World Spec E) := fun k c hk => absurd hk (Option.some_ne_none c).symm
  have howned : Owned (Pool.run (resolve cfg) init actions) :=
    hstay.run (fun w a hw ha => hw.next a ha) hinit
  exact howned.served hnobody

def minuteConfig : Config Nat Unit := ⟨fun _ => 60000, 1024, ()⟩

def leaderDropped : List (Action Nat Unit) :=
  [.call 0, .step 0 ⟨0, .go (.ok [])⟩, .step 0 ⟨0, .cancel⟩]

/-- Nobody reads, and the next caller waits on a channel without a sender: it fails. -/
theorem dropped_leader_poisons :
    (∀ (i : Nat) c, (Pool.run (resolve minuteConfig) init leaderDropped).callers[i]? ≠
      some (.working 0 c)) ∧
      ¬ Served minuteConfig (Pool.run (resolve minuteConfig) init leaderDropped).shared 0 ∧
      (Pool.run (resolve minuteConfig) init
        (leaderDropped ++ [.call 0, .step 1 ⟨0, .go (.ok [])⟩,
          .step 1 ⟨0, .go (.ok [])⟩])).callers[1]? =
        some (.returned 0 (.error ()) (.abandoned 0)) := by
  refine ⟨fun i c => ?_, fun hserved => ?_, rfl⟩
  · match i with
    | 0 => exact nofun
    | n + 1 => exact nofun
  · rcases hserved 0 (.ok []) with
      ⟨cell, value, channel, fetchedAt, -, -, -, hhit⟩ | ⟨cell, hworking⟩
    · exact absurd hhit nofun
    · exact absurd hworking nofun

/-- A follower is dropped while the leader reads. -/
def followerDropped : List (Action Nat Unit) :=
  [.call 0, .step 0 ⟨0, .go (.ok [])⟩, .call 0, .step 1 ⟨0, .go (.ok [])⟩, .step 1 ⟨0, .cancel⟩,
    .step 0 ⟨0, .go (.ok [7])⟩]

theorem next_caller_served_after :
    (Pool.run (resolve minuteConfig) init followerDropped).callers[1]? = some .dropped ∧
    Served minuteConfig (Pool.run (resolve minuteConfig) init followerDropped).shared 0 := by
  have hstay : Pool.Along (resolve minuteConfig) LeadersStay init followerDropped :=
    ⟨trivial, nofun, trivial, nofun, fun _ => nofun, nofun, trivial⟩
  refine ⟨rfl, next_caller_served hstay fun i c => ?_⟩
  match i with
  | 0 | 1 | n + 2 => rintro ⟨⟩

end LeyLine.Sign.Keystore
