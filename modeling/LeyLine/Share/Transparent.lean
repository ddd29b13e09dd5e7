import LeyLine.Share.Remote

/-!
# A remote share is transparent

Each direction of the stream carries a sequence of messages. What a party has sent is the
beginning of its messages written out (`Out.Sent`), what the other has received is its
first messages and a part of the next (`In.Received`), so a frame read whole is the next
message sent (`In.Received.next`). Requests and replies alternate: the reply the device
reads is the one given to the request it waits on, and a failed exchange is the last, so
that no later reply can be taken for another's.
-/

namespace LeyLine.Share

open Framing
open List (append_assoc append_nil map_append not_mem_nil prefix_append prefix_refl)

/-! ## One direction -/

section Direction

variable {M : Type} {W : M → Bytes → Prop}

/-- What a party is doing with its outgoing messages. -/
inductive Out where
  | ready
  | busy (rest : Bytes)
  | closed

/-- The bytes sent are those of the messages, but for the rest of the last; a party that
stopped has sent the beginning of some of them. -/
def Out.Sent (W : M → Bytes → Prop) (ms : List M) (sent : Bytes) : Out → Prop
  | .ready => Written W ms sent
  | .busy rest => Written W ms (sent ++ rest)
  | .closed => ∃ begun bytes, begun <+: ms ∧ Written W begun bytes ∧ sent <+: bytes

variable {ms : List M} {sent : Bytes}

theorem Out.Sent.stop {o : Out} {ms ms' : List M} (h : o.Sent W ms sent) (hms : ms <+: ms') :
    Out.closed.Sent W ms' sent := by
  cases o with
  | ready => exact ⟨ms, sent, hms, h, prefix_refl _⟩
  | busy rest => exact ⟨ms, sent ++ rest, hms, h, prefix_append _ _⟩
  | closed =>
    obtain ⟨begun, bytes, hbegun, hwritten, hsent⟩ := h
    exact ⟨begun, bytes, hbegun.trans hms, hwritten, hsent⟩

theorem Out.Sent.begin (h : Out.ready.Sent W ms sent) {m : M} {bytes : Bytes}
    (hm : W m bytes) : (Out.busy bytes).Sent W (ms ++ [m]) sent :=
  Written.concat h hm

/-- What a party is doing with its incoming messages. -/
inductive In where
  | between
  | within (frame : ReadFrame)
  | closed

/-- The bytes received are those of the messages, and of a part of the next. -/
def In.Received (W : M → Bytes → Prop) (ms : List M) (received : Bytes) : In → Prop
  | .between => Written W ms received
  | .within frame => ∃ bytes part, Written W ms bytes ∧ frame.Holds part ∧ received = bytes ++ part
  | .closed => True

theorem In.Received.start {received : Bytes} (h : In.between.Received W ms received) :
    (In.within .start).Received W ms received :=
  ⟨received, [], h, ReadFrame.holds_start, (append_nil _).symm⟩

theorem In.Received.more {received piece : Bytes} {frame frame' : ReadFrame}
    (h : (In.within frame).Received W ms received) (hpiece : piece.length ≤ frame.wants)
    (hread : frame.read piece = .ok (.inl frame')) :
    (In.within frame').Received W ms (received ++ piece) := by
  obtain ⟨bytes, part, hwritten, hholds, rfl⟩ := h
  exact ⟨bytes, part ++ piece, hwritten, hholds.read hpiece hread, append_assoc _ _ _⟩

theorem In.Received.next (hW : ∀ m b, W m b → IsFrame b) {ms all : List M}
    {received piece sent : Bytes}
    {frame : ReadFrame} {f : Frame} {o : Out} (h : (In.within frame).Received W ms received)
    (hpiece : piece.length ≤ frame.wants) (hread : frame.read piece = .ok (.inr f))
    (hall : ms <+: all) (hsent : o.Sent W all sent) (hpull : received ++ piece <+: sent) :
    ∃ m, f.Small ∧ W m (encodeFrame f) ∧ ms ++ [m] <+: all ∧ In.between.Received W (ms ++ [m])
    (received ++ piece) := by
  obtain ⟨bytes, part, hwritten, hholds, rfl⟩ := h
  obtain ⟨hsmall, hframe⟩ : f.Small ∧ part ++ piece = encodeFrame f := hholds.read hpiece hread
  obtain ⟨begun, sentBytes, hbegun, hsentWritten, hbytes⟩ := hsent.stop (prefix_refl all)
  rw [append_assoc, hframe] at hpull ⊢
  obtain ⟨m, hm, hnext⟩ :=
    Written.next selfDelimiting_isFrame (fun _ => IsFrame.ne_nil) hW hwritten hsentWritten hall
    hbegun ⟨f, hsmall, rfl⟩ (hpull.trans hbytes)
  exact ⟨m, hsmall, hm, hnext, hwritten.concat hm⟩

end Direction

/-! ## Messages and their frames -/

section

variable {capnp : Capnp}

def WroteRequest (capnp : Capnp) (r : Request) (bytes : Bytes) : Prop :=
  writeRequest capnp r = some (.ok bytes)

def WroteReply (capnp : Capnp) (r : Reply) (bytes : Bytes) : Prop :=
  writeReply capnp r = some (.ok bytes)

variable {f : Frame}

theorem eq_of_writeFrame {f g : Frame} (hg : g.Small) (h : writeFrame f = .ok (encodeFrame g)) :
    g = f := by
  obtain ⟨hsmall, heq⟩ := writeFrame_ok h
  exact selfDelimiting_encodeFrame.inj hg hsmall heq

variable {r : Request} {bytes : Bytes}

theorem WroteRequest.isFrame (h : WroteRequest capnp r bytes) : IsFrame bytes := by
  obtain ⟨header, -, hwrite⟩ := Option.map_eq_some_iff.mp h
  exact ⟨_, writeFrame_ok hwrite⟩

theorem WroteReply.isFrame {r : Reply} (h : WroteReply capnp r bytes) : IsFrame bytes := by
  obtain ⟨header, -, hwrite⟩ := Option.map_eq_some_iff.mp h
  exact ⟨_, writeFrame_ok hwrite⟩

theorem WroteRequest.read (hcapnp : capnp.ReadsBack) {r r' : Request} (hf : f.Small)
    (h : WroteRequest capnp r (encodeFrame f)) (hread : request capnp f.1 f.2 = .ok r') :
    r' = r := by
  obtain ⟨header, hheader, hwrite⟩ := Option.map_eq_some_iff.mp h
  obtain rfl := eq_of_writeFrame hf hwrite
  exact request_header hcapnp hheader hread

theorem WroteReply.read (hcapnp : capnp.ReadsBack) {r r' : Reply} (hf : f.Small)
    (h : WroteReply capnp r (encodeFrame f)) (hread : reply capnp f.1 f.2 = .ok r') : r' = r := by
  obtain ⟨header, hheader, hwrite⟩ := Option.map_eq_some_iff.mp h
  obtain rfl := eq_of_writeFrame hf hwrite
  exact reply_header hcapnp hheader hread

/-! ## Both directions -/

def Client.outgoing : Client → Out
  | .writing _ rest => .busy rest
  | .failed => .closed
  | _ => .ready

def Client.incoming : Client → In
  | .reading _ frame => .within frame
  | .failed => .closed
  | _ => .between

def Client.current : Client → List Request
  | .writing r _ => [r]
  | .reading r _ => [r]
  | _ => []

def Server.outgoing : Server → Out
  | .reading _ => .ready
  | .writing rest => .busy rest
  | .stopped _ => .closed

def Server.incoming : Server → In
  | .reading frame => .within frame
  | .writing _ => .between
  | .stopped _ => .closed

/-- The answers are those the service gave, in order, up to a failure; from then on they
are `EIO`. -/
structure FailStop (failed : Prop) (answers served : List (Request × Reply)) : Prop where
  split : ∃ good bad, answers = good ++ bad ∧ good <+: served ∧ (∀ a ∈ bad, a.2 = eio) ∧
    (bad ≠ [] → failed)

/-- What holds of both parties and the stream at every moment. -/
structure Inv (capnp : Capnp) (s : State) : Prop where
  clientSent : s.client.outgoing.Sent (WroteRequest capnp) s.calls s.up.sent
  clientReceived : s.client.incoming.Received (WroteReply capnp)
    (s.answers.map Prod.snd) s.down.received
  serverSent : s.server.outgoing.Sent (WroteReply capnp) (s.served.map Prod.snd) s.down.sent
  serverReceived : s.server.incoming.Received (WroteRequest capnp)
    (s.served.map Prod.fst) s.up.received
  seen : s.served.map Prod.fst <+: s.calls
  called : s.calls = s.answers.map Prod.fst ++ s.client.current
  answered : FailStop (s.client = .failed) s.answers s.served

theorem inv_init : Inv capnp {} where
  clientSent := Written.nil
  clientReceived := Written.nil
  serverSent := Written.nil
  serverReceived := In.Received.start Written.nil
  seen := prefix_refl _
  called := rfl
  answered := ⟨[], [], rfl, prefix_refl _, fun _ h => absurd h not_mem_nil, fun h => absurd rfl h⟩

variable {answers served : List (Request × Reply)} {failed : Prop}

theorem FailStop.connected (h : FailStop failed answers served) (hnot : ¬ failed) :
    answers <+: served := by
  obtain ⟨good, bad, rfl, hgood, -, hbad⟩ := h.split
  obtain rfl : bad = [] := by
    by_contra hne
    exact hnot (hbad hne)
  rwa [append_nil]

theorem FailStop.of_isPrefix (h : answers <+: served) : FailStop failed answers served :=
  ⟨answers, [], (append_nil _).symm, h, fun _ hmem => absurd hmem not_mem_nil,
    fun hne => absurd rfl hne⟩

theorem FailStop.fail {failed failed' : Prop} (h : FailStop failed answers served)
    (hfailed : failed') (r : Request) : FailStop failed' (answers ++ [(r, eio)]) served := by
  obtain ⟨good, bad, rfl, hgood, heio, -⟩ := h.split
  refine ⟨good, bad ++ [(r, eio)], append_assoc _ _ _, hgood, fun a ha => ?_, fun _ => hfailed⟩
  rcases List.mem_append.mp ha with ha | ha
  · exact heio a ha
  · rw [List.mem_singleton.mp ha]

theorem FailStop.serve (h : FailStop failed answers served)
    (x : Request × Reply) : FailStop failed answers (served ++ [x]) := by
  obtain ⟨good, bad, hanswers, hgood, heio, hbad⟩ := h.split
  exact ⟨good, bad, hanswers, hgood.trans (prefix_append _ _), heio, hbad⟩

variable {s : State}

/-- A call that fails, whatever it was doing and whatever it just received, leaves the
stream closed on the device's side. -/
theorem Inv.fail (h : Inv capnp s) (hcurrent : s.client.current = [r]) {down : Pipe UInt8}
    (hdown : down.sent = s.down.sent) : Inv capnp (State.fail { s with down } r) where
  clientSent := h.clientSent.stop (prefix_refl _)
  clientReceived := trivial
  serverSent := hdown ▸ h.serverSent
  serverReceived := h.serverReceived
  seen := h.seen
  called := by
    have hcalled := h.called
    rw [hcurrent] at hcalled
    simp only [State.fail, State.answer, map_append, Client.current, append_nil]
    exact hcalled
  answered := h.answered.fail rfl r

theorem Inv.refuse (h : Inv capnp s) (r : Request) (hcurrent : s.client.current = []) :
    Inv capnp (State.fail { s with calls := s.calls ++ [r] } r) where
  clientSent := h.clientSent.stop (prefix_append _ _)
  clientReceived := trivial
  serverSent := h.serverSent
  serverReceived := h.serverReceived
  seen := h.seen.trans (prefix_append _ _)
  called := by
    have hcalled := h.called
    rw [hcurrent, append_nil] at hcalled
    simp only [State.fail, State.answer, map_append, Client.current, append_nil, hcalled]
    rfl
  answered := h.answered.fail rfl r

theorem Inv.stop (h : Inv capnp s) (result : Option (Except Fault Unit)) {up : Pipe UInt8}
    (hup : up.sent = s.up.sent) : Inv capnp { s with server := .stopped result, up } where
  clientSent := hup ▸ h.clientSent
  clientReceived := h.clientReceived
  serverSent := h.serverSent.stop (prefix_refl _)
  serverReceived := trivial
  seen := h.seen
  called := h.called
  answered := h.answered

/-! ## The steps -/

theorem Inv.call (h : Inv capnp s) (hclient : s.client = .connected)
    (hwrite : writeRequest capnp r = some (.ok bytes)) :
    Inv capnp { s with client := .writing r bytes, calls := s.calls ++ [r] } := by
  obtain ⟨hsent, hreceived, hserverSent, hserverReceived, hseen, hcalled, hanswered⟩ := h
  rw [hclient] at hsent hreceived hcalled
  refine ⟨Out.Sent.begin hsent hwrite, hreceived, hserverSent, hserverReceived,
    hseen.trans (prefix_append _ _), ?_, .of_isPrefix (hanswered.connected ?_)⟩
  · change s.calls = s.answers.map Prod.fst ++ [] at hcalled
    change s.calls ++ [r] = s.answers.map Prod.fst ++ [r]
    rw [hcalled, append_nil]
  · rw [hclient]
    exact Client.noConfusion

variable {piece : Bytes}

theorem Inv.clientWrote (h : Inv capnp s) {piece rest : Bytes}
    (hclient : s.client = .writing r (piece ++ rest)) : Inv capnp (s.clientWrote r piece rest) := by
  obtain ⟨hsent, hreceived, hserverSent, hserverReceived, hseen, hcalled, hanswered⟩ := h
  have hgood := hanswered.connected (by rw [hclient]; exact Client.noConfusion)
  rw [hclient] at hsent hreceived hcalled
  have hwritten : Written (WroteRequest capnp) s.calls (s.up.sent ++ piece ++ rest) := by
    rw [append_assoc]
    exact hsent
  cases rest with
  | nil =>
    rw [append_nil] at hwritten
    exact ⟨hwritten, In.Received.start hreceived, hserverSent, hserverReceived, hseen, hcalled,
      .of_isPrefix hgood⟩
  | cons b rest =>
    exact ⟨hwritten, hreceived, hserverSent, hserverReceived, hseen, hcalled, .of_isPrefix hgood⟩

theorem isPrefix_pairs {calls : List Request} {reply : Reply}
    (hanswers : answers <+: served) (hseen : served.map Prod.fst <+: calls)
    (hcalls : calls = answers.map Prod.fst ++ [r])
    (hreply : answers.map Prod.snd ++ [reply] <+: served.map Prod.snd) :
    answers ++ [(r, reply)] <+: served := by
  obtain ⟨later, rfl⟩ := hanswers
  rw [map_append, List.prefix_append_right_inj] at hreply
  rw [hcalls, map_append, List.prefix_append_right_inj] at hseen
  rw [List.prefix_append_right_inj]
  cases later with
  | nil => simp at hreply
  | cons x later =>
    rw [List.map_cons, List.cons_prefix_cons] at hreply hseen
    obtain ⟨rfl, -⟩ := hreply
    obtain ⟨rfl, -⟩ := hseen
    exact List.cons_prefix_cons.mpr ⟨rfl, List.nil_prefix⟩

theorem Inv.clientRead (hcapnp : capnp.ReadsBack) (h : Inv capnp s) {frame : ReadFrame}
    (hclient : s.client = .reading r frame) (hpiece : piece.length ≤ frame.wants)
    (hdown : s.down.received ++ piece <+: s.down.sent) :
    Inv capnp (State.clientRead capnp { s with down := s.down.pull piece hdown } r
      (frame.read piece)) := by
  have hfail : Inv capnp (State.fail { s with down := s.down.pull piece hdown } r) :=
    h.fail (by rw [hclient]; rfl) rfl
  obtain ⟨hsent, hreceived, hserverSent, hserverReceived, hseen, hcalled, hanswered⟩ := h
  have hgood := hanswered.connected (by rw [hclient]; exact Client.noConfusion)
  rw [hclient] at hsent hreceived hcalled
  cases hread : frame.read piece with
  | error e => exact hfail
  | ok outcome =>
    cases outcome with
    | inl frame' =>
      exact ⟨hsent, hreceived.more hpiece hread, hserverSent, hserverReceived, hseen, hcalled,
        .of_isPrefix hgood⟩
    | inr f =>
      obtain ⟨given, hsmall, hwrote, hnext, hbetween⟩ :=
        In.Received.next (fun _ _ => WroteReply.isFrame) hreceived
        hpiece hread (hgood.map Prod.snd) hserverSent hdown
      rw [State.clientRead]
      split
      · rename_i reply hreply
        -- the reply read is the one the service gave, to the request the call waits on
        obtain rfl := hwrote.read hcapnp hsmall hreply
        refine ⟨hsent, ?_, hserverSent, hserverReceived, hseen, ?_,
          .of_isPrefix (isPrefix_pairs hgood hseen hcalled hnext)⟩
        · simp only [State.answer, map_append]
          exact hbetween
        · simp only [State.answer, map_append, Client.current, append_nil]
          exact hcalled
      · exact hfail

theorem Inv.serverWrote (h : Inv capnp s) {piece rest : Bytes}
    (hserver : s.server = .writing (piece ++ rest)) : Inv capnp (s.serverWrote piece rest) := by
  obtain ⟨hsent, hreceived, hserverSent, hserverReceived, hseen, hcalled, hanswered⟩ := h
  rw [hserver] at hserverSent hserverReceived
  have hwritten : Written (WroteReply capnp) (s.served.map Prod.snd)
      (s.down.sent ++ piece ++ rest) := by
    rw [append_assoc]
    exact hserverSent
  cases rest with
  | nil =>
    rw [append_nil] at hwritten
    exact ⟨hsent, hreceived, hwritten, In.Received.start hserverReceived, hseen, hcalled, hanswered⟩
  | cons b rest => exact ⟨hsent, hreceived, hwritten, hserverReceived, hseen, hcalled, hanswered⟩

theorem Inv.serverRead (hcapnp : capnp.ReadsBack) (h : Inv capnp s) {frame : ReadFrame}
    (reply : Reply) (hserver : s.server = .reading frame) (hpiece : piece.length ≤ frame.wants)
    (hup : s.up.received ++ piece <+: s.up.sent) :
    Inv capnp (State.serverRead capnp { s with up := s.up.pull piece hup } reply
      (frame.read piece)) := by
  have hstop (result : Option (Except Fault Unit)) :
      Inv capnp { s with server := .stopped result, up := s.up.pull piece hup } := h.stop result rfl
  obtain ⟨hsent, hreceived, hserverSent, hserverReceived, hseen, hcalled, hanswered⟩ := h
  rw [hserver] at hserverSent hserverReceived
  cases hread : frame.read piece with
  | error e => exact hstop _
  | ok outcome =>
    cases outcome with
    | inl frame' =>
      exact ⟨hsent, hreceived, hserverSent, hserverReceived.more hpiece hread, hseen, hcalled,
        hanswered⟩
    | inr f =>
      obtain ⟨asked, hsmall, hwrote, hnext, hbetween⟩ :=
        In.Received.next (fun _ _ => WroteRequest.isFrame)
        hserverReceived hpiece hread hseen hsent hup
      rw [State.serverRead]
      split
      · rename_i r hr
        obtain rfl := hwrote.read hcapnp hsmall hr
        have hmap : (s.served ++ [(r, reply)]).map Prod.fst = s.served.map Prod.fst ++ [r] :=
          map_append
        have hreplies : (s.served ++ [(r, reply)]).map Prod.snd = s.served.map Prod.snd ++
            [reply] := map_append
        rw [State.serve]
        split
        · rename_i bytes hbytes
          exact ⟨hsent, hreceived, hreplies ▸ Out.Sent.begin hserverSent hbytes, hmap ▸ hbetween,
            hmap ▸ hnext, hcalled, hanswered.serve _⟩
        all_goals exact ⟨hsent, hreceived, Out.Sent.stop hserverSent (hreplies ▸ prefix_append _ _),
          trivial,
            hmap ▸ hnext, hcalled, hanswered.serve _⟩
      · exact hstop _

variable {s' : State}

theorem Inv.step (hcapnp : capnp.ReadsBack) (h : Inv capnp s) (hstep : Step capnp s s') :
    Inv capnp s' := by
  cases hstep with
  | call hclient hwrite => exact h.call hclient hwrite
  | callRefused hclient | callFailed hclient => exact h.refuse _ (by rw [hclient]; rfl)
  | clientWrites hclient => exact h.clientWrote hclient
  | clientWriteFails hclient | clientReadFails hclient => exact h.fail (by rw [hclient]; rfl) rfl
  | clientReads hclient _ hpiece hdown => exact h.clientRead hcapnp hclient hpiece hdown
  | serverReads reply hserver _ hpiece hup => exact h.serverRead hcapnp reply hserver hpiece hup
  | serverEof | serverReadFails | serverWriteFails => exact h.stop _ rfl
  | serverWrites hserver => exact h.serverWrote hserver

theorem Reachable.inv (hcapnp : capnp.ReadsBack) (h : Reachable capnp s) : Inv capnp s := by
  induction h with
  | refl => exact inv_init
  | tail _ hstep ih => exact ih.step hcapnp hstep

/-! ## After a failure -/

theorem failed_step (hfailed : s.client = .failed) (hstep : Step capnp s s') :
    s'.client = .failed ∧ ∃ later, s'.answers = s.answers ++ later ∧ ∀ a ∈ later, a.2 = eio := by
  have hsame : ∃ later, s.answers = s.answers ++ later ∧ ∀ a ∈ later, a.2 = eio :=
    ⟨[], (append_nil _).symm, fun _ h => absurd h not_mem_nil⟩
  cases hstep with
  | callFailed => exact ⟨rfl, _, rfl, fun a ha => by rw [List.mem_singleton.mp ha]⟩
  | call hclient | callRefused hclient | clientWrites hclient | clientWriteFails hclient
  | clientReads hclient | clientReadFails hclient =>
    exact absurd (hfailed.symm.trans hclient) Client.noConfusion
  | @serverReads _ frame piece reply =>
    unfold State.serverRead
    split
    · exact ⟨hfailed, hsame⟩
    · exact ⟨hfailed, hsame⟩
    · split <;> exact ⟨hfailed, hsame⟩
  | serverEof | serverReadFails | serverWrites | serverWriteFails => exact ⟨hfailed, hsame⟩

theorem failed_run (hfailed : s.client = .failed) (hrun : Relation.ReflTransGen (Step capnp) s s') :
    s'.client = .failed ∧ ∃ later, s'.answers = s.answers ++ later ∧ ∀ a ∈ later, a.2 = eio := by
  induction hrun with
  | refl => exact ⟨hfailed, [], (append_nil _).symm, fun _ h => absurd h not_mem_nil⟩
  | tail _ hstep ih =>
    obtain ⟨hclient, later, hlater, heio⟩ := ih
    obtain ⟨hclient', more, hmore, heio'⟩ := failed_step hclient hstep
    refine ⟨hclient', later ++ more, by rw [hmore, hlater, append_assoc], fun a ha => ?_⟩
    rcases List.mem_append.mp ha with ha | ha
    · exact heio a ha
    · exact heio' a ha

/-! ## Any peer -/

/-- Where a reader can come to, whatever bytes its peer sends. -/
inductive ReadFrame.Visited : ReadFrame → Prop
  | start : Visited .start
  | read {r r' : ReadFrame} {piece : Bytes} (h : Visited r) (hpiece : piece.length ≤ r.wants)
      (hread : r.read piece = .ok (.inl r')) : Visited r'

theorem ReadFrame.Visited.holds {r : ReadFrame} (h : r.Visited) : ∃ bytes, r.Holds bytes := by
  induction h with
  | start => exact ⟨[], ReadFrame.holds_start⟩
  | read _ hpiece hread ih =>
    obtain ⟨bytes, hholds⟩ := ih
    exact ⟨_, hholds.read hpiece hread⟩

/-- **A remote share is transparent.** Of every run of the device and the daemon over a
stream, with any service: the service was asked the first of the requests called, in order;
the answers are, in order, its replies to those requests, until an exchange fails, and
`EIO` from then on. And of readers on any stream: they allocate no more than the limit for
a part of a frame, and accept a frame only if its header is one message and a payload only
with a kind that carries one. -/
theorem share_transparent (hcapnp : capnp.ReadsBack) :
    (∀ s, Reachable capnp s → s.served.map Prod.fst <+: s.calls ∧
      s.answers.map Prod.fst <+: s.calls ∧ FailStop (s.client = .failed) s.answers s.served) ∧
    (∀ s s', s.client = .failed → Relation.ReflTransGen (Step capnp) s s' →
      ∃ later, s'.answers = s.answers ++ later ∧ ∀ a ∈ later, a.2 = eio) ∧
    (∀ r : ReadFrame, r.Visited → r.allocated.1 ≤ maxFrame ∧ r.allocated.2 ≤ maxFrame) ∧
    (∀ bytes payload r, request capnp bytes payload = .ok r →
      (∃ root, capnp.request.read bytes = .ok (root, [])) ∧ r.payload = payload) ∧
    (∀ bytes payload r, reply capnp bytes payload = .ok r →
      (∃ root, capnp.reply.read bytes = .ok (root, [])) ∧ r.payload = payload) := by
  refine ⟨fun s hs => ?_, fun s s' hfailed hrun => (failed_run hfailed hrun).2, fun r hr => ?_,
    fun _ _ _ => request_accepts, fun _ _ _ => reply_accepts⟩
  · have hinv := hs.inv hcapnp
    refine ⟨hinv.seen, ?_, hinv.answered⟩
    rw [hinv.called]
    exact prefix_append _ _
  · obtain ⟨bytes, hholds⟩ := hr.holds
    exact hholds.allocated_le

end

/-! ### One exchange, and one that breaks off -/

def oneMessage : Capnp where
  request := ⟨fun root => if root = .init then some [0] else none,
    fun bytes => if bytes = [0] then .ok (.init, []) else .error "not a message"⟩
  reply := ⟨fun root => if root = .done then some [1] else none,
    fun bytes => if bytes = [1] then .ok (.done, []) else .error "not a message"⟩
  notInSchema _ := "not in schema"

theorem readsBack_oneMessage : oneMessage.ReadsBack := by
  constructor
  all_goals
    intro root bytes hwrite found rest hread
    obtain ⟨rfl, -⟩ := Option.ite_none_right_eq_some.mp hwrite
    dsimp only [oneMessage] at hread
    split_ifs at hread
    exact (Prod.mk.inj (Except.ok.inj hread)).1.symm

def oneByteLengths : Bytes := [1, 0, 0, 0, 0, 0, 0, 0]

/-- The first lengths come in two pieces. The second reply is not read, and the call after
that is answered without a frame. -/
theorem reachable_brokenOff : ∃ s, Reachable oneMessage s ∧
    s.answers = [(.init, .done), (.init, eio), (.init, eio)] ∧
    s.served = [(.init, .done), (.init, .done)] := by
  have hcall : Reachable oneMessage _ :=
    Relation.ReflTransGen.refl.tail (@Step.call oneMessage _ .init (oneByteLengths ++ [0]) rfl rfl)
  have hwritten : Reachable oneMessage _ :=
    hcall.tail (@Step.clientWrites oneMessage _ .init (oneByteLengths ++ [0]) [] rfl)
  have hpart : Reachable oneMessage _ :=
    hwritten.tail (@Step.serverReads oneMessage _ .start [1, 0,
      0] .done rfl (by decide) (by decide) (by decide))
  have hlengths : Reachable oneMessage _ :=
    hpart.tail (@Step.serverReads oneMessage _ (.lengths [1, 0, 0]) [0, 0, 0, 0,
      0] .done rfl (by decide)
      (by decide) (by decide))
  have hasked : Reachable oneMessage _ :=
    hlengths.tail (@Step.serverReads oneMessage _ (.header 1 0 []) [0] .done rfl (by decide)
      (by decide) (by decide))
  have hreplied : Reachable oneMessage _ :=
    hasked.tail (@Step.serverWrites oneMessage _ (oneByteLengths ++ [1]) [] rfl)
  have hheader : Reachable oneMessage _ :=
    hreplied.tail (@Step.clientReads oneMessage _ .init .start oneByteLengths rfl (by decide)
      (by decide) (by decide))
  have hanswered : Reachable oneMessage _ :=
    hheader.tail (@Step.clientReads oneMessage _ .init (.header 1 0 []) [1] rfl (by decide)
      (by decide) (by decide))
  have hcall : Reachable oneMessage _ :=
    hanswered.tail (@Step.call oneMessage _ .init (oneByteLengths ++ [0]) rfl rfl)
  have hwritten : Reachable oneMessage _ :=
    hcall.tail (@Step.clientWrites oneMessage _ .init (oneByteLengths ++ [0]) [] rfl)
  have hlengths : Reachable oneMessage _ :=
    hwritten.tail (@Step.serverReads oneMessage _ .start oneByteLengths .done rfl (by decide)
      (by decide) (by decide))
  have hasked : Reachable oneMessage _ :=
    hlengths.tail (@Step.serverReads oneMessage _ (.header 1 0 []) [0] .done rfl (by decide)
      (by decide) (by decide))
  have hfailed : Reachable oneMessage _ :=
    hasked.tail (@Step.clientReadFails oneMessage _ .init .start rfl)
  have hlater : Reachable oneMessage _ := hfailed.tail (@Step.callFailed oneMessage _ .init rfl)
  exact ⟨_, hlater, rfl, rfl⟩

theorem share_transparent_brokenOff : ∃ s, Reachable oneMessage s ∧
    s.answers = [(.init, .done), (.init, eio), (.init, eio)] ∧
    s.served = [(.init, .done), (.init, .done)] ∧
    FailStop (s.client = .failed) s.answers s.served := by
  obtain ⟨s, hs, hanswers, hserved⟩ := reachable_brokenOff
  exact ⟨s, hs, hanswers, hserved, ((share_transparent readsBack_oneMessage).1 s hs).2.2⟩

end LeyLine.Share
