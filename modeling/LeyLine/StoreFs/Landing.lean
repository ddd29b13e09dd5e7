import LeyLine.StoreFs.Effects
import LeyLine.Writers

/-!
# Runs of a filesystem, and what a landing does

Every state of a run has an honest store and handle ids that no scratch file
shares. In such a state a proposal that a request lands is an
accepted one (`Lands`), so what FLUSH leaves in the store is known exactly.
-/

namespace LeyLine.StoreFs

open Req (Moves bind_eq_ok_iff fail read_eq_ok_iff)

variable {H Lang Rows α : Type} {P : Platform} [DecidableEq H] [DecidableEq Lang]
  {cfg : Config H Lang Rows P} {w w' : World H Rows P}

/-! ## What holds in every state of a run -/

/-- Nobody edits the checkout's directory, so a reconcile ingests nothing. -/
def Config.Settled (cfg : Config H Lang Rows P) : Prop :=
  ∀ c, cfg.checkout = some c → ∀ t paths db, (c t).reconcile paths db = db

omit [DecidableEq H] [DecidableEq Lang] in
theorem Config.Settled.materialize (h : cfg.Settled) (t : Nat) (writes : List (Proposed H))
    (db : Db H Rows) : materialize cfg t writes db = db := by
  unfold StoreFs.materialize
  cases hc : cfg.checkout with
  | none => rfl
  | some c => exact h c hc t _ db

variable {db : Db H Rows} {writes : List (Proposed H)} {env : Env H Lang Rows}

/-- Handle ids are below the next one, and a stored file's is no scratch file's. -/
structure HandleIds {α β : Type} (handles : Std.ExtTreeMap Nat α)
    (scratch : Std.ExtTreeMap Nat β) (next : Nat) : Prop where
  below : ∀ id : Nat, handles[id]? ≠ none → id < next
  scratch_below : ∀ id : Nat, scratch[id]? ≠ none → id < next
  disjoint : ∀ id : Nat, handles[id]? ≠ none → scratch[id]? = none

section Ids

variable {α β : Type} {hs hs' : Std.ExtTreeMap Nat α} {ss ss' : Std.ExtTreeMap Nat β} {n : Nat}

theorem HandleIds.of_keys (h : HandleIds hs ss n)
    (hh : ∀ id : Nat, hs'[id]? ≠ none → hs[id]? ≠ none)
    (hsc : ∀ id : Nat, ss'[id]? ≠ none → ss[id]? ≠ none) : HandleIds hs' ss' n := by
  refine ⟨fun id hid => h.below id (hh id hid), fun id hid => h.scratch_below id (hsc id hid),
    fun id hid => ?_⟩
  by_contra hne
  exact hsc id hne (h.disjoint id (hh id hid))

theorem HandleIds.modify (h : HandleIds hs ss n) (id : Nat) (f : α → α) :
    HandleIds (hs.modify id f) ss n :=
  h.of_keys (fun i => by simp only [Std.ExtTreeMap.getElem?_modify]; split <;> simp_all)
    fun _ h => h

theorem HandleIds.map (h : HandleIds hs ss n) (f : Nat → α → α) : HandleIds (hs.map f) ss n :=
  h.of_keys (fun i => by simp [Std.ExtTreeMap.getElem?_map]) fun _ h => h

theorem HandleIds.erase (h : HandleIds hs ss n) (id : Nat) :
    HandleIds (hs.erase id) (ss.erase id) n :=
  h.of_keys (fun i => by simp only [Std.ExtTreeMap.getElem?_erase]; split <;> simp_all)
    fun i => by simp only [Std.ExtTreeMap.getElem?_erase]; split <;> simp_all

theorem HandleIds.insert (h : HandleIds hs ss n) (x : α) :
    HandleIds (hs.insert n x) ss (n + 1) := by
  have hget : ∀ id, (hs.insert n x)[id]? ≠ none → id = n ∨ hs[id]? ≠ none := by
    intro id hid
    rw [Table.get_insert] at hid
    split at hid
    · exact .inl (by omega)
    · exact .inr hid
  refine ⟨fun id hid => ?_, fun id hid => Nat.lt_succ_of_lt (h.scratch_below id hid),
    fun id hid => ?_⟩
  · rcases hget id hid with rfl | hid
    · exact Nat.lt_succ_self _
    · exact Nat.lt_succ_of_lt (h.below id hid)
  · rcases hget id hid with rfl | hid
    · by_contra hne
      exact absurd (h.scratch_below id hne) (lt_irrefl _)
    · exact h.disjoint id hid

theorem HandleIds.insertScratch (h : HandleIds hs ss n) (x : β) :
    HandleIds hs (ss.insert n x) (n + 1) := by
  refine ⟨fun id hid => Nat.lt_succ_of_lt (h.below id hid), fun id hid => ?_, fun id hid => ?_⟩
  · rw [Table.get_insert] at hid
    split at hid
    · omega
    · exact Nat.lt_succ_of_lt (h.scratch_below id hid)
  · rw [Table.get_insert, if_neg (h.below id hid).ne']
    exact h.disjoint id hid

end Ids

/-- What every state of a run keeps. -/
structure Good (cfg : Config H Lang Rows P) (w : World H Rows P) : Prop where
  honest : w.db.store.Honest cfg.env.hash
  ids : HandleIds w.handles w.scratchHandles w.nextHandle

theorem honest_of_propose {db' : Db H Rows} {grant : Grant} {a : Accepted H}
    (hp : LeyLine.propose env grant writes db = .ok (a, db')) (h : db.store.Honest env.hash) :
    db'.store.Honest env.hash :=
  (propose_whole_iff.mp (propose_whole_of_ok hp)).growsTo.honest h

theorem Accepts.honest (hset : cfg.Settled) {db' : Db H Rows} (h : Accepts cfg db db')
    (hs : db.store.Honest cfg.env.hash) : db'.store.Honest cfg.env.hash := by
  obtain ⟨t, writes, a, db₁, hp, rfl⟩ := h
  rw [hset.materialize]
  have hs' := honest_of_propose hp hs
  exact hs'

theorem goodKept (hset : cfg.Settled) :
    Admits cfg fun w w' : World H Rows P => Good cfg w → Good cfg w' :=
  have : Req.Closed fun w w' : World H Rows P => Good cfg w → Good cfg w' :=
    ⟨fun _ h => h, fun h₁ h₂ h => h₂ (h₁ h)⟩
  have hquiet : ∀ {w w' : World H Rows P}, Quiet w w' → Good cfg w → Good cfg w' := by
    intro w w' hq h
    obtain ⟨hdb, hhandles, -, hscratch, hnext⟩ := Core.mk.inj hq
    exact ⟨hdb ▸ h.honest, by rw [hhandles, hscratch, hnext]; exact h.ids⟩
  { Remembers.of_quiet cfg hquiet with
    call := fun _ _ => hquiet rfl
    landed := fun _ _ ha h => ⟨ha.honest hset h.honest, h.ids⟩
    session := fun _ _ h => ⟨h.honest, h.ids⟩
    fresh := fun _ hd h => ⟨h.honest, h.ids.insert hd⟩
    openedScratch := fun _ s h => ⟨h.honest, h.ids.insertScratch s⟩
    modify := fun _ id f h => ⟨h.honest, h.ids.modify id f⟩
    mapAll := fun _ f h => ⟨h.honest, h.ids.map fun _ => f⟩
    drop := fun _ id h => ⟨h.honest, h.ids.erase id⟩ }

theorem Good.step (hset : cfg.Settled) (h : Good cfg w) (e : Event H) :
    Good cfg (step cfg w e).2 := by
  cases e with
  | request r =>
    have := goodKept hset
    exact serve_moves (T := fun w w' => Good cfg w → Good cfg w') cfg r w h
  | other now fs grant writes =>
    unfold StoreFs.step
    dsimp only
    split
    · rename_i a db hp
      have hs := honest_of_propose hp h.honest
      exact ⟨hs, h.ids⟩
    · exact h

theorem Good.run (hset : cfg.Settled) (h : Good cfg w) (events : List (Event H)) :
    Good cfg (run cfg w events) := by
  induction events generalizing w with
  | nil => exact h
  | cons e events ih => exact ih (h.step hset e)

omit [DecidableEq H] [DecidableEq Lang] in
theorem good_initial (h : db.store.Honest cfg.env.hash) (scratch : P.Scratch) :
    Good cfg (World.initial db scratch : World H Rows P) :=
  ⟨h, by simp [World.initial], by simp [World.initial], by simp [World.initial]⟩

/-! ## Landing -/

variable {h : Handle H}

omit [DecidableEq H] in
theorem handle_eq_ok_iff {id : Nat} :
    handle id w = (.ok h, w') ↔ w.handles[id]? = some h ∧ w = w' := by
  rw [handle, bind_eq_ok_iff]
  constructor
  · rintro ⟨o, w₁, hread, hof⟩
    obtain ⟨rfl, rfl⟩ := read_eq_ok_iff.mp hread
    exact Req.ofOption_eq_ok_iff.mp hof
  · rintro ⟨hget, rfl⟩
    exact ⟨_, _, read_eq_ok_iff.mpr ⟨rfl, rfl⟩, Req.ofOption_eq_ok_iff.mpr ⟨hget, rfl⟩⟩

theorem proposeAfter_ok {precheck : Store H → Except Errno Unit}
    {a : Accepted H} (h : proposeAfter cfg writes precheck w = (.ok a, w')) :
    ∃ db₁, LeyLine.propose (cfg.envAt w.ticks) cfg.scope.propose writes w.db = .ok (a, db₁) ∧
      w'.core = { w.core with db := materialize cfg w.ticks writes db₁ } := by
  obtain ⟨a', w₁, hw, h⟩ := bind_eq_ok_iff.mp h
  rw [withWrite] at hw
  rcases hu : underWriter cfg writes precheck w.ticks w.db with e | ⟨a₁, db'⟩
  · rw [hu] at hw
    cases congrArg Prod.fst hw
  · rw [hu] at hw
    obtain ⟨rfl, rfl⟩ : a₁ = a' ∧ _ = w₁ := by simpa using hw
    obtain ⟨-, db₁, hp, rfl⟩ := underWriter_ok cfg hu
    have hq : Quiet
        { w with db := materialize cfg w.ticks writes db₁, ticks := w.ticks + 1 } w' := by
      have hmoves : Moves Quiet (do
          forgetRules a₁
          recordLanded cfg a₁
          pure a₁ : Fs H Rows P (Accepted H)) :=
        .bind (forgetRules_moves a₁) fun _ => .bind (recordLanded_moves cfg a₁) fun _ => .pure a₁
      have := hmoves { w with db := materialize cfg w.ticks writes db₁, ticks := w.ticks + 1 }
      rwa [h] at this
    obtain ⟨u, w₂, -, h⟩ := bind_eq_ok_iff.mp h
    obtain ⟨u', w₃, -, h⟩ := bind_eq_ok_iff.mp h
    obtain ⟨rfl, -⟩ : a₁ = a ∧ _ := by simpa using h
    exact ⟨db₁, hp, hq⟩

variable {mode : Option Mode} {m : Option Bytes} {earlier : Reads H} {base b : Base H}
  {bytes : Bytes} {p : Path}

theorem landBytes_ok (h : landBytes cfg p base earlier bytes mode w = (.ok (b, m), w')) :
    ∃ a db₁ blob, LeyLine.propose (cfg.envAt w.ticks) cfg.scope.propose
        [⟨p, base, .write bytes mode⟩] w.db = .ok (a, db₁) ∧
      a.blobs[p]? = some blob ∧ b = .blob blob ∧ w'.core = { w.core with
        db := materialize cfg w.ticks [⟨p, base, .write bytes mode⟩] db₁
        session := ⟨w.session.pending.erase p, w.session.pendingModes.erase p⟩ } := by
  obtain ⟨a, w₁, hp, h₁⟩ := bind_eq_ok_iff.mp h
  obtain ⟨u, w₂, hf, h₂⟩ := bind_eq_ok_iff.mp h₁
  obtain ⟨b', w₃, hbase, h₃⟩ := bind_eq_ok_iff.mp h₂
  obtain ⟨m', w₅, hm, h₄⟩ := bind_eq_ok_iff.mp h₃
  obtain ⟨db₁, hprop, hcore⟩ := proposeAfter_ok hp
  obtain ⟨blob, w₄, hblob, hpure⟩ := bind_eq_ok_iff.mp hbase
  obtain ⟨hget, rfl⟩ := Req.ofOption_eq_ok_iff.mp hblob
  obtain ⟨rfl, rfl⟩ : .blob blob = b' ∧ w₂ = w₃ := by simpa using hpure
  have hq : Quiet w₂ w₅ := by
    have : Quiet w₂ _ := mergedBytes_moves a p (.blob blob) w₂
    rwa [hm] at this
  obtain ⟨⟨rfl, rfl⟩, rfl⟩ : (.blob blob = b ∧ m' = m) ∧ w₅ = w' := by simpa using h₄
  obtain rfl : _ = w₂ := congrArg Prod.snd hf
  refine ⟨a, db₁, blob, hprop, hget, rfl, ?_⟩
  rw [show w₅.core = _ from hq]
  unfold World.core at hcore ⊢
  simp only [Core.mk.injEq] at hcore ⊢
  exact ⟨hcore.1, hcore.2.1,
    congrArg (fun s : Session => Session.mk (s.pending.erase p) (s.pendingModes.erase p))
      hcore.2.2.1, hcore.2.2.2⟩

def contentAt (s : Store H) (p : Path) : Option Bytes := (blobOf s p).map (·.2)

omit [DecidableEq Lang] in
theorem changeAt_write {s : Store H} : changeAt env s [⟨p, base, .write bytes mode⟩] p =
      some (.write (landing env s ⟨p, base, .write bytes mode⟩ bytes) mode) := by
  simp only [changeAt, List.find?_cons, decide_true, Option.map_some, landed]

/-- What a landing leaves at its path: the blob it answers, which is that of the
bytes it proposed or of their merge with what the path held. -/
theorem landBytes_blob (hset : cfg.Settled) (hs : w.db.store.Honest cfg.env.hash)
    (h : landBytes cfg p base earlier bytes mode w = (.ok (b, m), w')) :
    ∃ blob held, b = .blob blob ∧
      blob = cfg.env.hash (landing cfg.env w.db.store ⟨p, base, .write bytes mode⟩ bytes) ∧
      blobOf w'.db.store p = some (blob, held) ∧ cfg.env.hash held = blob := by
  obtain ⟨a, db₁, blob, hp, hblob, rfl, hcore⟩ := landBytes_ok h
  have hdb : w'.db = db₁ := (congrArg Core.db hcore).trans (hset.materialize _ _ _)
  have hl : Lands (cfg.envAt w.ticks) _ w.db a db₁ :=
    propose_whole_iff.mp (propose_whole_of_ok hp)
  have hs' : w.db.store.Honest (cfg.envAt w.ticks).hash := hs
  obtain ⟨held, hheld, -⟩ := hl.stored changeAt_write
  have haddr : blob =
      cfg.env.hash (landing cfg.env w.db.store ⟨p, base, .write bytes mode⟩ bytes) := by
    rw [hl.blobs_get, changeAt_write] at hblob
    exact (Option.some.inj hblob).symm
  have hof : blobOf w'.db.store p = some (blob, held) := by
    unfold blobOf
    rw [hdb, hl.entry_write]
    dsimp only
    rw [hheld, haddr]
    rfl
  exact ⟨blob, held, rfl, haddr, hof, haddr ▸ hl.growsTo.honest hs' _ _ hheld⟩

theorem landBytes_content (hset : cfg.Settled) (hinj : Function.Injective cfg.env.hash)
    (hs : w.db.store.Honest cfg.env.hash)
    (h : landBytes cfg p base earlier bytes mode w = (.ok (b, m), w')) : contentAt w'.db.store p =
      some (landing cfg.env w.db.store ⟨p, base, .write bytes mode⟩ bytes) := by
  obtain ⟨blob, held, -, haddr, hof, hheld⟩ := landBytes_blob hset hs h
  unfold contentAt
  rw [hof, Option.map_some, hinj (hheld.trans haddr)]

/-! ## FLUSH -/

/-- The handle was opened on a file that was not there yet, and the session does
not hold that file any more. -/
def Lost (session : Session) (h : Handle H) : Prop :=
  h.base = .absent ∧ session.pending[h.path]? = none

instance (session : Session) (h : Handle H) : Decidable (Lost session h) :=
  inferInstanceAs (Decidable (_ ∧ _))

theorem land_ok (hl : land cfg h.path h.base h.earlier h.bytes h.mode w = (.ok (b, m), w')) :
    (Lost w.session h ∧ b = .absent ∧ w = w') ∨ (¬ Lost w.session h ∧ ∃ w₁ mode, w₁.db = w.db ∧
        landBytes cfg h.path h.base h.earlier h.bytes mode w₁ = (.ok (b, m), w')) := by
  unfold land at hl
  by_cases habs : h.base = .absent
  · rw [if_pos habs] at hl
    obtain ⟨o, w₁, hread, hl⟩ := bind_eq_ok_iff.mp hl
    obtain ⟨rfl, rfl⟩ := read_eq_ok_iff.mp hread
    cases hpend : w.session.pending[h.path]? with
    | none =>
      rw [hpend] at hl
      obtain ⟨⟨rfl, -⟩, rfl⟩ : (.absent = b ∧ none = m) ∧ w = w' := by simpa using hl
      exact .inl ⟨⟨habs, hpend⟩, rfl, rfl⟩
    | some held =>
      rw [hpend] at hl
      obtain ⟨u, w₁, hup, hl⟩ := bind_eq_ok_iff.mp hl
      obtain rfl := Req.update_eq_ok_iff.mp hup
      obtain ⟨given, w₂, hgiven, hl⟩ := bind_eq_ok_iff.mp hl
      obtain ⟨-, rfl⟩ := read_eq_ok_iff.mp hgiven
      refine .inr ⟨fun hlost => ?_, _, _, ?_, hl⟩
      · cases hpend.symm.trans hlost.2
      · rfl
  · rw [if_neg habs] at hl
    exact .inr ⟨fun hlost => habs hlost.1, w, h.mode, rfl, hl⟩

theorem commit_ok (hg : Good cfg w) {id : Nat} (hget : w.handles[id]? = some h)
    (hdirty : h.dirty = true) (hc : commit cfg id w = (.ok (), w')) :
    ∃ b m w₁, land cfg h.path h.base h.earlier h.bytes h.mode w = (.ok (b, m), w₁) ∧
      { w₁ with handles := w₁.handles.modify id (Handle.landed b m) } = w' := by
  have hscratch : w.scratchHandles[id]? = none := hg.ids.disjoint id (by simp [hget])
  obtain ⟨o, w₁, hread, hc⟩ := bind_eq_ok_iff.mp hc
  obtain ⟨rfl, rfl⟩ := read_eq_ok_iff.mp hread
  rw [hscratch] at hc
  obtain ⟨h', w₂, hh, hc⟩ := bind_eq_ok_iff.mp hc
  obtain ⟨hget', rfl⟩ := handle_eq_ok_iff.mp hh
  obtain rfl : h = h' := Option.mem_unique hget hget'
  rw [if_pos hdirty] at hc
  obtain ⟨⟨b, m⟩, w₄, hl, hmod⟩ := bind_eq_ok_iff.mp hc
  exact ⟨b, m, w₄, hl, Req.update_eq_ok_iff.mp hmod⟩

theorem serve_commit {id : Nat} {r : Request} (hr : r = .flush id ∨ r = .fsync id)
    (hok : (serve cfg r w).1 = .ok .done) : commit cfg id w = (.ok (), (serve cfg r w).2) := by
  have hserve : serve cfg r w = (do
      commit cfg id
      pure Reply.done : Fs H Rows P Reply) w := by
    rcases hr with rfl | rfl <;> rfl
  obtain ⟨u, w₁, hc, hpure⟩ := bind_eq_ok_iff.mp
    (hserve.symm.trans (Prod.ext hok rfl : serve cfg r w = (.ok .done, (serve cfg r w).2)))
  rw [hc]
  exact congrArg (Prod.mk _) (congrArg Prod.snd hpure :)

/-! ## A filesystem over the small database -/

def noScratch : ScratchOps Unit Unit where
  create := fail .EIo
  stat _ := fail .EIo
  list _ := fail .EIo
  openAt _ _ _ := fail .EIo
  mkdir _ := fail .EIo
  symlink _ _ := fail .EIo
  readlink _ := fail .EIo
  unlink _ := fail .EIo
  rmdir _ := fail .EIo
  rename _ _ := fail .EIo
  chmod _ _ := fail .EIo
  write _ _ _ := fail .EIo
  setLen _ _ := fail .EIo
  statFile _ := fail .EIo
  readExactAt _ _ _ := fail .EIo

def hostless : Platform := ⟨Unit, Unit, Unit, noScratch, fun _ => none, fun _ _ _ => .none⟩

def plainConfig (see propose : Grant) : Config Bytes Unit Unit hostless where
  env := storeEnv (oneFile [] [])
  surroundings _ := (0, fun _ => oneFile [] [])
  clock n := ⟨n, n⟩
  origin := 0
  scope := ⟨see, propose⟩
  freshness := ⟨60, 1, 60⟩
  derived := false
  checkout := none
  changedLines _ _ := []

theorem plainConfig_settled (see propose : Grant) : (plainConfig see propose).Settled := nofun

theorem smallDb_honest : smallDb.store.Honest id := by
  intro h b hb
  change (if h = [1] then some [1] else none) = some b at hb
  split at hb
  · rename_i heq
    exact (Option.some.inj hb).symm.trans heq.symm
  · simp at hb

end LeyLine.StoreFs
