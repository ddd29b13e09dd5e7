import LeyLine.GrantFrame
import LeyLine.StoreFs.Landing

/-!
# What a guest can do to the store

A session proposes under its own grant and no request gets around the proposal, so what
confines one accepted proposal confines every run of requests; other writers, under grants of
their own, may come between. Nor does a request give out the number of a handle twice.
-/

namespace LeyLine.StoreFs

variable {H Lang Rows : Type} [DecidableEq H] {σ : Bytes → H} {ps : List Path}
  {db db' db'' : Db H Rows}

def Within (ps : List Path) : Grant → Prop
  | .whole => False
  | .paths granted => granted ⊆ ps

/-- Files change at these paths only, and directories above them. -/
structure Confined (ps : List Path) (s s' : Store H) : Prop where
  files : ∀ p ∉ ps, ∀ mode blob, s.entry p = some (.file mode blob) ↔
    s'.entry p = some (.file mode blob)
  dirs : ∀ d, (∀ p ∈ ps, ¬ Under d p) → (s.entry d = some .dir ↔ s'.entry d = some .dir)

/-- A database whose tree is well formed and whose blobs have their addresses. -/
structure Sound (σ : Bytes → H) (db : Db H Rows) : Prop where
  wellFormed : db.store.manifest.WellFormed
  honest : db.store.Honest σ

/-- A sound database stays sound, and changes as grants within `ps` allow. -/
def Allowed (σ : Bytes → H) (ps : List Path) (db db' : Db H Rows) : Prop :=
  Sound σ db → Sound σ db' ∧ Confined ps db.store db'.store

omit [DecidableEq H] in
theorem Allowed.refl (db : Db H Rows) : Allowed σ ps db db :=
  fun h => ⟨h, fun _ _ _ _ => .rfl, fun _ _ => .rfl⟩

omit [DecidableEq H] in
theorem Allowed.trans (h : Allowed σ ps db db') (h' : Allowed σ ps db' db'') :
    Allowed σ ps db db'' := by
  intro hs
  obtain ⟨hs, hfiles, hdirs⟩ := h hs
  obtain ⟨hs, hfiles', hdirs'⟩ := h' hs
  exact ⟨hs, fun p hp mode blob => (hfiles p hp mode blob).trans (hfiles' p hp mode blob),
    fun d hd => (hdirs d hd).trans (hdirs' d hd)⟩

variable [DecidableEq Lang]

theorem allowed_of_propose {env : Env H Lang Rows} {grant : Grant} {writes : List (Proposed H)}
    {a : Accepted H} (hnul : ∀ p ∈ ps, nul ∉ p) (hgrant : Within ps grant)
    (h : LeyLine.propose env grant writes db = .ok (a, db')) : Allowed env.hash ps db db' := by
  intro hs
  cases grant with
  | whole => exact hgrant.elim
  | paths granted =>
    obtain ⟨hl, hin⟩ := lands_of_propose_paths h
    -- a directory that goes lies above a granted path, so its path has no U+0000 either
    have hleaves : LeavesTree env db.store writes := hl.leavesTree fun d hd hmem => by
      obtain ⟨p, hp, hu⟩ := hin d _ hd
      exact hnul p (hgrant hp) (hu.isPrefix.subset hmem)
    refine ⟨⟨(hl.wellFormed_iff hs.wellFormed).mpr hleaves, hl.growsTo.honest hs.honest⟩,
      fun p hp mode blob => hl.file_kept hs.wellFormed hin fun hmem => hp (hgrant hmem),
      fun d hd => ?_⟩
    constructor
    · intro hold
      by_contra hnew
      obtain ⟨p, hp, hunder⟩ := hl.dir_gone hs.wellFormed hin hold hnew
      exact hd p (hgrant hp) hunder
    · intro hnew
      by_contra hold
      obtain ⟨p, hp, hunder⟩ := hl.dir_new hs.wellFormed hin hold hnew
      exact hd p (hgrant hp) hunder

variable {P : Platform} {cfg : Config H Lang Rows P}

/-- What every request and every other writer's accepted proposal stays inside of, a run does. -/
theorem run_moves {T : World H Rows P → World H Rows P → Prop} (hT : Admits cfg T)
    (events : List (Event H))
    (hother : ∀ now fs grant writes, Event.other now fs grant writes ∈ events → ∀ w a db,
      LeyLine.propose { cfg.env with now := now, fs := fs } grant writes w.db = .ok (a, db) →
      T w { w with db := db }) (w : World H Rows P) :
    T w (run cfg w events) := by
  induction events generalizing w with
  | nil => exact hT.refl w
  | cons e events ih =>
    refine hT.trans ?_ (ih (fun now fs grant writes h => hother now fs grant writes (.tail _ h)) _)
    cases e with
    | request r => exact serve_moves cfg r w
    | other now fs grant writes =>
      unfold step
      dsimp only
      split
      · rename_i a db hp
        exact hother now fs grant writes List.mem_cons_self w a db hp
      · exact hT.refl w

theorem requests_allowed (hset : cfg.Settled) (hnul : ∀ p ∈ ps, nul ∉ p)
    (hgrant : Within ps cfg.scope.propose) :
    Admits cfg fun w w' : World H Rows P => Allowed cfg.env.hash ps w.db w'.db :=
  have : Req.Closed fun w w' : World H Rows P => Allowed cfg.env.hash ps w.db w'.db :=
    ⟨fun w => .refl w.db, fun h h' => h.trans h'⟩
  { Remembers.of_quiet cfg fun {w w'} hq => by
      have hdb : w'.db = w.db := congrArg Core.db hq
      rw [hdb]
      exact .refl _ with
    call := fun _ w => .refl w.db
    landed := by
      rintro w _ ⟨t, writes, a, db₁, hp, rfl⟩
      rw [hset.materialize]
      have hallowed := allowed_of_propose hnul hgrant hp
      exact hallowed
    session := fun w _ => .refl w.db
    fresh := fun w _ => .refl w.db
    openedScratch := fun w _ => .refl w.db
    modify := fun w _ _ => .refl w.db
    mapAll := fun w _ => .refl w.db
    drop := fun w _ => .refl w.db }

/-- **Guests are confined by their grants.** Whatever requests a session sends and whatever other
writers propose between them, with nobody at work in the checkout's directory, where all grants
are within `ps` and its paths have no U+0000, the store stays well formed with every blob at its
address; no file outside `ps` changes, and no directory but above `ps`. -/
theorem guests_confined (hset : cfg.Settled) (hnul : ∀ p ∈ ps, nul ∉ p)
    (hgrant : Within ps cfg.scope.propose) (hdb : Sound cfg.env.hash db) (scratch : P.Scratch)
    (events : List (Event H))
    (hothers : ∀ now fs grant writes, Event.other now fs grant writes ∈ events → Within ps grant) :
    Sound cfg.env.hash (run cfg (World.initial db scratch) events).db ∧
      Confined ps db.store (run cfg (World.initial db scratch) events).db.store := by
  refine run_moves (requests_allowed hset hnul hgrant) events ?_ (World.initial db scratch) hdb
  intro now fs grant writes hmem w a db' hp
  have hallowed := allowed_of_propose hnul (hothers now fs grant writes hmem) hp
  exact hallowed

/-- A session with the grant of `y` creates, writes and flushes it: `a/x` stays. -/
theorem guests_confined_create :
    let events := [.request (.create 1 [121] 2), .request (.write 1 0 [65]), .request (.flush 1)]
    let last := run (plainConfig .whole (.paths ["y".toList])) (World.initial smallDb ()) events
    contentAt last.db.store "y".toList = some [65] ∧
      (smallDb.store.entry "a/x".toList = some (.file .regular [1]) ↔
      last.db.store.entry "a/x".toList = some (.file .regular [1])) :=
  ⟨by decide +kernel,
    (guests_confined (plainConfig_settled .whole (.paths ["y".toList])) (by decide)
    (show Within ["y".toList] (.paths ["y".toList]) from List.Subset.refl _)
    ⟨smallDb_wellFormed, smallDb_honest⟩ () _
    (by simp)).2.files "a/x".toList (by decide) .regular [1]⟩

/-! ## Handle numbers -/

def World.Open (w : World H Rows P) (id : Nat) : Prop :=
  w.handles[id]? ≠ none ∨ w.scratchHandles[id]? ≠ none

/-- The counter does not go back, and a handle that is open was open before under its number, of the
store or of scratch, or has a number from between the two counters. -/
structure Spends (w w' : World H Rows P) : Prop where
  next : w.nextHandle ≤ w'.nextHandle
  stored : ∀ id : Nat, w'.handles[id]? ≠ none →
    w.handles[id]? ≠ none ∨ w.nextHandle ≤ id ∧ id < w'.nextHandle
  scratch : ∀ id : Nat, w'.scratchHandles[id]? ≠ none →
    w.scratchHandles[id]? ≠ none ∨ w.nextHandle ≤ id ∧ id < w'.nextHandle

variable {w w' w'' : World H Rows P}

omit [DecidableEq H] in
theorem Spends.of_keys (hnext : w.nextHandle = w'.nextHandle)
    (hh : ∀ id : Nat, w'.handles[id]? ≠ none → w.handles[id]? ≠ none)
    (hs : ∀ id : Nat, w'.scratchHandles[id]? ≠ none → w.scratchHandles[id]? ≠ none) : Spends w w' :=
  ⟨hnext.le, fun id hid => .inl (hh id hid), fun id hid => .inl (hs id hid)⟩

omit [DecidableEq H] in
theorem Spends.trans (h : Spends w w') (h' : Spends w' w'') : Spends w w'' := by
  refine ⟨h.next.trans h'.next, fun id hid => ?_, fun id hid => ?_⟩
  · rcases h'.stored id hid with hid | hid
    · exact (h.stored id hid).imp_right fun hid => ⟨hid.1, hid.2.trans_le h'.next⟩
    · exact .inr ⟨h.next.trans hid.1, hid.2⟩
  · rcases h'.scratch id hid with hid | hid
    · exact (h.scratch id hid).imp_right fun hid => ⟨hid.1, hid.2.trans_le h'.next⟩
    · exact .inr ⟨h.next.trans hid.1, hid.2⟩

instance : Req.Closed (@Spends H Rows P) :=
  ⟨fun _ => .of_keys rfl (fun _ h => h) fun _ h => h, Spends.trans⟩

omit [DecidableEq H] in
theorem Quiet.spends (h : Quiet w w') : Spends w w' := by
  obtain ⟨-, hhandles, -, hscratch, hnext⟩ := Core.mk.inj h
  exact .of_keys hnext.symm (by simp [hhandles]) (by simp [hscratch])

theorem requests_spend (cfg : Config H Lang Rows P) : Admits cfg (@Spends H Rows P) :=
  { Remembers.of_quiet cfg Quiet.spends with
    call := fun _ _ => Quiet.spends rfl
    landed := fun _ _ _ => .of_keys rfl (fun _ h => h) fun _ h => h
    session := fun _ _ => .of_keys rfl (fun _ h => h) fun _ h => h
    fresh := fun w h => by
      refine ⟨Nat.le_succ _, fun id hid => ?_, fun id hid => .inl hid⟩
      rw [Table.get_insert] at hid
      split at hid
      · exact .inr (by dsimp only; omega)
      · exact .inl hid
    openedScratch := fun w h => by
      refine ⟨Nat.le_succ _, fun id hid => .inl hid, fun id hid => ?_⟩
      rw [Table.get_insert] at hid
      split at hid
      · exact .inr (by dsimp only; omega)
      · exact .inl hid
    modify := fun w n f => .of_keys rfl
      (fun id => by simp only [Std.ExtTreeMap.getElem?_modify]; split <;> simp_all) fun _ h => h
    mapAll := fun w f => .of_keys rfl (by simp [Std.ExtTreeMap.getElem?_map]) fun _ h => h
    drop := fun w n => .of_keys rfl (by simp +contextual) (by simp +contextual) }

theorem run_spends (cfg : Config H Lang Rows P) (events : List (Event H)) (w : World H Rows P) :
    Spends w (run cfg w events) :=
  run_moves (requests_spend cfg) events (fun _ _ _ _ _ _ _ _ _ =>
    .of_keys rfl (fun _ h => h) fun _ h => h) w

/-- What a request answers is a number from between the counters, of a handle that is open. -/
def Gives {α : Type} (number : α → Nat) (m : Fs H Rows P α) : Prop := ∀ w a w', m w = (.ok a, w') →
  w.nextHandle ≤ number a ∧ number a < w'.nextHandle ∧ w'.Open (number a)

section Gives

variable {α β : Type} {number : α → Nat} {m : Fs H Rows P α}

omit [DecidableEq H] in
theorem Gives.after {m : Fs H Rows P β} {k : β → Fs H Rows P α}
    (hm : ∀ w, w.nextHandle ≤ (m w).2.nextHandle) (hk : ∀ b, Gives number (k b)) :
    Gives number (m >>= k) := by
  intro w a w' h
  obtain ⟨b, w₁, hb, h⟩ := Req.bind_eq_ok_iff.mp h
  have hnext := hm w
  rw [hb] at hnext
  exact ⟨hnext.trans (hk b _ _ _ h).1, (hk b _ _ _ h).2⟩

omit [DecidableEq H] in
theorem Gives.afterQuiet {m : Fs H Rows P β} {k : β → Fs H Rows P α} (hm : Req.Moves Quiet m)
    (hk : ∀ b, Gives number (k b)) : Gives number (m >>= k) :=
  .after (fun w => (hm w).spends.next) hk

omit [DecidableEq H] in
theorem Gives.andThen {number' : β → Nat} {k : α → Fs H Rows P β} (hm : Gives number m)
    (hk : ∀ a, Req.Moves Quiet (k a))
    (ha : ∀ a w b w', k a w = (.ok b, w') → number' b = number a) :
    Gives number' (m >>= k) := by
  intro w b w' h
  obtain ⟨a, w₁, hm', h⟩ := Req.bind_eq_ok_iff.mp h
  have hquiet := hk a w₁
  rw [h] at hquiet
  obtain ⟨-, hhandles, -, hscratch, hnext⟩ := Core.mk.inj hquiet
  rw [ha a _ _ _ h, World.Open, hhandles, hscratch, hnext]
  exact hm w a w₁ hm'

omit [DecidableEq H] in
theorem newHandle_gives (h : Handle H) : Gives id (newHandle h : Fs H Rows P Nat) := by
  rintro w _ _ ⟨⟩
  exact ⟨le_rfl, Nat.lt_succ_self _, .inl (by simp)⟩

omit [DecidableEq H] [DecidableEq Lang] in
theorem openScratch_gives (cfg : Config H Lang Rows P) (path : Path) (flags : Nat) (create : Bool) :
    Gives id (openScratch cfg path flags create) := by
  refine .afterQuiet (scratch_moves cfg) fun _ =>
    .afterQuiet (.onlyIf (setScratchLen_moves _ _)) fun _ =>
    .afterQuiet (scratchCall_moves _) fun _ => ?_
  rintro w _ _ ⟨⟩
  exact ⟨le_rfl, Nat.lt_succ_self _, .inr (by simp)⟩

omit [DecidableEq H] in
theorem Gives.ite {c : Prop} [Decidable c] {n : Fs H Rows P α} (hm : Gives number m)
    (hn : Gives number n) :
    Gives number (if c then m else n) := by
  split
  · exact hm
  · exact hn

omit [DecidableEq Lang] in
theorem openFile_gives (cfg : Config H Lang Rows P) (inode flags : Nat) :
    Gives Opened.handle (openFile cfg inode flags) := by
  refine .afterQuiet (pathOf_moves inode) fun p => .afterQuiet (attr_moves cfg p) fun _ =>
    .afterQuiet (.require _ _) fun _ =>
    .afterQuiet (.require _ _) fun _ => .afterQuiet (whereis_moves cfg p) fun r => ?_
  cases r with
  | scratch _ =>
    refine .andThen (openScratch_gives cfg p flags false) (fun _ => .pure _) ?_
    rintro a w b w' h
    cases h
    rfl
  | stored _ | absent =>
    refine .afterQuiet (.read _) fun _ => .afterQuiet (.ofOption _ _) fun _ =>
      .afterQuiet (pageFlags_moves cfg inode _ _ _) fun _ =>
        .andThen (newHandle_gives _) (fun _ => .pure _) ?_
    rintro a w b w' h
    cases h
    rfl

omit [DecidableEq Lang] in
theorem create_gives (cfg : Config H Lang Rows P) (parent : Nat) (name : Bytes) (flags : Nat) :
    Gives Prod.snd (create cfg parent name flags) := by
  -- what follows the number tells the guest of the new file, and answers the number
  have htold : ∀ {m : Fs H Rows P Nat} (p : Path), Gives id m → Gives Prod.snd (do
      let id ← m
      let e ← entry cfg p
      tell e.attr
      pure (e, id)) := by
    intro m p hm
    refine .andThen hm (fun _ => .bind (entry_moves cfg p) fun _ => .map (tell_moves _)) fun n w b
      w' h => ?_
    obtain ⟨e, w₁, -, h⟩ := Req.bind_eq_ok_iff.mp h
    obtain ⟨u, w₂, -, h⟩ := Req.bind_eq_ok_iff.mp h
    cases h
    rfl
  refine .afterQuiet (child_moves cfg parent name) fun p =>
    .afterQuiet (requireAbsent_moves cfg p) fun _ =>
    .afterQuiet (.require _ _) fun _ => .afterQuiet (derivedNew_moves cfg p false) fun _ =>
      .ite ?_ ?_
  · exact htold p (openScratch_gives cfg p flags true)
  · exact .after (fun _ => le_rfl) fun _ => .afterQuiet (touch_moves cfg p) fun _ =>
      htold p (newHandle_gives _)

end Gives

def Reply.number : Reply → Option Nat
  | .opened o => some o.handle
  | .created _ id => some id
  | _ => none

theorem serve_gives (cfg : Config H Lang Rows P) {r : Request} {reply : Reply} {id : Nat}
    (h : serve cfg r w = (.ok reply, w')) (hid : reply.number = some id) :
    w.nextHandle ≤ id ∧ id < w'.nextHandle ∧ w'.Open id := by
  cases r with
  | openFile inode flags =>
    obtain ⟨o, w₁, ho, h⟩ := Req.bind_eq_ok_iff.mp h
    cases h
    cases hid
    exact openFile_gives cfg inode flags w o w' ho
  | create parent name flags =>
    obtain ⟨⟨e, n⟩, w₁, ho, h⟩ := Req.bind_eq_ok_iff.mp h
    cases h
    cases hid
    exact create_gives cfg parent name flags w (e, id) w' ho
  | _ =>
    obtain ⟨_, _, _, h⟩ := Req.bind_eq_ok_iff.mp h
    cases h
    cases hid

/-- **A handle number is given out once.** In every state of a run, the number OPEN or CREATE
answers is that of no open handle, and of one afterwards; no number is answered again, since the
next ones are larger; and a number whose handle is closed names none again, of the store or of
scratch. -/
theorem handles_spent (cfg : Config H Lang Rows P) (db : Db H Rows) (scratch : P.Scratch)
    (events : List (Event H)) :
    let w := run cfg (World.initial db scratch) events
    (∀ later, Spends w (run cfg w later)) ∧
      ∀ r reply id, (serve cfg r w).1 = .ok reply → reply.number = some id →
        ¬ w.Open id ∧ (serve cfg r w).2.Open id ∧ w.nextHandle ≤ id ∧
        id < (serve cfg r w).2.nextHandle ∧
        ∀ later r' reply' id', (serve cfg r' (run cfg (serve cfg r w).2 later)).1 = .ok reply' →
          reply'.number = some id' → id < id' := by
  intro w
  have hspent : Spends (World.initial db scratch) w := run_spends cfg events _
  refine ⟨fun later => run_spends cfg later w, fun r reply id hr hid => ?_⟩
  obtain ⟨hnew, hbelow, hopen⟩ := serve_gives cfg (Prod.ext hr rfl) hid
  refine ⟨?_, hopen, hnew, hbelow, fun later r' reply' id' hr' hid' => ?_⟩
  · rintro (hold | hold)
    · rcases hspent.stored id hold with hfirst | hlt
      · simp [World.initial] at hfirst
      · omega
    · rcases hspent.scratch id hold with hfirst | hlt
      · simp [World.initial] at hfirst
      · omega
  · have hnext := (serve_gives cfg (Prod.ext hr' rfl) hid').1
    exact hbelow.trans_le ((run_spends cfg later _).next.trans hnext)

/-- Handle 1 is created and released; the next CREATE answers 2. -/
theorem handles_spent_release :
    let w := run (plainConfig .whole .whole) (World.initial smallDb ())
      [.request (.create 1 [121] 2), .request (.release 1)]
    ∃ e, (serve (plainConfig .whole .whole) (.create 1 [122] 2) w).1 = .ok (.created e 2) ∧
      ¬ w.Open 2 := by
  intro w
  have hreply : ∃ e, (serve (plainConfig .whole .whole) (.create 1 [122] 2) w).1 =
      .ok (.created e 2) := ⟨_, rfl⟩
  obtain ⟨e, he⟩ := hreply
  exact ⟨e, he,
    ((handles_spent (plainConfig .whole .whole) smallDb () _).2 _ (.created e 2) 2 he rfl).1⟩

end LeyLine.StoreFs
