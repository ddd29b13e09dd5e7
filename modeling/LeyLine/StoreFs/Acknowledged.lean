import LeyLine.StoreFs.Landing

/-!
# Acknowledged writes

FLUSH and FSYNC answer success in two ways. A handle whose base is a blob, or
whose created file is still the session's, lands its bytes. A handle whose base
is still "no file" while the session no longer holds the file lands nothing, and
answers success all the same: right for a file that was unlinked since, and a
lost write when another handle, a truncation or a rename landed it.
-/

namespace LeyLine.StoreFs

open World (initial)

variable {H Lang Rows : Type} {P : Platform} [DecidableEq H] [DecidableEq Lang]
  {cfg : Config H Lang Rows P} {w w' : World H Rows P}

/-! ## Files unlinked or replaced -/

section Disowned

variable (cfg)

def renamed (olddir : Nat) (oldname : Bytes) (newdir : Nat) (newname : Bytes) :
    Fs H Rows P (Path × Path) := do
  let src ← child cfg olddir oldname
  let dst ← child cfg newdir newname
  pure (src, dst)

/-- Whether an event takes the file at a path away from who has it open: an
UNLINK of it, another writer's delete of it, or a RENAME of another file onto it. -/
def takesAway (w : World H Rows P) (e : Event H) (p : Path) : Bool :=
  match e with
  | .request (.unlink parent name) =>
    (serve cfg (.unlink parent name) w).1.toBool && (child cfg parent name w).1.toOption == some p
  | .request (.rename olddir oldname newdir newname flags) =>
    (serve cfg (.rename olddir oldname newdir newname flags) w).1.toBool &&
      (renamed cfg olddir oldname newdir newname w).1.toOption.any fun x => x.2 == p && x.1 != p
  | .other now fs grant writes =>
    (LeyLine.propose { cfg.env with now := now, fs := fs } grant writes w.db).toBool &&
      writes.any fun x => x.path == p && x.change == .delete
  | _ => false

/-- Whether the file a handle is open on was taken away since it was opened. -/
def disowned (id : Nat) (w : World H Rows P) : List (Event H) → Bool
  | [] => false
  | e :: events =>
    w.handles[id]?.any (fun h => takesAway cfg w e h.path) || disowned id (step cfg w e).2 events

end Disowned

/-! ## What FLUSH and FSYNC leave -/

theorem commit_content (hset : cfg.Settled) (hinj : Function.Injective cfg.env.hash)
    (hg : Good cfg w) {id : Nat} {h : Handle H} (hget : w.handles[id]? = some h)
    (hdirty : h.dirty = true) (hc : commit cfg id w = (.ok (), w')) :
    contentAt w'.db.store h.path = if Lost w.session h then contentAt w.db.store h.path
      else some (landing cfg.env w.db.store ⟨h.path, h.base, .write h.bytes h.mode⟩ h.bytes) := by
  obtain ⟨b, m, w₁, hl, rfl⟩ := commit_ok hg hget hdirty hc
  rcases land_ok hl with ⟨hlost, -, rfl⟩ | ⟨hland, w₀, mode, hdb, hl⟩
  · rw [if_pos hlost]
  · rw [if_neg hland, ← hdb]
    -- the mode it lands with does not move the bytes
    exact (landBytes_content hset hinj (hdb ▸ hg.honest) hl).trans rfl

omit [DecidableEq Lang] in
theorem landing_lost {env : Env H Lang Rows} {s : Store H} {session : Session} {h : Handle H}
    {c : Change} (hlost : Lost session h) :
    landing env s ⟨h.path, h.base, c⟩ h.bytes = h.bytes := by
  rw [hlost.1]
  rfl

/-- **An acknowledged write is in the store exactly when its handle had a file to
land in.** In every state a run of requests and other writers' proposals reaches,
a FLUSH or FSYNC that answers success on staged bytes leaves at the handle's path
those bytes, or their merge, unless the file was taken away since the open, if
and only if the file was taken away, the handle's base is a stored file, the
session still holds the created file, or the path holds those bytes already. -/
theorem flush_acknowledges_iff (hset : cfg.Settled) (hinj : Function.Injective cfg.env.hash)
    {db : Db H Rows} (hdb : db.store.Honest cfg.env.hash) (scratch : P.Scratch)
    (events : List (Event H)) (id : Nat) (r : Request) (hr : r = .flush id ∨ r = .fsync id)
    (h : Handle H)
    (hget : (run cfg (initial db scratch) events).handles[id]? = some h) (hdirty : h.dirty = true)
    (hok : (serve cfg r (run cfg (initial db scratch) events)).1 = .ok .done) :
    (disowned cfg id (initial db scratch) events = true ∨
      contentAt (serve cfg r (run cfg (initial db scratch) events)).2.db.store h.path =
        some (landing cfg.env (run cfg (initial db scratch) events).db.store
          ⟨h.path, h.base, .write h.bytes h.mode⟩ h.bytes)) ↔
    (disowned cfg id (initial db scratch) events = true ∨ h.base ≠ .absent ∨
      (run cfg (initial db scratch) events).session.pending[h.path]? ≠ none ∨
      contentAt (run cfg (initial db scratch) events).db.store h.path = some h.bytes) := by
  have hg : Good cfg (run cfg (initial db scratch) events) :=
    (good_initial hdb scratch).run hset events
  rw [commit_content hset hinj hg hget hdirty (serve_commit hr hok)]
  by_cases hlost : Lost (run cfg (initial db scratch) events).session h
  · rw [if_pos hlost, landing_lost hlost]
    simp [hlost.1, hlost.2]
  · rw [if_neg hlost]
    tauto

/-- A file created on one handle and opened on a second, written and flushed on
both: the second FLUSH answers success. -/
def twoHandles : List (Event Bytes) :=
  [.request (.create 1 [120] 2), .request (.openFile 2 2), .request (.write 1 0 [65]),
    .request (.flush 1), .request (.write 2 0 [66])]

/-- The second handle's bytes are nowhere in the store, and nothing was unlinked
or renamed. -/
theorem flush_loses_second_handle :
    (run (plainConfig .whole .whole) (initial smallDb ()) twoHandles).handles[2]? =
        some ⟨"x".toList, .absent, {}, [66], none, true, true⟩ ∧
      (serve (plainConfig .whole .whole) (.flush 2)
        (run (plainConfig .whole .whole) (initial smallDb ()) twoHandles)).1 = .ok .done ∧
      ¬ (disowned (plainConfig .whole .whole) 2 (initial smallDb ()) twoHandles = true ∨
        contentAt (serve (plainConfig .whole .whole) (.flush 2)
            (run (plainConfig .whole .whole) (initial smallDb ()) twoHandles)).2.db.store
            "x".toList = some (landing (plainConfig .whole .whole).env
            (run (plainConfig .whole .whole) (initial smallDb ()) twoHandles).db.store
            ⟨"x".toList, .absent, .write [66] none⟩ [66])) := by
  decide +kernel

/-- The first handle's FLUSH lands. -/
theorem flush_acknowledges_iff_first : (serve (plainConfig .whole .whole) (.flush 1)
        (run (plainConfig .whole .whole) (initial smallDb ()) (twoHandles.take 3))).1 = .ok .done ∧
    ((disowned (plainConfig .whole .whole) 1 (initial smallDb ()) (twoHandles.take 3) = true ∨
      contentAt (serve (plainConfig .whole .whole) (.flush 1)
          (run (plainConfig .whole .whole) (initial smallDb ()) (twoHandles.take 3))).2.db.store
          "x".toList = some [65]) ↔
      (disowned (plainConfig .whole .whole) 1 (initial smallDb ()) (twoHandles.take 3) = true ∨
        Base.absent ≠ (Base.absent : Base Bytes) ∨
        (run (plainConfig .whole .whole) (initial smallDb ())
          (twoHandles.take 3)).session.pending["x".toList]? ≠ none ∨
        contentAt (run (plainConfig .whole .whole) (initial smallDb ())
          (twoHandles.take 3)).db.store "x".toList = some [65])) :=
  ⟨by decide +kernel,
    flush_acknowledges_iff (plainConfig_settled _ _) (fun _ _ h => h) smallDb_honest ()
      (twoHandles.take 3) 1 (.flush 1) (.inl rfl)
      ⟨"x".toList, .absent, {}, [65], none, true, true⟩ (by decide +kernel) rfl
      (by decide +kernel)⟩

end LeyLine.StoreFs
