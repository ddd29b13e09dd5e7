import LeyLine.StoreFs.Session

/-!
# What a request does to the world

Every request is made of a few kinds of primitive steps: it counts, numbers and remembers, it
serves a path, it calls scratch, it lands a proposal, it changes the session or a handle. A
relation between worlds that each kind stays inside of is kept by every request
(`serve_moves`); one that only the first kinds stay inside of is kept by the parts of a
request that are made of those.
-/

namespace LeyLine.StoreFs

open Req (Moves)

variable {H Lang Rows α : Type} {P : Platform}

/-- The part of a world the requests are about. -/
structure Core (H Rows : Type) (P : Platform) where
  db : Db H Rows
  handles : Std.ExtTreeMap Nat (Handle H)
  session : Session
  scratchHandles : Std.ExtTreeMap Nat (ScratchHandle P.File)
  nextHandle : Nat

def World.core (w : World H Rows P) : Core H Rows P :=
  ⟨w.db, w.handles, w.session, w.scratchHandles, w.nextHandle⟩

/-- What counting, numbering and noting for the guest's caches leave alone. -/
def World.still (w : World H Rows P) :=
  (w.core, w.scratch, w.served.seen, w.served.times, w.served.pages)

/-! ## Kinds of steps -/

section Kinds

variable [DecidableEq H] [DecidableEq Lang]

/-- One accepted proposal of the session, with the checkout brought up to it. -/
def Accepts (cfg : Config H Lang Rows P) (db db' : Db H Rows) : Prop :=
  ∃ t writes a db₁, LeyLine.propose (cfg.envAt t) cfg.scope.propose writes db = .ok (a, db₁) ∧
    db' = materialize cfg t writes db₁

variable (cfg : Config H Lang Rows P) (T : World H Rows P → World H Rows P → Prop)

/-- Counting, numbering and noting stay inside the relation. -/
class Idles : Prop extends Req.Closed T where
  idle : ∀ {w w'}, w'.still = w.still → T w w'

/-- So do serving a path as it was last served, or as something else with the change
recorded, and a change of times. -/
class Serves : Prop extends Idles T where
  again : ∀ w p seen, (∀ before, w.served.seen[p]? = some before → before = seen) →
    T w { w with served := { w.served with seen := w.served.seen.insert p seen } }
  changed : ∀ w p seen wall, T w { w with
    served := Served.touch { w.served with seen := w.served.seen.insert p seen } p wall cfg.origin }
  touched : ∀ w p wall, T w { w with served := w.served.touch p wall cfg.origin }

/-- A call on scratch stays inside it. -/
class Calls : Prop where
  call : ∀ {α : Type} (op : Req Errno P.Scratch α) w, T w { w with scratch := (op w.scratch).2 }

/-- So does what is remembered of the guest's pages. -/
class Remembers : Prop extends Serves cfg T where
  pages : ∀ w pages, T w { w with served := { w.served with pages := pages } }

/-- So does an accepted proposal. -/
class Proposes : Prop extends Remembers cfg T where
  landed : ∀ w db, Accepts cfg w.db db → T w { w with db := db }

/-- So do the session's pending files, and handles that are made, changed or dropped. -/
class Admits : Prop extends Proposes cfg T, Calls T where
  session : ∀ w s, T w { w with session := s }
  fresh : ∀ w h, T w { w with
    handles := w.handles.insert w.nextHandle h, nextHandle := w.nextHandle + 1 }
  openedScratch : ∀ w h, T w { w with
    scratchHandles := w.scratchHandles.insert w.nextHandle h, nextHandle := w.nextHandle + 1 }
  modify : ∀ w id f, T w { w with handles := w.handles.modify id f }
  mapAll : ∀ w (f : Handle H → Handle H), T w { w with handles := w.handles.map fun _ h => f h }
  drop : ∀ w id, T w { w with
    handles := w.handles.erase id, scratchHandles := w.scratchHandles.erase id }

end Kinds

def Quiet (w w' : World H Rows P) : Prop := w'.core = w.core

theorem Remembers.of_quiet {T : World H Rows P → World H Rows P → Prop} [Req.Closed T]
    (cfg : Config H Lang Rows P) (h : ∀ {w w'}, Quiet w w' → T w w') : Remembers cfg T where
  idle hs := h (congrArg Prod.fst hs)
  again _ _ _ _ := h rfl
  changed _ _ _ _ := h rfl
  touched _ _ _ := h rfl
  pages _ _ := h rfl

instance : Req.Closed (@Quiet H Rows P) := .keeps World.core

instance : Idles (@Quiet H Rows P) := ⟨congrArg Prod.fst⟩

instance (cfg : Config H Lang Rows P) : Remembers cfg (@Quiet H Rows P) := .of_quiet cfg id

instance : Calls (@Quiet H Rows P) := ⟨fun _ _ => rfl⟩

variable {T : World H Rows P → World H Rows P → Prop}

/-! ## Counting and noting -/

section Idle

variable [hT : Idles T] (cfg : Config H Lang Rows P)
include hT

theorem tick_moves : Moves T (tick : Fs H Rows P Nat) := fun _ => hT.idle rfl

theorem reading_moves : Moves T (reading cfg) := .bind tick_moves fun _ => .pure _

theorem timeout_moves (p : Path) : Moves T (timeout cfg p) :=
  .bind (reading_moves cfg) fun _ => .read _

theorem tell_moves (a : Attr) : Moves T (tell a : Fs H Rows P Unit) :=
  .ite (fun _ => hT.idle rfl) (.pure _)

theorem pathOf_moves (inode : Nat) : Moves T (pathOf inode : Fs H Rows P Path) :=
  .reads fun _ => .ofOption _ _

theorem inodeOf_moves (p : Path) : Moves T (inodeOf p : Fs H Rows P Nat) := by
  intro w
  rw [inodeOf]
  split <;> exact hT.idle rfl

theorem attrOf_moves (p : Path) (kind : Kind) (size : Nat)
    (mode : Option Mode) : Moves T (attrOf cfg p kind size mode) :=
  .bind (inodeOf_moves p) fun _ => .map (.read _)

theorem scratchAttr_moves (p : Path) (stat : ScratchStat) :
    Moves T (scratchAttr p stat : Fs H Rows P Attr) :=
  .map (inodeOf_moves p)

theorem ignoreRules_moves (dir : Path) : Moves T (ignoreRules cfg dir) := by
  refine .reads fun r => ?_
  cases r with
  | some rules => exact .pure _
  | none =>
    refine .bind tick_moves fun _ => .reads fun _ => ?_
    exact .map (fun _ => hT.idle rfl)

theorem gitignoredIn_moves (p : Path) (isDir : Bool) :
    ∀ dirs, Moves T (gitignoredIn cfg p isDir dirs)
  | [] => .pure _
  | dir :: dirs => by
    refine .bind (ignoreRules_moves cfg dir) fun r => ?_
    cases r with
    | none => exact gitignoredIn_moves p isDir dirs
    | some rules =>
      dsimp only
      cases P.matchedPathOrAnyParents rules (relativeTo dir p) isDir with
      | none => exact gitignoredIn_moves p isDir dirs
      | ignore | whitelist => exact .pure _

theorem handle_moves (id : Nat) : Moves T (handle id : Fs H Rows P _) :=
  .reads fun _ => .ofOption _ _

theorem forgetRules_moves (a : Accepted H) : Moves T (forgetRules a : Fs H Rows P Unit) :=
  .ite (fun _ => hT.idle rfl) (.pure _)

theorem landedBase_moves (a : Accepted H) (p : Path) : Moves T (landedBase a p : Fs H Rows P _) :=
  .map (.ofOption _ _)

theorem parent_moves (inode : Nat) : Moves T (parent inode : Fs H Rows P Nat) := by
  refine .bind (pathOf_moves inode) fun p => ?_
  cases dirOf p with
  | some dir => exact inodeOf_moves dir
  | none => exact .pure _

theorem targetBase_moves (p : Path) : Moves T (targetBase p : Fs H Rows P _) := by
  refine .reads fun r => ?_
  rcases r with _ | ⟨_ | _ | _, _⟩ <;> exact .pure _

theorem baseBytes_moves (base : Base H) : Moves T (baseBytes base : Fs H Rows P Bytes) := by
  cases base with
  | blob b => exact .reads fun _ => .ofOption _ _
  | any | absent => exact .pure _

theorem mergedBytes_moves (a : Accepted H) (p : Path) (base : Base H) :
    Moves T (mergedBytes a p base : Fs H Rows P _) := by
  cases base with
  | blob b => exact .ite (.reads fun _ => .map (.ofOption _ _)) (.pure _)
  | any | absent => exact .pure _

end Idle

/-! ## Serving a path -/

section Serve

variable (cfg : Config H Lang Rows P) [hT : Serves cfg T]
include hT

theorem touch_moves (p : Path) : Moves T (touch cfg p) :=
  .bind (reading_moves cfg) fun _ w => hT.touched w p _

theorem touchUnstored_moves (src : Path) (base : Base H) :
    Moves T (touchUnstored cfg src base) := by
  cases base with
  | blob _ => exact .pure _
  | any | absent => exact touch_moves cfg src

variable [DecidableEq H]

theorem observe_moves (p : Path) (seen : Seen H) : Moves T (observe cfg p seen) := by
  refine .bind (reading_moves cfg) fun now => .bind (reading_moves cfg) fun time w => ?_
  change T w { w with served := _ }
  cases hseen : w.served.seen[p]? with
  | none => exact hT.again w p seen (by simp [hseen])
  | some before =>
    dsimp only
    split
    · rename_i heq
      exact hT.again w p seen (by simp [hseen, heq])
    · exact hT.trans (hT.changed w p seen time.wall) (hT.idle rfl)

theorem servePath_moves (p : Path) : Moves T (servePath cfg p) :=
  .reads fun _ => .map (observe_moves cfg p _)

theorem movedMode_moves (p : Path) : Moves T (movedMode cfg p) := by
  refine .bind (servePath_moves cfg p) fun stat => ?_
  cases stat.bind (·.mode) with
  | some mode => exact .pure _
  | none => exact .map (.read _)

end Serve

/-! ## Calling scratch -/

section Call

variable [hT : Idles T] [hC : Calls T] (cfg : Config H Lang Rows P)
include hT hC

omit hT in
theorem scratchCall_moves (op : Req Errno P.Scratch α) :
    Moves T (scratchCall op : Fs H Rows P α) := fun w => hC.call op w

theorem scratch_moves : Moves T (scratch cfg) := by
  refine .requires fun _ => .reads fun _ => .ite (.pure _) ?_
  refine .bind (.attempt (scratchCall_moves _)) fun r => ?_
  cases r with
  | error _ => exact .fail _
  | ok _ => exact fun _ => hT.idle rfl

theorem scratchStat_moves (p : Path) : Moves T (scratchStat p : Fs H Rows P _) :=
  .ite (.pure _) (.reads fun _ => .ite (scratchCall_moves _) (.pure _))

theorem located_moves (p : Path) (stored : Option (Stat H)) :
    Moves T (located p stored : Fs H Rows P _) := by
  cases stored with
  | some stat => exact .pure _
  | none =>
    refine .bind (scratchStat_moves p) fun r => ?_
    cases r <;> exact .pure _

theorem whereis_moves (p : Path) : Moves T (whereis cfg p) := .reads fun _ => located_moves p _

theorem listing_moves (dir : Path) : Moves T (listing cfg dir) := .reads fun _ => .reads fun _ =>
    .ite (.map (scratchCall_moves _)) (.pure _)

theorem namesUnder_moves (dir : Path) : Moves T (namesUnder cfg dir) := .map (listing_moves cfg dir)

theorem parentInScratch_moves (p : Path) : Moves T (parentInScratch cfg p) := by
  rw [parentInScratch]
  cases dirOf p with
  | none => exact .pure _
  | some parent =>
    refine .bind (whereis_moves cfg parent) fun r => ?_
    cases r <;> exact .pure _

theorem derivedNew_moves (p : Path) (isDir : Bool) : Moves T (derivedNew cfg p isDir) :=
  .ite (.bind (parentInScratch_moves cfg p) fun _ =>
    .ite (.pure _) (.ite (.pure _) (gitignoredIn_moves cfg p isDir _))) (.pure _)

theorem setScratchLen_moves (p : Path) (size : Nat) :
    Moves T (setScratchLen p size : Fs H Rows P Unit) :=
  .bind (scratchCall_moves _) fun _ => scratchCall_moves _

theorem writeScratch_moves (h : ScratchHandle P.File) (offset : Nat)
    (data : Bytes) : Moves T (writeScratch cfg h offset data) :=
  .requires fun _ => .bind (scratch_moves cfg) fun _ => .map (scratchCall_moves _)

theorem handleSize_moves (id : Option Nat) (size : Nat) :
    Moves T (handleSize id size : Fs H Rows P Nat) := by
  cases id with
  | none => exact .pure _
  | some id =>
    refine .reads fun r => ?_
    cases r with
    | some h => exact .pure _
    | none =>
      refine .reads fun r => ?_
      cases r with
      | some h => exact .map (scratchCall_moves _)
      | none => exact .pure _

theorem read_moves (id offset size : Nat) : Moves T (read id offset size : Fs H Rows P _) := by
  refine .reads fun r => ?_
  cases r with
  | some h => exact .bind (scratchCall_moves _) fun _ => scratchCall_moves _
  | none => exact .map (handle_moves id)

theorem dropScratchDir_moves (p : Path) : Moves T (dropScratchDir p : Fs H Rows P Unit) := by
  refine .reads fun _ => .ite ?_ (.pure _)
  refine .bind (.attempt (scratchCall_moves _)) fun r => ?_
  rcases r with _ | _ | _
  · exact .pure _
  · exact .pure _
  · exact .map (.attempt (scratchCall_moves _))

theorem moveScratch_moves (src dst : Path) : Moves T (moveScratch src dst : Fs H Rows P Unit) := by
  refine .reads fun _ => .ite ?_ (.pure _)
  refine .bind (.attempt (scratchCall_moves _)) fun r => ?_
  rcases r with _ | _ | _
  · exact .pure _
  · exact .pure _
  · exact .map (.attempt (scratchCall_moves _))

theorem scratchContent_moves (src : Path) (kind : Kind) :
    Moves T (scratchContent src kind : Fs H Rows P _) :=
  .ite (.map (scratchCall_moves _))
    (.bind (scratchCall_moves _) fun _ => .bind (scratchCall_moves _) fun _ =>
    .map (scratchCall_moves _))

theorem copyToScratch_moves (dst : Path) (bytes : Bytes) (mode : Mode) :
    Moves T (copyToScratch dst bytes mode : Fs H Rows P Unit) := by
  refine .ite (scratchCall_moves _) (.bind (scratchCall_moves _) fun _ => ?_)
  refine .bind (.attempt (scratchCall_moves _)) fun r => ?_
  cases r with
  | ok _ => exact .pure _
  | error e => exact .bind (.attempt (scratchCall_moves _)) fun _ => .fail _

theorem renameInScratch_moves (src dst : Path) (kind : Kind) :
    Moves T (renameInScratch cfg src dst kind) :=
  .requires fun _ => .bind (scratch_moves cfg) fun _ => scratchCall_moves _

theorem findPath_moves (p : Path) : Moves T (findPath cfg p) := by
  refine .bind (whereis_moves cfg p) fun r => ?_
  cases r with
  | absent => exact .fail _
  | stored _ | scratch _ => exact .pure _

theorem renameDest_moves (dst : Path) (kind : Kind) : Moves T (renameDest cfg dst kind) := by
  refine .bind (whereis_moves cfg dst) fun r => ?_
  cases r with
  | absent => exact .map (derivedNew_moves cfg dst _)
  | stored _ | scratch _ => exact .pure _

theorem requireAbsent_moves (p : Path) : Moves T (requireAbsent cfg p) := by
  refine .bind (whereis_moves cfg p) fun r => ?_
  cases r with
  | absent => exact .pure _
  | stored _ | scratch _ => exact .fail _

theorem setattrScratch_moves (p : Path) (stat : ScratchStat)
    (id : Option Nat) (set : SetAttr) : Moves T (setattrScratch cfg p stat id set) := by
  refine .ite (.pure _) (.requires fun _ => .bind (scratch_moves cfg) fun _ => .bind ?_ fun _ => ?_)
  · cases set.mode with
    | some bits => exact .ite (.pure _) (scratchCall_moves _)
    | none => exact .pure _
  · cases set.size with
    | none => exact .pure _
    | some size =>
      refine .requires fun _ => .reads fun opened => ?_
      cases opened with
      | some h => exact .requires fun _ => scratchCall_moves _
      | none => exact setScratchLen_moves _ _

theorem requireEmpty_moves (dst : Path) (target : Option Kind) :
    Moves T (requireEmpty cfg dst target) := by
  rcases target with _ | _ | _ | _
  · exact .pure _
  · exact .fail _
  · exact .bind (listing_moves cfg dst) fun _ => .require _ _
  · exact .fail _

end Call

/-! ## Looking -/

section Look

variable [DecidableEq H] (cfg : Config H Lang Rows P) [hT : Serves cfg T] [hC : Calls T]
include hT hC

theorem attr_moves (p : Path) : Moves T (attr cfg p) := by
  refine .bind (.bind (servePath_moves cfg p) fun _ => located_moves p _) fun r => ?_
  cases r with
  | stored stat => exact attrOf_moves cfg p _ _ _
  | scratch stat => exact scratchAttr_moves p stat
  | absent => exact .fail _

theorem entry_moves (p : Path) : Moves T (entry cfg p) :=
  .bind (attr_moves cfg p) fun _ => .map (timeout_moves cfg p)

theorem directory_moves (inode : Nat) : Moves T (directory cfg inode) :=
  .bind (pathOf_moves inode) fun _ => .bind (attr_moves cfg _) fun _ => .map (.require _ _)

theorem child_moves (parent : Nat) (name : Bytes) : Moves T (child cfg parent name) :=
  .bind (directory_moves cfg parent) fun _ => .bind (.ofOption _ _) fun _ => .map (.require _ _)

theorem plusEntry_moves (dir : Path) (x : (Path × Kind × Bool) × Nat) :
    Moves T (plusEntry cfg dir x) := by
  have hreply : ∀ (a : Attr) (kind : Kind), Moves T (do
      tell a
      let ttl ← timeout cfg (join dir x.1.1)
      pure (some ((⟨a.inode, x.2 + 1, kind, x.1.1⟩, ⟨a, ttl⟩) : DirEntry × Entry)) :
        Fs H Rows P _) :=
    fun a kind => .bind (tell_moves a) fun _ => .map (timeout_moves cfg _)
  refine .ite (.bind (scratchStat_moves _) fun r => ?_) (.ite (.bind (observe_moves cfg _ _)
    fun _ => .bind (attrOf_moves cfg _ _ _ _) fun _ => hreply _ _)
    (.bind (servePath_moves cfg _) fun r => ?_))
  · cases r with
    | none => exact .pure _
    | some stat => exact .bind (scratchAttr_moves _ _) fun _ => hreply _ _
  · cases r with
    | none => exact .pure _
    | some stat => exact .bind (attrOf_moves cfg _ _ _ _) fun _ => hreply _ _

theorem lookup_moves (parent : Nat) (name : Bytes) : Moves T (lookup cfg parent name) :=
  .bind (child_moves cfg parent name) fun _ => .bind (entry_moves cfg _) fun _ =>
    .map (tell_moves _)

theorem getattr_moves (inode : Nat) (id : Option Nat) : Moves T (getattr cfg inode id) :=
  .bind (pathOf_moves inode) fun _ => .bind (attr_moves cfg _) fun _ =>
    .bind (handleSize_moves id _) fun _ => .bind (tell_moves _) fun _ => .map (timeout_moves cfg _)

theorem negativeTtl_moves (parent : Nat) (name : Bytes) :
    Moves T (negativeTtl cfg parent name) := by
  refine .bind (.attempt (child_moves cfg parent name)) fun r => ?_
  cases r with
  | ok p => exact timeout_moves cfg p
  | error _ => exact .pure _

theorem readdirplus_moves (inode offset : Nat) : Moves T (readdirplus cfg inode offset) :=
  .bind (directory_moves cfg inode) fun _ => .bind (listing_moves cfg _) fun _ =>
    .collect (plusEntry_moves cfg _) _

theorem opendir_moves (inode : Nat) : Moves T (opendir cfg inode) := by
  refine .bind (directory_moves cfg inode) fun _ => .bind (namesUnder_moves cfg _) fun _ =>
    .bind (reading_moves cfg) fun _ => .reads fun _ => .map (fun w => ?_)
  split
  · exact hT.trans (hT.touched w _ _) (hT.idle rfl)
  · exact hT.idle rfl

theorem readdir_moves (inode offset : Nat) : Moves T (readdir cfg inode offset) :=
  .bind (directory_moves cfg inode) fun _ => .bind (namesUnder_moves cfg _) fun _ =>
    .collect (fun _ => .map (inodeOf_moves _)) _

theorem readlink_moves (inode : Nat) : Moves T (readlink cfg inode) := by
  refine .bind (pathOf_moves inode) fun p => .bind (attr_moves cfg p) fun _ =>
    .requires fun _ => .bind (whereis_moves cfg p) fun r => ?_
  have hheld : Moves T (do
      let x ← held p
      let y ← Req.ofOption (.errno .ENOENT) x
      pure y.2 : Fs H Rows P Bytes) :=
    .reads fun _ => .map (.ofOption _ _)
  cases r with
  | scratch _ => exact .bind (scratch_moves cfg) fun _ => scratchCall_moves _
  | stored _ | absent => exact hheld

end Look

/-! ## Landing a proposal -/

section Propose

variable (cfg : Config H Lang Rows P)

section Remember

variable [hT : Remembers cfg T]
include hT

theorem landed_moves (now wall : Duration) (w : World H Rows P) (landed : List (Path × Seen H)) :
    T w { w with
      served := landed.foldl (fun (s : Served H) x => Served.recordChange
        { s with seen := s.seen.insert x.1 x.2 } x.1 now wall cfg.origin) w.served } := by
  induction landed generalizing w with
  | nil => exact hT.refl w
  | cons x landed ih =>
    let seen := { w.served with seen := w.served.seen.insert x.1 x.2 }
    have hstep : T w { w with served := seen.recordChange x.1 now wall cfg.origin } :=
      hT.trans (hT.changed w x.1 x.2 wall) (hT.idle rfl)
    exact hT.trans hstep (ih _)

theorem pageFlags_moves [DecidableEq H] (inode : Nat) (base : Base H) (writable : Bool)
    (size : Nat) :
    Moves T (pageFlags inode base writable size : Fs H Rows P _) :=
  .reads fun _ => .bind (fun w => hT.pages w _) fun _ => .map (.read _)

theorem recordLanded_moves (a : Accepted H) : Moves T (recordLanded cfg a) :=
  .bind (reading_moves cfg) fun _ => .bind (reading_moves cfg) fun _ => .reads fun _ =>
    .bind (.collect (fun p => .map (inodeOf_moves p)) _) fun _ w =>
      hT.trans (landed_moves cfg _ _ w _) (hT.pages _ _)

end Remember

variable [DecidableEq H] [DecidableEq Lang]

theorem underWriter_ok {writes : List (Proposed H)} {precheck : Store H → Except Errno Unit}
    {t : Nat} {db db' : Db H Rows} {a : Accepted H}
    (h : underWriter cfg writes precheck t db = .ok (a, db')) : precheck db.store = .ok () ∧ ∃ db₁,
      LeyLine.propose (cfg.envAt t) cfg.scope.propose writes db = .ok (a, db₁) ∧
        db' = materialize cfg t writes db₁ := by
  obtain ⟨_, hpre, h⟩ := Except.bind_eq_ok_iff.mp h
  obtain ⟨_, -, h⟩ := Except.bind_eq_ok_iff.mp h
  obtain ⟨⟨a', db₁⟩, hp, h⟩ := Except.bind_eq_ok_iff.mp h
  cases h
  exact ⟨hpre, db₁, Except.mapError_eq_ok_iff.mp hp, rfl⟩

variable [hT : Proposes cfg T]
include hT

theorem proposeAfter_moves (writes : List (Proposed H)) (precheck : Store H → Except Errno Unit) :
    Moves T (proposeAfter cfg writes precheck) := by
  refine .bind ?_ fun a => .bind (forgetRules_moves a) fun _ => .map (recordLanded_moves cfg a)
  intro w
  rw [withWrite]
  rcases h : underWriter cfg writes precheck w.ticks w.db with e | ⟨a, db'⟩
  · exact hT.idle rfl
  · obtain ⟨-, db₁, hp, rfl⟩ := underWriter_ok cfg h
    exact hT.trans (hT.landed w _ ⟨_, _, _, _, hp, rfl⟩) (hT.idle rfl)

theorem propose_moves (writes : List (Proposed H)) : Moves T (propose cfg writes) :=
  proposeAfter_moves cfg writes _

end Propose

/-! ## Changing -/

section Change

variable [DecidableEq H] [DecidableEq Lang] (cfg : Config H Lang Rows P) [hT : Admits cfg T]
include hT

theorem modifyHandle_moves (id : Nat) (f : Handle H → Handle H) :
    Moves T (modifyHandle id f : Fs H Rows P Unit) := fun w => hT.modify w id f

theorem forgetPending_moves (p : Path) : Moves T (forgetPending p : Fs H Rows P Unit) :=
  fun w => hT.session w _

theorem landBytes_moves (p : Path) (base : Base H) (earlier : Reads H) (bytes : Bytes)
    (mode : Option Mode) : Moves T (landBytes cfg p base earlier bytes mode) :=
  .bind (proposeAfter_moves cfg _ _) fun a => .bind (forgetPending_moves cfg p) fun _ =>
    .bind (landedBase_moves a p) fun b => .map (mergedBytes_moves a p b)

theorem land_moves (p : Path) (base : Base H) (earlier : Reads H) (bytes : Bytes)
    (mode : Option Mode) : Moves T (land cfg p base earlier bytes mode) := by
  refine .ite (.reads fun r => ?_) (landBytes_moves cfg p base earlier bytes mode)
  cases r with
  | none => exact .pure _
  | some _ =>
    exact .bind (fun w => hT.session w _) fun _ => .reads fun _ =>
      landBytes_moves cfg p base earlier bytes _

theorem write_moves (id offset : Nat) (data : Bytes) : Moves T (write cfg id offset data) := by
  refine .reads fun r => ?_
  cases r with
  | some h => exact writeScratch_moves cfg h offset data
  | none =>
    exact .bind (handle_moves id) fun _ => .requires fun _ =>
      .bind (.ofOption _ _) fun _ => .map (modifyHandle_moves cfg id _)

theorem writeChecked_moves (id offset : Nat) (data : Bytes) :
    Moves T (writeChecked cfg id offset data) := by
  refine .reads fun r => ?_
  cases r with
  | some h => exact writeScratch_moves cfg h offset data
  | none =>
    exact .bind (handle_moves id) fun _ => .requires fun _ =>
      .bind (.ofOption _ _) fun _ => .ite (.pure _) (.reads fun _ =>
        .bind (.ofExcept _) fun _ => .map (modifyHandle_moves cfg id _))

theorem settle_moves (id : Nat) : Moves T (settle id : Fs H Rows P Unit) := by
  refine .reads fun r => ?_
  cases r with
  | some h => exact .pure _
  | none =>
    exact .bind (handle_moves id) fun _ => modifyHandle_moves cfg id _

theorem discard_moves (id : Nat) : Moves T (discard id : Fs H Rows P Unit) := by
  refine .reads fun r => ?_
  cases r with
  | some h => exact .pure _
  | none =>
    exact .bind (handle_moves id) fun _ => .bind (baseBytes_moves _) fun _ =>
      modifyHandle_moves cfg id _

theorem openScratch_moves (p : Path) (flags : Nat) (create : Bool) :
    Moves T (openScratch cfg p flags create) :=
  .bind (scratch_moves cfg) fun _ => .bind (.onlyIf (setScratchLen_moves _ _)) fun _ =>
      .bind (scratchCall_moves _) fun _ w => hT.openedScratch w _

theorem setMode_moves (p : Path) (id : Option Nat) (bits : Nat) :
    Moves T (setMode cfg p id bits) := by
  refine .bind (servePath_moves cfg p) fun _ => .bind (.ofOption _ _) fun _ =>
    .ite (.pure _) (.requires fun _ => .reads fun r => ?_)
  cases r with
  | some id => exact modifyHandle_moves cfg id _
  | none =>
    refine .ite (.pure _) (.reads fun _ => .bind (.ofOption _ _) fun r => ?_)
    have hkeep : Moves T (do
        Req.update fun w => { w with session := { w.session with
          pendingModes := w.session.pendingModes.insert p
            (if bits &&& 0o111 ≠ 0 then .executable else .regular) } }
        touch cfg p : Fs H Rows P Unit) :=
      .bind (fun w => hT.session w _) fun _ => touch_moves cfg p
    rcases r with ⟨_ | _ | _, _⟩
    · exact hkeep
    · exact .map (propose_moves cfg _)
    · exact hkeep

theorem setSize_moves (p : Path) (id : Option Nat) (size : Nat) :
    Moves T (setSize cfg p id size) := by
  refine .bind (attr_moves cfg p) fun _ => .requires fun _ => ?_
  cases id with
  | some id =>
    exact .bind (handle_moves id) fun _ => .requires fun _ => .bind (.ofOption _ _) fun _ =>
      modifyHandle_moves cfg id _
  | none =>
    exact .requires fun _ => .reads fun _ => .bind (.ofOption _ _) fun _ =>
      .bind (.ofOption _ _) fun _ =>
        .map (land_moves cfg _ _ _ _ _)

theorem setattr_moves (inode : Nat) (id : Option Nat) (set : SetAttr) :
    Moves T (setattr cfg inode id set) := by
  refine .bind (pathOf_moves inode) fun p => .requires fun _ =>
    .bind (whereis_moves cfg p) fun r => ?_
  have hattr : Moves T (getattr cfg inode id) := getattr_moves cfg inode id
  have hstored : Moves T (do
      set.mode.elim (pure ()) (setMode cfg p id)
      set.size.elim (pure ()) (setSize cfg p id)
      getattr cfg inode id) := by
    refine .bind ?_ fun _ => .bind ?_ fun _ => hattr
    · cases set.mode with
      | none => exact .pure _
      | some bits => exact setMode_moves cfg p id bits
    · cases set.size with
      | none => exact .pure _
      | some size => exact setSize_moves cfg p id size
  cases r with
  | scratch stat =>
    exact .bind (setattrScratch_moves cfg p stat id set) fun _ => hattr
  | stored _ | absent => exact hstored

theorem symlink_moves (parent : Nat) (name target : Bytes) :
    Moves T (symlink cfg parent name target) :=
  .bind (child_moves cfg parent name) fun p => .bind (requireAbsent_moves cfg p) fun _ =>
    .requires fun _ =>
      .bind (derivedNew_moves cfg p false) fun _ => .ite (.bind (scratch_moves cfg) fun _ =>
            .bind (scratchCall_moves _) fun _ => entry_moves cfg p)
          (.bind (propose_moves cfg _) fun _ => entry_moves cfg p)

theorem mkdir_moves (parent : Nat) (name : Bytes) : Moves T (mkdir cfg parent name) :=
  .bind (child_moves cfg parent name) fun p => .bind (requireAbsent_moves cfg p) fun _ =>
    .requires fun _ =>
      .bind (derivedNew_moves cfg p true) fun _ => .ite (.bind (scratch_moves cfg) fun _ =>
            .bind (scratchCall_moves _) fun _ => entry_moves cfg p)
          (.bind (propose_moves cfg _) fun _ => entry_moves cfg p)

theorem forgetAndTouch_moves (p : Path) :
    Moves T (do forgetPending p; touch cfg p : Fs H Rows P Unit) :=
  .bind (forgetPending_moves cfg p) fun _ => touch_moves cfg p

theorem unlink_moves (parent : Nat) (name : Bytes) : Moves T (unlink cfg parent name) := by
  refine .bind (child_moves cfg parent name) fun p => .bind (findPath_moves cfg p) fun _ =>
    .requires fun _ =>
      .requires fun _ => .ite (.bind (scratch_moves cfg) fun _ => scratchCall_moves _)
        (.reads fun r => ?_)
  rcases r with _ | ⟨_ | _ | _, _⟩
  · exact forgetAndTouch_moves cfg p
  · exact forgetAndTouch_moves cfg p
  · exact .map (propose_moves cfg _)
  · exact forgetAndTouch_moves cfg p

theorem rmdir_moves (parent : Nat) (name : Bytes) : Moves T (rmdir cfg parent name) :=
  .bind (child_moves cfg parent name) fun p => .bind (findPath_moves cfg p) fun _ =>
    .requires fun _ =>
      .bind (listing_moves cfg p) fun _ => .requires fun _ =>
        .requires fun _ => .ite (.bind (scratch_moves cfg) fun _ => scratchCall_moves _)
          (.bind (propose_moves cfg _) fun _ => dropScratchDir_moves p)

theorem renameDirectory_moves (src dst : Path) (target : Option Kind) :
    Moves T (renameDirectory cfg src dst target) :=
  .requires fun _ => .bind (requireEmpty_moves cfg dst target)
    fun _ => .reads fun _ => .bind (.ofOption _ _) fun _ => .bind (propose_moves cfg _)
      fun _ => .bind (moveScratch_moves src dst) fun _ w =>
        hT.trans (hT.session w (movePending src dst w.session)) (hT.mapAll _ _)
theorem renameOutOfScratch_moves (src dst : Path) (kind : Kind) (target : Option Kind) :
    Moves T (renameOutOfScratch cfg src dst kind target) :=
  .requires fun _ => .requires fun _ => .bind (scratch_moves cfg) fun _ =>
      .bind (scratchContent_moves src kind) fun _ =>
        .bind (targetBase_moves dst) fun _ => .bind (propose_moves cfg _)
          fun _ => .bind (forgetPending_moves cfg dst) fun _ => scratchCall_moves _

theorem leaveStore_moves (src dst : Path) (base : Base H) :
    Moves T (leaveStore cfg src dst base) := by
  cases base with
  | any | absent => exact forgetAndTouch_moves cfg src
  | blob b =>
    refine .bind (.attempt (propose_moves cfg _)) fun r => ?_
    cases r with
    | ok _ => exact .pure _
    | error e =>
      exact .bind (.attempt (scratchCall_moves _)) fun _ => .fail _

theorem renameIntoScratch_moves (src dst : Path) (target : Option Kind) :
    Moves T (renameIntoScratch cfg src dst target) :=
  .requires fun _ => .requires fun _ => .reads fun _ => .bind (.ofOption _ _) fun _ =>
      .bind (movedMode_moves cfg src) fun _ => .bind (scratch_moves cfg) fun _ =>
          .bind (.onlyIf (scratchCall_moves _)) fun _ =>
            .bind (copyToScratch_moves dst _ _) fun _ =>
              leaveStore_moves cfg src dst _

theorem newHandle_moves (h : Handle H) : Moves T (newHandle h : Fs H Rows P Nat) := fun w =>
  hT.fresh w h

theorem openFile_moves (inode flags : Nat) : Moves T (openFile cfg inode flags) := by
  refine .bind (pathOf_moves inode) fun p => .bind (attr_moves cfg p) fun _ => .requires fun _ =>
      .requires fun _ => .bind (whereis_moves cfg p) fun r => ?_
  have hload : ∀ r : Base H × Bytes, Moves T (do
      let page ← pageFlags inode r.1 (isWrite flags)
        (if (isWrite flags && flags &&& oTrunc != 0) = true then [] else r.2).length
      let id ← newHandle ⟨p, r.1, {},
        if (isWrite flags && flags &&& oTrunc != 0) = true then [] else r.2, none,
        isWrite flags && flags &&& oTrunc != 0, isWrite flags⟩
      pure (⟨id, page.1, isWrite flags || page.2⟩ : Opened) : Fs H Rows P Opened) :=
    fun r => .bind (pageFlags_moves cfg inode _ _ _) fun _ => .map (newHandle_moves cfg _)
  cases r with
  | scratch _ =>
    exact .map (openScratch_moves cfg p flags false)
  | stored _ | absent => exact .reads fun _ => .bind (.ofOption _ _) hload

theorem reread_moves (id : Nat) : Moves T (reread id : Fs H Rows P Unit) := by
  refine .reads fun r => ?_
  cases r with
  | some h => exact .pure _
  | none =>
    exact .bind (handle_moves id) fun h => .ite (.pure _)
      (.bind (modifyHandle_moves cfg id _) fun _ => .reads fun _ => .bind (.ofOption _ _) fun _ =>
      .ite (.pure _) (modifyHandle_moves cfg id _))

theorem commit_moves (id : Nat) : Moves T (commit cfg id) := by
  refine .reads fun r => ?_
  cases r with
  | some h => exact .pure _
  | none =>
    exact .bind (handle_moves id) fun _ => .ite
      (.bind (land_moves cfg _ _ _ _ _) fun _ => modifyHandle_moves cfg id _) (.pure _)

theorem create_moves (parent : Nat) (name : Bytes) (flags : Nat) :
    Moves T (create cfg parent name flags) :=
  .bind (child_moves cfg parent name) fun p => .bind (requireAbsent_moves cfg p) fun _ =>
    .requires fun _ =>
      .bind (derivedNew_moves cfg p false) fun _ =>
        .ite (.bind (openScratch_moves cfg p flags true) fun _ =>
            .bind (entry_moves cfg p) fun _ => .map (tell_moves _))
          (.bind (fun w => hT.session w _) fun _ => .bind (touch_moves cfg p)
            fun _ => .bind (newHandle_moves cfg _) fun _ => .bind (entry_moves cfg p) fun _ =>
                .map (tell_moves _))

theorem renameFile_moves (src dst : Path) (target : Option Kind) :
    Moves T (renameFile cfg src dst target) :=
  .requires fun _ => .reads fun _ => .bind (.ofOption _ _) fun _ =>
    .bind (movedMode_moves cfg src) fun _ =>
      .bind (targetBase_moves dst) fun _ => .bind (propose_moves cfg _)
        fun a => .bind (forgetPending_moves cfg src) fun _ => .bind (forgetPending_moves cfg dst)
          fun _ => .bind (touchUnstored_moves cfg src _) fun _ =>
          .bind (landedBase_moves a dst) fun moved w =>
              hT.mapAll w fun h => if h.path = src then { h with path := dst, base := moved } else h

theorem renameWithin_moves (src dst : Path) (target : Option Kind) (kind : Kind)
    (srcDerived dstDerived : Bool) :
    Moves T (renameWithin cfg src dst target kind srcDerived dstDerived) := by
  cases kind <;> cases srcDerived <;> cases dstDerived
  case directory.false.false => exact renameDirectory_moves cfg src dst target
  case file.false.false => exact renameFile_moves cfg src dst target
  case symlink.false.false => exact renameFile_moves cfg src dst target
  case directory.true.true => exact renameInScratch_moves cfg src dst _
  case file.true.true => exact renameInScratch_moves cfg src dst _
  case symlink.true.true => exact renameInScratch_moves cfg src dst _
  case directory.true.false => exact .fail _
  case directory.false.true => exact .fail _
  case file.true.false => exact renameOutOfScratch_moves cfg src dst _ target
  case symlink.true.false => exact renameOutOfScratch_moves cfg src dst _ target
  case file.false.true => exact renameIntoScratch_moves cfg src dst target
  case symlink.false.true => exact renameIntoScratch_moves cfg src dst target

theorem rename_moves (olddir : Nat) (oldname : Bytes) (newdir : Nat) (newname : Bytes)
    (flags : Nat) : Moves T (rename cfg olddir oldname newdir newname flags) :=
  .requires fun _ => .bind (child_moves cfg olddir oldname) fun src =>
    .bind (child_moves cfg newdir newname) fun dst => .bind (findPath_moves cfg src) fun x =>
      .ite (.pure _)
        (.bind (renameDest_moves cfg dst x.1) fun _ => .requires fun _ =>
        .bind (renameWithin_moves cfg src dst _ _ _ _) fun _ _ => hT.idle rfl)

/-- **Every request** changes the world by looking and by the changes admitted. -/
theorem serve_moves (r : Request) : Moves T (serve cfg r) := by
  cases r with
  | lookup => exact .map (lookup_moves cfg _ _)
  | getattr => exact .map (getattr_moves cfg _ _)
  | negativeTtl => exact .map (negativeTtl_moves cfg _ _)
  | readdirplus => exact .map (readdirplus_moves cfg _ _)
  | opendir => exact .map (opendir_moves cfg _)
  | readdir => exact .map (readdir_moves cfg _ _)
  | openFile => exact .map (openFile_moves cfg _ _)
  | read => exact .map (read_moves _ _ _)
  | write => exact .map (write_moves cfg _ _ _)
  | writeChecked => exact .map (writeChecked_moves cfg _ _ _)
  | reread => exact .map (reread_moves cfg _)
  | settle => exact .map (settle_moves cfg _)
  | discard => exact .map (discard_moves cfg _)
  | parent => exact .map (parent_moves _)
  | flush | fsync => exact .map (commit_moves cfg _)
  | release => exact .map (fun w => hT.drop w _)
  | setattr => exact .map (setattr_moves cfg _ _ _)
  | symlink => exact .map (symlink_moves cfg _ _ _)
  | readlink => exact .map (readlink_moves cfg _)
  | create => exact .map (create_moves cfg _ _ _)
  | mkdir => exact .map (mkdir_moves cfg _ _)
  | unlink => exact .map (unlink_moves cfg _ _)
  | rmdir => exact .map (rmdir_moves cfg _ _)
  | rename => exact .map (rename_moves cfg _ _ _ _ _)

end Change

end LeyLine.StoreFs
