import LeyLine.Lib.Table
import LeyLine.StoreFs.Landing
import LeyLine.StoreFs.ScratchLimit

/-!
# Runs of scratch requests

The requests that reach scratch, as the filesystem makes them: `openScratch`,
`writeScratch`, `setattrScratch` and the three renames across its border, with what
happens elsewhere in the session between them. A run in which no file is taken from its
name while a handle holds it keeps scratch within its limit and `used` in step.
-/

namespace LeyLine.StoreFs

open Req (Moves Ends)
open Scratch
open World

variable {H Lang Rows : Type} {os : Os} {Rules : Type} {compileRules : Bytes → Option Rules}
  {matched : Rules → Path → Bool → IgnoreMatch}

section Model

variable {P : Platform}

/-- A request that reaches scratch. A path is one the filesystem has found to be
scratch's, or to be made there. -/
inductive ScratchRequest where
  | create (path : Path) (flags : Nat)
  | openFile (path : Path) (flags : Nat)
  | write (handle offset : Nat) (data : Bytes)
  | setattr (path : Path) (stat : ScratchStat) (handle : Option Nat) (set : SetAttr)
  | mkdir (path : Path)
  | symlink (target : Bytes) (path : Path)
  | unlink (path : Path)
  | rmdir (path : Path)
  | renameWithin (src dst : Path) (kind : Kind)
  | renameOut (src dst : Path) (kind : Kind) (target : Option Kind)
  | renameInto (src dst : Path) (target : Option Kind)
  | renameBeside (src dst : Path)
  | rmdirBeside (path : Path)
  | release (handle : Nat)

variable [DecidableEq H] [DecidableEq Lang]

def serveScratch (cfg : Config H Lang Rows P) : ScratchRequest → Fs H Rows P Unit
  | .create path flags => do
    let _ ← openScratch cfg path flags true
  | .openFile path flags => do
    let _ ← openScratch cfg path flags false
  | .write id offset data => do
    match ← scratchHandle id with
    | some h => do
      let _ ← writeScratch cfg h offset data
    | none => pure ()
  | .setattr path stat id set => setattrScratch cfg path stat id set
  | .mkdir path => do
    scratch cfg
    scratchCall (P.scratch.mkdir path)
  | .symlink target path => do
    scratch cfg
    scratchCall (P.scratch.symlink target path)
  | .unlink path => do
    scratch cfg
    scratchCall (P.scratch.unlink path)
  | .rmdir path => do
    scratch cfg
    scratchCall (P.scratch.rmdir path)
  | .renameWithin src dst kind => Req.onlyIf (src ≠ dst) (renameInScratch cfg src dst kind)
  | .renameOut src dst kind target =>
    Req.onlyIf (src ≠ dst) (renameOutOfScratch cfg src dst kind target)
  | .renameInto src dst target => Req.onlyIf (src ≠ dst) (renameIntoScratch cfg src dst target)
  | .renameBeside src dst => Req.onlyIf (src ≠ dst) (moveScratch src dst)
  | .rmdirBeside path => dropScratchDir path
  | .release id => release id

def Aside (w w' : World H Rows P) : Prop :=
  w'.scratch = w.scratch ∧ w'.scratchHandles = w.scratchHandles

/-- A request that reaches scratch, or anything else that happens to the filesystem. -/
inductive ScratchEvent (H Rows : Type) (P : Platform) where
  | request (r : ScratchRequest)
  | elsewhere (f : World H Rows P → World H Rows P) (h : ∀ w, Aside w (f w))

def scratchStep (cfg : Config H Lang Rows P) (w : World H Rows P) :
    ScratchEvent H Rows P → World H Rows P
  | .request r => (serveScratch cfg r w).2
  | .elsewhere f _ => f w

def scratchRun (cfg : Config H Lang Rows P) (w : World H Rows P)
    (events : List (ScratchEvent H Rows P)) : World H Rows P :=
  events.foldl (scratchStep cfg) w

end Model

/-! ## What scratch holds -/

section Held

/-- The filesystem on such a host. -/
abbrev ScratchWorld (H Rows : Type) (os : Os) (Rules : Type) (compileRules : Bytes → Option Rules)
    (matched : Rules → Path → Bool → IgnoreMatch) :=
  World H Rows (scratchHost os Rules compileRules matched)

variable (w : ScratchWorld H Rows os Rules compileRules matched)

def World.scratchDir : Scratch := w.scratch

def World.scratchFile (id : Nat) : Option HostFile := w.scratchHandles[id]?.map (·.file)

def World.openInos : List Nat := w.scratchHandles.toList.filterMap fun x => (x.2.file : HostFile)

/-- The bytes of the regular files that are linked or open, each counted once. -/
def World.heldBytes : Nat :=
  ∑ i ∈ (w.scratchDir.inos ++ w.openInos).toFinset, (w.scratchDir.bytesOf i).length

def World.OpenAt (path : Path) : Prop :=
  ∃ i ∈ w.openInos, (path, Node.file i) ∈ w.scratchDir.entries

/-- A request that takes no file from its name while a handle holds it, asks for no length
the host cannot give, and writes nothing only within a file. -/
def Gentle : ScratchRequest → Prop
  | .write id offset data => data = [] → ∀ i, w.scratchFile id = some (some i) →
      offset ≤ (w.scratchDir.bytesOf i).length
  | .setattr _ _ _ set => ∀ size, set.size = some size → size ≤ isizeMax
  | .unlink path => ¬ w.OpenAt path
  | .renameWithin _ dst _ => ¬ w.OpenAt dst
  | .renameOut src _ _ _ => ¬ w.OpenAt src
  | .renameInto _ dst _ => ¬ w.OpenAt dst
  | .renameBeside _ dst => ¬ w.OpenAt dst
  | _ => True

end Held

/-! ## What leaves scratch alone -/

section Aside

variable {P : Platform}

instance : Req.Closed (@Aside H Rows P) where
  refl _ := ⟨rfl, rfl⟩
  trans h h' := ⟨h'.1.trans h.1, h'.2.trans h.2⟩

instance : Idles (@Aside H Rows P) where
  idle h := ⟨congrArg (·.2.1) h, congrArg (·.1.scratchHandles) h⟩

instance [DecidableEq H] [DecidableEq Lang] (cfg : Config H Lang Rows P) :
    Proposes cfg (@Aside H Rows P) where
  idle := Idles.idle
  again _ _ _ _ := ⟨rfl, rfl⟩
  changed _ _ _ _ := ⟨rfl, rfl⟩
  touched _ _ _ := ⟨rfl, rfl⟩
  pages _ _ := ⟨rfl, rfl⟩
  landed _ _ _ := ⟨rfl, rfl⟩

theorem forgetPending_aside (p : Path) : Moves Aside (forgetPending p : Fs H Rows P Unit) :=
  fun _ => ⟨rfl, rfl⟩

end Aside

/-! ## What keeps the count -/

section Keeps

variable {free : Path → Prop} {limit : Nat} {α : Type}
  {w w' : ScratchWorld H Rows os Rules compileRules matched}
  (cfg : Config H Lang Rows (scratchHost os Rules compileRules matched))

def Counted (free : Path → Prop) (limit : Nat)
    (w : ScratchWorld H Rows os Rules compileRules matched) : Prop :=
  w.scratchDir.Sound (· ∈ w.openInos) free limit

def Keeps (free : Path → Prop) (limit : Nat)
    (w w' : ScratchWorld H Rows os Rules compileRules matched) : Prop :=
  Counted free limit w → Counted free limit w'

instance : Req.Closed (@Keeps H Rows os Rules compileRules matched free limit) where
  refl _ h := h
  trans h h' hw := h' (h hw)

theorem Aside.counted (haside : Aside w w') (h : Counted free limit w) : Counted free limit w' := by
  unfold Counted scratchDir openInos at *
  rw [haside.1, haside.2]
  exact h

theorem keeps_of_aside {m : Fs H Rows (scratchHost os Rules compileRules matched) α}
    (h : Moves Aside m) : Moves (Keeps free limit) m := fun w => (h w).counted

theorem scratchCall_keeps {op : Req Errno Scratch α}
    (h : ∀ opened s, Scratch.Sound opened free limit s → Scratch.Sound opened free limit (op s).2) :
    Moves (Keeps free limit)
    (scratchCall op : Fs H Rows (scratchHost os Rules compileRules matched) α) :=
  fun w hw => h _ w.scratchDir hw

theorem sameCall_keeps {op : Req Errno Scratch α} (h : Moves Scratch.Same op) :
    Moves (Keeps free limit)
    (scratchCall op : Fs H Rows (scratchHost os Rules compileRules matched) α) :=
  scratchCall_keeps fun _ s hs => (h s).sound hs

def Still (w w' : ScratchWorld H Rows os Rules compileRules matched) : Prop :=
  w'.scratchHandles = w.scratchHandles ∧ w.scratchDir.Same w'.scratchDir

instance : Req.Closed (@Still H Rows os Rules compileRules matched) where
  refl _ := ⟨rfl, Req.Closed.refl _⟩
  trans h h' := ⟨h'.1.trans h.1, Req.Closed.trans h.2 h'.2⟩

theorem Still.counted (hstill : Still w w') (h : Counted free limit w) : Counted free limit w' := by
  have hopen : w'.openInos = w.openInos := by
    unfold openInos
    rw [hstill.1]
  unfold Counted
  rw [hopen]
  exact hstill.2.sound h

theorem scratch_still : Moves Still (scratch cfg) := by
  refine .requires fun _ => .reads fun _ => .ite (.pure _) ?_
  refine .bind (.attempt fun w => ⟨rfl, sysCall_same os.fault w.scratchDir⟩) fun r => ?_
  cases r with
  | error _ => exact .fail _
  | ok _ => exact fun w => ⟨rfl, Req.Closed.refl w.scratchDir⟩

theorem scratch_keeps : Moves (Keeps free limit) (scratch cfg) :=
  fun w => (scratch_still cfg w).counted

theorem mem_openInos {i : Nat} : i ∈ w.openInos ↔ ∃ id, w.scratchFile id = some (some i) := by
  unfold openInos scratchFile
  rw [List.mem_filterMap]
  constructor
  · rintro ⟨⟨id, h⟩, hmem, hfile⟩
    rw [Std.ExtTreeMap.mem_toList_iff_getElem?_eq_some] at hmem
    exact ⟨id, by rw [hmem]; exact congrArg some hfile⟩
  · rintro ⟨id, hid⟩
    obtain ⟨h, hget, hfile⟩ := Option.map_eq_some_iff.mp hid
    exact ⟨(id, h), Std.ExtTreeMap.mem_toList_iff_getElem?_eq_some.mpr hget, hfile⟩

theorem ends_scratchOpen (hw : Counted free limit w) (path : Path) (flags mode : Nat) :
    Ends (scratchCall (openAt os path flags mode) :
      Fs H Rows (scratchHost os Rules compileRules matched) HostFile) w fun r w' =>
        Counted free limit w' ∧ ∀ i, r = .ok (some i) → i ∈ w'.scratchDir.inos := by
  have hopen : Ends (openAt os path flags mode) w.scratchDir _ := openAt_sound hw flags mode
  refine ⟨hopen.1, fun i hi => hopen.2 i ?_⟩
  have herr : (openAt os path flags mode w.scratchDir).1.mapError Fault.errno = .ok (some i) := hi
  cases hr : (openAt os path flags mode w.scratchDir).1 with
  | error e =>
    rw [hr] at herr
    simp [Except.mapError] at herr
  | ok file =>
    rw [hr] at herr
    exact congrArg Except.ok (Except.ok.inj herr)

theorem setScratchLen_keeps (hos : os.Steady) (hlimit : limit < u64Max) (path : Path) {size : Nat}
    (hsize : size ≤ isizeMax) : Moves (Keeps free limit)
      (setScratchLen path size : Fs H Rows (scratchHost os Rules compileRules matched) Unit) := by
  intro w hw
  refine Ends.bind (Q := fun _ w' => Counted free limit w') (ends_scratchOpen hw path oRdwr 0)
    (fun e w' h => h.1) fun file w' h => ?_
  exact setLen_sound hos hlimit h.1 (fun i hi => h.2 i (congrArg Except.ok hi)) hsize

theorem openInos_insert {id : Nat} {h : ScratchHandle HostFile} {next i : Nat}
    (hi : i ∈ openInos { w with
      scratchHandles := w.scratchHandles.insert id h, nextHandle := next }) :
    i ∈ w.openInos ∨ h.file = some i := by
  obtain ⟨id', hid'⟩ := mem_openInos.mp hi
  unfold scratchFile at hid'
  simp only [Table.get_insert] at hid'
  by_cases heq : id = id'
  · rw [if_pos heq] at hid'
    exact .inr (Option.some.inj hid')
  · rw [if_neg heq] at hid'
    exact .inl (mem_openInos.mpr ⟨id', hid'⟩)

theorem openScratch_keeps (hos : os.Steady) (hlimit : limit < u64Max) (path : Path) (flags : Nat)
    (create : Bool) : Moves (Keeps (fun _ => False) limit) (openScratch cfg path flags create) := by
  refine .bind (scratch_keeps cfg) fun _ => .bind (.onlyIf (setScratchLen_keeps hos hlimit path
    (Nat.zero_le _))) fun _ w hw => ?_
  refine Ends.bind (Q := fun _ w' => Counted (fun _ => False) limit w')
    (ends_scratchOpen hw path _ _) (fun e w' h => h.1) fun file w' ⟨h, hlinked⟩ => ?_
  refine ⟨h.names, h.single, h.bound, fun i hi => ?_, fun _ _ hp => hp.elim, h.counted, h.sameLimit,
    h.within⟩
  rcases openInos_insert hi with hi | hi
  · exact h.linked i hi
  · exact hlinked i (congrArg Except.ok hi)

theorem writeScratch_keeps (hos : os.Steady) (hlimit : limit < u64Max) {id offset : Nat}
    {data : Bytes} {h : ScratchHandle HostFile} (hget : w.scratchHandles[id]? = some h)
    (hgentle : Gentle w (.write id offset data)) (hw : Counted free limit w) :
    Counted free limit (writeScratch cfg h offset data w).2 := by
  refine Ends.require (Q := fun _ w' => Counted free limit w') (fun _ => hw) fun _ => ?_
  refine Ends.bind (R := fun _ w' => Still w w') (scratch_still cfg w)
    (fun e w' hs => hs.counted hw) fun _ w' hs => ?_
  have hfile : ∀ i, h.file = some i → w.scratchFile id = some (some i) := fun i hi => by
    rw [scratchFile, hget]
    exact congrArg some hi
  have hw' : Counted free limit w' := hs.counted hw
  refine Ends.bind (R := fun _ w' => Counted free limit w') ?_ (fun e w' h => h) fun _ w' h => h
  refine write_sound hos hlimit hw' (fun i hi => hw'.linked i ?_) fun hnil i hi => ?_
  · refine mem_openInos.mpr ⟨id, ?_⟩
    unfold scratchFile
    rw [hs.1]
    exact hfile i hi
  · rw [(hs.2 hw.names).bytes i]
    exact hgentle hnil i (hfile i hi)

theorem setattrScratch_keeps (hos : os.Steady) (hlimit : limit < u64Max) (path : Path)
    (stat : ScratchStat) (id : Option Nat) (set : SetAttr)
    (hset : ∀ size, set.size = some size → size ≤ isizeMax) :
    Moves (Keeps free limit) (setattrScratch cfg path stat id set) := by
  refine .ite (.pure _) (.requires fun _ => .bind (scratch_keeps cfg) fun _ =>
    .bind ?_ fun _ => ?_)
  · cases set.mode with
    | some bits => exact .ite (.pure _) (sameCall_keeps (chmod_same path bits))
    | none => exact .pure _
  · cases hsize : set.size with
    | none => exact .pure _
    | some size =>
      refine .requires fun _ w hw => Ends.read (Q := fun _ w' => Counted free limit w') ?_
      cases hopen : id.bind (w.scratchHandles[·]?) with
      | none => exact setScratchLen_keeps hos hlimit path (hset size hsize) w hw
      | some h =>
        refine Ends.require (fun _ => hw) fun _ => ?_
        obtain ⟨id, -, hget⟩ := Option.bind_eq_some_iff.mp hopen
        refine setLen_sound hos hlimit hw (fun i hi => hw.linked i ?_) (hset size hsize)
        refine mem_openInos.mpr ⟨id, ?_⟩
        rw [scratchFile, hget]
        exact congrArg some hi

theorem Counted.at {path : Path} (hw : Counted (fun _ => False) limit w) (hopen : ¬ w.OpenAt path) :
    Counted (Eq path) limit w :=
  ⟨hw.names, hw.single, hw.bound, hw.linked, fun _ i hp hmem hi => hopen ⟨i, hi, hp ▸ hmem⟩,
    hw.counted, hw.sameLimit, hw.within⟩

theorem Counted.forget (hw : Counted free limit w) : Counted (fun _ => False) limit w :=
  Scratch.Sound.forget hw

theorem unlinkCall_keeps (hos : os.Steady) {path : Path} (hfree : free path) :
    Moves (Keeps free limit) (scratchCall (Scratch.unlink os path) :
        Fs H Rows (scratchHost os Rules compileRules matched) Unit) :=
  scratchCall_keeps fun _ _ h => unlink_sound hos h hfree

theorem scratchContent_keeps (src : Path) (kind : Kind) : Moves (Keeps free limit)
    (scratchContent src kind : Fs H Rows (scratchHost os Rules compileRules matched) _) :=
  .ite (.map (sameCall_keeps (readlink_same src)))
    (.bind (fun _ hw => (ends_scratchOpen hw src oRdonly 0).1) fun _ =>
      .bind (sameCall_keeps (statFile_same _)) fun _ =>
        .map (sameCall_keeps (readExactAt_same _ _ _)))

variable {dst : Path}

theorem copyToScratch_keeps (hos : os.Steady) (hlimit : limit < u64Max) (hfree : free dst)
    (bytes : Bytes) (mode : Mode) : Moves (Keeps free limit)
      (copyToScratch dst bytes mode :
        Fs H Rows (scratchHost os Rules compileRules matched) Unit) := by
  refine .ite (sameCall_keeps (symlink_same bytes dst)) fun w hw => ?_
  refine Ends.bind (Q := fun _ w' => Counted free limit w') (ends_scratchOpen hw dst _ _)
    (fun e w' h => h.1) fun file w' ⟨h, hlinked⟩ => ?_
  refine Ends.bind (R := fun _ w' => Counted free limit w') (write_sound hos hlimit h
    (fun i hi => hlinked i (congrArg Except.ok hi)) fun _ _ _ => Nat.zero_le _)
    (fun e w' h => h) fun r w'' hw'' => ?_
  cases r with
  | ok _ => exact hw''
  | error e => exact (Moves.attempt (unlinkCall_keeps hos hfree)).bind (fun _ => .fail e) w'' hw''

variable {src : Path}

theorem renameInScratch_counted (hos : os.Steady) (hne : src ≠ dst)
    (hfree : free dst) (kind : Kind) (hw : Counted free limit w) :
    Counted (fun _ => False) limit (renameInScratch cfg src dst kind w).2 := by
  refine Ends.require (Q := fun _ w' => Counted (fun _ => False) limit w')
    (fun _ => hw.forget) fun _ => ?_
  exact Ends.bind (R := fun _ w' => Counted free limit w') (scratch_keeps cfg w hw)
    (fun e w' h => h.forget) fun _ w' h => rename_sound hos h hne hfree

theorem moveScratch_counted (hos : os.Steady) (hne : src ≠ dst) (hfree : free dst)
    (hw : Counted free limit w) : Counted (fun _ => False) limit (moveScratch src dst w).2 := by
  refine Ends.read (Q := fun _ w' => Counted (fun _ => False) limit w') ?_
  refine Ends.ite (fun _ => ?_) fun _ => hw.forget
  refine Ends.bind (R := fun _ w' => Counted free limit w')
    (sameCall_keeps (stat_same src) w hw) (fun e w' h => h.forget) fun r w' h => ?_
  rcases r with e | _ | stat
  · exact h.forget
  · exact h.forget
  · exact Ends.bind (R := fun _ w' => Counted (fun _ => False) limit w')
      (rename_sound hos h hne hfree) (fun e w' h => h) fun _ w' h => h

theorem dropScratchDir_keeps (path : Path) : Moves (Keeps free limit)
    (dropScratchDir path : Fs H Rows (scratchHost os Rules compileRules matched) Unit) := by
  refine .reads fun _ => .ite ?_ (.pure _)
  refine .bind (.attempt (sameCall_keeps (stat_same path))) fun r => ?_
  rcases r with e | _ | stat
  · exact .pure _
  · exact .pure _
  · exact .map (.attempt (sameCall_keeps (rmdir_same path)))

theorem release_counted (id : Nat) (hw : Counted (fun _ => False) limit w) :
    Counted (fun _ => False) limit (release id w).2 := by
  refine ⟨hw.names, hw.single, hw.bound, fun i hi => hw.linked i ?_, fun _ _ hp => hp.elim,
    hw.counted, hw.sameLimit, hw.within⟩
  obtain ⟨id', hid'⟩ := mem_openInos.mp hi
  refine mem_openInos.mpr ⟨id', ?_⟩
  have herase : ((w.scratchHandles.erase id)[id']?).map (·.file) = some (some i) := hid'
  rw [Table.get_erase] at herase
  by_cases heq : id = id'
  · rw [if_pos heq] at herase
    simp at herase
  · rw [if_neg heq] at herase
    exact herase

variable [DecidableEq H] [DecidableEq Lang]

theorem leaveStore_keeps (hos : os.Steady) (src : Path)
    (hfree : free dst) (base : Base H) :
    Moves (Keeps free limit) (leaveStore cfg src dst base) := by
  have hgone : Moves (Keeps free limit) (do forgetPending src; touch cfg src) :=
    .bind (keeps_of_aside (forgetPending_aside src)) fun _ => keeps_of_aside (touch_moves cfg src)
  cases base with
  | blob blob =>
    refine .bind (.attempt (keeps_of_aside (propose_moves cfg _))) fun r => ?_
    cases r with
    | ok _ => exact .pure _
    | error e => exact .bind (.attempt (unlinkCall_keeps hos hfree)) fun _ => .fail e
  | _ => exact hgone

theorem renameIntoScratch_keeps (hos : os.Steady) (hlimit : limit < u64Max) (src : Path)
    (hfree : free dst) (target : Option Kind) :
    Moves (Keeps free limit) (renameIntoScratch cfg src dst target) :=
  .requires fun _ => .requires fun _ => .reads fun _ =>
    .bind (.ofOption _ _) fun _ => .bind (keeps_of_aside (movedMode_moves cfg src)) fun _ =>
      .bind (scratch_keeps cfg) fun _ => .bind (.onlyIf (unlinkCall_keeps hos hfree)) fun _ =>
        .bind (copyToScratch_keeps hos hlimit hfree _ _) fun _ =>
          leaveStore_keeps cfg hos src hfree _

theorem renameOutOfScratch_keeps (hos : os.Steady) (dst : Path)
    (hfree : free src) (kind : Kind) (target : Option Kind) :
    Moves (Keeps free limit) (renameOutOfScratch cfg src dst kind target) :=
  .requires fun _ => .requires fun _ => .bind (scratch_keeps cfg) fun _ =>
    .bind (scratchContent_keeps src kind) fun _ =>
      .bind (keeps_of_aside (targetBase_moves dst)) fun _ =>
      .bind (keeps_of_aside (propose_moves cfg _)) fun _ =>
        .bind (keeps_of_aside (forgetPending_aside dst)) fun _ => unlinkCall_keeps hos hfree

theorem scratchStep_counted (hos : os.Steady) (hlimit : limit < u64Max)
    (e : ScratchEvent H Rows (scratchHost os Rules compileRules matched))
    (hgentle : ∀ r, e = .request r → Gentle w r) (hw : Counted (fun _ => False) limit w) :
    Counted (fun _ => False) limit (scratchStep cfg w e) := by
  cases e with
  | elsewhere f h => exact (h w).counted hw
  | request r =>
    have hr : Gentle w r := hgentle r rfl
    cases r with
    | create path flags =>
      exact Moves.bind (openScratch_keeps cfg hos hlimit path flags true) (fun _ => .pure _) w hw
    | openFile path flags =>
      exact Moves.bind (openScratch_keeps cfg hos hlimit path flags false) (fun _ => .pure _) w hw
    | write id offset data =>
      refine Ends.read (Q := fun _ w' => Counted (fun _ => False) limit w') ?_
      cases hget : w.scratchHandles[id]? with
      | none => exact hw
      | some h =>
        exact Ends.bind (R := fun _ w' => Counted (fun _ => False) limit w')
          (writeScratch_keeps cfg hos hlimit hget hr hw) (fun e w' h => h) fun _ w' h => h
    | setattr path stat id set => exact setattrScratch_keeps cfg hos hlimit path stat id set hr w hw
    | mkdir path =>
      exact Moves.bind (scratch_keeps cfg) (fun _ => sameCall_keeps (mkdir_same path)) w hw
    | symlink target path =>
      exact Moves.bind (scratch_keeps cfg) (fun _ => sameCall_keeps (symlink_same target path)) w hw
    | unlink path =>
      exact (Moves.bind (scratch_keeps cfg) (fun _ => unlinkCall_keeps hos rfl) w (hw.at hr)).forget
    | rmdir path =>
      exact Moves.bind (scratch_keeps cfg) (fun _ => sameCall_keeps (rmdir_same path)) w hw
    | renameWithin src dst kind =>
      exact Ends.ite (Q := fun _ w' => Counted (fun _ => False) limit w')
        (fun hne => renameInScratch_counted cfg hos hne rfl kind (hw.at hr)) fun _ => hw
    | renameOut src dst kind target =>
      exact (Moves.onlyIf (renameOutOfScratch_keeps cfg hos dst rfl kind target) w
        (hw.at hr)).forget
    | renameInto src dst target =>
      exact (Moves.onlyIf (renameIntoScratch_keeps cfg hos hlimit src rfl target) w
        (hw.at hr)).forget
    | renameBeside src dst =>
      exact Ends.ite (Q := fun _ w' => Counted (fun _ => False) limit w')
        (fun hne => moveScratch_counted hos hne rfl (hw.at hr)) fun _ => hw
    | rmdirBeside path => exact dropScratchDir_keeps path w hw
    | release id => exact release_counted id hw

def GentleRun :
    ScratchWorld H Rows os Rules compileRules matched →
      List (ScratchEvent H Rows (scratchHost os Rules compileRules matched)) → Prop
  | _, [] => True
  | w, e :: es => (∀ r, e = .request r → Gentle w r) ∧ GentleRun (scratchStep cfg w e) es

theorem scratchRun_counted (hos : os.Steady) (hlimit : limit < u64Max)
    (events : List (ScratchEvent H Rows (scratchHost os Rules compileRules matched)))
    (hgentle : GentleRun cfg w events) (hw : Counted (fun _ => False) limit w) :
    Counted (fun _ => False) limit (scratchRun cfg w events) := by
  induction events generalizing w with
  | nil => exact hw
  | cons e es ih => exact ih hgentle.2 (scratchStep_counted cfg hos hlimit e hgentle.1 hw)

end Keeps

/-! ## The limit -/

def World.NoneOpen {P : Platform} (w : World H Rows P) : Prop := w.scratchHandles = ∅

theorem counted_initial (limit : Nat) (db : Db H Rows) : Counted (fun _ => False) limit
      (initial db (fresh limit) : ScratchWorld H Rows os Rules compileRules matched) :=
  sound_fresh fun i hi => absurd hi (by simp [openInos, initial])

theorem Counted.heldBytes_eq {free : Path → Prop} {limit : Nat}
    {w : ScratchWorld H Rows os Rules compileRules matched} (hw : Counted free limit w) :
    w.heldBytes = w.scratchDir.linkedBytes := by
  have hsame : (w.scratchDir.inos ++ w.openInos).toFinset = w.scratchDir.inos.toFinset := by
    ext i
    simp only [List.mem_toFinset, List.mem_append]
    exact or_iff_left_of_imp (hw.linked i)
  rw [heldBytes, hsame, List.sum_toFinset _ hw.single, linkedBytes]

section Limit

variable [DecidableEq H] [DecidableEq Lang]

/-- On a host whose calls keep their word, a run that takes no file from its name while a
handle holds it stays within scratch's limit, with the counter in step. -/
theorem scratch_within_limit (hos : os.Steady) {limit : Nat} (hlimit : limit < u64Max)
    (cfg : Config H Lang Rows (scratchHost os Rules compileRules matched)) (db : Db H Rows)
    (events : List (ScratchEvent H Rows (scratchHost os Rules compileRules matched)))
    (hgentle : GentleRun cfg (World.initial db (Scratch.fresh limit)) events) :
    (scratchRun cfg (World.initial db (Scratch.fresh limit)) events).heldBytes ≤ limit ∧
      ((scratchRun cfg (World.initial db (Scratch.fresh limit)) events).NoneOpen →
        (scratchRun cfg (World.initial db (Scratch.fresh limit)) events).scratchDir.used =
          (scratchRun cfg (World.initial db (Scratch.fresh limit))
            events).scratchDir.linkedBytes) := by
  have hcounted := scratchRun_counted cfg hos hlimit events hgentle (counted_initial limit db)
  refine ⟨?_, fun _ => hcounted.counted⟩
  rw [hcounted.heldBytes_eq, ← hcounted.counted]
  exact hcounted.within

def quietOs : Os where
  fault _ := none
  fstatat _ := none
  pwrite _ _ _ _ := none
  ftruncate _ _ _ := none
  mtime _ := 0

theorem quietOs_steady : quietOs.Steady := ⟨fun _ => rfl, nofun, fun _ _ _ _ => rfl⟩

abbrev quietHost : Platform := scratchHost quietOs Unit (fun _ => none) fun _ _ _ => .none

def scratchConfig : Config Bytes Unit Unit quietHost where
  env := storeEnv (oneFile [] [])
  surroundings _ := (0, fun _ => oneFile [] [])
  clock n := ⟨n, n⟩
  origin := 0
  scope := ⟨.whole, .whole⟩
  freshness := ⟨60, 1, 60⟩
  derived := true
  checkout := none
  changedLines _ _ := []

def refill : List (ScratchEvent Bytes Unit quietHost) :=
  [.request (.create ['a'] oRdwr), .request (.write 1 0 [1, 2, 3, 4]), .request (.release 1),
    .request (.unlink ['a']), .request (.create ['b'] oRdwr), .request (.write 2 0 [1, 2, 3, 4])]

theorem refill_gentle : GentleRun scratchConfig (initial smallDb (fresh 4)) refill := by
  have hclosed : (scratchRun scratchConfig (initial smallDb (fresh 4))
      (refill.take 3)).openInos = [] := by decide +kernel
  refine ⟨?_, ?_, ?_, ?_, ?_, ?_, trivial⟩ <;> rintro r ⟨⟩
  · trivial
  · exact nofun
  · trivial
  · rintro ⟨i, hi, -⟩
    exact List.not_mem_nil (hclosed ▸ hi)
  · trivial
  · exact nofun

theorem scratch_within_limit_refill :
    (scratchRun scratchConfig (World.initial smallDb (Scratch.fresh 4)) refill).heldBytes ≤ 4 :=
  (scratch_within_limit quietOs_steady (by decide) scratchConfig smallDb refill refill_gentle).1

/-! A file unlinked while it is open is counted no more, though its bytes are held; and
bytes written to it then are counted for good. -/

/-- Fill a file, take its name away while it is open, and fill another. -/
def overfill : List (ScratchEvent Bytes Unit quietHost) :=
  [.request (.create ['a'] oRdwr), .request (.write 1 0 [1, 2, 3, 4]), .request (.unlink ['a']),
    .request (.create ['b'] oRdwr), .request (.write 2 0 [1, 2, 3, 4])]

def leak : List (ScratchEvent Bytes Unit quietHost) :=
  [.request (.create ['a'] oRdwr), .request (.unlink ['a']), .request (.write 1 0 [1]),
    .request (.release 1)]

theorem scratch_exceeds_limit :
    4 < (scratchRun scratchConfig (World.initial smallDb (Scratch.fresh 4)) overfill).heldBytes ∧
      (scratchRun scratchConfig (World.initial smallDb (Scratch.fresh 4)) leak).NoneOpen ∧
      (scratchRun scratchConfig (World.initial smallDb (Scratch.fresh 4)) leak).scratchDir.used ≠
        (scratchRun scratchConfig (World.initial smallDb (Scratch.fresh 4))
          leak).scratchDir.linkedBytes := by
  refine ⟨by decide +kernel, ?_, by decide +kernel⟩
  exact Std.ExtTreeMap.isEmpty_iff.mp (by decide +kernel)

end Limit

end LeyLine.StoreFs
