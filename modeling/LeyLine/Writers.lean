import LeyLine.ProposeSpec
import LeyLine.Blobs

/-!
# What the writers of the tree do to it

A proposal that is accepted leaves the tree its edits ask for, in any order of its
changes, exactly when no entry stays below a directory it removes
(`submit_semantics`). The structure check sees to that, but for a directory whose
path holds U+0000: the query it asks finds nothing below one. A pass leaves a
tree under a condition on what it sees (`writer_wellFormed_iff`).
-/

namespace LeyLine

open Except (bind_eq_ok_iff mapError_eq_ok_iff)

variable {H Lang Rows : Type} [DecidableEq H] [DecidableEq Lang]
  {env : Env H Lang Rows} {db db' : Db H Rows} {writes writes' : List (Proposed H)}

section Small

omit [DecidableEq H]

theorem Store.wellFormed_of_rows {s : Store H}
    (h : ∀ p ∈ s.tree.keys, plainRelative p = true ∧ ∀ d ∈ parents p, s.entry d = some .dir) :
    s.manifest.WellFormed := by
  have hkeys : ∀ p, s.manifest p ≠ none → p ∈ s.tree.keys := by
    intro p hp
    rw [Std.ExtTreeMap.mem_keys, Table.mem_iff]
    intro hnone
    exact hp (by rw [Store.manifest, Store.entry, hnone, Option.map_none])
  exact .of_parents (fun p hp => (h p (hkeys p hp)).1)
    fun d p hp hd => (h p (hkeys p hp)).2 d (SepPath.mem_parents.mpr hd)

/-- An environment whose addresses are the bytes themselves, that parses nothing
and finds `dir` at every root. -/
def storeEnv (dir : Directory) : Env Bytes Unit Unit where
  hash := id
  merge := fun _ _ _ => .binary
  frontend := ⟨fun _ => none, fun _ => none, fun _ _ _ _ => .error "no language"⟩
  versions := ⟨"", "", "", ""⟩
  projectionSchemaVersion := ""
  now := 0
  fs := fun _ => dir

def oneFile (path : Path) (bytes : Bytes) : Directory where
  isDir := true
  symlinkMetadata := fun p => if p = path then .found ⟨.file, 0o644, 0, bytes.length⟩ else .notFound
  read := fun p => if p = path then .ok bytes else .error "not found"
  readLink := fun _ => none
  walkTree := none

/-- A store that holds the file `a/x`. -/
def smallDb : Db Bytes Unit :=
  { Db.empty with
    store := ⟨((∅ : Std.ExtTreeMap Path (TreeRow Bytes)).insert "a".toList ⟨.dir, none⟩).insert
      "a/x".toList ⟨.file .regular [1], none⟩, fun h => if h = [1] then some [1] else none, ∅⟩
    stamps := { sourceRoot := some "/r".toList } }

theorem smallDb_wellFormed : smallDb.store.manifest.WellFormed :=
  Store.wellFormed_of_rows (by decide)

/-- A directory with U+0000 in its name. -/
def nulDir : Path := ['a', nul, 'b']

/-- A store that holds the file `x` in `nulDir`. -/
def nulDb : Db Bytes Unit :=
  { smallDb with
    store := ⟨((∅ : Std.ExtTreeMap Path (TreeRow Bytes)).insert nulDir ⟨.dir, none⟩).insert
      (nulDir ++ ['/', 'x']) ⟨.file .regular [1], none⟩, smallDb.store.blobs, ∅⟩ }

theorem nulDb_wellFormed : nulDb.store.manifest.WellFormed := Store.wellFormed_of_rows (by decide)

end Small

/-! ## When a proposal is accepted -/

section Root

omit [DecidableEq H] [DecidableEq Lang]

theorem rootStep_comm {r r₁ r₂ : Option Path} {x y : Plan H} (hx : rootStep db r x = .ok r₁)
    (hy : rootStep db r₁ y = .ok r₂) :
    ∃ r₁', rootStep db r y = .ok r₁' ∧ rootStep db r₁' x = .ok r₂ := by
  simp only [rootStep, bind_eq_ok_iff] at hx hy ⊢
  obtain ⟨a, ha, hx⟩ := hx
  obtain ⟨b, hb, hy⟩ := hy
  simp only [ha, hb, Except.ok.injEq, exists_eq_left']
  grind

theorem proposalRoot_perm {plans plans' : List (Plan H)} (hp : plans.Perm plans') {root : Path}
    (h : proposalRoot db plans = .ok root) : proposalRoot db plans' = .ok root := by
  obtain ⟨r, hr, h⟩ := bind_eq_ok_iff.mp h
  refine bind_eq_ok_iff.mpr ⟨r, ?_, ?_⟩
  · have hrun := Steps.foldlM_iff.mp hr
    exact Steps.foldlM_iff.mpr (hrun.perm (fun _ _ _ _ _ => rootStep_comm) hp)
  · cases r with
    | some r => exact h
    | none =>
      cases hs : db.stamps.sourceRoot with
      | none => simp [hs] at h
      | some r => simpa [hs] using h

end Root

/-- What an accepted proposal went through. -/
structure Lands (env : Env H Lang Rows) (writes : List (Proposed H)) (db : Db H Rows)
    (a : Accepted H) (db' : Db H Rows) : Prop where
  nonempty : writes ≠ []
  plannable : Plannable env db.store writes
  structured : Structured db.store (changeAt env db.store writes)
  pass : ∃ root, proposalRoot db (writes.map (planned env db.store)) = .ok root ∧
    parseWrittenFiles env root (writtenFiles (writes.map (planned env db.store)))
      (pathsOf (writes.map (planned env db.store)) .delete)
      ⟨writtenModes (writes.map (planned env db.store)),
        pathsOf (writes.map (planned env db.store)) .mkdir,
        pathsOf (writes.map (planned env db.store)) .rmdir⟩ db = .ok db'
  accepted : a = ⟨(writtenFiles (writes.map (planned env db.store))).map fun _ b => env.hash b,
    pathsOf (writes.map (planned env db.store)) .delete,
    Table.sortedSet ((writes.filter (landsMerged env db.store)).map (·.path)),
    pathsOf (writes.map (planned env db.store)) .mkdir,
    pathsOf (writes.map (planned env db.store)) .rmdir⟩

omit [DecidableEq H] [DecidableEq Lang] in
theorem granted_whole : granted .whole writes = .ok () ↔ writes ≠ [] := by
  have hcov : (writes.find? fun w => !Grant.whole.coversWrite w) = none := by
    rw [List.find?_eq_none]
    intro w _
    rw [Grant.coversWrite]
    cases w.change <;> simp [Grant.covers, Grant.coversDir]
  rw [granted, bind_eq_ok_iff]
  constructor
  · rintro ⟨_, hreq, -⟩
    simpa using Except.require_eq_ok_iff.mp hreq
  · intro hne
    exact ⟨(), Except.require_eq_ok_iff.mpr (by simpa using hne), by rw [hcov]⟩

theorem propose_whole_of_ok {grant : Grant} {x : Accepted H × Db H Rows}
    (h : propose env grant writes db = .ok x) : propose env .whole writes db = .ok x := by
  obtain ⟨_, hg, h⟩ := bind_eq_ok_iff.mp h
  refine bind_eq_ok_iff.mpr ⟨(), mapError_eq_ok_iff.mpr (granted_whole.mpr ?_), h⟩
  obtain ⟨_, hreq, -⟩ := bind_eq_ok_iff.mp (mapError_eq_ok_iff.mp hg)
  simpa using Except.require_eq_ok_iff.mp hreq

variable {a : Accepted H}

theorem propose_whole_iff : propose env .whole writes db = .ok (a, db') ↔
    Lands env writes db a db' := by
  rw [propose, bind_eq_ok_iff]
  simp only [mapError_eq_ok_iff]
  constructor
  · rintro ⟨_, hg, h⟩
    obtain ⟨x, hd, h⟩ := bind_eq_ok_iff.mp h
    obtain ⟨hplan, rfl⟩ := decide_eq_ok_iff.mp (mapError_eq_ok_iff.mp hd)
    obtain ⟨root, hroot, h⟩ := bind_eq_ok_iff.mp h
    obtain ⟨_, hstruct, h⟩ := bind_eq_ok_iff.mp h
    obtain ⟨db₁, hpass, h⟩ := bind_eq_ok_iff.mp h
    cases h
    exact ⟨granted_whole.mp hg, hplan,
      hplan.checkStructure_eq_ok.mp (mapError_eq_ok_iff.mp hstruct),
      ⟨root, hroot, mapError_eq_ok_iff.mp hpass⟩, rfl⟩
  · rintro ⟨hne, hplan, hstruct, ⟨root, hroot, hpass⟩, rfl⟩
    refine ⟨(), granted_whole.mpr hne, ?_⟩
    refine bind_eq_ok_iff.mpr ⟨_, mapError_eq_ok_iff.mpr (decide_eq_ok_iff.mpr ⟨hplan, rfl⟩), ?_⟩
    refine bind_eq_ok_iff.mpr ⟨root, hroot, bind_eq_ok_iff.mpr ⟨(), ?_, ?_⟩⟩
    · exact mapError_eq_ok_iff.mpr (hplan.checkStructure_eq_ok.mpr hstruct)
    · exact bind_eq_ok_iff.mpr ⟨db', mapError_eq_ok_iff.mpr hpass, rfl⟩

theorem Lands.perm (h : Lands env writes db a db') (hp : writes.Perm writes') :
    Lands env writes' db a db' := by
  have hplan := h.plannable
  have hplan' := hplan.perm hp
  have hchange := changeAt_perm env db.store hplan.nodup hp
  have hfiles : writtenFiles (writes.map (planned env db.store)) =
      writtenFiles (writes'.map (planned env db.store)) :=
    Std.ExtTreeMap.ext_getElem? fun p => by
      rw [hplan.writtenFiles_get, hplan'.writtenFiles_get, hchange]
  have hmodes : writtenModes (writes.map (planned env db.store)) =
      writtenModes (writes'.map (planned env db.store)) :=
    Std.ExtTreeMap.ext_getElem? fun p => by
      rw [hplan.writtenModes_get, hplan'.writtenModes_get, hchange]
  have hpaths : pathsOf (writes.map (planned env db.store)) =
      pathsOf (writes'.map (planned env db.store)) := by
    funext c
    exact Table.sortedSet_congr fun p => (((hp.map _).filter _).map _).mem_iff
  have hmerged : Table.sortedSet ((writes.filter (landsMerged env db.store)).map (·.path)) =
      Table.sortedSet ((writes'.filter (landsMerged env db.store)).map (·.path)) :=
    Table.sortedSet_congr fun p => ((hp.filter _).map _).mem_iff
  obtain ⟨root, hroot, hpass⟩ := h.pass
  refine ⟨fun hnil => h.nonempty (hnil ▸ hp).eq_nil, hplan', hchange ▸ h.structured,
    ⟨root, proposalRoot_perm (hp.map _) hroot, ?_⟩, ?_⟩
  · rw [← hfiles, ← hmodes, ← hpaths]
    exact hpass
  · rw [← hfiles, ← hpaths, ← hmerged]
    exact h.accepted

theorem Lands.stages (h : Lands env writes db a db') :
    ∃ (p : Pass) (c : PassStages env.hash env.frontend p db db'),
      p.reach c.walked = planReach (writes.map (planned env db.store)) ∧
        p.memory = some (planMemory (writes.map (planned env db.store))) := by
  obtain ⟨root, -, hpass⟩ := h.pass
  obtain ⟨c⟩ := stages_of_ok hpass
  refine ⟨_, c, ?_, rfl⟩
  have hwalked : c.walked = none := by
    have hfiles := c.files_eq
    rw [Pass.files, Except.ok.injEq, Prod.mk.injEq] at hfiles
    exact hfiles.2.symm
  rw [hwalked]
  rfl

/-- **The tree an accepted proposal leaves.** -/
theorem Lands.manifest (h : Lands env writes db a db') (hwf : db.store.manifest.WellFormed) :
    db'.store.manifest =
    PathTree.applied '/' .dir (specEdits env db.store writes) db.store.manifest := by
  obtain ⟨p, c, hreach, hmem⟩ := h.stages
  rw [c.manifest, hreach, hmem]
  exact h.plannable.passManifest_eq h.structured hwf p.dir

/-- Where an entry stays below a directory that a proposal removes, the proposal
writes a file below it, and so makes it again. -/
def LeavesTree (env : Env H Lang Rows) (s : Store H) (writes : List (Proposed H)) : Prop :=
  ∀ d q, changeAt env s writes d = some .rmdir → Under d q → s.entry q ≠ none →
    changeAt env s writes q = none →
    ∃ p bytes mode, changeAt env s writes p = some (.write bytes mode) ∧ Under d p

theorem Lands.leaves_iff (h : Lands env writes db a db') (hwf : db.store.manifest.WellFormed) :
    (specEdits env db.store writes).Leaves '/' db.store.manifest ↔
    LeavesTree env db.store writes := by
  constructor
  · intro hl d q hrm hu hq hkept
    obtain ⟨p, hadds, hdp⟩ :=
      hl d q (by rw [specEdits, hrm]; rfl) hu (by rw [specEdits, hkept]; rfl) hq
    cases hc : changeAt env db.store writes p with
    | none => simp [PathTree.Edits.Adds, specEdits, hc] at hadds
    | some c =>
      cases c with
      | write bytes mode => exact ⟨p, bytes, mode, hc, hdp⟩
      | mkdir =>
        exact absurd hdp (h.structured.added d p hrm (by simp [hc]) (h.plannable.allowed hc).1)
      | delete | rmdir => simp [PathTree.Edits.Adds, specEdits, hc, Change.edit] at hadds
  · intro hl d q hrm hu hkept hq
    obtain ⟨c, hc, hedit⟩ := Option.map_eq_some_iff.mp hrm
    have hallowed := h.plannable.allowed hc
    have hdir : db.store.entry d = some .dir := hwf.parents_dir d q hq hu
    cases c with
    | rmdir =>
      obtain ⟨p, bytes, mode, hp, hdp⟩ := hl d q hc hu hq (Option.map_eq_none_iff.mp hkept)
      exact ⟨p, .inr ⟨_, by rw [specEdits, hp]; rfl⟩, hdp⟩
    | delete => simp [Change.Allowed, hdir] at hallowed
    | write bytes mode | mkdir => simp [Change.edit] at hedit

/-- Only a directory whose path holds U+0000 can leave an entry behind. -/
theorem Lands.leavesTree (h : Lands env writes db a db')
    (hnul : ∀ d, changeAt env db.store writes d = some .rmdir → nul ∉ d) :
    LeavesTree env db.store writes := by
  intro d q hrm hu hq hkept
  obtain ⟨c, hc, -⟩ := h.structured.left d q hrm hq hu (hnul d hrm)
  cases hkept.symm.trans hc

theorem Lands.wellFormed_iff (h : Lands env writes db a db') (hwf : db.store.manifest.WellFormed) :
    db'.store.manifest.WellFormed ↔ LeavesTree env db.store writes := by
  rw [h.manifest hwf, Manifest.wellFormed_iff, ← h.leaves_iff hwf]
  exact PathTree.Edits.Fits.applied_wellFormed_iff (Manifest.wellFormed_iff.mp hwf)
    (h.plannable.fits h.structured) fun d p hu hp => plainRelative_of_under hu hp

theorem Lands.edited_iff (h : Lands env writes db a db') (hwf : db.store.manifest.WellFormed) :
    (db'.store.manifest =
      PathTree.edited '/' .dir (specEdits env db.store writes) db.store.manifest ∧
      db'.store.manifest.WellFormed) ↔ LeavesTree env db.store writes := by
  refine ⟨fun hboth => (h.wellFormed_iff hwf).mp hboth.2,
    fun hl => ⟨?_, (h.wellFormed_iff hwf).mpr hl⟩⟩
  rw [h.manifest hwf]
  exact PathTree.Edits.Fits.applied_eq_edited (Manifest.wellFormed_iff.mp hwf)
    (h.plannable.fits h.structured) ((h.leaves_iff hwf).mpr hl)

theorem Lands.stored (h : Lands env writes db a db') {p : Path} {bytes : Bytes}
    {mode : Option Mode} (hc : changeAt env db.store writes p = some (.write bytes mode)) :
    ∃ b, db'.store.blobBytes (env.hash bytes) = some b ∧
      (env.hash b = env.hash bytes ∨ db.store.blobBytes (env.hash bytes) = some b) := by
  obtain ⟨pass, c, hreach, hmem⟩ := h.stages
  obtain ⟨hgrow, hstored⟩ := c.growsTo
  have hseen := h.plannable.seenAt_eq pass.dir p
  rw [← hreach, ← hmem, hc, Option.map_some, Change.seen] at hseen
  obtain ⟨b, hb⟩ := Option.ne_none_iff_exists'.mp (hstored p bytes hseen)
  refine ⟨b, hb, ?_⟩
  rcases hgrow (env.hash bytes) with heq | ⟨-, b', hb', hhash⟩
  · exact .inr (heq.symm.trans hb)
  · obtain rfl : b' = b := Option.mem_unique hb' hb
    exact .inl hhash

omit [DecidableEq Lang] in
theorem changeAt_single (env : Env H Lang Rows) (s : Store H) (w : Proposed H) (p : Path) :
    changeAt env s [w] p = if w.path = p then some (landed env s w) else none := by
  rw [changeAt, List.find?_singleton]
  split <;> simp_all

/-- A proposal of one write leaves the file it writes, over any tree. -/
theorem Lands.entry_write {p : Path} {base : Base H} {bytes : Bytes} {mode : Option Mode}
    (h : Lands env [⟨p, base, .write bytes mode⟩] db a db') :
    db'.store.entry p =
    some (.file ((mode.or ((db.store.entry p).bind Entry.fileMode)).getD .regular)
      (env.hash (landing env db.store ⟨p, base, .write bytes mode⟩ bytes))) := by
  obtain ⟨pass, c, hreach, hmem⟩ := h.stages
  have hchange := changeAt_single env db.store ⟨p, base, .write bytes mode⟩
  -- nothing but the written path is seen
  have hseen : ∀ q x, seenAt pass.dir (pass.reach c.walked) pass.memory db.store q = some x →
      p = q ∧ ∃ b, x = .memory b := by
    intro q x hx
    rw [hreach, hmem, h.plannable.seenAt_eq, hchange] at hx
    split at hx
    · rename_i hpq
      exact ⟨hpq, _, (Option.some.inj hx).symm⟩
    · simp at hx
  refine (congrFun c.manifest p).trans (PathTree.passed_at_leaf ?_ fun r hr hu => ?_)
  · rw [hreach, hmem]
    refine h.plannable.treeLeaf_write pass.dir ((hchange p).trans (if_pos rfl)) ?_
    rw [← hreach, ← hmem]
    refine PathTree.swept_same (fun g hg => ?_) (fun d hd => ?_)
    · obtain ⟨-, b, hb⟩ := hseen g _ hg.1
      simp at hb
    · obtain ⟨-, b, hb⟩ := hseen d _ hd.1
      simp at hb
  · rw [treeLeaf, passLeaf] at hr
    cases hx : seenAt pass.dir (pass.reach c.walked) pass.memory db.store r with
    | none => simp [hx] at hr
    | some x => exact hu.ne (hseen r x hx).1

theorem Lands.blobs_get (h : Lands env writes db a db') (p : Path) : a.blobs[p]? =
      ((changeAt env db.store writes p).bind Change.bytes).map env.hash := by
  rw [h.accepted, Std.ExtTreeMap.getElem?_map, h.plannable.writtenFiles_get]

theorem Lands.growsTo (h : Lands env writes db a db') : db.store.GrowsTo env.hash db'.store := by
  obtain ⟨p, c, -, -⟩ := h.stages
  exact c.growsTo.1

/-! ## Submitting a proposal -/

/-- A proposal as its author sees it: an answer, and the store after it. A
proposal that does not land leaves the store as it was. -/
def submit (env : Env H Lang Rows) (grant : Grant) (writes : List (Proposed H))
    (db : Db H Rows) : Except (ProposeError H) (Accepted H) × Db H Rows :=
  match propose env grant writes db with
  | .ok (a, db') => (.ok a, db')
  | .error e => (.error e, db)

theorem submit_cases (env : Env H Lang Rows) (grant : Grant) (writes : List (Proposed H))
    (db : Db H Rows) : (∃ a db', propose env grant writes db = .ok (a, db') ∧
      submit env grant writes db = (.ok a, db')) ∨
    ∃ e, propose env grant writes db = .error e ∧ submit env grant writes db = (.error e, db) := by
  rw [submit]
  cases h : propose env grant writes db with
  | error e => exact .inr ⟨e, rfl, rfl⟩
  | ok x => exact .inl ⟨x.1, x.2, rfl, rfl⟩

theorem submit_eq_ok : (submit env .whole writes db).1 = .ok a ↔
      ∃ db', Lands env writes db a db' ∧ submit env .whole writes db = (.ok a, db') := by
  rcases submit_cases env .whole writes db with ⟨a', db', hp, hs⟩ | ⟨e, -, hs⟩
  · rw [hs]
    constructor
    · intro h
      cases h
      exact ⟨db', propose_whole_iff.mp hp, rfl⟩
    · rintro ⟨db₁, -, h⟩
      rw [(Prod.mk.inj h).1]
  · rw [hs]
    constructor
    · exact fun h => absurd h (by simp)
    · rintro ⟨db₁, -, h⟩
      exact absurd (Prod.mk.inj h).1 (by simp)

theorem submit_perm (hp : writes.Perm writes') (h : submit env .whole writes db = (.ok a, db')) :
    submit env .whole writes' db = (.ok a, db') := by
  obtain ⟨db₁, hl, hs⟩ := submit_eq_ok.mp (congrArg Prod.fst h)
  obtain rfl : db' = db₁ := (Prod.mk.inj (h.symm.trans hs)).2
  rw [submit, propose_whole_iff.mpr (hl.perm hp)]

/-- **Proposal semantics.** A proposal is refused and leaves the store as it was,
or it is accepted: every written file's bytes are then stored, and the tree is the
edited one and well formed exactly when no entry stays below a directory that is
removed. A reordered proposal gets the same answer, up to why it is refused, and
leaves the same store. -/
theorem submit_semantics (env : Env H Lang Rows) (db : Db H Rows) (writes : List (Proposed H))
    (hwf : db.store.manifest.WellFormed) :
    ((∃ e, (submit env .whole writes db).1 = .error e) ∧ (submit env .whole writes db).2 = db ∨
      (∃ a, (submit env .whole writes db).1 = .ok a) ∧
        ((submit env .whole writes db).2.store.manifest =
            PathTree.edited '/' .dir (specEdits env db.store writes) db.store.manifest ∧
          (submit env .whole writes db).2.store.manifest.WellFormed ↔
          LeavesTree env db.store writes) ∧
        ∀ p bytes mode, changeAt env db.store writes p = some (.write bytes mode) →
          ∃ b, (submit env .whole writes db).2.store.blobBytes (env.hash bytes) = some b ∧
            (env.hash b = env.hash bytes ∨ db.store.blobBytes (env.hash bytes) = some b)) ∧
    ∀ writes', writes.Perm writes' →
      (∀ a, (submit env .whole writes' db).1 = .ok a ↔ (submit env .whole writes db).1 = .ok a) ∧
      (submit env .whole writes' db).2 = (submit env .whole writes db).2 := by
  rcases submit_cases env .whole writes db with ⟨a, db', hp, hs⟩ | ⟨e, hp, hs⟩
  · have hl := propose_whole_iff.mp hp
    rw [hs]
    refine ⟨.inr ⟨⟨a, rfl⟩, hl.edited_iff hwf, fun p bytes mode hc => hl.stored hc⟩,
      fun writes' hperm => ?_⟩
    rw [submit_perm hperm hs]
    exact ⟨fun _ => Iff.rfl, rfl⟩
  · rw [hs]
    refine ⟨.inl ⟨⟨e, rfl⟩, rfl⟩, fun writes' hperm => ?_⟩
    -- a reordering that were accepted would make the proposal itself accepted
    rcases submit_cases env .whole writes' db with ⟨a', db', -, hs'⟩ | ⟨e', -, hs'⟩
    · have := submit_perm hperm.symm hs'
      rw [hs] at this
      exact absurd (Prod.mk.inj this).1 (by simp)
    · rw [hs']
      exact ⟨fun a => by simp, rfl⟩

/-- Replacing `a/x` and making `b` in one proposal, in either order. -/
theorem submit_semantics_smallDb : (submit (storeEnv (oneFile [] [])) .whole
        [⟨"b".toList, .absent, .mkdir⟩, ⟨"a/x".toList, .blob [1], .write [2] none⟩] smallDb).2 =
      (submit (storeEnv (oneFile [] [])) .whole
        [⟨"a/x".toList, .blob [1], .write [2] none⟩, ⟨"b".toList, .absent, .mkdir⟩] smallDb).2 ∧
    ∃ a, (submit (storeEnv (oneFile [] [])) .whole
      [⟨"a/x".toList, .blob [1], .write [2] none⟩, ⟨"b".toList, .absent, .mkdir⟩] smallDb).1 =
      .ok a :=
  ⟨((submit_semantics (storeEnv (oneFile [] [])) smallDb
      [⟨"a/x".toList, .blob [1], .write [2] none⟩, ⟨"b".toList, .absent, .mkdir⟩]
      smallDb_wellFormed).2 _ (List.Perm.swap _ _ [])).2, ⟨_, rfl⟩⟩

/-- Removing `nulDir` alone is accepted, although it holds a file: the file stays,
with nothing above it. -/
theorem rmdir_leaves_file : nulDb.store.manifest.WellFormed ∧
    ∃ a db', submit (storeEnv (oneFile [] [])) .whole [⟨nulDir, .any, .rmdir⟩] nulDb =
        (.ok a, db') ∧
      db'.store.entry nulDir = none ∧ db'.store.entry (nulDir ++ ['/', 'x']) ≠ none ∧
      ¬ db'.store.manifest.WellFormed ∧ db'.store.manifest ≠ PathTree.edited '/' .dir
        (specEdits (storeEnv (oneFile [] [])) nulDb.store [⟨nulDir, .any, .rmdir⟩])
        nulDb.store.manifest := by
  have hgone : ∃ a db', submit (storeEnv (oneFile [] [])) .whole [⟨nulDir, .any, .rmdir⟩] nulDb =
        (.ok a, db') ∧
      db'.store.entry nulDir = none ∧ db'.store.entry (nulDir ++ ['/', 'x']) ≠ none :=
    ⟨_, _, rfl, by decide, by decide⟩
  obtain ⟨a, db', hs, hdir, hfile⟩ := hgone
  refine ⟨nulDb_wellFormed, a, db', hs, hdir, hfile, fun hwf => ?_, fun heq => ?_⟩
  · have := hwf.parents_dir nulDir _ hfile (SepPath.under_append nulDir ['x'])
    simp [Store.manifest, hdir] at this
  · have hat := congrFun heq nulDir
    rw [PathTree.edited,
      if_pos ⟨nulDir ++ ['/', 'x'], by decide, SepPath.under_append nulDir ['x']⟩] at hat
    simp [Store.manifest, hdir] at hat

/-! ## Any writer -/

/-- What writes the manifest: a proposal, or a pass over any list of paths, any
directory and any memory. -/
inductive TreeWriter (H : Type) where
  | proposal (grant : Grant) (writes : List (Proposed H))
  | pass (p : Pass)

def TreeWriter.run (env : Env H Lang Rows) (db : Db H Rows) :
    TreeWriter H → Except (ProposeError H) (Db H Rows)
  | .proposal grant writes => (propose env grant writes db).map Prod.snd
  | .pass p => (parseIntoConnWith env.hash env.frontend p db).mapError .pass

def Pass.follows (p : Pass) : Reach :=
  p.reach (match p.files with
    | .ok (_, walked) => walked
    | .error _ => none)

/-- When a pass leaves a tree: what it records lies at plain paths; below a file it
stores, with none stored below that, it makes no directory and drops every entry;
and a path it drops while an entry stays below is made a directory again. -/
structure Pass.KeepsTree (σ : Bytes → H) (p : Pass) (s : Store H) : Prop where
  plain_file : ∀ r, treeLeaf σ p.dir p.follows p.memory s r ≠ none → plainRelative r = true
  plain_dir : ∀ d ∈ passDirs p.dir p.follows p.memory s, plainRelative d = true
  clear : ∀ r, treeLeaf σ p.dir p.follows p.memory s r ≠ none →
    (∀ r', treeLeaf σ p.dir p.follows p.memory s r' ≠ none → ¬ Under r r') →
      (∀ d ∈ passDirs p.dir p.follows p.memory s, ¬ Under r d) ∧
        ∀ q, s.entry q ≠ none → Under r q → ∃ g ∈ passGone p.dir p.follows p.memory s,
          PathTree.Drops '/' Sweeps g q
  made_again : ∀ g ∈ passGone p.dir p.follows p.memory s, ∀ q, s.entry q ≠ none → Under g q →
    (∀ g' ∈ passGone p.dir p.follows p.memory s, ¬ PathTree.Drops '/' Sweeps g' q) →
      (∃ d ∈ passDirs p.dir p.follows p.memory s, AtOrUnder g d) ∨
        ∃ r, treeLeaf σ p.dir p.follows p.memory s r ≠ none ∧ Under g r

def TreeWriter.KeepsTree (env : Env H Lang Rows) (s : Store H) : TreeWriter H → Prop
  | .proposal _ writes => LeavesTree env s writes
  | .pass p => p.KeepsTree env.hash s

omit [DecidableEq H] in
theorem treeLeaf_ne_dir {σ : Bytes → H} {dir : Directory} {reach : Reach} {memory : Option InMemory}
    {s : Store H} {r : Path} : treeLeaf σ dir reach memory s r ≠ some .dir := by
  rw [treeLeaf, passLeaf]
  cases seenAt dir reach memory s r with
  | none => simp
  | some x =>
    rw [Option.bind_some]
    generalize filePut _ _ _ _ _ _ _ x = f
    rcases f with e | _ | f <;> simp [putEntry]

/-- **A writer leaves a tree exactly under its condition.** -/
theorem writer_wellFormed_iff (env : Env H Lang Rows) (w : TreeWriter H) (db db' : Db H Rows)
    (hwf : db.store.manifest.WellFormed) (h : w.run env db = .ok db') :
    db'.store.manifest.WellFormed ↔ w.KeepsTree env db.store := by
  cases w with
  | proposal grant writes =>
    cases hp : propose env grant writes db with
    | error e => simp [TreeWriter.run, hp, Except.map] at h
    | ok x =>
      obtain rfl : x.2 = db' := by simpa [TreeWriter.run, hp, Except.map] using h
      exact (propose_whole_iff.mp (propose_whole_of_ok hp)).wellFormed_iff hwf
  | pass p =>
    obtain ⟨c⟩ := stages_of_ok (mapError_eq_ok_iff.mp h)
    have hreach : p.reach c.walked = p.follows := by rw [Pass.follows, c.files_eq]
    rw [c.manifest, hreach, Manifest.wellFormed_iff, passManifest,
      PathTree.passed_wellFormed_iff (fun d p hu hp => plainRelative_of_under hu hp)
        (Manifest.wellFormed_iff.mp hwf) (fun _ => treeLeaf_ne_dir)]
    exact ⟨fun h => ⟨h.1, h.2.1, h.2.2.1, h.2.2.2⟩,
      fun h => ⟨h.plain_file, h.plain_dir, h.clear, h.made_again⟩⟩

def scopedPass (dir : Directory) (paths : List Path) : Pass where
  versions := ⟨"", "", "", ""⟩
  projectionSchemaVersion := ""
  now := 0
  source := "/r".toList
  langFilter := none
  scope := some paths
  memory := none
  dir := dir

theorem writer_wellFormed_iff_smallDb :
    ∃ db', (TreeWriter.pass (scopedPass (oneFile "b".toList [2]) ["b".toList])).run
        (storeEnv (oneFile [] [])) smallDb = .ok db' ∧ (db'.store.manifest.WellFormed ↔
        (scopedPass (oneFile "b".toList [2]) ["b".toList]).KeepsTree id smallDb.store) :=
  ⟨_, rfl, writer_wellFormed_iff (storeEnv (oneFile [] []))
    (.pass (scopedPass (oneFile "b".toList [2]) ["b".toList])) smallDb _ smallDb_wellFormed rfl⟩

/-- A scoped pass over the one path `a`, where a file has replaced the directory:
`a/x` stays, under a file. -/
theorem scoped_pass_leaves_file_over_entry : smallDb.store.manifest.WellFormed ∧
    ∃ db', (TreeWriter.pass (scopedPass (oneFile "a".toList [2]) ["a".toList])).run
        (storeEnv (oneFile [] [])) smallDb = .ok db' ∧ ¬ db'.store.manifest.WellFormed := by
  refine ⟨smallDb_wellFormed, _, rfl, fun hwf => ?_⟩
  have hdir := hwf.parents_dir "a".toList "a/x".toList (by decide) (by decide)
  cases hdir

end LeyLine
