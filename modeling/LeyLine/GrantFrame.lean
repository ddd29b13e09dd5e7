import LeyLine.Writers

/-!
# What a grant confines

A grant is checked on the changes a proposal names (`granted`), while the tree it leaves also
follows from what those changes imply: a directory above a new entry appears, and a removed
directory can take what is below it. The structure check is what keeps the two together. A
removal only ever reaches entries the proposal removes by name, so an accepted proposal
touches no file outside its grant, and no directory but those above a granted path.
-/

namespace LeyLine

variable {H Lang Rows : Type} [DecidableEq H] [DecidableEq Lang]
  {env : Env H Lang Rows} {db db' : Db H Rows} {writes : List (Proposed H)} {ps : List Path}

omit [DecidableEq H] [DecidableEq Lang] in
theorem coversWrite_of_granted {grant : Grant} (h : granted grant writes = .ok ()) {w : Proposed H}
    (hw : w ∈ writes) : grant.coversWrite w = true := by
  obtain ⟨_, -, h⟩ := Except.bind_eq_ok_iff.mp h
  cases hfind : writes.find? fun w => !grant.coversWrite w with
  | some out =>
    rw [hfind] at h
    simp at h
  | none =>
    have hcovers := List.find?_eq_none.mp hfind w hw
    simpa using hcovers

def Change.Inside (ps : List Path) (p : Path) : Change → Prop
  | .write _ _ => p ∈ ps
  | .delete => p ∈ ps
  | .mkdir => ∃ q ∈ ps, Under p q
  | .rmdir => ∃ q ∈ ps, Under p q

omit [DecidableEq Lang] in
theorem Plannable.inside (h : Plannable env db.store writes)
    (hg : granted (.paths ps) writes = .ok ())
    {p : Path} {c : Change} (hc : changeAt env db.store writes p = some c) : c.Inside ps p := by
  obtain ⟨w, hw, rfl, rfl⟩ := (changeAt_eq_some h.nodup).mp hc
  have hcovers := coversWrite_of_granted hg hw
  rw [Grant.coversWrite] at hcovers
  rw [landed]
  cases hchange : w.change with
  | write bytes mode | delete => simpa [hchange, Change.Inside, Grant.covers] using hcovers
  | mkdir | rmdir => simpa [hchange, Change.Inside, Grant.coversDir] using hcovers

theorem lands_of_propose_paths {a : Accepted H}
    (h : propose env (.paths ps) writes db = .ok (a, db')) :
    Lands env writes db a db' ∧ ∀ p c, changeAt env db.store writes p = some c → c.Inside ps p := by
  have hl := propose_whole_iff.mp (propose_whole_of_ok h)
  obtain ⟨_, hg, -⟩ := Except.bind_eq_ok_iff.mp h
  exact ⟨hl, fun p c hc => hl.plannable.inside (Except.mapError_eq_ok_iff.mp hg) hc⟩

section Confined

variable {a : Accepted H} (hl : Lands env writes db a db') (hwf : db.store.manifest.WellFormed)
  (hin : ∀ p c, changeAt env db.store writes p = some c → c.Inside ps p)

include hl hwf

theorem Lands.entry_eq (p : Path) : db'.store.entry p =
    PathTree.applied '/' .dir (specEdits env db.store writes) db.store.manifest p :=
  congrFun (hl.manifest hwf) p

include hin

theorem Lands.file_kept {p : Path} (hp : p ∉ ps) {mode : Mode} {blob : H} :
    db.store.entry p = some (.file mode blob) ↔ db'.store.entry p = some (.file mode blob) := by
  rw [hl.entry_eq hwf]
  constructor
  · intro hfile
    have hnone : changeAt env db.store writes p = none := by
      by_contra hne
      obtain ⟨c, hc⟩ := Option.ne_none_iff_exists'.mp hne
      have hallowed := hl.plannable.allowed hc
      have hinside := hin p c hc
      rw [hfile] at hallowed
      cases c with
      | write bytes m | delete => exact hp hinside
      | mkdir => cases hallowed.1
      | rmdir => simp [Change.Allowed] at hallowed
    rw [PathTree.applied, PathTree.Edits.core_of_kept (by rw [specEdits, hnone, Option.map_none]),
      Store.manifest, hfile, Option.some_or]
  · intro hfile
    -- a file of the tree that is left is no directory made for what is below
    have hcore : (specEdits env db.store writes).core .dir db.store.manifest p =
        some (.file mode blob) := by
      rcases Option.or_eq_some_iff.mp hfile with hcore | ⟨-, hdir⟩
      · exact hcore
      · split at hdir
        · simp at hdir
        · simp at hdir
    rw [PathTree.Edits.core, specEdits] at hcore
    cases hc : changeAt env db.store writes p with
    | none => simpa [hc, Store.manifest] using hcore
    | some c =>
      have hinside := hin p c hc
      cases c with
      | write bytes m | delete => exact absurd hinside hp
      | mkdir | rmdir => simp [hc, Change.edit] at hcore

omit [DecidableEq Lang] hl hwf in
theorem granted_below_added {d q : Path} (hq : (specEdits env db.store writes).Adds q)
    (hd : Under d q) :
    ∃ p ∈ ps, Under d p := by
  have hedit : ∀ e, specEdits env db.store writes q = some e → ∃ c,
      changeAt env db.store writes q = some c ∧
      c.edit env.hash (db.store.entry q) = e := fun e he => Option.map_eq_some_iff.mp he
  rcases hq with hmk | ⟨n, hput⟩
  · obtain ⟨c, hc, he⟩ := hedit _ hmk
    have hinside := hin q c hc
    cases c with
    | mkdir =>
      obtain ⟨p, hp, hqp⟩ := hinside
      exact ⟨p, hp, hd.trans hqp⟩
    | write bytes m | delete | rmdir => simp [Change.edit] at he
  · obtain ⟨c, hc, he⟩ := hedit _ hput
    have hinside := hin q c hc
    cases c with
    | write bytes m => exact ⟨q, hinside, hd⟩
    | mkdir | delete | rmdir => simp [Change.edit] at he

theorem Lands.dir_gone {d : Path} (hold : db.store.entry d = some .dir)
    (hnew : db'.store.entry d ≠ some .dir) : ∃ p ∈ ps, Under d p := by
  rw [hl.entry_eq hwf, PathTree.applied, PathTree.Edits.core, specEdits] at hnew
  cases hc : changeAt env db.store writes d with
  | none =>
    rw [hc, Option.map_none] at hnew
    exact absurd (show (db.store.manifest d).or _ =
      _ by rw [Store.manifest, hold, Option.some_or]) hnew
  | some c =>
    have hallowed := hl.plannable.allowed hc
    have hinside := hin d c hc
    rw [hold] at hallowed
    cases c with
    | rmdir => exact hinside
    | write bytes m | delete | mkdir => simp [Change.Allowed] at hallowed

theorem Lands.dir_new {d : Path} (hold : db.store.entry d ≠ some .dir)
    (hnew : db'.store.entry d = some .dir) : ∃ p ∈ ps, Under d p := by
  rw [hl.entry_eq hwf, PathTree.applied] at hnew
  rcases Option.or_eq_some_iff.mp hnew with hcore | ⟨-, habove⟩
  · rw [PathTree.Edits.core, specEdits] at hcore
    cases hc : changeAt env db.store writes d with
    | none => exact absurd (by simpa [hc, Store.manifest] using hcore) hold
    | some c =>
      have hinside := hin d c hc
      cases c with
      | mkdir => exact hinside
      | write bytes m | delete | rmdir => simp [hc, Change.edit] at hcore
  · split_ifs at habove with hbelow
    obtain ⟨q, hadds, hdq⟩ := hbelow
    exact granted_below_added hin hadds hdq

end Confined

/-- **A grant confines what is accepted under it.** A file outside the grant is what it was, and
none appears there; a directory that appears or disappears lies above a granted path. -/
theorem grant_confines (env : Env H Lang Rows) (ps : List Path) (writes : List (Proposed H))
    (db db' : Db H Rows) (a : Accepted H) (hwf : db.store.manifest.WellFormed)
    (h : propose env (.paths ps) writes db = .ok (a, db')) : (∀ p, p ∉ ps → ∀ mode blob,
      db.store.entry p = some (.file mode blob) ↔ db'.store.entry p = some (.file mode blob)) ∧
    ∀ d, ¬ (db.store.entry d = some .dir ↔ db'.store.entry d = some .dir) →
      ∃ p ∈ ps, Under d p := by
  obtain ⟨hl, hin⟩ := lands_of_propose_paths h
  refine ⟨fun p hp mode blob => hl.file_kept hwf hin hp, fun d hd => ?_⟩
  by_cases hold : db.store.entry d = some .dir
  · exact hl.dir_gone hwf hin hold fun hnew => hd (iff_of_true hold hnew)
  · refine hl.dir_new hwf hin hold ?_
    by_contra hnew
    exact hd (iff_of_false hold hnew)

/-- A grant of `b/y` over the store that holds `a/x`: the create makes `b`, and `a/x` stays. -/
theorem grant_confines_smallDb : ∃ a db', propose (storeEnv (oneFile [] [])) (.paths ["b/y".toList])
        [⟨"b/y".toList, .absent, .write [2] none⟩] smallDb = .ok (a, db') ∧
      (smallDb.store.entry "a/x".toList = some (.file .regular [1]) ↔
        db'.store.entry "a/x".toList = some (.file .regular [1])) :=
  ⟨_, _, rfl, (grant_confines (storeEnv (oneFile [] [])) ["b/y".toList]
    [⟨"b/y".toList, .absent, .write [2] none⟩] smallDb _ _ smallDb_wellFormed rfl).1 "a/x".toList
    (by decide) .regular [1]⟩

end LeyLine
