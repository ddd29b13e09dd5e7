import LeyLine.Projection
import LeyLine.TreeSyncSpec

/-!
# The manifest after a pass

The parse loop adds blobs and rows and leaves the manifest alone; the blob it
reports for a projected file is the address of the bytes it read. So what `sync`
stores for a path does not depend on whether the parse projected it, and the
manifest after a pass is a function of the manifest before it, the directory and
the memory alone (`parse_manifest`).
-/

namespace LeyLine

variable {H Lang Rows : Type} [DecidableEq H] [DecidableEq Lang]
  {σ : Bytes → H} {fe : Frontend H Lang Rows} {p : Pass} {db db' : Db H Rows}

/-- What the parse loop keeps: the manifest's rows, and that a projected file's
blob is the address of the bytes the pass read for it. -/
structure ParseInv (σ : Bytes → H) (p : Pass) (tree : Std.ExtTreeMap Path (TreeRow H))
    (st : ParseState H Rows) : Prop where
  tree_eq : st.store.tree = tree
  projected : ∀ rel h e, st.out.projected[rel]? = some (h, e) →
    ∃ bytes, p.content rel = .ok bytes ∧ h = σ bytes

omit [DecidableEq H] [DecidableEq Lang] in
theorem parseFilePure_content {f : FileToParse Lang} {bytes : Bytes} {pf : ParsedFile H Rows}
    (h : parseFilePure fe p f = .ok (bytes, pf)) : p.content f.rel = .ok bytes := by
  rw [parseFilePure] at h
  cases hc : p.content f.rel with
  | error e => simp [hc] at h
  | ok content =>
    simp only [hc] at h
    split at h
    · simp at h
    · cases hp : fe.parse p.versions f.lang f.rel content with
      | error e => simp [hp, Except.map] at h
      | ok pf' =>
        simp only [hp, Except.map, Except.ok.injEq, Prod.mk.injEq] at h
        rw [h.1]

omit [DecidableEq Lang] in
theorem ParseInv.step {tree : Std.ExtTreeMap Path (TreeRow H)} {st st' : ParseState H Rows}
    {f : FileToParse Lang} (hs : parseStep σ fe p st f = .ok st')
    (hinv : ParseInv σ p tree st) : ParseInv σ p tree st' := by
  rw [parseStep] at hs
  cases hp : parseFilePure fe p f with
  | error msg =>
    simp only [hp, Except.ok.injEq] at hs
    subst hs
    exact ⟨hinv.tree_eq, hinv.projected⟩
  | ok x =>
    obtain ⟨bytes, pf⟩ := x
    simp only [hp] at hs
    obtain ⟨ins, -, hs⟩ := Except.bind_eq_ok_iff.mp hs
    cases hs
    refine ⟨hinv.tree_eq, fun rel h e hrel => ?_⟩
    rw [Table.get_insert] at hrel
    split at hrel
    · rename_i heq
      subst heq
      simp only [Option.some.injEq, Prod.mk.injEq] at hrel
      exact ⟨bytes, parseFilePure_content hp, hrel.1.symm⟩
    · exact hinv.projected rel h e hrel

omit [DecidableEq Lang] in
theorem parseAll_inv {files : List Path} {work : WorkList Lang} {st : ParseState H Rows}
    (h : parseAll σ fe p db files work = .ok st) : ParseInv σ p db.store.tree st :=
  (Steps.foldlM h).invariant (fun _ _ _ hs hinv => hinv.step hs) ⟨rfl,
    fun rel h e hrel => by simp at hrel⟩

/-! ## Projected or not, a file is stored the same -/

/-- The file a pass stores at a path, whatever the parse makes of it. -/
noncomputable def treeLeaf (σ : Bytes → H) (dir : Directory) (reach : Reach)
    (memory : Option InMemory) (s : Store H) (p : Path) : Option (Entry H) :=
  passLeaf σ dir reach memory ⟨∅, ∅⟩ s p

variable {reach : Reach} {s : Store H}

omit [DecidableEq H] in
theorem writtenBytes_of_seen_disk {rel : Path} {link : Bool}
    (h : seenAt p.dir reach p.memory s rel = some (.disk link)) : p.writtenBytes rel = none := by
  by_contra hne
  obtain ⟨bytes, hbytes⟩ := Option.ne_none_iff_exists'.mp hne
  cases hm : p.memory with
  | none => simp [Pass.writtenBytes, hm] at hbytes
  | some m =>
    have hb : m.bytes rel = some bytes := by simpa [Pass.writtenBytes, hm] using hbytes
    rw [seenAt, memorySeen, hm, Option.bind_some, hb] at h
    by_cases hr : removes (some m) rel
    · -- a removed path is never seen as a file
      have hdisk : ∀ l, diskSeen p.dir reach (some m) rel ≠ some (.disk l) := by
        cases reach with
        | walked w => simp only [diskSeen, hr]; split <;> simp
        | tree => simp [diskSeen]
        | paths ps => simp only [diskSeen, scopedSeen, hr]; split <;> simp
      revert h
      split
      · simp
      · split
        · simp
        · cases hd : diskSeen p.dir reach (some m) rel with
          | none => simp
          | some x =>
            simp only [Option.none_or, Option.some_or, Option.some.injEq]
            rintro rfl
            exact hdisk link hd
    · revert h
      split
      · simp
      · split <;> simp

omit [DecidableEq H] in
theorem passLeaf_eq_treeLeaf {out : Outcomes H}
    (hout : ∀ rel h e, out.projected[rel]? = some (h, e) → ∃ bytes, p.content rel = .ok bytes ∧
      h = σ bytes) :
    passLeaf σ p.dir reach p.memory out s = treeLeaf σ p.dir reach p.memory s := by
  funext rel
  rw [treeLeaf, passLeaf, passLeaf]
  cases hseen : seenAt p.dir reach p.memory s rel with
  | none => rfl
  | some x =>
    cases x with
    | gone | dir | memory b => rfl
    | disk link =>
      simp only [Option.bind_some, filePut]
      cases p.dir.symlinkMetadata rel with
      | notFound | failed => rfl
      | found m =>
        simp only
        split
        · rfl
        · cases link with
          | true => rfl
          | false =>
            cases hproj : out.projected[rel]? with
            | none => simp
            | some x =>
              obtain ⟨bytes, hc, hh⟩ := hout rel x.1 x.2 hproj
              rw [Pass.content, writtenBytes_of_seen_disk hseen] at hc
              simp [hc, hh, putEntry]

/-- What a pass over `s` leaves in the manifest. -/
noncomputable def passManifest (σ : Bytes → H) (dir : Directory) (reach : Reach)
    (memory : Option InMemory) (s : Store H) : Manifest H :=
  PathTree.passed '/' Sweeps .dir (passGone dir reach memory s) (passDirs dir reach memory s)
    (treeLeaf σ dir reach memory s) s.manifest

omit [DecidableEq H] in
theorem passManifest_congr {dir : Directory} {memory : Option InMemory}
    {s s' : Store H} (h : s.tree = s'.tree) :
    passManifest σ dir reach memory s = passManifest σ dir reach memory s' := by
  have hentry : s.entry = s'.entry := by funext p; rw [Store.entry, Store.entry, h]
  have hstats : s.stats = s'.stats := by funext p; rw [Store.stats, Store.stats, h]
  have hseen : seenAt dir reach memory s = seenAt dir reach memory s' := by
    funext p; rw [seenAt, seenAt, hentry]
  have hgone : passGone dir reach memory s = passGone dir reach memory s' := by
    rw [passGone, passGone, hseen, hentry]
  have hdirs : passDirs dir reach memory s = passDirs dir reach memory s' := by
    rw [passDirs, passDirs, hseen, hentry, hgone]
  have hleaf : treeLeaf σ dir reach memory s = treeLeaf σ dir reach memory s' := by
    funext p
    rw [treeLeaf, treeLeaf, passLeaf, passLeaf, passCurrent, passCurrent, hseen, hentry, hgone,
      hdirs, hstats]
  rw [passManifest, passManifest, Store.manifest, Store.manifest, hgone, hdirs, hleaf, hentry]

/-- **The manifest after a pass**, for the reach the pass had. -/
theorem PassStages.manifest (c : PassStages σ fe p db db') :
    db'.store.manifest = passManifest σ p.dir (p.reach c.walked) p.memory db.store := by
  have hinv := parseAll_inv c.parse_eq
  rw [sync_manifest c.sync_eq, passLeaf_eq_treeLeaf hinv.projected,
    ← passManifest_congr hinv.tree_eq]
  rfl

end LeyLine
