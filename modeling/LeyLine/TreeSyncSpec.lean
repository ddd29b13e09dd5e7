import LeyLine.TreeSync
import LeyLine.Lib.Table

/-!
# What a pass leaves in the manifest

`seenAt` reads off, path by path, what the loops of `seenMap` decide. The three
phases then become the three loops of `PathTree`, and `sync_manifest` gives the
manifest after the pass in closed form.
-/

namespace LeyLine

variable {H : Type}

theorem Manifest.wellFormed_iff {m : Manifest H} :
    m.WellFormed ↔ PathTree.WellFormed '/' .dir (fun p => plainRelative p = true) m :=
  ⟨fun h p hp => ⟨h.plain p hp, fun d hd => h.parents_dir d p hp hd⟩,
    fun h => .of_parents (fun p hp => (h p hp).1) fun d p hp hd => (h p hp).2 d hd⟩

/-! ## What is seen at one path -/

section Seen

variable (dir : Directory) (reach : Reach) (memory : Option InMemory)

def diskSeen (p : Path) : Option Seen :=
  match reach with
  | .walked w =>
    if p ∈ w.dirs then some .dir
    else if removes memory p then none
    else if p ∈ w.symlinks then some (.disk true)
    else if p ∈ w.files then some (.disk false)
    else none
  | .tree => none
  | .paths ps => if p ∈ ps then scopedSeen dir memory p else none

def memorySeen (p : Path) : Option Seen :=
  memory.bind fun m =>
    if p ∈ m.edits.rmdirs then some .gone
    else if p ∈ m.edits.mkdirs then some .dir
    else if removes memory p then none
    else (m.bytes p).map .memory

def seenAt (s : Store H) (p : Path) : Option Seen :=
  (memorySeen memory p).or ((diskSeen dir reach memory p).or
    (if reach.whole ∧ s.entry p ≠ none then some .gone else none))

variable {dir reach memory}

theorem insertAll_get (what : Seen) (ps : List Path) (seen : SeenMap) (p : Path) :
    (insertAll what ps seen)[p]? = if p ∈ ps then some what else seen[p]? :=
  by rw [insertAll, Table.get_foldl_insert_const]; congr

theorem seenOnDisk_get (p : Path) :
    (seenOnDisk dir reach memory)[p]? = diskSeen dir reach memory p := by
  cases reach with
  | walked w =>
    simp only [seenOnDisk, diskSeen, insertAll_get, List.mem_filter]
    by_cases hr : removes memory p <;> simp [hr]
  | tree => simp [seenOnDisk, diskSeen]
  | paths ps =>
    simp only [seenOnDisk, diskSeen]
    rw [Table.get_foldl_insert_fun (scopedSeen dir memory) p ps]
    simp

theorem seenInMemory_get (seen : SeenMap) (p : Path) :
    (seenInMemory memory seen)[p]? = (memorySeen memory p).or seen[p]? := by
  cases memory with
  | none => simp [seenInMemory, memorySeen]
  | some m =>
    simp only [seenInMemory, memorySeen, insertAll_get, Option.bind_some]
    rw [Table.get_foldl_insert_rows (removes (some m)) Seen.memory p _ _
      (Table.pairwise_toList_ne m.files), Table.find?_toList]
    by_cases hrm : p ∈ m.edits.rmdirs
    · simp [hrm]
    · by_cases hmk : p ∈ m.edits.mkdirs
      · simp [hrm, hmk]
      · by_cases hr : removes (some m) p
        · simp [hrm, hmk, hr]
        · simp [hrm, hmk, hr, InMemory.bytes, Option.map_map, Function.comp_def]

theorem seenMap_get (s : Store H) (p : Path) :
    (seenMap dir reach memory s)[p]? = seenAt dir reach memory s p := by
  have hkeys : p ∈ s.tree.keys ↔ s.entry p ≠ none := by
    rw [Std.ExtTreeMap.mem_keys, Table.mem_iff, Store.entry, ne_eq, ne_eq, Option.map_eq_none_iff]
  rw [seenMap, seenAt]
  by_cases hw : reach.whole
  · rw [if_pos hw, Table.get_foldl_insert_new, seenInMemory_get, seenOnDisk_get, Option.or_assoc]
    simp only [hkeys, hw, true_and]
  · rw [if_neg hw, seenInMemory_get, seenOnDisk_get]
    simp [hw]

end Seen

/-! ## The phases as loops over trees -/

section Phases

open PathTree

/-- The directories whose removal takes what is below them. -/
abbrev Sweeps (d : Path) : Prop := nul ∉ d

theorem entry_removeTree (s : Store H) (rel : Path) :
    (s.removeTree rel).entry = dropTree '/' Sweeps rel s.entry := by
  funext p
  rw [Store.removeTree, Store.entry_foldl_remove, dropTree]
  by_cases hat : rel = p
  · subst hat
    simp [Drops]
  · by_cases hu : Under rel p ∧ Sweeps rel
    · rw [if_pos (show Drops '/' Sweeps rel p from .inr hu)]
      by_cases hp : s.entry p = none
      · simp [hat, hp]
      · rw [if_pos (Store.mem_under.mpr ⟨by simpa [hat] using hp, hu⟩)]
    · have hdrops : ¬ Drops '/' Sweeps rel p := not_or.mpr ⟨hat, hu⟩
      rw [if_neg hdrops, if_neg (fun h => hu (Store.mem_under.mp h).2)]
      simp [hat]

theorem entry_putDir_eq (s : Store H) (rel : Path) :
    (s.putDir rel).entry = makeDir '/' .dir rel s.entry := by
  funext p
  exact Store.entry_putDir s rel p

theorem entry_storeFile [DecidableEq H] (σ : Bytes → H) (rel : Path) (was : Option (Entry H))
    (f : FilePut H) (s : Store H) :
    (storeFile σ rel was f s).entry = putLeaf '/' .dir rel (.file f.mode f.blob) s.entry := by
  have hbase : ∀ p,
      (if was.bind Entry.blob = some f.blob then f.bytes.elim s (s.storeBlob σ ·)
        else (f.bytes.elim s (s.storeBlob σ ·)).setDiagnostic rel none).entry p = s.entry p := by
    cases f.bytes <;> split <;> exact fun _ => rfl
  funext p
  rw [storeFile, Store.entry_putFile, putLeaf, hbase p]

end Phases

/-! ## The closed form -/

section ClosedForm

open PathTree

variable [DecidableEq H] (σ : Bytes → H) (dir : Directory) (reach : Reach)
  (memory : Option InMemory) (out : Outcomes H) (s : Store H)

/-- The subtree roots a pass drops: paths it saw gone that the store held. -/
def passGone : Set Path :=
  {g | seenAt dir reach memory s g = some .gone ∧ s.entry g ≠ none}

/-- The directories a pass makes: paths it saw as directories that were not. -/
def passDirs : Set Path :=
  {d | seenAt dir reach memory s d = some .dir ∧
    (if reach.whole then s.entry d else swept '/' Sweeps .dir (passGone dir reach memory s) ∅
    s.entry d) ≠ some .dir}

/-- What a pass compares a file with: what it started from, or, in a scoped
pass, what its removals and directories left. -/
noncomputable def passCurrent (p : Path) : Option (Entry H) := if reach.whole then s.entry p
  else swept '/' Sweeps .dir (passGone dir reach memory s) (passDirs dir reach memory s) s.entry p

def putEntry : Except SyncError (Option (FilePut H)) → Option (Entry H)
  | .ok (some f) => some (.file f.mode f.blob)
  | _ => none

/-- The file a pass stores at a path, if any. -/
noncomputable def passLeaf (p : Path) : Option (Entry H) :=
  (seenAt dir reach memory s p).bind fun x =>
    putEntry (filePut σ dir memory out.projected s.stats p (passCurrent dir reach memory s p) x)

variable {σ dir reach memory out s}

omit [DecidableEq H] in
theorem mem_seen {p : Path} {x : Seen} :
    (p, x) ∈ (seenMap dir reach memory s).toList ↔ seenAt dir reach memory s p = some x := by
  rw [Std.ExtTreeMap.mem_toList_iff_getElem?_eq_some, seenMap_get]

omit [DecidableEq H] in
theorem entry_removeGone : (removeGone reach.whole s (seenMap dir reach memory s).toList s).entry =
      swept '/' Sweeps .dir (passGone dir reach memory s) ∅ s.entry := by
  refine Steps.swept_gone (c := fun x t => x.2 = Seen.gone ∧
    (if reach.whole then s.entry x.1 else t) ≠ none)
    Store.entry Prod.fst ?_ ?_ ?_ (Steps.foldl _ _ _)
  · rintro σ x _ rfl hc
    rw [if_pos (by simpa [current] using hc), entry_removeTree]
  · rintro σ x _ rfl hc
    rw [if_neg (by simpa [current] using hc)]
  · intro g
    simp only [ite_self]
    constructor
    · exact fun ⟨h, hg⟩ => ⟨(g, .gone), mem_seen.mpr h, ⟨rfl, hg⟩, rfl⟩
    · rintro ⟨x, hx, ⟨hgone, hne⟩, rfl⟩
      exact ⟨hgone ▸ mem_seen.mp hx, hne⟩

theorem entry_putDirs : (putDirs reach.whole s (seenMap dir reach memory s).toList
      (removeGone reach.whole s (seenMap dir reach memory s).toList s)).entry =
      swept '/' Sweeps .dir (passGone dir reach memory s)
      (passDirs dir reach memory s) s.entry := by
  have hgone := @entry_removeGone H dir reach memory s
  rw [← swept_swept, ← hgone]
  refine Steps.swept_dirs (c := fun x t => x.2 = Seen.dir ∧
    (if reach.whole then s.entry x.1 else t) ≠ some .dir)
    Store.entry Prod.fst ?_ ?_ ?_ (Steps.foldl _ _ _)
  · rintro σ x _ rfl hc
    rw [if_pos (by simpa [current] using hc), entry_putDir_eq]
  · rintro σ x _ rfl hc
    rw [if_neg (by simpa [current] using hc)]
  · intro d
    simp only [passDirs, Set.mem_ofPred_eq, ← hgone]
    constructor
    · exact fun ⟨h, hd⟩ => ⟨(d, .dir), mem_seen.mpr h, ⟨rfl, hd⟩, rfl⟩
    · rintro ⟨x, hx, ⟨hdir, hne⟩, rfl⟩
      exact ⟨hdir ▸ mem_seen.mp hx, hne⟩

theorem pairwise_seen (seen : SeenMap) :
    seen.toList.Pairwise fun x y => x.1 ≠ y.1 ∧ ¬ Under y.1 x.1 := by
  refine Std.ExtTreeMap.ordered_keys_toList.imp fun {x y} hlt => ⟨?_, fun hu => ?_⟩
  · intro heq
    rw [heq, Std.ReflOrd.compare_self] at hlt
    simp at hlt
  · rw [Std.OrientedOrd.eq_swap, hu.compare_lt] at hlt
    simp at hlt

theorem entry_putFilesStep {whole : Bool} {x : Path × Seen}
    {acc acc' : Store H × Std.ExtTreeMap Path H}
    (h : putFilesStep σ dir memory out.projected whole s acc x = .ok acc') : acc'.1.entry =
      (putEntry (filePut σ dir memory out.projected s.stats x.1
        (current whole s acc.1 x.1) x.2)).elim acc.1.entry
        (putLeaf '/' .dir x.1 · acc.1.entry) := by
  rw [putFilesStep] at h
  cases hf : filePut σ dir memory out.projected s.stats x.1 (current whole s acc.1 x.1) x.2 with
  | error e =>
    simp only [hf] at h
    simp [bind, Except.bind] at h
  | ok f =>
    simp only [hf] at h
    cases f with
    | none =>
      cases h
      rfl
    | some f =>
      cases h
      exact entry_storeFile σ x.1 _ f acc.1

omit [DecidableEq H] in
theorem manifest_setDiagnostics (whole : Bool) (old : Store H) (stored : Std.ExtTreeMap Path H)
    (s : Store H) : (setDiagnostics out whole old stored s).manifest = s.manifest := by
  refine ((Steps.foldl _ _ _).invariant (P := fun s' : Store H => s'.manifest = s.manifest)
    (fun s₁ x s₂ hs hP => ?_) ?_)
  · subst hs
    split <;> exact hP
  · exact (Steps.foldl _ _ _).invariant (P := fun s' : Store H => s'.manifest = s.manifest)
      (fun s₁ x s₂ hs hP => by subst hs; exact hP) rfl

/-- **The manifest after a pass.** The removals, the directories and the files
of `sync` leave `PathTree.passed` of the manifest the pass started from. -/
theorem sync_manifest {s' : Store H} (h : sync σ dir reach memory out s = .ok s') :
    s'.manifest = passed '/' Sweeps .dir (passGone dir reach memory s) (passDirs dir reach memory s)
      (passLeaf σ dir reach memory out s) s.manifest := by
  obtain ⟨acc, hput, rfl⟩ := sync_ok h
  rw [manifest_setDiagnostics]
  have hswept := @entry_putDirs H _ dir reach memory s
  change acc.1.entry = _
  rw [Store.manifest, ← passed_swept, ← hswept]
  refine Steps.passed (fun acc : Store H × Std.ExtTreeMap Path H => acc.1.entry) Prod.fst
    (fun x t => putEntry (filePut σ dir memory out.projected s.stats x.1
      (if reach.whole then s.entry x.1 else t) x.2)) ?_ ?_ (pairwise_seen _) ?_ ?_
    (Steps.foldlM (by rw [← hput]; rfl))
  · intro acc x acc' n hstep hn
    rw [entry_putFilesStep hstep, current, hn]
    rfl
  · intro acc x acc' hstep hn
    rw [entry_putFilesStep hstep, current, hn]
    rfl
  · intro x hx
    rw [passLeaf, mem_seen.mp hx, Option.bind_some, passCurrent, ← hswept]
  · intro r hr
    cases hx : seenAt dir reach memory s r with
    | none => exact absurd (by rw [passLeaf, hx, Option.bind_none]) hr
    | some x => exact ⟨(r, x), mem_seen.mpr hx, rfl⟩

end ClosedForm

end LeyLine
