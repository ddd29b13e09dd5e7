import LeyLine.Directory
import LeyLine.Lib.PathTree

/-!
# Bringing the manifest up to what one pass saw

`sync` is authoritative over a set of paths: the whole walked tree, the tree in
memory, or the scope's paths. It decides per path what it saw, then removes,
makes directories and puts files, in that order, each in path order.

`sync_manifest` states the outcome as one closed form over the manifest the
pass started from (`PathTree.passed`), which is what every statement about the
tree after a pass is derived from.
-/

namespace LeyLine

variable {H : Type} [DecidableEq H]

/-- What the pass decided per path. -/
inductive Seen where
  | disk (symlink : Bool)
  | memory (bytes : Bytes)
  | dir
  | gone
  deriving Repr, DecidableEq

/-- The paths a pass is authoritative over. -/
inductive Reach where
  | walked (w : Walked)
  | tree
  | paths (ps : List Path)

/-- What a pass read from memory changes beyond file bytes: a written file's
mode, and directories made and removed. -/
structure TreeEdits where
  modes : Std.ExtTreeMap Path Mode := ∅
  mkdirs : List Path := []
  rmdirs : List Path := []

/-- Bytes a pass reads from memory instead of from disk: the files a proposal
or a checkout writes and the ones it removes, or a whole tree. -/
inductive InMemory where
  | written (files : Std.ExtTreeMap Path Bytes) (removed : List Path) (edits : TreeEdits)
  | tree (files : Std.ExtTreeMap Path Bytes) (edits : TreeEdits)

namespace InMemory

def files : InMemory → Std.ExtTreeMap Path Bytes
  | .written files _ _ => files
  | .tree files _ => files

def bytes (m : InMemory) (rel : Path) : Option Bytes := m.files[rel]?

def removes : InMemory → Path → Bool
  | .written _ removed _, rel => decide (rel ∈ removed)
  | .tree _ _, _ => false

def edits : InMemory → TreeEdits
  | .written _ _ edits => edits
  | .tree _ edits => edits

end InMemory

/-- The first error tree-sitter found in a file. -/
structure SyntaxError where
  startByte : Int
  endByte : Int
  startRow : Int
  startCol : Int
  message : String
  deriving Repr, DecidableEq

/-- What the parse made of the files it took up: the blob and first syntax
error of each projected file, and why the others were not projected. -/
structure Outcomes (H : Type) where
  projected : Std.ExtTreeMap Path (H × Option SyntaxError)
  unprojected : Std.ExtTreeMap Path String

/-- Why a pass fails in the manifest: a symlink's target could not be read. -/
inductive SyncError where
  | readlink (rel : Path)
  deriving Repr, DecidableEq

/-! ## What the pass saw -/

section Seen

variable (dir : Directory) (reach : Reach) (memory : Option InMemory)

def Reach.whole : Reach → Bool
  | .paths _ => false
  | _ => true

def removes (rel : Path) : Bool := memory.any (·.removes rel)

abbrev SeenMap := Std.ExtTreeMap Path Seen

def insertAll (what : Seen) (ps : List Path) (seen : SeenMap) : SeenMap :=
  ps.foldl (fun seen rel => seen.insert rel what) seen

/-- What a scoped pass makes of one path of its scope; `none` leaves the path
alone. -/
def scopedSeen (rel : Path) : Option Seen :=
  if removes memory rel then some .gone
  else if (memory.bind (·.bytes rel)).isSome then none
  else match dir.symlinkMetadata rel with
    | .found m => match m.fileType with
      | .symlink => some (.disk true)
      | .dir => some .dir
      | .file => some (.disk false)
      -- a socket, a fifo or a device is no tree entry
      | .other => some .gone
    | .notFound => some .gone
    | .failed => none

/-- The first half of `seen`: what disk shows. -/
def seenOnDisk : SeenMap :=
  match reach with
  | .walked w =>
    insertAll .dir w.dirs (insertAll (.disk true) (w.symlinks.filter fun rel => !removes memory rel)
        (insertAll (.disk false) (w.files.filter fun rel => !removes memory rel) ∅))
  | .tree => ∅
  | .paths ps =>
    ps.foldl (fun seen rel => (scopedSeen dir memory rel).elim seen (seen.insert rel)) ∅

def seenInMemory (seen : SeenMap) : SeenMap :=
  match memory with
  | none => seen
  | some m =>
    let seen := m.files.toList.foldl
      (fun seen x => if removes memory x.1 then seen else seen.insert x.1 (.memory x.2)) seen
    insertAll .gone m.edits.rmdirs (insertAll .dir m.edits.mkdirs seen)

/-- A whole pass also removes every entry it did not see. -/
def seenMap (s : Store H) : SeenMap :=
  let seen := seenInMemory memory (seenOnDisk dir reach memory)
  if reach.whole then
    s.tree.keys.foldl (fun seen rel => if rel ∈ seen then seen else seen.insert rel .gone) seen
  else seen

end Seen

/-! ## The three phases -/

def Store.removeTree (s : Store H) (rel : Path) : Store H :=
  let s := s.remove rel
  (s.under rel).foldl Store.remove s

/-- The entry a pass compares with: the one it started from in a whole pass,
the live one in a scoped pass. -/
def current (whole : Bool) (old s : Store H) (rel : Path) : Option (Entry H) :=
  if whole then old.entry rel else s.entry rel

/-- Removals first. A directory that leaves takes what the store held under
it. -/
def removeGone (whole : Bool) (old : Store H) (seen : List (Path × Seen)) (s : Store H) : Store H :=
  seen.foldl (fun s x =>
    if x.2 = .gone ∧ current whole old s x.1 ≠ none then s.removeTree x.1 else s) s

def putDirs (whole : Bool) (old : Store H) (seen : List (Path × Seen)) (s : Store H) : Store H :=
  seen.foldl (fun s x =>
    if x.2 = .dir ∧ current whole old s x.1 ≠ some .dir then s.putDir x.1 else s) s

def Entry.fileMode : Entry H → Option Mode
  | .file m _ => some m
  | .dir => none

/-- A file the pass stores: its mode, the walk's stat, its blob, and the bytes
when the pass read them itself. -/
structure FilePut (H : Type) where
  mode : Mode
  stat : Option Stat
  blob : H
  bytes : Option Bytes

variable (σ : Bytes → H)

/-- What a pass stores for one path it saw, given what the store held there;
`none` for no file, for a file whose mode and stat match what the walk last
stored, and for one that cannot be read. -/
def filePut (dir : Directory) (memory : Option InMemory)
    (projected : Std.ExtTreeMap Path (H × Option SyntaxError)) (stats : Path → Option Stat)
    (rel : Path) (was : Option (Entry H)) : Seen → Except SyncError (Option (FilePut H))
  | .gone => .ok none
  | .dir => .ok none
  | .memory bytes =>
    let mode := ((memory.bind (·.edits.modes[rel]?)).or (was.bind Entry.fileMode)).getD .regular
    .ok (some ⟨mode, none, σ bytes, some bytes⟩)
  | .disk symlink =>
    match dir.symlinkMetadata rel with
    | .found m =>
      -- the stat cache, as git's index
      if was.bind Entry.fileMode = some (diskMode m) ∧ stats rel = some (statOf m) then
        .ok none
      else if symlink then
        match dir.readLink rel with
        | some b => .ok (some ⟨diskMode m, some (statOf m), σ b, some b⟩)
        | none => .error (.readlink rel)
      else match projected[rel]? with
        | some (h, _) => .ok (some ⟨diskMode m, some (statOf m), h, none⟩)
        | none => match dir.read rel with
          | .ok b => .ok (some ⟨diskMode m, some (statOf m), σ b, some b⟩)
          | .error _ => .ok none
    | _ => .ok none

/-- Store one file. A file whose bytes changed loses the diagnostic its old
bytes had. -/
def storeFile (rel : Path) (was : Option (Entry H)) (f : FilePut H) (s : Store H) : Store H :=
  let s := f.bytes.elim s (s.storeBlob σ ·)
  let s := if was.bind Entry.blob = some f.blob then s else s.setDiagnostic rel none
  s.putFile rel f.mode f.blob f.stat

def putFilesStep (dir : Directory) (memory : Option InMemory)
    (projected : Std.ExtTreeMap Path (H × Option SyntaxError)) (whole : Bool)
    (old : Store H) (acc : Store H × Std.ExtTreeMap Path H) (x : Path × Seen) :
    Except SyncError (Store H × Std.ExtTreeMap Path H) := do
  let was := current whole old acc.1 x.1
  match ← filePut σ dir memory projected old.stats x.1 was x.2 with
  | none => pure acc
  | some f => pure (storeFile σ x.1 was f acc.1, acc.2.insert x.1 f.blob)

def putFiles (dir : Directory) (memory : Option InMemory)
    (projected : Std.ExtTreeMap Path (H × Option SyntaxError)) (whole : Bool)
    (old : Store H) (seen : List (Path × Seen)) (s : Store H) :
    Except SyncError (Store H × Std.ExtTreeMap Path H) :=
  seen.foldlM (putFilesStep σ dir memory projected whole old) (s, ∅)

def setDiagnostics (out : Outcomes H) (whole : Bool) (old : Store H)
    (stored : Std.ExtTreeMap Path H) (s : Store H) : Store H :=
  let s := out.projected.toList.foldl (fun s x =>
    s.setDiagnostic x.1 (x.2.2.map fun e =>
      ⟨x.1, x.2.1, true, some (e.startByte, e.endByte, e.startRow, e.startCol), e.message⟩)) s
  out.unprojected.toList.foldl (fun s x =>
    match (stored[x.1]?).or ((current whole old s x.1).bind Entry.blob) with
    | some blob => s.setDiagnostic x.1 (some ⟨x.1, blob, false, none, x.2⟩)
    | none => s) s

def sync (dir : Directory) (reach : Reach) (memory : Option InMemory)
    (out : Outcomes H) (s : Store H) : Except SyncError (Store H) := do
  let seen := (seenMap dir reach memory s).toList
  let whole := reach.whole
  let swept := putDirs whole s seen (removeGone whole s seen s)
  let (put, stored) ← putFiles σ dir memory out.projected whole s seen swept
  pure (setDiagnostics out whole s stored put)

variable {σ : Bytes → H} {dir : Directory} {reach : Reach} {memory : Option InMemory}
  {out : Outcomes H} {s s' : Store H}

theorem sync_ok (h : sync σ dir reach memory out s = .ok s') :
    ∃ acc, putFiles σ dir memory out.projected reach.whole s (seenMap dir reach memory s).toList
        (putDirs reach.whole s (seenMap dir reach memory s).toList
          (removeGone reach.whole s (seenMap dir reach memory s).toList s)) = .ok acc ∧
      s' = setDiagnostics out reach.whole s acc.2 acc.1 := by
  obtain ⟨acc, hput, hs⟩ := Except.bind_eq_ok_iff.mp h
  exact ⟨acc, hput, (Except.ok.inj hs).symm⟩

end LeyLine
