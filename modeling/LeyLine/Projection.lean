import LeyLine.TreeSync
import LeyLine.Lib.Table
import LeyLine.Lib.Steps

/-!
# The projection and the pass that derives it

A pass classifies the files it was given, deletes the rows of files that left,
parses the rest and inserts what the parse made of them, then brings the
manifest up to what it saw (`sync`), all in one transaction.

Parsing and fact extraction are a parameter (`Frontend`): a function of the rule
versions, the language, the path and the bytes. What a file's parse yields is
kept as the rows it writes under the file's own ordinals (`Rows`), the subtree
addresses those rows point at, and the content and child rows of the Merkle
layer. Interned ids number these and are not modelled.
-/

namespace LeyLine

/-- The versions of the rules facts and addresses are derived under. -/
structure RuleVersions where
  extractionEpoch : String
  injectionEpoch : String
  querySetEpoch : String
  irSchemaVersion : String
  deriving Repr, DecidableEq

/-- The `_meta` rows a pass reads and writes. -/
structure Stamps where
  extractionEpoch : Option String := none
  injectionEpoch : Option String := none
  querySetEpoch : Option String := none
  irSchemaVersion : Option String := none
  projectionSchemaVersion : Option String := none
  projectionLanguage : Option String := none
  sourceRoot : Option Path := none
  deriving Repr, DecidableEq

/-- A subtree's row in `node_content`, beside its address. -/
structure ContentRow where
  nodeTag : Nat
  kind : String
  rawKind : String
  lang : String
  token : Option String
  arity : Nat
  deriving Repr, DecidableEq

/-- A child of a subtree, for `node_edge`. -/
structure ChildRow (H : Type) where
  parent : H
  ordinal : Nat
  child : H
  field : Option String
  deriving Repr, DecidableEq

/-- What the parse of one file yields. `rows` is `none` when a row names an id
the file does not have, which fails the pass. -/
structure ParsedFile (H Rows : Type) where
  language : String
  syntaxError : Option SyntaxError
  nodeContents : List (H × ContentRow)
  nodeChildren : List (ChildRow H)
  ordinals : Nat
  rows : Option Rows
  hashes : List H

/-- Language detection, parsing and extraction. -/
structure Frontend (H Lang Rows : Type) where
  fileLanguage : Path → Option Lang
  fromName : String → Option Lang
  parse : RuleVersions → Lang → Path → Bytes → Except String (ParsedFile H Rows)

/-- What the projection holds for one file: its `_source` row, the stat pair of
its file node, and its rows in the other file-keyed tables. -/
structure FileRows (H Rows : Type) where
  language : String
  absPath : Option Path
  contentHash : H
  stat : Stat
  rows : Rows
  hashes : List H
  deriving Repr, DecidableEq

/-- The projection: the file-keyed rows, the directories' presentation rows
below the root, and the content layer. -/
structure Projection (H Rows : Type) where
  files : Std.ExtTreeMap Path (FileRows H Rows)
  dirs : Finset Path
  content : H → Option ContentRow
  edges : H → Nat → Option (H × Option String)

/-- The database a pass runs on. -/
structure Db (H Rows : Type) where
  store : Store H
  proj : Projection H Rows
  stamps : Stamps

def Db.empty {H Rows : Type} : Db H Rows where
  store := ⟨∅, fun _ => none, ∅⟩
  proj := ⟨∅, ∅, fun _ => none, fun _ _ => none⟩
  stamps := {}

/-- One pass: the binary's rule versions and projection schema, the time it
runs at, the source root, and what it was asked to do. -/
structure Pass where
  versions : RuleVersions
  projectionSchemaVersion : String
  now : Int
  source : Path
  langFilter : Option String
  scope : Option (List Path)
  memory : Option InMemory
  dir : Directory

/-- Why a pass fails; a failed pass leaves the database as it was. -/
inductive PassError where
  | notADirectory
  | invalidLang (name : String)
  | walk
  | oldProjection
  | stat (rel : Path)
  | ordinalSpace (rel : Path) (total : Nat)
  | unmapped (rel : Path)
  | duplicate (rel : Path)
  | sync (e : SyncError)
  deriving Repr, DecidableEq

/-- Files above this size are stored and not parsed. -/
def maxParseFileSize : Int := 8 * 1024 * 1024

def nidOrdinalMask : Nat := 0xFFFFFF

/-! ## Classifying the files of a pass -/

section Classify

variable {H Lang Rows : Type} [DecidableEq H] [DecidableEq Lang]

variable (p : Pass)

def Pass.removes (rel : Path) : Bool := LeyLine.removes p.memory rel

def Pass.writtenBytes (rel : Path) : Option Bytes := p.memory.bind (·.bytes rel)

def Pass.treeInMemory : Option (Std.ExtTreeMap Path Bytes) :=
  match p.memory with
  | some (.tree files _) => some files
  | _ => none

/-- The filter a pass projects under: its own, or the recorded one for a pass
that was written from memory and names none. -/
def Pass.filterName (stamps : Stamps) : Option String :=
  p.langFilter.or (match p.memory with
    | some (.written _ _ _) => stamps.projectionLanguage
    | _ => none)

/-- Whether `symlink_metadata` finds a regular file. -/
def Directory.regularFile (d : Directory) (rel : Path) : Bool :=
  match d.symlinkMetadata rel with
  | .found m => m.fileType == .file
  | _ => false

/-- The files a pass may project, with the walk it made of a whole
directory. -/
def Pass.files (p : Pass) : Except PassError (List Path × Option Walked) :=
  match p.scope, p.treeInMemory with
  | some scope, _ => .ok (scope.filter fun rel =>
    !p.removes rel && (p.dir.regularFile rel || (p.writtenBytes rel).isSome), none)
  | none, some files => .ok (files.keys, none)
  | none, none => match p.dir.walkTree with
    | none => .error .walk
    | some w =>
      let walked := w.files.filter fun rel => !p.removes rel
      let inMemory := (p.memory.elim ∅ (·.files)).keys.filter fun rel => rel ∉ walked
      .ok (walked ++ inMemory, some w)

/-- A file the parse takes up. -/
structure FileToParse (Lang : Type) where
  rel : Path
  lang : Lang
  stat : Stat

/-- What the classification makes of one file. -/
inductive FileClass (Lang : Type) where
  | noLanguage
  | link
  | unchanged
  | oversized (size : Int)
  | parse (f : FileToParse Lang)

def Frontend.languageUnder (fe : Frontend H Lang Rows) (filter : Option Lang) (rel : Path) :
    Option Lang :=
  match fe.fileLanguage rel, filter with
  | some lang, some f => if lang = f then some lang else none
  | some lang, none => some lang
  | none, _ => none

def Pass.writtenMode (s : Store H) (rel : Path) : Option Mode :=
  (p.memory.bind (·.edits.modes[rel]?)).or ((s.entry rel).bind Entry.fileMode)

/-- Whether the rules the stored facts were derived under are this binary's. -/
def Pass.epochCurrent (stamps : Stamps) : Bool :=
  stamps.extractionEpoch == some p.versions.extractionEpoch
    && stamps.injectionEpoch == some p.versions.injectionEpoch
    && stamps.querySetEpoch == some p.versions.querySetEpoch
    && stamps.irSchemaVersion == some p.versions.irSchemaVersion

/-- The stat pair a file is classified by: the pass's time and the written size
for bytes in memory. -/
def Pass.fileStat (rel : Path) : Except PassError Stat :=
  match p.writtenBytes rel with
  | some bytes => .ok (p.now, bytes.length)
  | none => match p.dir.symlinkMetadata rel with
    | .found m => .ok (statOf m)
    | _ => .error (.stat rel)

def Pass.content (rel : Path) : Except String Bytes :=
  match p.writtenBytes rel with
  | some bytes => .ok bytes
  | none => p.dir.read rel

/-- Classify one file: skipped for want of a language, a symlink, unchanged by
its stat pair or by its bytes, too large, or to be parsed. -/
def Pass.classify (σ : Bytes → H) (fe : Frontend H Lang Rows) (filter : Option Lang)
    (p : Pass) (db : Db H Rows) (rel : Path) : Except PassError (FileClass Lang) :=
  match fe.languageUnder filter rel with
  | none => .ok .noLanguage
  | some lang =>
    if (p.writtenBytes rel).isSome && p.writtenMode db.store rel == some .symlink then
      .ok .link
    else do
      let stat ← p.fileStat rel
      let old := db.proj.files[rel]?
      if p.epochCurrent db.stamps && (old.map (·.stat)) == some stat then pure .unchanged
      -- the stat pair moved; the bytes may not have
      else if p.epochCurrent db.stamps && old.any (fun o =>
          match p.content rel with
          | .ok bytes => σ bytes == o.contentHash
          | .error _ => false) then pure .unchanged
      else if stat.2 > maxParseFileSize then pure (.oversized stat.2)
      else pure (.parse ⟨rel, lang, stat⟩)

end Classify

/-! ## Inserting what the parse made -/

section Insert

variable {H Lang Rows : Type} [DecidableEq H]

/-- The projection with the subtree addresses this pass has given ids, and the
parents whose edges it has written. -/
structure InsertState (H Rows : Type) where
  proj : Projection H Rows
  ids : List H
  written : List H

def insertContents (cs : List (H × ContentRow)) (st : InsertState H Rows) : InsertState H Rows :=
  cs.foldl (fun st c =>
    if c.1 ∈ st.ids then st
    else { st with
      ids := c.1 :: st.ids
      proj := { st.proj with content := fun h =>
        if h = c.1 then (st.proj.content h).or (some c.2) else st.proj.content h } }) st

/-- One child row: its parent and child must be subtrees the fold emitted, and
a parent an earlier file of the pass wrote is skipped. -/
def insertChild (rel : Path) (st : InsertState H Rows) (acc : Projection H Rows × List H)
    (c : ChildRow H) : Except PassError (Projection H Rows × List H) :=
  if c.parent ∉ st.ids then .error (.unmapped rel)
  else if c.parent ∈ st.written then .ok acc
  else if c.child ∉ st.ids then .error (.unmapped rel)
  else
    let edges := fun h n =>
      if h = c.parent ∧ n = c.ordinal then (acc.1.edges h n).or (some (c.child, c.field))
      else acc.1.edges h n
    .ok ({ acc.1 with edges := edges }, c.parent :: acc.2)

/-- A parent is marked written after the file, since the file's later edges of
the same parent are still to come. -/
def insertChildren (rel : Path) (cs : List (ChildRow H)) (st : InsertState H Rows) :
    Except PassError (InsertState H Rows) := do
  let (proj, here) ← cs.foldlM (insertChild rel st) (st.proj, [])
  pure { st with proj := proj, written := here ++ st.written }

variable (proj : Projection H Rows)

def ensureDirNodes (rel : Path) : Projection H Rows :=
  { proj with dirs := proj.dirs ∪ (parents rel).toFinset }

def deleteFileRows (rel : Path) : Projection H Rows :=
  { proj with files := proj.files.erase rel }

def insertFile (σ : Bytes → H) (source : Path) (f : FileToParse Lang) (bytes : Bytes)
    (pf : ParsedFile H Rows) (st : InsertState H Rows) :
    Except PassError (InsertState H Rows) := do
  let st := { st with proj := ensureDirNodes st.proj f.rel }
  .require (pf.ordinals ≤ nidOrdinalMask) (.ordinalSpace f.rel pf.ordinals)
  let st ← insertChildren f.rel pf.nodeChildren (insertContents pf.nodeContents st)
  match pf.rows with
  | none => .error (.unmapped f.rel)
  | some rows =>
    .require (pf.hashes.all fun h => h ∈ st.ids) (.unmapped f.rel)
    .require (f.rel ∉ st.proj.files) (.duplicate f.rel)
    let absPath := some (source ++ '/' :: f.rel)
    let row : FileRows H Rows := ⟨pf.language, absPath, σ bytes, f.stat, rows, pf.hashes⟩
    pure { st with proj := { st.proj with files := st.proj.files.insert f.rel row } }

def parseFilePure (fe : Frontend H Lang Rows) (p : Pass) (f : FileToParse Lang) :
    Except String (Bytes × ParsedFile H Rows) :=
  match p.content f.rel with
  | .error e => .error ("read " ++ String.ofList (p.source ++ '/' :: f.rel) ++ ": " ++ e)
  | .ok content =>
    -- a null byte in the first 8KB, the same heuristic as git
    if (content.take 8192).contains 0 then
      .error ("binary file (null byte in first 8KB): " ++ String.ofList f.rel)
    else (fe.parse p.versions f.lang f.rel content).map fun pf => (content, pf)

/-- The parse loop's state: the rows, the store whose blobs grow with them, and
what became of each file. -/
structure ParseState (H Rows : Type) where
  ins : InsertState H Rows
  store : Store H
  out : Outcomes H

/-- A file the parse cannot project is still stored, with a diagnostic. -/
def parseStep (σ : Bytes → H) (fe : Frontend H Lang Rows) (p : Pass)
    (st : ParseState H Rows) (f : FileToParse Lang) : Except PassError (ParseState H Rows) :=
  match parseFilePure fe p f with
  | .error msg =>
    .ok { st with out := { st.out with
      unprojected := st.out.unprojected.insert f.rel ("not projected: " ++ msg) } }
  | .ok (bytes, pf) => do
    let ins ← insertFile σ p.source f bytes pf st.ins
    pure { ins := ins
           store := st.store.storeBlob σ bytes
           out := { st.out with
            projected := st.out.projected.insert f.rel (σ bytes, pf.syntaxError) } }

/-! ## Sweeping directories no file is under -/

/-- The directory a path is in; `none` is the root. -/
def dirOf (p : Path) : Option Path := (parents p).getLast?

def hasChild (d : Path) : Bool :=
  decide (∃ e ∈ proj.dirs, dirOf e = some d) || proj.files.keys.any fun f => dirOf f = some d

def sweepOnce : Projection H Rows :=
  { proj with dirs := proj.dirs.filter fun d => hasChild proj d }

/-- Remove directories without children until none is left; each round that
removes nothing is the last, so as many rounds as there are directories do. -/
def sweepOrphanedDirs : Projection H Rows :=
  sweepOnce^[proj.dirs.card] proj

end Insert

/-! ## The pass -/

section Run

variable {H Lang Rows : Type} [DecidableEq H] [DecidableEq Lang]

def Frontend.filterLang (fe : Frontend H Lang Rows) :
    Option String → Except PassError (Option Lang)
  | none => .ok none
  | some name => match fe.fromName name with
    | some lang => .ok (some lang)
    | none => .error (.invalidLang name)

/-- The classified files of a pass, sorted into those to parse, those too
large and the symlinks written. -/
structure WorkList (Lang : Type) where
  toParse : List (FileToParse Lang) := []
  oversized : List (Path × Int) := []
  links : List Path := []

def WorkList.add (w : WorkList Lang) (rel : Path) : FileClass Lang → WorkList Lang
  | .parse f => { w with toParse := w.toParse ++ [f] }
  | .oversized n => { w with oversized := w.oversized ++ [(rel, n)] }
  | .link => { w with links := w.links ++ [rel] }
  | .noLanguage => w
  | .unchanged => w

def oversizedMessage (size : Int) : String :=
  "not projected: " ++ toString size ++ " bytes exceeds MAX_PARSE_FILE_SIZE (" ++
    toString maxParseFileSize ++ " bytes)"

/-- The paths whose rows leave: those the pass no longer finds, and those that
grew too large or became symlinks. -/
def staleRows (p : Pass) (files : List Path) (w : WorkList Lang) (proj : Projection H Rows) :
    List Path :=
  (proj.files.keys.filter fun old =>
    p.scope.all (fun scope => old ∈ scope) &&
      decide (old ∉ w.toParse.map (·.rel)) && decide (old ∉ files)) ++
  ((w.oversized.map (·.1) ++ w.links).filter fun rel => rel ∈ proj.files)

/-- The stamps a pass leaves. Epochs are stamped on full-tree passes only. -/
def stampsAfter (p : Pass) (stamps : Stamps) : Stamps :=
  let stamps := { stamps with
    sourceRoot := some p.source
    irSchemaVersion := some p.versions.irSchemaVersion
    projectionSchemaVersion := some p.projectionSchemaVersion }
  let stamps := if p.scope.isNone && p.treeInMemory.isNone then
      { stamps with projectionLanguage := p.filterName stamps } else stamps
  if p.scope.isNone then
    { stamps with
      extractionEpoch := some p.versions.extractionEpoch
      injectionEpoch := some p.versions.injectionEpoch
      querySetEpoch := some p.versions.querySetEpoch }
  else stamps

def Pass.reach (p : Pass) : Option Walked → Reach
  | some w => .walked w
  | none => match p.scope with
    | some paths => .paths paths
    | none => .tree

def classifyAll (σ : Bytes → H) (fe : Frontend H Lang Rows) (filter : Option Lang) (p : Pass)
    (db : Db H Rows) (files : List Path) : Except PassError (WorkList Lang) :=
  files.foldlM (fun w rel => do pure (w.add rel (← p.classify σ fe filter db rel))) {}

/-- Delete the rows that leave, then parse and insert in path order. -/
def parseAll (σ : Bytes → H) (fe : Frontend H Lang Rows) (p : Pass) (db : Db H Rows)
    (files : List Path) (work : WorkList Lang) : Except PassError (ParseState H Rows) :=
  let gone := staleRows p files work db.proj ++ work.toParse.map (·.rel)
  let oversized := work.oversized.foldl (fun m x => m.insert x.1 (oversizedMessage x.2)) ∅
  let sorted := work.toParse.insertionSort fun a b => (compare a.rel b.rel).isLE
  sorted.foldlM (parseStep σ fe p)
    ⟨⟨gone.foldl deleteFileRows db.proj, [], []⟩, db.store, ⟨∅, oversized⟩⟩

def parseIntoConnWith (σ : Bytes → H) (fe : Frontend H Lang Rows) (p : Pass)
    (db : Db H Rows) : Except PassError (Db H Rows) := do
  .require (p.treeInMemory.isSome || p.dir.isDir) .notADirectory
  let filter ← fe.filterLang (p.filterName db.stamps)
  let (files, walked) ← p.files
  .require (db.stamps.projectionSchemaVersion.all (· = p.projectionSchemaVersion))
    .oldProjection
  let work ← classifyAll σ fe filter p db files
  let st ← parseAll σ fe p db files work
  match sync σ p.dir (p.reach walked) p.memory st.out st.store with
  | .error e => .error (.sync e)
  | .ok store =>
    -- nothing was deleted: no directory can have lost its last child
    let proj := if (staleRows p files work db.proj).isEmpty then st.ins.proj
      else sweepOrphanedDirs st.ins.proj
    pure ⟨store, proj, stampsAfter p db.stamps⟩

/-- What a pass that commits went through. -/
structure PassStages (σ : Bytes → H) (fe : Frontend H Lang Rows) (p : Pass)
    (db db' : Db H Rows) where
  filter : Option Lang
  files : List Path
  walked : Option Walked
  work : WorkList Lang
  st : ParseState H Rows
  filter_eq : fe.filterLang (p.filterName db.stamps) = .ok filter
  files_eq : p.files = .ok (files, walked)
  schema_eq : db.stamps.projectionSchemaVersion.all (· = p.projectionSchemaVersion) = true
  work_eq : classifyAll σ fe filter p db files = .ok work
  parse_eq : parseAll σ fe p db files work = .ok st
  sync_eq : sync σ p.dir (p.reach walked) p.memory st.out st.store = .ok db'.store
  proj_eq : db'.proj = if (staleRows p files work db.proj).isEmpty then st.ins.proj
    else sweepOrphanedDirs st.ins.proj
  stamps_eq : db'.stamps = stampsAfter p db.stamps

theorem stages_of_ok {σ : Bytes → H} {fe : Frontend H Lang Rows} {p : Pass} {db db' : Db H Rows}
    (h : parseIntoConnWith σ fe p db = .ok db') : Nonempty (PassStages σ fe p db db') := by
  obtain ⟨_, -, h⟩ := Except.bind_eq_ok_iff.mp h
  obtain ⟨filter, hfilter, h⟩ := Except.bind_eq_ok_iff.mp h
  obtain ⟨⟨files, walked⟩, hfiles, h⟩ := Except.bind_eq_ok_iff.mp h
  obtain ⟨_, hschema, h⟩ := Except.bind_eq_ok_iff.mp h
  obtain ⟨work, hwork, h⟩ := Except.bind_eq_ok_iff.mp h
  obtain ⟨st, hst, h⟩ := Except.bind_eq_ok_iff.mp h
  cases hsync : sync σ p.dir (p.reach walked) p.memory st.out st.store with
  | error e => rw [hsync] at h; simp at h
  | ok store =>
    rw [hsync] at h
    cases h
    exact ⟨filter, files, walked, work, st, hfilter, hfiles,
      Except.require_eq_ok_iff.mp hschema, hwork, hst, hsync, rfl, rfl⟩

end Run

end LeyLine
