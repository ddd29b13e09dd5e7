import LeyLine.Lib.SepPath

/-!
# The store's manifest

`_tree` holds one row per path: a file of any bytes with a git mode, or a
directory. `source_blobs` holds file bytes by content address, and
`_parse_diagnostics` one message per file the parse took up.

The rows are kept as ordered tables, as SQLite's `WITHOUT ROWID` primary keys
are. Over them stands the *manifest*: the partial function from paths to
entries that every statement about the tree is made in. Each operation has one
lemma that says what it does to the manifest.
-/

namespace LeyLine

/-- A path is text; the tree orders it as SQLite orders the `path` column. -/
abbrev Path := List Char

instance : LawfulBEq Path := inferInstance

abbrev Bytes := List UInt8

/-- Each directory above a path, outermost first. -/
abbrev parents (p : Path) : List Path := SepPath.parents '/' p

abbrev Under (d p : Path) : Prop := SepPath.Under '/' d p

abbrev AtOrUnder (d p : Path) : Prop := SepPath.AtOrUnder '/' d p

/-- One component of a plain path: not empty, `.` or `..`. -/
def plainComponent (c : Path) : Bool :=
  !c.isEmpty && c != ['.'] && c != ['.', '.']

/-- Whether a path is a plain relative path: one or more `/`-separated
components, none empty, `.` or `..`. -/
def plainRelative (p : Path) : Bool :=
  !p.isEmpty && (p.splitOn '/').all plainComponent

theorem plainRelative_iff {p : Path} :
    plainRelative p = true ↔ ∀ c ∈ p.splitOn '/', plainComponent c = true := by
  constructor
  · intro h
    exact List.all_eq_true.mp (Bool.and_eq_true_iff.mp h).2
  · intro h
    refine Bool.and_eq_true_iff.mpr ⟨?_, List.all_eq_true.mpr h⟩
    cases p with
    | nil => exact absurd (h [] (by simp)) (by decide)
    | cons c cs => rfl

theorem plainRelative_of_under {d p : Path} (h : Under d p)
    (hp : plainRelative p = true) : plainRelative d = true := by
  obtain ⟨r, rfl⟩ := SepPath.under_iff.mp h
  rw [plainRelative_iff] at hp ⊢
  intro c hc
  refine hp c ?_
  rw [List.splitOn_append_cons_self]
  exact List.mem_append_left _ hc

def nul : Char := Char.ofNat 0

/-- What SQLite's `length`, `substr` and `LIKE` see of a text: they stop at U+0000. -/
def sqlText (t : List Char) : List Char := t.takeWhile (· ≠ nul)

theorem take_sqlText_iff {start t : List Char} :
    (sqlText t).take (sqlText start).length = start ↔ start <+: t ∧ nul ∉ start := by
  constructor
  · intro h
    have hseen : start <+: sqlText t := h ▸ List.take_prefix _ _
    refine ⟨hseen.trans (List.takeWhile_prefix _), fun hnul => ?_⟩
    have hkept := List.mem_takeWhile_imp (hseen.subset hnul)
    simp at hkept
  · rintro ⟨⟨r, rfl⟩, hnul⟩
    have hall : ∀ c ∈ start, (decide (c ≠ nul)) = true := fun c hc => by
      simpa using fun heq : c = nul => hnul (heq ▸ hc)
    have hstart : sqlText start = start := List.takeWhile_eq_self_iff.mpr hall
    rw [hstart, sqlText, List.takeWhile_append_of_pos hall, List.take_left]

/-! ## Modes and entries -/

/-- A file entry's git mode. -/
inductive Mode where
  | regular
  | executable
  | symlink
  deriving Repr, DecidableEq

def Mode.git : Mode → Nat
  | .regular => 0o100644
  | .executable => 0o100755
  | .symlink => 0o120000

def directoryMode : Nat := 0o040000

/-- Every git mode the store holds: a file's mode or a directory. -/
inductive GitMode where
  | regular
  | executable
  | symlink
  | directory
  deriving Repr, DecidableEq

def GitMode.git : GitMode → Nat
  | .regular => Mode.regular.git
  | .executable => Mode.executable.git
  | .symlink => Mode.symlink.git
  | .directory => directoryMode

def Mode.toGitMode : Mode → GitMode
  | .regular => .regular
  | .executable => .executable
  | .symlink => .symlink

/-- What the store holds at a path. Blobs are named by content addresses
in `H`. -/
inductive Entry (H : Type) where
  | file (mode : Mode) (blob : H)
  | dir
  deriving Repr, DecidableEq

/-- The file's blob; `none` for a directory. -/
def Entry.blob {H : Type} : Entry H → Option H
  | .file _ b => some b
  | .dir => none

/-- The walk's stat pair of a file: modification time and size. -/
abbrev Stat := Int × Int

/-- A `_tree` row: the entry, and the stat cache of a file the walk stored. -/
structure TreeRow (H : Type) where
  entry : Entry H
  stat : Option Stat
  deriving Repr, DecidableEq

/-- A file's diagnostic: the first error the parser found, or why the file was
not projected. -/
structure Diagnostic (H : Type) where
  path : Path
  blob : H
  projected : Bool
  span : Option (Int × Int × Int × Int)
  message : String
  deriving Repr, DecidableEq

/-- The store's own tables: the manifest, the blobs by content address, and
the parse's diagnostics. -/
structure Store (H : Type) where
  tree : Std.ExtTreeMap Path (TreeRow H)
  blobs : H → Option Bytes
  diagnostics : Std.ExtTreeMap Path (Diagnostic H)

/-- A manifest as a partial function from paths to entries. -/
abbrev Manifest (H : Type) := Path → Option (Entry H)

/-- The three properties every writer of `_tree` is to keep. -/
structure Manifest.WellFormed {H : Type} (m : Manifest H) : Prop where
  plain : ∀ p, m p ≠ none → plainRelative p = true
  parents_dir : ∀ d p, m p ≠ none → Under d p → m d = some .dir
  nothing_under_file : ∀ d p mode blob, m d = some (.file mode blob) → Under d p → m p = none

theorem Manifest.WellFormed.of_parents {H : Type} {m : Manifest H}
    (hplain : ∀ p, m p ≠ none → plainRelative p = true)
    (hpar : ∀ d p, m p ≠ none → Under d p → m d = some .dir) : m.WellFormed := by
  refine ⟨hplain, hpar, ?_⟩
  intro d p mode blob hd hu
  by_contra hp
  rw [hpar d p hp hu] at hd
  simp at hd

namespace Store

variable {H : Type}

variable (s : Store H)

def entry (p : Path) : Option (Entry H) := s.tree[p]?.map (·.entry)

def stats (p : Path) : Option Stat := s.tree[p]?.bind (·.stat)

def blobBytes (b : H) : Option Bytes := s.blobs b

def manifest : Manifest H := s.entry

/-- The paths strictly under `dir`, in path order, as the query
`substr(path, 1, length(?1)) = ?1` finds them for `dir` and a slash. -/
def under (dir : Path) : List Path :=
  s.tree.keys.filter fun p =>
    decide ((sqlText p).take (sqlText (dir ++ ['/'])).length = dir ++ ['/'])

def putOneDir (p : Path) : Store H :=
  { s with tree := s.tree.insert p ⟨.dir, none⟩ }

def putParents (p : Path) : Store H := (parents p).foldl putOneDir s

def putDir (p : Path) : Store H := (s.putParents p).putOneDir p

/-- Record a file entry, with the stat the walk saw (`none` for bytes that
came from a proposal), and every missing parent directory. -/
def putFile (p : Path) (mode : Mode) (blob : H) (stat : Option Stat) : Store H :=
  let s := s.putParents p
  { s with tree := s.tree.insert p ⟨.file mode blob, stat⟩ }

/-- Remove the entry at a path, its diagnostic with it. Directories above it
stay. -/
def remove (p : Path) : Store H :=
  { s with tree := s.tree.erase p, diagnostics := s.diagnostics.erase p }

/-- Replace a path's diagnostic; `none` clears it. -/
def setDiagnostic (p : Path) (d : Option (Diagnostic H)) : Store H :=
  { s with
    diagnostics := match d with
      | none => s.diagnostics.erase p
      | some d => s.diagnostics.insert p d }

def storeBlob [DecidableEq H] (σ : Bytes → H) (s : Store H) (bytes : Bytes) : Store H :=
  { s with blobs := fun h =>
      if h = σ bytes then (s.blobs h).or (some bytes) else s.blobs h }

/-! ## What each operation does to the manifest -/

/-- Under a directory whose path holds U+0000 the query finds nothing. -/
theorem mem_under {s : Store H} {d p : Path} :
    p ∈ s.under d ↔ s.entry p ≠ none ∧ Under d p ∧ nul ∉ d := by
  have hmem : p ∈ s.tree ↔ s.entry p ≠ none := by
    rw [Std.ExtTreeMap.mem_iff_isSome_getElem?, entry, Option.isSome_iff_ne_none, ne_eq,
      ne_eq, Option.map_eq_none_iff]
  have hunder : d ++ ['/'] <+: p ∧ nul ∉ d ++ ['/'] ↔ Under d p ∧ nul ∉ d :=
    and_congr_right fun _ => by simp [show nul ≠ '/' by decide]
  rw [under, List.mem_filter, Std.ExtTreeMap.mem_keys, hmem, decide_eq_true_eq, take_sqlText_iff,
    hunder]

@[simp] theorem entry_putOneDir (d p : Path) :
    (s.putOneDir d).entry p = if d = p then some .dir else s.entry p := by
  simp only [entry, putOneDir, Std.ExtTreeMap.getElem?_insert, Std.LawfulEqOrd.compare_eq_iff_eq]
  split <;> rfl

theorem entry_foldl_putOneDir (p : Path) :
    ∀ (l : List Path) (s : Store H),
      (l.foldl putOneDir s).entry p = if p ∈ l then some .dir else s.entry p
  | [], s => by simp
  | d :: l, s => by
    rw [List.foldl_cons, entry_foldl_putOneDir p l, entry_putOneDir]
    by_cases hl : p ∈ l
    · simp [hl]
    · simp [hl, eq_comm]

@[simp] theorem entry_putParents (r p : Path) :
    (s.putParents r).entry p = if Under p r then some .dir else s.entry p := by
  simp only [putParents, entry_foldl_putOneDir, SepPath.mem_parents]

theorem entry_putDir (r p : Path) :
    (s.putDir r).entry p = if AtOrUnder p r then some .dir else s.entry p := by
  simp only [putDir, entry_putOneDir, entry_putParents, AtOrUnder, SepPath.AtOrUnder]
  by_cases hr : r = p
  · simp [hr]
  · simp [hr, Ne.symm hr]

theorem entry_putFile (r p : Path) (mode : Mode) (blob : H) (stat : Option Stat) :
    (s.putFile r mode blob stat).entry p = if r = p then some (.file mode blob)
      else if Under p r then some .dir else s.entry p := by
  have hpar := entry_putParents s r p
  simp only [entry, putFile, Std.ExtTreeMap.getElem?_insert, Std.LawfulEqOrd.compare_eq_iff_eq]
  split
  · rfl
  · exact hpar

@[simp] theorem entry_remove (r p : Path) :
    (s.remove r).entry p = if r = p then none else s.entry p := by
  simp only [entry, remove, Std.ExtTreeMap.getElem?_erase, Std.LawfulEqOrd.compare_eq_iff_eq]
  split <;> rfl

theorem entry_foldl_remove (p : Path) :
    ∀ (l : List Path) (s : Store H), (l.foldl remove s).entry p = if p ∈ l then none else s.entry p
  | [], s => by simp
  | r :: l, s => by
    rw [List.foldl_cons, entry_foldl_remove p l, entry_remove]
    by_cases hl : p ∈ l
    · simp [hl]
    · simp [hl, eq_comm]

end Store

end LeyLine
