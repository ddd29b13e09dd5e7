import LeyLine.Fs.NodeTree
import LeyLine.Lib.Assoc

/-!
# Snapshots of a graph in a jj repository

`commit_snapshot` walks a graph from its root, leaving out what is ignored, and commits
the files it meets; `revert_to_commit` clears the graph and creates the files of a commit
again.

jj is a store that returns what it was given: a tree is the files written to it, by path,
and a commit is found under its id. The id a commit gets is jj's choice, taken here as an
argument. The order in which jj lists the entries of a tree is left open (`Listing`).
-/

namespace LeyLine.Vcs

open Std (ExtTreeMap)
open Staging (Node Nodes joinId nameOf parentIdOf)
open NodeTree (isPath)

/-- A `String`. -/
abbrev Text := List Char

/-! ## What is ignored -/

def ignoredPrefixes : List Path :=
  ["target/".toList, ".git/".toList, "build/".toList, "tmp/".toList, ".leyline/".toList]

def ignoredSuffixes : List Path := [".log".toList, ".DS_Store".toList]

def isIgnored (id : Path) : Bool :=
  ignoredPrefixes.any (fun p => p.isPrefixOf id) ||
    ignoredSuffixes.any (fun s => s.isSuffixOf (nameOf id))

def leyline : Path := ".leyline".toList

/-! ## The repository -/

/-- A commit id in hex; a repository's ids are of one length. -/
structure CommitId (w : Nat) where
  hex : Text
  length_eq : hex.length = w
  deriving DecidableEq

instance {w : Nat} : LawfulBEq (CommitId w) := inferInstance

/-- The files of a jj tree. -/
abbrev JjTree := ExtTreeMap Path Bytes

/-- An order in which jj lists the entries of a tree. -/
structure Listing where
  entries : JjTree → List (Path × Bytes)
  perm : ∀ tree, (entries tree).Perm tree.toList

structure Commit (w : Nat) where
  parentIds : List (CommitId w)
  tree : JjTree
  description : Text

structure Repo (w : Nat) where
  rootCommitId : CommitId w
  commits : List (CommitId w × Commit w)
  heads : List (CommitId w)

inductive Fault
  | refused (why : NodeTree.Refusal)
  | invalidPath (id : Path)
  | missingCommit
  | idTaken
  | noCommit (hex : Text)
  | stuck
  deriving DecidableEq

variable {w : Nat}

variable (repo : Repo w)

def Repo.getCommit (id : CommitId w) : Option (Commit w) :=
  Assoc.get repo.commits id

/-! ## A snapshot -/

/-- One child of a listing; `below` walks a directory. -/
def visit (t : Nodes) (below : Path → JjTree → Except Fault JjTree) (tree : JjTree)
    (child : Node) : Except Fault JjTree :=
  if isIgnored child.id = true then .ok tree
  else if child.isDir = true then below child.id tree
  else if isPath child.id = false then .error (.invalidPath child.id)
  else .ok (tree.insert child.id (t.readContent child.id (max child.size 1) 0))

/-- The files below `parentId`, set in the tree. -/
def walkGraphIntoTree (t : Nodes) : Nat → Path → JjTree → Except Fault JjTree
  | 0, _, _ => .error .stuck
  | fuel + 1, parentId, tree =>
    (t.listChildren parentId).foldlM (visit t (walkGraphIntoTree t fuel)) tree

def height (t : Nodes) : Nat := t.toList.foldr (fun x n => max x.1.length n) 0 + 1

def Repo.parentsOfNew : List (CommitId w) :=
  if repo.heads = [] ∨ repo.heads = [repo.rootCommitId] then [repo.rootCommitId]
  else
    let nonRoot := repo.heads.filter (· ≠ repo.rootCommitId)
    if nonRoot = [] then [repo.rootCommitId] else nonRoot

def Repo.newCommit (id : CommitId w) (commit : Commit w) : Except Fault (Repo w) :=
  if id = repo.rootCommitId ∨ (repo.getCommit id).isSome then .error .idTaken
  else .ok { repo with
    commits := (id, commit) :: repo.commits
    heads := id :: repo.heads.filter (· ∉ commit.parentIds) }

def commitSnapshot (t : Nodes) (message : Text) (id : CommitId w) :
    Except Fault (Repo w × CommitId w) := do
  let tree ← walkGraphIntoTree t (height t) [] ∅
  let repo ← repo.newCommit id ⟨repo.parentsOfNew, tree, message⟩
  .ok (repo, id)

/-! ## A revert -/

/-- Back from the heads, a stack of ids and those seen; the first id that starts with
the given digits. -/
def resolveLoop (repo : Repo w) (hex : Text) :
    Nat → List (CommitId w) → List (CommitId w) → Except Fault (Commit w)
  | 0, _, _ => .error .stuck
  | _ + 1, [], _ => .error (.noCommit hex)
  | fuel + 1, id :: queue, seen =>
    if id ∈ seen then resolveLoop repo hex fuel queue seen
    else if id = repo.rootCommitId then resolveLoop repo hex fuel queue (id :: seen)
    else
      match repo.getCommit id with
      | none => .error .missingCommit
      | some commit =>
        if hex.isPrefixOf id.hex then .ok commit
        else resolveLoop repo hex fuel (commit.parentIds.reverse ++ queue) (id :: seen)

/-- Every id is put on the stack once for each time it is a head or a parent. -/
def Repo.links : Nat :=
  repo.heads.length + (repo.commits.map fun c => c.2.parentIds.length).sum

def resolveCommitByPrefix (hex : Text) : Except Fault (Commit w) :=
  resolveLoop repo hex (repo.links + 1) repo.heads.reverse []

def refuse {α : Type} : Except NodeTree.Refusal α → Except Fault α := Except.mapError .refused

def ensureParentDirs (t : Nodes) (now : Int) (path : Path) : Except Fault Nodes := do
  let (t, _) ← ((path.splitOn '/').dropLast).foldlM (fun (t, currentParent) part =>
    let dirId := joinId currentParent part
    if (t.getNode dirId).isNone then do
      let t ← refuse (NodeTree.createNode t now currentParent part true)
      .ok (t, dirId)
    else .ok (t, dirId)) (t, ([] : Path))
  .ok t

def restoreFile (keep : Bytes → Bytes) (now : Int) (t : Nodes) (entry : Path × Bytes) :
    Except Fault Nodes := do
  let (path, content) := entry
  let t ← ensureParentDirs t now path
  let name := nameOf path
  let fileParent := if '/' ∈ path then path.take (path.length - name.length - 1) else []
  let t ← refuse (NodeTree.createNode t now fileParent name false)
  if content = [] then .ok t
  else refuse (NodeTree.writeContent keep t now (joinId fileParent name) content 0)

def restoreTreeToGraph (keep : Bytes → Bytes) (listing : Listing) (now : Int) (t : Nodes)
    (tree : JjTree) : Except Fault Nodes :=
  (listing.entries tree).foldlM (restoreFile keep now) t

/-- Everything at the root goes but `.leyline`. -/
def clear (t : Nodes) : Nodes :=
  (t.listChildren []).foldl (fun t child => if child.name ≠ leyline then t.remove child.id else t) t

def revertToCommit (keep : Bytes → Bytes) (listing : Listing) (repo : Repo w) (hex : Text)
    (t : Nodes) (now : Int) : Except Fault Nodes := do
  let commit ← resolveCommitByPrefix repo hex
  restoreTreeToGraph keep listing now (clear t) commit.tree

end LeyLine.Vcs
