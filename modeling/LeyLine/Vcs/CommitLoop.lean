import LeyLine.Lib.Machine
import LeyLine.Vcs.Walk

/-!
# The commit loop

`VersionedGraph` sends an event after an operation on the graph it wraps;
`jj_commit_loop` collects events until a quiet period has passed, snapshots the graph and
flushes it to the arena. Beside the channel the loop polls the control block, and
snapshots the graph when the root is not the one it last saw.

One action is one access to what operations, publishers and the loop share. An operation
and the event it sends are two. A snapshot reads the graph bit by bit: one that something
changed the graph under commits some tree, not necessarily one the graph ever was. An
external publish is taken to be what the graph shows at once.

The staging overlay and the task list, and so the ids under `.staging` and `.dex`, are
left out.
-/

namespace LeyLine.Vcs

open Staging (LiveGraph Nodes joinId)

inductive WriteEvent
  | contentChanged (id : Path)
  | nodeCreated (id : Path)
  | nodeRemoved (id : Path)
  | nodeRenamed (old new : Path)
  deriving DecidableEq

/-- One part of a commit message: a count that is not zero, and what is counted. -/
def messagePart (count : Nat) (what : Text) : List Text :=
  if 0 < count then [(toString count).toList ++ ' ' :: what] else []

def formatCommitMessage (events : List WriteEvent) : Text :=
  let created := events.countP fun e => match e with | .nodeCreated _ => true | _ => false
  let changed := events.countP fun e => match e with | .contentChanged _ => true | _ => false
  let removed := events.countP fun e => match e with | .nodeRemoved _ => true | _ => false
  let renamed := events.countP fun e => match e with | .nodeRenamed _ _ => true | _ => false
  let parts := messagePart created "created".toList ++ messagePart changed "changed".toList ++
    messagePart removed "removed".toList ++ messagePart renamed "renamed".toList
  if parts = [] then "snapshot".toList
  else "snapshot: ".toList ++ (", ".toList).intercalate parts

/-! ## Operations through `VersionedGraph` -/

def isVirtual (id : Path) : Bool := id = leyline || (leyline ++ ['/']).isPrefixOf id

inductive Op
  | create (parentId name : Path) (isDir : Bool)
  | write (id : Path) (data : Bytes) (offset : Nat)
  | truncate (id : Path)
  | remove (id : Path)
  | rename (id newParentId newName : Path)
  | revert (hex : Text)
  deriving DecidableEq

def Op.isRevert : Op → Bool
  | .revert _ => true
  | _ => false

variable {w : Nat}

/-- What an operation makes of the graph, and the event it sends; nothing when it is
refused. A write to `.leyline/revert` is `revert`. -/
def Op.perform (keep : Bytes → Bytes) (listing : Listing) (repo : Repo w) (now : Int) (t : Nodes) :
    Op → Option (Nodes × Option WriteEvent)
  | .create parentId name isDir =>
    ((NodeTree.createNode t now parentId name isDir).toOption).map fun t' =>
      (t', some (.nodeCreated (joinId parentId name)))
  | .write id data offset =>
    if isVirtual id then none
    else ((NodeTree.writeContent keep t now id data offset).toOption).map fun t' =>
      (t', some (.contentChanged id))
  | .truncate id => some (t.truncate now id, none)
  | .remove id => some (t.remove id, some (.nodeRemoved id))
  | .rename id newParentId newName =>
    ((NodeTree.renameNode t now id newParentId newName).toOption).map fun t' =>
      (t', some (.nodeRenamed id (joinId newParentId newName)))
  | .revert hex =>
    ((revertToCommit keep listing repo hex t now).toOption).map fun t' => (t', none)

/-! ## The loop -/

/-- Where the loop is. `walking` has a message and whether a poll began it. -/
inductive Phase
  | select
  | quiet
  | walking (message : Text) (ofRoot : Bool)
  | flush
  | reread
  | done
  deriving DecidableEq

/-- A snapshot for events is flushed to the arena; one for a new root is there already. -/
def afterCommit (ofRoot : Bool) : Phase := if ofRoot then .select else .flush

theorem length_zeroRoot : (List.replicate 32 0 : Bytes).length = 32 := List.length_replicate

def zeroRoot : Digest := ⟨List.replicate 32 0, length_zeroRoot⟩

structure Loop (w : Nat) where
  graph : Nodes
  /-- Events of operations that were performed and have not been sent. -/
  unsent : List WriteEvent
  channel : List WriteEvent
  /-- All senders are dropped. -/
  closed : Bool
  phase : Phase
  batch : List WriteEvent
  /-- The graph was changed since the snapshot that is being taken began. -/
  touched : Bool
  /-- The loop was given a control path. -/
  watched : Bool
  root : Digest
  lastRoot : Digest
  repo : Repo w

inductive Action (w : Nat)
  | perform (now : Int) (op : Op)
  | send (i : Nat)
  | publish (root : Digest) (image : LiveGraph)
  | dropSenders
  | recv
  | elapse
  | poll (opens : Bool)
  | commit (succeeds : Bool) (id : CommitId w) (torn : JjTree)
  | flush (succeeds : Bool)
  | reread (opens : Bool)

namespace Loop

def isWalking (s : Loop w) : Bool :=
  match s.phase with
  | .walking _ _ => true
  | _ => false

def rootDue (s : Loop w) : Bool := s.watched && s.root ≠ s.lastRoot && s.root ≠ zeroRoot

/-- `rx.recv()` gives the next event, or that there will be none. -/
def recv (s : Loop w) : Loop w :=
  match s.channel with
  | e :: rest => { s with channel := rest, batch := s.batch ++ [e], phase := .quiet }
  | [] => if s.closed then { s with phase := .done } else s

def committed (s : Loop w) (message : Text) (id : CommitId w) (torn : JjTree) :
    Except Fault (Repo w) :=
  if s.touched then s.repo.newCommit id ⟨s.repo.parentsOfNew, torn, message⟩
  else (commitSnapshot s.repo s.graph message id).map Prod.fst

variable (keep : Bytes → Bytes) (listing : Listing) (rootOf : Nodes → Digest)

def next (s : Loop w) : Action w → Loop w
  | .perform now op =>
    -- a revert and a snapshot hold the same lock
    if s.closed || (s.isWalking && op.isRevert) then s
    else
      match op.perform keep listing s.repo now s.graph with
      | none => s
      | some (t, event) =>
        { s with graph := t, touched := true, unsent := s.unsent ++ event.toList }
  | .send i =>
    match s.unsent[i]? with
    | none => s
    | some e => { s with unsent := s.unsent.eraseIdx i, channel := s.channel ++ [e] }
  | .publish root image => { s with root := root, graph := image.nodes, touched := true }
  | .dropSenders => if s.unsent = [] then { s with closed := true } else s
  | .recv =>
    match s.phase with
    | .select => s.recv
    | .quiet => s.recv
    | _ => s
  | .elapse =>
    if s.phase = .quiet ∧ s.channel = [] ∧ s.closed = false then
      { s with
        phase := .walking (formatCommitMessage s.batch) false
        batch := []
        touched := false }
    else s
  | .poll opens =>
    if s.phase = .select ∧ opens = true ∧ s.rootDue = true then
      { s with lastRoot := s.root, phase := .walking "root change".toList true, touched := false }
    else s
  | .commit succeeds id torn =>
    match s.phase with
    | .walking message ofRoot =>
      match succeeds, s.committed message id torn with
      | true, .ok repo => { s with repo := repo, phase := afterCommit ofRoot }
      | _, _ => { s with phase := .select }
    | _ => s
  | .flush succeeds =>
    if s.phase = .flush then
      { s with root := if succeeds then rootOf s.graph else s.root, phase := .reread }
    else s
  | .reread opens =>
    if s.phase = .reread then
      { s with lastRoot := if s.watched && opens then s.root else s.lastRoot, phase := .select }
    else s

end Loop

def Repo.newestTree (repo : Repo w) : JjTree := (repo.commits.head?.map fun c => c.2.tree).getD ∅

/-- **The newest commit holds exactly the files that are not ignored.** -/
def Loop.InSync (s : Loop w) : Prop :=
  ∀ id, s.repo.newestTree[id]? = if isIgnored id = true then none else NodeTree.fileBytes s.graph id

/-- Nothing is left to do: every event was received, and a poll finds no new root. -/
def Loop.Rests (s : Loop w) : Prop :=
  s.phase = .done ∨ s.phase = .select ∧ s.unsent = [] ∧ s.channel = [] ∧ s.rootDue = false

instance (s : Loop w) : Decidable s.Rests := inferInstanceAs (Decidable (_ ∨ _))

end LeyLine.Vcs
