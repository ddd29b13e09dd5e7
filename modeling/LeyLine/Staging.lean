import LeyLine.Lib.StackWalk
import LeyLine.Partition

/-!
# The staging overlay

`StagingGraph` puts edits of a live graph aside: a shadow table takes the rows that
were created, written, truncated or removed, and reads look there before they look at
the live graph. A removed node stays in the shadow as a tombstone. The shadow is a table of
SQLite, which refuses rows and patterns past its limits and compares text with `LIKE` up to
its first U+0000.

`Nodes` is a graph as its readers see it, `StagingGraph` the overlay with the operations of
the source. `Nodes.apply` is the same editing done to a private copy: what the overlay
stands for.
-/

namespace LeyLine.Staging

open Std (ExtTreeMap)

/-- A `String`. -/
abbrev Text := List Char

/-! ## Graphs -/

structure Node where
  id : Path
  name : Path
  isDir : Bool
  size : Nat
  mtimeNanos : Int
  deriving DecidableEq

def rootNode : Node := ⟨[], [], true, 0, 0⟩

def parentIdOf (id : Path) : Path := SepPath.dirPart '/' id

def nameOf (id : Path) : Path := SepPath.lastPart '/' id

def joinId (parentId name : Path) : Path := SepPath.join '/' parentId name

/-- What a graph holds under an id. -/
structure Held where
  isDir : Bool
  size : Nat
  mtime : Int
  content : Bytes
  deriving DecidableEq

def Held.node (id : Path) (h : Held) : Node := ⟨id, nameOf id, h.isDir, h.size, h.mtime⟩

/-- The bytes a buffer of `len` bytes takes from `offset` on. -/
def slice (bytes : Bytes) (len offset : Nat) : Bytes := (bytes.drop offset).take len

abbrev Nodes := ExtTreeMap Path Held

namespace Nodes

def getNode (t : Nodes) (id : Path) : Option Node :=
  if id = [] then some rootNode else t[id]?.map (Held.node id)

def listChildren (t : Nodes) (parentId : Path) : List Node :=
  (t.toList.filter fun x => parentIdOf x.1 = parentId).map fun x => x.2.node x.1

def lookupChild (t : Nodes) (parentId name : Path) : Option Node :=
  (t.listChildren parentId).find? fun node => node.name = name

def readContent (t : Nodes) (id : Path) (len offset : Nat) : Bytes :=
  match t[id]? with
  | some h => slice h.content len offset
  | none => []

end Nodes

/-- A slash-separated path: a name that is not empty, below its parent's path. -/
def IsId (id : Path) : Prop := nameOf id ≠ [] ∧ joinId (parentIdOf id) (nameOf id) = id

instance (id : Path) : Decidable (IsId id) := inferInstanceAs (Decidable (_ ∧ _))

/-- The ids are paths, and the parent of a node is the root or a directory. -/
structure Nodes.Hierarchical (t : Nodes) : Prop where
  path : ∀ id h, t[id]? = some h → IsId id
  parent : ∀ id h, t[id]? = some h → parentIdOf id = [] ∨ ∃ d, t[parentIdOf id]? = some d ∧
    d.isDir = true

/-- A live graph whose ids are slash-separated paths. -/
structure LiveGraph where
  nodes : Nodes
  tree : nodes.Hierarchical

/-! ## Editing -/

inductive Op
  | create (parentId name : Path) (isDir : Bool)
  | write (id : Path) (data : Bytes) (offset : Nat)
  | truncate (id : Path)
  | remove (id : Path)
  deriving DecidableEq

/-- Bytes patched at an offset, grown with zeros where they are too short. -/
def patched (content data : Bytes) (offset : Nat) : Bytes :=
  let grown := if content.length < offset + data.length then
    content ++ List.replicate (offset + data.length - content.length) 0 else content
  grown.take offset ++ data ++ grown.drop (offset + data.length)

namespace Nodes

/-- A directory for each missing ancestor, then the node, unless it is there. -/
def create (t : Nodes) (now : Int) (parentId name : Path) (isDir : Bool) : Nodes :=
  let id := joinId parentId name
  if id ∈ t then t else
    ((parents id).foldl (fun t d => t.insertIfNew d ⟨true, 0, now, []⟩) t).insert id
      ⟨isDir, 0, now, []⟩

def write (t : Nodes) (now : Int) (id : Path) (data : Bytes) (offset : Nat) : Nodes :=
  match t[id]? with
  | some h =>
    let content := patched h.content data offset
    t.insert id { h with content := content, size := content.length, mtime := now }
  | none => t

def truncate (t : Nodes) (now : Int) (id : Path) : Nodes :=
  match t[id]? with
  | some h => t.insert id { h with content := [], size := 0, mtime := now }
  | none => t

def remove (t : Nodes) (id : Path) : Nodes :=
  if id ∈ t then t.filter fun k _ => ¬ AtOrUnder id k else t

def apply (t : Nodes) (now : Int) : Op → Nodes
  | .create parentId name isDir => t.create now parentId name isDir
  | .write id data offset => t.write now id data offset
  | .truncate id => t.truncate now id
  | .remove id => t.remove id

def applyAll (t : Nodes) (edits : List (Int × Op)) : Nodes :=
  edits.foldl (fun t edit => t.apply edit.1 edit.2) t

end Nodes

/-! ## The overlay -/

/-- A row of `shadow_nodes`; the id is the key. -/
structure Row where
  parentId : Path
  name : Path
  isDir : Bool
  size : Int
  mtime : Int
  record : Option Text
  tombstone : Bool
  deriving DecidableEq

def Row.node (id : Path) (r : Row) : Node := ⟨id, r.name, r.isDir, r.size.toNat, r.mtime⟩

def Row.shown (id : Path) (r : Row) : Option Node :=
  if r.tombstone then none else some (r.node id)

structure StagingGraph where
  live : LiveGraph
  shadow : ExtTreeMap Path Row

inductive Fault
  | panic | constraint | endless | tooBig
  deriving DecidableEq, Repr

/-- `n as i64`. -/
def asI64 (n : Nat) : Int := if n < 2 ^ 63 then n else n - 2 ^ 64

/-- The longest a `Vec` can be. -/
def isizeMax : Nat := 2 ^ 63 - 1

/-! ## SQLite -/

/-- `%` stands for any string and `_` for any character; letters of ASCII match in either
case. -/
def likeText : List Char → List Char → Bool
  | [], text => text.isEmpty
  | '%' :: pattern, text => text.tails.any (likeText pattern)
  | '_' :: pattern, text => match text with
      | [] => false
      | _ :: text => likeText pattern text
  | c :: pattern, text => match text with
      | [] => false
      | d :: text => c.toLower == d.toLower && likeText pattern text

/-- SQLite's `LIKE`, which stops at U+0000 in the pattern and in the text. -/
def like (pattern text : List Char) : Bool := likeText (sqlText pattern) (sqlText text)

/-- The bytes a row may have, and a pattern of `LIKE`. -/
def maxLength : Nat := 1000000000

def maxPattern : Nat := 50000

def varintLength (n : Nat) : Nat := n.log2 / 7 + 1

/-- The bytes of an integer in a row, besides its type. -/
def intBytes (i : Int) : Nat :=
  let n := if i < 0 then -(i + 1) else i
  if i = 0 ∨ i = 1 then 0
  else if n < 2 ^ 7 then 1
  else if n < 2 ^ 15 then 2
  else if n < 2 ^ 23 then 3
  else if n < 2 ^ 31 then 4
  else if n < 2 ^ 47 then 6
  else 8

/-- The bytes of a text in a row, with its type. -/
def textBytes (text : Text) : Nat :=
  varintLength (13 + 2 * (utf8 text).length) + (utf8 text).length

/-- The bytes of a row: the length of its header, the types of its columns, and their values.
The kind and the tombstone are 0 or 1, which their types say. -/
def Row.stored (id : Path) (r : Row) : Nat :=
  5 + textBytes id + textBytes r.parentId + textBytes r.name + intBytes r.size +
    intBytes r.mtime + (r.record.map textBytes).getD 1

abbrev Row.Fits (id : Path) (r : Row) : Prop := r.stored id ≤ maxLength

def Row.buried (now : Int) (r : Row) : Row := { r with tombstone := true, mtime := now }

namespace StagingGraph

def new (live : LiveGraph) : StagingGraph := ⟨live, ∅⟩

variable (s : StagingGraph)

def isTombstone (id : Path) : Bool :=
  match s.shadow[id]? with
  | some r => r.tombstone
  | none => false

/-! ### Reads -/

def getNode (id : Path) : Option Node :=
  if id = [] then some rootNode else
    match s.shadow[id]? with
    | some r => r.shown id
    | none => s.live.nodes.getNode id

def lookupChild (parentId name : Path) : Option Node :=
  match s.shadow.toList.find? fun x => x.2.parentId = parentId ∧ x.2.name = name with
  | some (id, r) => r.shown id
  | none =>
    match s.live.nodes.lookupChild parentId name with
    | some node => if s.isTombstone node.id then none else some node
    | none => none

/-- The live children under the overlay, then the children that are in the shadow
only; those come in the order of a `HashMap`. -/
def listChildren (parentId : Path) : List Node :=
  let shadowMap := s.shadow.filter fun _ r => r.parentId = parentId
  let liveChildren := s.live.nodes.listChildren parentId
  (liveChildren.filterMap fun child =>
      match shadowMap[child.id]? with
      | some r => r.shown child.id
      | none => some child)
    ++ shadowMap.toList.filterMap fun x =>
      if x.1 ∈ liveChildren.map (·.id) then none else x.2.shown x.1

def readContent (id : Path) (len offset : Nat) : Bytes :=
  match s.shadow[id]? with
  | some r =>
    if r.tombstone then [] else
      match r.record with
      | some text => slice (utf8 text) len offset
      | none => []
  | none => s.live.nodes.readContent id len offset

/-! ### Writes -/

def put (id : Path) (r : Row) : StagingGraph :=
  { s with shadow := s.shadow.insert id r }

/-- `UPDATE shadow_nodes SET ... WHERE id = ?`. -/
def update (id : Path) (f : Row → Row) : StagingGraph :=
  match s.shadow[id]? with
  | some r => s.put id (f r)
  | none => s

def fits : Bool := s.shadow.toList.all fun x => x.2.Fits x.1

/-- A statement that would leave the second table: refused if it writes a row that is too
big. -/
def exec {α : Type} (s s' : StagingGraph) (answer : α) : StagingGraph × Except Fault α :=
  if s'.fits then (s', .ok answer) else (s, .error .tooBig)

variable (lossy : Bytes → Text)

/-- A live node's record, read with one byte more than its size. -/
def cowRecord (s : StagingGraph) (node : Node) : Option Text :=
  if node.isDir = false ∧ 0 < node.size then
    let buf := s.live.nodes.readContent node.id (node.size + 1) 0
    if buf = [] then none else some (lossy buf)
  else none

def cowIntoShadow (s : StagingGraph) (id : Path) : StagingGraph × Except Fault Bool :=
  match s.shadow[id]? with
  | some _ => (s, .ok true)
  | none =>
    match s.live.nodes.getNode id with
    | none => (s, .ok false)
    | some node =>
      -- the buffer for the record cannot be allocated
      if node.isDir = false ∧ isizeMax < node.size + 1 then (s, .error .panic) else
        s.exec (s.put id ⟨parentIdOf id, node.name, node.isDir, asI64 node.size,
          node.mtimeNanos, s.cowRecord lossy node, false⟩) true

/-- The content a write starts from: that of a row that is no tombstone. -/
def existing (id : Path) : Bytes :=
  match s.shadow[id]? with
  | some r => if r.tombstone then [] else (r.record.map utf8).getD []
  | none => []

def writeContent (s : StagingGraph) (now : Int) (id : Path) (data : Bytes)
    (offset : Nat) : StagingGraph × Except Fault Nat :=
  match s.cowIntoShadow lossy id with
  | (s, .error fault) => (s, .error fault)
  | (s, .ok _) =>
    if isizeMax < offset + data.length then (s, .error .panic) else
      let content := patched (s.existing id) data offset
      -- too long a parameter is refused before a row is looked for
      if maxLength < (utf8 (lossy content)).length then (s, .error .tooBig) else
        s.exec (s.update id fun r =>
          { r with record := some (lossy content), size := content.length, mtime := now })
          data.length

def createNode (now : Int) (parentId name : Path) (isDir : Bool) :
    StagingGraph × Except Fault Path :=
  let id := joinId parentId name
  if id ∈ s.shadow then (s, .error .constraint) else
    s.exec (s.put id ⟨parentId, name, isDir, 0, now, none, false⟩) id

def below (id : Path) : List Path :=
  match s.live.nodes.getNode id with
  | some node => if node.isDir then (s.live.nodes.listChildren id).map (·.id) else []
  | none => []

/-- `INSERT ... ON CONFLICT(id) DO UPDATE SET tombstone = 1`, for a live node. -/
def buryLive (now : Int) (s : StagingGraph) (id : Path) : StagingGraph :=
  match s.live.nodes.getNode id with
  | none => s
  | some node =>
    match s.shadow[id]? with
    | some r => s.put id (r.buried now)
    | none =>
      s.put id ⟨parentIdOf id, node.name, node.isDir, asI64 node.size, now, none, true⟩

/-- One statement after the other, up to the first that is refused. -/
def buryAll (now : Int) : StagingGraph → List Path → StagingGraph × Except Fault Unit
  | s, [] => (s, .ok ())
  | s, id :: ids =>
    match s.exec (s.buryLive now id) () with
    | (s, .error fault) => (s, .error fault)
    | (s, .ok _) => buryAll now s ids

def buriedLike (now : Int) (s : StagingGraph) (pattern : List Char) : StagingGraph :=
  { s with shadow := s.shadow.map fun k r =>
      if like pattern k && !r.tombstone then r.buried now else r }

/-- `UPDATE ... SET tombstone = 1 WHERE id LIKE ?2 AND tombstone = 0`. The pattern is looked
at for each row. -/
def buryLike (now : Int) (s : StagingGraph) (pattern : List Char) :
    StagingGraph × Except Fault Unit :=
  if maxPattern < (utf8 pattern).length ∧ s.shadow.isEmpty = false then (s, .error .tooBig)
  else s.exec (s.buriedLike now pattern) ()

def removeNode (now : Int) (id : Path) : StagingGraph × Except Fault Unit :=
  match StackWalk.walk s.below (s.live.nodes.size + 1) [id] [] with
  | none => (s, .error .endless)
  | some toTombstone =>
    match s.buryAll now toTombstone with
    | (s, .error fault) => (s, .error fault)
    | (s, .ok _) => s.buryLike now (id ++ ['/', '%'])

def truncate (s : StagingGraph) (now : Int) (id : Path) : StagingGraph × Except Fault Unit :=
  match s.cowIntoShadow lossy id with
  | (s, .error fault) => (s, .error fault)
  | (s, .ok _) =>
    s.exec (s.update id fun r => { r with record := none, size := 0, mtime := now }) ()

/-- One edit of the overlay, at a time; what it answers is left out. -/
def apply (s : StagingGraph) (now : Int) : Op → StagingGraph
  | .create parentId name isDir => (s.createNode now parentId name isDir).1
  | .write id data offset => (s.writeContent lossy now id data offset).1
  | .truncate id => (s.truncate lossy now id).1
  | .remove id => (s.removeNode now id).1

def applyAll (s : StagingGraph) (edits : List (Int × Op)) : StagingGraph :=
  edits.foldl (fun s edit => s.apply lossy edit.1 edit.2) s

end StagingGraph

end LeyLine.Staging
