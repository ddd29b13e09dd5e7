import LeyLine.Lib.Varint
import LeyLine.Partition

/-!
# Addresses of syntax trees

`fold_children` of `cli-lib/src/cmd_parse.rs`: a post-order fold over a parsed file. A node's
hash is of its canonical kind and, where it has children that are not extra, of their hashes
in order, else of its text. The fold writes a content row for each hash it meets for the
first time, and for an inner node one child row for each child.

Languages the file embeds are parsed on the way and folded with the same rows
(`fold_injected`): which trees a node brings in is the parser's, a parameter. Of the rows the
fold writes, those of occurrences, references and injected hashes are left out.
-/

namespace LeyLine.Ast

open Framing (framed numbered)

/-- A language: its name and the canonical kind of a grammar kind, if it has one. -/
structure Lang where
  name : Bytes
  canonicalKind : Bytes → Option Bytes

/-- A node of a parsed file. -/
inductive Syn where
  | node (kind : Bytes) (named extra : Bool) (field : Option Bytes) (startByte endByte : Nat)
      (children : List Syn)

namespace Syn

def isExtra : Syn → Bool
  | node _ _ extra _ _ _ _ => extra

def isNamed : Syn → Bool
  | node _ named _ _ _ _ _ => named

def field : Syn → Option Bytes
  | node _ _ _ field _ _ _ => field

end Syn

/-! ## Hashes -/

/-- `llo/ast/v1`, and the byte after it. -/
def nodeHashDomain : Bytes := [0x6c, 0x6c, 0x6f, 0x2f, 0x61, 0x73, 0x74, 0x2f, 0x76, 0x31, 0x00]

def nodeTagLeaf : UInt8 := 0x00

def nodeTagInternal : UInt8 := 0x01

def leafPreimage (kind token : Bytes) : Bytes :=
  nodeHashDomain ++ nodeTagLeaf :: (framed kind ++ framed token)

def internalPreimage (kind : Bytes) (hashes : List Digest) : Bytes :=
  nodeHashDomain ++ nodeTagInternal :: (framed kind ++ numbered Digest.bytes hashes)

variable (σ : Bytes → Digest)

def hashLeaf (kind token : Bytes) : Digest := σ (leafPreimage kind token)

def hashInternal (kind : Bytes) (hashes : List Digest) : Digest := σ (internalPreimage kind hashes)

/-! ## The fold -/

structure ContentRow where
  nodeHash : Digest
  nodeTag : UInt8
  kind : Bytes
  rawKind : Bytes
  lang : Bytes
  token : Option Bytes
  arity : Nat

structure ChildRow where
  parentHash : Digest
  ordinal : Nat
  childHash : Digest
  field : Option Bytes

/-- What the fold has met and written so far. -/
structure Rows where
  seen : List Digest
  contents : List ContentRow
  children : List ChildRow

def utf8Text (content : Bytes) (startByte endByte : Nat) : Bytes :=
  let text := (content.drop startByte).take (endByte - startByte)
  if ByteArray.validateUTF8 ⟨text.toArray⟩ then text else []

def Lang.canonical (lang : Lang) (kind : Bytes) : Bytes := (lang.canonicalKind kind).getD kind

def childRows (parent : Digest) (hashes : List Digest) (fields : List (Option Bytes)) :
    List ChildRow :=
  (hashes.zip fields).zipIdx.map fun p => ⟨parent, p.2, p.1.1, p.1.2⟩

def Rows.emit (rows : Rows) (content : ContentRow) (children : List ChildRow) : Rows :=
  if content.nodeHash ∈ rows.seen then rows
  else ⟨content.nodeHash :: rows.seen, rows.contents ++ [content], rows.children ++ children⟩

/-- The end of a node's fold, with the hashes and fields of its children. -/
def close (content : Bytes) (lang : Lang) (kind : Bytes) (startByte endByte : Nat)
    (hashes : List Digest) (fields : List (Option Bytes)) (rows : Rows) : Digest × Rows :=
  if hashes = [] then
    let token := utf8Text content startByte endByte
    let h := hashLeaf σ (lang.canonical kind) token
    (h, rows.emit ⟨h, nodeTagLeaf, lang.canonical kind, kind, lang.name, some token, 0⟩ [])
  else
    let h := hashInternal σ (lang.canonical kind) hashes
    (h, rows.emit ⟨h, nodeTagInternal, lang.canonical kind, kind, lang.name, none, hashes.length⟩
      (childRows h hashes fields))

section
variable (σ : Bytes → Digest) (before : Syn → Rows → Rows) (content : Bytes) (lang : Lang)

mutual

/-- The traversal both folds share. `before` is what a named child does ahead of its subtree. -/
def foldNode : Syn → Rows → Digest × Rows
  | .node kind _ _ _ startByte endByte children, rows =>
    let folded := foldList children rows
    close σ content lang kind startByte endByte folded.1
      ((children.filter (!·.isExtra)).map Syn.field) folded.2

def foldList : List Syn → Rows → List Digest × Rows
  | [], rows => ([], rows)
  | child :: children, rows =>
    if child.isExtra then foldList children rows
    else
      let ready := if child.isNamed then before child rows else rows
      let first := foldNode child ready
      let rest := foldList children first.2
      (first.1 :: rest.1, rest.2)

end

end

/-- The fold of an embedded tree: no occurrence rows, and nothing embedded in it. -/
def foldInjectedNode (content : Bytes) (lang : Lang) : Syn → Rows → Digest × Rows :=
  foldNode σ (fun _ rows => rows) content lang

def foldInjected (content : Bytes) (sites : List (Lang × Syn)) (rows : Rows) : Rows :=
  sites.foldl (fun rows site => (foldInjectedNode σ content site.1 site.2 rows).2) rows

/-- The fold of a file's tree. `inject` gives the trees embedded at a node. -/
def foldChildren (inject : Syn → List (Lang × Syn)) (content : Bytes) (lang : Lang) :
    Syn → Rows → Digest × Rows :=
  foldNode σ (fun child => foldInjected σ content (inject child)) content lang

def parseFile (inject : Syn → List (Lang × Syn)) (content : Bytes) (lang : Lang) (root : Syn) :
    Digest × Rows := foldChildren σ inject content lang root ⟨[], [], []⟩

end LeyLine.Ast
