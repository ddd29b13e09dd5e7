import LeyLine.Ast.Fold

/-!
# What an address tells apart

A hash is of a shape: kinds, an order of children, and text at the leaves. `readShape` is the
shape the fold reads off a tree, and without collisions two trees have one hash exactly when
they have one such shape. `canonShape` is the shape a tree has once extra nodes are dropped,
kinds made canonical, and text kept where the parser gave no children.

The two differ in two places. A node all of whose children are extra is read as a leaf, with
its text, comments included. A leaf whose text is no UTF-8 is read with no text. They are one
exactly on the trees with neither (`Plain`), and whatever the fold reads it also reads off a
plain tree (`exists_plain`).
-/

namespace LeyLine.Ast

open Framing

/-- A tree as addresses see it. -/
inductive Shape where
  | node (kind : Bytes) (token : Option Bytes) (children : List Shape)

namespace Shape

theorem induct {P : Shape → Prop}
    (h : ∀ kind token children, (∀ c ∈ children, P c) → P (.node kind token children)) :
    ∀ s, P s := by
  refine @Shape.rec P (fun l => ∀ c ∈ l, P c) h ?_ ?_
  · exact fun c hc => absurd hc List.not_mem_nil
  · intro c l hc hl d hd
    rcases List.mem_cons.mp hd with rfl | hd
    · exact hc
    · exact hl d hd

mutual

def hash (σ : Bytes → Digest) : Shape → Digest
  | .node kind token children =>
    match token with
    | some token => hashLeaf σ kind token
    | none => hashInternal σ kind (hashes σ children)

def hashes (σ : Bytes → Digest) : List Shape → List Digest
  | [] => []
  | s :: l => hash σ s :: hashes σ l

end

variable (σ : Bytes → Digest)

theorem hashes_eq (l : List Shape) : hashes σ l = l.map (hash σ) := by
  induction l with
  | nil => rw [hashes, List.map_nil]
  | cons s l ih => rw [hashes, ih, List.map_cons]

theorem hash_leaf (kind token : Bytes) (children : List Shape) :
    hash σ (.node kind (some token) children) = hashLeaf σ kind token := by rw [hash]

theorem hash_inner (kind : Bytes) (children : List Shape) :
    hash σ (.node kind none children) =
    hashInternal σ kind (children.map (hash σ)) := by rw [hash, hashes_eq]

def preimage : Shape → Bytes
  | .node kind (some token) _ => leafPreimage kind token
  | .node kind none children => internalPreimage kind (children.map (hash σ))

theorem hash_eq (s : Shape) : hash σ s = σ (preimage σ s) := by
  obtain ⟨kind, _ | token, children⟩ := s
  · exact hash_inner σ kind children
  · exact hash_leaf σ kind token children

/-- The nodes of a shape. -/
inductive Sub : Shape → Shape → Prop
  | self (s : Shape) : Sub s s
  | child {s : Shape} {kind : Bytes} {token : Option Bytes} {children : List Shape} {c : Shape} :
      c ∈ children → Sub s c → Sub s (.node kind token children)

theorem Sub.node {s : Shape} {kind : Bytes} {token : Option Bytes} {children : List Shape}
    (h : Sub s (.node kind token children)) :
    s = .node kind token children ∨ ∃ c ∈ children, Sub s c := by
  cases h with
  | self => exact .inl rfl
  | child hc hsub => exact .inr ⟨_, hc, hsub⟩

theorem Sub.trans {s t u : Shape} (hsub : Sub t u) (h : Sub s t) : Sub s u := by
  induction hsub with
  | self => exact h
  | child hc _ ih => exact .child hc ih

def Tidy (s : Shape) : Prop :=
  ∀ kind token children, Sub (.node kind token children) s → (token = none ↔ children ≠ [])

variable {children : List Shape} {kind : Bytes}

theorem Tidy.child {token : Option Bytes} {c : Shape}
    (h : Tidy (.node kind token children)) (hc : c ∈ children) : Tidy c :=
  fun k t l hsub => h k t l (.child hc hsub)

theorem Tidy.leaf {kind token : Bytes} (h : Tidy (.node kind (some token) children)) :
    children = [] := by
  by_contra hne
  exact absurd ((h _ _ _ (.self _)).mpr hne) nofun

theorem Tidy.of {token : Option Bytes} (hself : token = none ↔ children ≠ [])
    (hchildren : ∀ c ∈ children, Tidy c) : Tidy (.node kind token children) := by
  intro k t l hsub
  cases hsub with
  | self => exact hself
  | child hc hsub => exact hchildren _ hc k t l hsub

end Shape

/-! ## Preimages -/

theorem leafPreimage_inj {kind kind' token token' : Bytes}
    (h : leafPreimage kind token = leafPreimage kind' token') :
    kind = kind' ∧ token = token' := by
  have htail := (List.cons.inj (List.append_cancel_left h)).2
  obtain ⟨hkind, htoken⟩ := selfDelimiting_framed _ _ _ _ trivial trivial htail
  exact ⟨hkind, selfDelimiting_framed.inj trivial trivial htoken⟩

theorem internalPreimage_inj {kind kind' : Bytes} {hashes hashes' : List Digest}
    (h : internalPreimage kind hashes = internalPreimage kind' hashes') :
    kind = kind' ∧ hashes = hashes' := by
  have htail := (List.cons.inj (List.append_cancel_left h)).2
  obtain ⟨hkind, hlist⟩ := selfDelimiting_framed _ _ _ _ trivial trivial htail
  exact ⟨hkind, Digest.selfDelimiting.numbered.inj (fun _ _ => trivial) (fun _ _ => trivial) hlist⟩

theorem leafPreimage_ne_internal (kind token kind' : Bytes) (hashes : List Digest) :
    leafPreimage kind token ≠ internalPreimage kind' hashes := by
  intro h
  exact absurd (List.cons.inj (List.append_cancel_left h)).1 (by decide)

/-- The hash has no collision between the nodes of two shapes. -/
def CollisionFree (σ : Bytes → Digest) (s s' : Shape) : Prop :=
  ∀ t t', Shape.Sub t s → Shape.Sub t' s' → σ (t.preimage σ) = σ (t'.preimage σ) →
    t.preimage σ = t'.preimage σ

theorem map_hash_inj {σ : Bytes → Digest} {l l' : List Shape}
    (h : ∀ s ∈ l, ∀ s' ∈ l', s.hash σ = s'.hash σ → s = s')
    (heq : l.map (Shape.hash σ) = l'.map (Shape.hash σ)) :
    l = l' := by
  induction l generalizing l' with
  | nil => exact (List.map_eq_nil_iff.mp heq.symm).symm
  | cons s l ih =>
    cases l' with
    | nil => exact absurd heq nofun
    | cons s' l' =>
      obtain ⟨hhead, htail⟩ := List.cons.inj heq
      rw [h s List.mem_cons_self s' List.mem_cons_self hhead,
        ih (fun t ht t' ht' => h t (List.mem_cons_of_mem _ ht) t' (List.mem_cons_of_mem _ ht'))
        htail]

/-- **Without collisions a hash has one shape.** -/
theorem hash_injective {σ : Bytes → Digest} {s s' : Shape} (hs : s.Tidy) (hs' : s'.Tidy)
    (hfree : CollisionFree σ s s') (h : s.hash σ = s'.hash σ) : s = s' := by
  induction s using Shape.induct generalizing s' with
  | h kind token children ih =>
    obtain ⟨kind', token', children'⟩ := s'
    rw [Shape.hash_eq, Shape.hash_eq] at h
    have hpre := hfree _ _ (.self _) (.self _) h
    rcases token with _ | token
    · rcases token' with _ | token'
      · obtain ⟨rfl, hhashes⟩ := internalPreimage_inj hpre
        have hchildren : children = children' := map_hash_inj (fun c hc c' hc' heq =>
          ih c hc (hs.child hc) (hs'.child hc')
            (fun t t' ht ht' => hfree t t' (.child hc ht) (.child hc' ht')) heq)
          hhashes
        rw [hchildren]
      · exact absurd hpre.symm (leafPreimage_ne_internal _ _ _ _)
    · rcases token' with _ | token'
      · exact absurd hpre (leafPreimage_ne_internal _ _ _ _)
      · obtain ⟨rfl, rfl⟩ := leafPreimage_inj hpre
        rw [hs.leaf, hs'.leaf]

/-! ## The shape the fold reads -/

theorem Syn.induct {P : Syn → Prop}
    (h : ∀ kind named extra field startByte endByte children, (∀ c ∈ children, P c) →
      P (.node kind named extra field startByte endByte children)) : ∀ t, P t := by
  refine @Syn.rec P (fun l => ∀ c ∈ l, P c) h ?_ ?_
  · exact fun c hc => absurd hc List.not_mem_nil
  · intro c l hc hl d hd
    rcases List.mem_cons.mp hd with rfl | hd
    · exact hc
    · exact hl d hd

def kept (children : List Syn) : List Syn := children.filter (!·.isExtra)

theorem kept_cons_extra {child : Syn} (h : child.isExtra = true) (children : List Syn) :
    kept (child :: children) = kept children := List.filter_cons_of_neg (by rw [h]; decide)

theorem kept_cons {child : Syn} (h : child.isExtra = false) (children : List Syn) :
    kept (child :: children) = child :: kept children := List.filter_cons_of_pos (by rw [h]; rfl)

theorem eq_map_kept {β : Type} {f : Syn → β} {g : List Syn → List β} (hnil : g [] = [])
    (hcons : ∀ child children,
      g (child :: children) = if child.isExtra then g children else f child :: g children)
    (children : List Syn) : g children = (kept children).map f := by
  induction children with
  | nil => rw [hnil]; rfl
  | cons child children ih =>
    rw [hcons]
    rcases hextra : child.isExtra with _ | _
    · rw [kept_cons hextra, List.map_cons, ← ih]
      rfl
    · rw [kept_cons_extra hextra, ← ih]
      rfl

section
variable (content : Bytes) (lang : Lang)

def textOf (startByte endByte : Nat) : Bytes := (content.drop startByte).take (endByte - startByte)

mutual

def readShape : Syn → Shape
  | .node kind _ _ _ startByte endByte children =>
    .node (lang.canonical kind)
      (if (readShapes children).isEmpty then some (utf8Text content startByte endByte) else none)
      (readShapes children)

def readShapes : List Syn → List Shape
  | [] => []
  | child :: children => if child.isExtra then readShapes children
      else readShape child :: readShapes children

end

mutual

/-- The shape of a tree without its extra nodes, with text where the parser gave no children. -/
def canonShape : Syn → Shape
  | .node kind _ _ _ startByte endByte children =>
    .node (lang.canonical kind)
      (if children.isEmpty then some (textOf content startByte endByte) else none)
      (canonShapes children)

def canonShapes : List Syn → List Shape
  | [] => []
  | child :: children => if child.isExtra then canonShapes children
      else canonShape child :: canonShapes children

end

end

section
variable {content : Bytes} {lang : Lang}

theorem readShapes_eq (children : List Syn) :
    readShapes content lang children = (kept children).map (readShape content lang) :=
  eq_map_kept (by rw [readShapes]) (fun _ _ => by rw [readShapes]) children

theorem canonShapes_eq (children : List Syn) :
    canonShapes content lang children = (kept children).map (canonShape content lang) :=
  eq_map_kept (by rw [canonShapes]) (fun _ _ => by rw [canonShapes]) children

theorem readShape_node (kind : Bytes) (named extra : Bool) (field : Option Bytes)
    (startByte endByte : Nat) (children : List Syn) :
    readShape content lang (.node kind named extra field startByte endByte children) =
      .node (lang.canonical kind)
      (if (kept children).isEmpty then some (utf8Text content startByte endByte) else none)
        ((kept children).map (readShape content lang)) := by
  rw [readShape, readShapes_eq, List.isEmpty_map]

theorem tidy_readShape (t : Syn) : (readShape content lang t).Tidy := by
  induction t using Syn.induct with
  | h kind named extra field startByte endByte children ih =>
    rw [readShape_node]
    refine Shape.Tidy.of ?_ fun c hc => ?_
    · rcases hkept : kept children with _ | ⟨child, rest⟩
      · exact iff_of_false nofun fun h => h rfl
      · exact iff_of_true rfl nofun
    · obtain ⟨t, ht, rfl⟩ := List.mem_map.mp hc
      exact ih t (List.mem_of_mem_filter ht)

/-! ## Plain trees -/

/-- No node has only extra children, and the text of a node without children is UTF-8. Nodes
under an extra node do not count. -/
inductive Plain (content : Bytes) : Syn → Prop
  | node {kind : Bytes} {named extra : Bool} {field : Option Bytes} {startByte endByte : Nat}
      {children : List Syn} :
      (kept children = [] → children = []) →
      (children = [] → ByteArray.validateUTF8 ⟨(textOf content startByte endByte).toArray⟩ = true) →
      (∀ c ∈ kept children, Plain content c) →
      Plain content (.node kind named extra field startByte endByte children)

theorem plain_node {kind : Bytes} {named extra : Bool} {field : Option Bytes}
    {startByte endByte : Nat} {children : List Syn} :
    Plain content (.node kind named extra field startByte endByte children) ↔
      (kept children = [] → children = []) ∧
      (children = [] → ByteArray.validateUTF8 ⟨(textOf content startByte endByte).toArray⟩ = true) ∧
      ∀ c ∈ kept children, Plain content c := by
  constructor
  · rintro ⟨hempty, hutf8, hplain⟩
    exact ⟨hempty, hutf8, hplain⟩
  · rintro ⟨hempty, hutf8, hplain⟩
    exact .node hempty hutf8 hplain

theorem validate_nil : ByteArray.validateUTF8 ⟨([] : Bytes).toArray⟩ = true := by decide +kernel

theorem utf8Text_eq_iff {startByte endByte : Nat} :
    utf8Text content startByte endByte = textOf content startByte endByte ↔
      ByteArray.validateUTF8 ⟨(textOf content startByte endByte).toArray⟩ = true := by
  change (if ByteArray.validateUTF8 ⟨(textOf content startByte endByte).toArray⟩ then
    textOf content startByte endByte else []) = _ ↔ _
  split
  case isTrue hvalid => exact iff_of_true rfl hvalid
  case isFalse hinvalid =>
    refine iff_of_false (fun hnil => hinvalid ?_) hinvalid
    rw [← hnil]
    exact validate_nil

theorem validate_utf8Text {startByte endByte : Nat} :
    ByteArray.validateUTF8 ⟨(utf8Text content startByte endByte).toArray⟩ = true := by
  rw [utf8Text]
  split
  case isTrue hvalid => exact hvalid
  case isFalse => exact validate_nil

theorem plain_iff {t : Syn} : Plain content t ↔
    readShape content lang t = canonShape content lang t := by
  induction t using Syn.induct with
  | h kind named extra field startByte endByte children ih =>
    have hbelow : (∀ c ∈ kept children, Plain content c) ↔
        ∀ c ∈ kept children, readShape content lang c = canonShape content lang c :=
      forall₂_congr fun c hc => ih c (List.mem_of_mem_filter hc)
    rw [plain_node, readShape_node, canonShape, canonShapes_eq, Shape.node.injEq, List.map_inj_left,
      hbelow, ← and_assoc, eq_self, true_and]
    refine and_congr_left' ?_
    rcases children with _ | ⟨child, rest⟩
    · simp [kept, utf8Text_eq_iff]
    · simp

/-! ## A plain tree for what is read -/

/-- A language whose kinds are canonical. -/
def plainLang : Lang := ⟨[0x78], fun _ => none⟩

namespace Shape

/-- The tokens of a shape are UTF-8, and at the nodes without children. -/
def Readable (s : Shape) : Prop :=
  s.Tidy ∧ ∀ kind token children, Sub (.node kind (some token) children) s →
  ByteArray.validateUTF8 ⟨token.toArray⟩ = true

theorem Readable.child {kind : Bytes} {token : Option Bytes} {children : List Shape} {c : Shape}
    (h : Readable (.node kind token children)) (hc : c ∈ children) : Readable c :=
  ⟨h.1.child hc, fun k t l hsub => h.2 k t l (.child hc hsub)⟩

mutual

/-- The tokens of a shape, one after another. -/
def text : Shape → Bytes
  | .node _ (some token) _ => token
  | .node _ none children => texts children

def texts : List Shape → Bytes
  | [] => []
  | s :: l => text s ++ texts l

end

mutual

/-- The tree over its tokens, which begin at a byte. -/
def tree (start : Nat) : Shape → Syn
  | .node kind (some token) _ => .node kind true false none start (start + token.length) []
  | .node kind none children =>
    .node kind true false none start (start + (texts children).length) (trees start children)

def trees (start : Nat) : List Shape → List Syn
  | [] => []
  | s :: l => tree start s :: trees (start + (text s).length) l

end

/-- The tree over its tokens is plain and is read as the shape. -/
def Grows (s : Shape) : Prop := ∀ pre post, s.Readable →
  readShape (pre ++ s.text ++ post) plainLang (s.tree pre.length) = s ∧
    Plain (pre ++ s.text ++ post) (s.tree pre.length)

theorem tree_isExtra (start : Nat) (s : Shape) : (tree start s).isExtra = false := by
  obtain ⟨kind, _ | token, children⟩ := s
  · rw [tree]; rfl
  · rw [tree]; rfl

theorem kept_trees (start : Nat) (l : List Shape) : kept (trees start l) = trees start l := by
  induction l generalizing start with
  | nil => rw [trees]; rfl
  | cons s l ih => rw [trees, kept_cons (tree_isExtra start s), ih]

theorem textOf_append (pre token post : Bytes) :
    textOf (pre ++ token ++ post) pre.length (pre.length + token.length) = token := by
  simp [textOf]

theorem grows_leaf (kind token : Bytes) (children : List Shape) :
    Grows (.node kind (some token) children) := by
  intro pre post hs
  have htext := textOf_append pre token post
  have hvalid : ByteArray.validateUTF8
      ⟨(textOf (pre ++ token ++ post) pre.length (pre.length + token.length)).toArray⟩ = true := by
    rw [htext]
    exact hs.2 _ _ _ (.self _)
  rw [text, tree, readShape_node, hs.1.leaf]
  refine ⟨?_, plain_node.mpr ⟨fun _ => rfl, fun _ => hvalid,
    fun c hc => absurd hc List.not_mem_nil⟩⟩
  rw [utf8Text_eq_iff.mpr hvalid, htext]
  rfl

theorem grows_list {l : List Shape} (h : ∀ s ∈ l, Grows s) (pre post : Bytes)
    (hl : ∀ s ∈ l, s.Readable) :
    (trees pre.length l).map (readShape (pre ++ texts l ++ post) plainLang) = l ∧
      ∀ t ∈ trees pre.length l, Plain (pre ++ texts l ++ post) t := by
  induction l generalizing pre with
  | nil => simp [trees]
  | cons s l ih =>
    rw [List.forall_mem_cons] at h hl
    have hhead := h.1 pre (texts l ++ post) hl.1
    have htail := ih h.2 (pre ++ s.text) hl.2
    rw [List.length_append] at htail
    have hcontent : pre ++ texts (s :: l) ++ post = pre ++ s.text ++ (texts l ++ post) := by
      rw [texts]
      simp
    rw [hcontent, trees, List.map_cons, hhead.1, List.forall_mem_cons]
    rw [← List.append_assoc] at hhead ⊢
    exact ⟨congrArg _ htail.1, hhead.2, htail.2⟩

theorem grows (s : Shape) : Grows s := by
  induction s using Shape.induct with
  | h kind token children ih =>
    rcases token with _ | token
    · intro pre post hs
      obtain ⟨hread, hplain⟩ := grows_list ih pre post fun c hc => hs.child hc
      have hne : trees pre.length children ≠ [] := by
        intro hnil
        rw [hnil] at hread
        exact (hs.1 _ _ _ (.self _)).mp rfl hread.symm
      rw [text, tree, readShape_node, kept_trees, hread, plain_node, kept_trees]
      refine ⟨?_, id, fun hnil => absurd hnil hne, hplain⟩
      rw [List.isEmpty_eq_false_iff.mpr hne]
      rfl
    · exact grows_leaf kind token children

end Shape

theorem readable_readShape (t : Syn) : (readShape content lang t).Readable := by
  refine ⟨tidy_readShape t, ?_⟩
  induction t using Syn.induct with
  | h kind named extra field startByte endByte children ih =>
    intro k token l hsub
    rw [readShape_node] at hsub
    rcases hsub.node with heq | ⟨c, hc, hsub⟩
    · injection heq with _ htoken _
      split at htoken
      · rw [Option.some.inj htoken]
        exact validate_utf8Text
      · cases htoken
    · obtain ⟨child, hchild, rfl⟩ := List.mem_map.mp hc
      exact ih child (List.mem_of_mem_filter hchild) k token l hsub

/-- Whatever the fold reads, it reads off a plain tree too. -/
theorem exists_plain (t : Syn) : ∃ content' t', Plain content' t' ∧
    readShape content' plainLang t' = readShape content lang t := by
  obtain ⟨hread, hplain⟩ := Shape.grows (readShape content lang t) [] [] (readable_readShape t)
  exact ⟨_, _, hplain, hread⟩

end

end LeyLine.Ast
