import LeyLine.Ast.Address

/-!
# The rows of a file

A fold is a sequence of items, one a node in post order, with those of embedded trees where
they are met; each brings its rows unless its hash was met before (`foldNode_eq`). Without
collisions a hash that was met before was of the same shape, so the rows written then are the
rows this node would write. The shapes of the items are closed under children: from the
root's hash the rows lead to every node, and the tree can be built again.
-/

namespace LeyLine.Ast

open List (filter_append forall_mem_append forall_mem_singleton length_map map_map mem_append
  mem_append_left mem_append_right mem_cons mem_cons_of_mem mem_cons_self mem_map mem_singleton)

/-- What a node brings: its shape, and what the rows say of it besides. -/
structure Item where
  shape : Shape
  rawKind : Bytes
  lang : Bytes
  fields : List (Option Bytes)

namespace Item

def content (σ : Bytes → Digest) (it : Item) : ContentRow :=
  match it.shape with
  | .node kind (some token) _ =>
    ⟨it.shape.hash σ, nodeTagLeaf, kind, it.rawKind, it.lang, some token, 0⟩
  | .node kind none children =>
    ⟨it.shape.hash σ, nodeTagInternal, kind, it.rawKind, it.lang, none, children.length⟩

def children (σ : Bytes → Digest) (it : Item) : List ChildRow :=
  match it.shape with
  | .node _ (some _) _ => []
  | .node _ none children => childRows (it.shape.hash σ) (children.map (Shape.hash σ)) it.fields

def own (content : Bytes) (lang : Lang) : Syn → Item
  | .node kind named extra field startByte endByte children =>
    ⟨readShape content lang (.node kind named extra field startByte endByte children), kind,
      lang.name, (kept children).map Syn.field⟩

theorem content_nodeHash (σ : Bytes → Digest) (it : Item) :
    (it.content σ).nodeHash = it.shape.hash σ := by
  rcases it with ⟨⟨kind, _ | token, children⟩, rawKind, lang, fields⟩
  · rfl
  · rfl

end Item

def Rows.add (σ : Bytes → Digest) (rows : Rows) (it : Item) : Rows :=
  rows.emit (it.content σ) (it.children σ)

def Rows.addAll (σ : Bytes → Digest) (rows : Rows) (items : List Item) : Rows :=
  items.foldl (Rows.add σ) rows

theorem Rows.addAll_append (σ : Bytes → Digest) (rows : Rows) (items items' : List Item) :
    rows.addAll σ (items ++ items') = (rows.addAll σ items).addAll σ items' := List.foldl_append

/-! ## A fold is its items -/

section
variable (before : Syn → List Item) (content : Bytes) (lang : Lang)

mutual

def itemsNode : Syn → List Item
  | .node kind named extra field startByte endByte children =>
    itemsList children ++
      [⟨readShape content lang (.node kind named extra field startByte endByte children), kind,
      lang.name,
        (kept children).map Syn.field⟩]

def itemsList : List Syn → List Item
  | [] => []
  | child :: children =>
    if child.isExtra then itemsList children
    else (if child.isNamed then before child else []) ++ (itemsNode child ++ itemsList children)

end

end

section
variable {σ : Bytes → Digest} {before : Syn → Rows → Rows} {beforeItems : Syn → List Item}
  {content : Bytes} {lang : Lang}

theorem close_eq (kind : Bytes) (named extra : Bool) (field : Option Bytes)
    (startByte endByte : Nat) (children : List Syn) (rows : Rows) :
    close σ content lang kind startByte endByte
    ((kept children).map fun t => (readShape content lang t).hash σ)
        ((kept children).map Syn.field) rows =
      ((readShape content lang (.node kind named extra field startByte endByte children)).hash σ,
        rows.add σ ⟨readShape content lang (.node kind named extra field startByte endByte
        children), kind, lang.name,
          (kept children).map Syn.field⟩) := by
  rw [close, Rows.add, readShape_node]
  rcases hkept : kept children with _ | ⟨child, rest⟩
  · simp only [List.map_nil, if_true, List.isEmpty_nil, Shape.hash_leaf, Item.content,
      Item.children]
  · have hmap : ((child :: rest).map fun t => (readShape content lang t).hash σ) =
        ((child :: rest).map (readShape content lang)).map (Shape.hash σ) := by rw [map_map]; rfl
    have hne : ((child :: rest).map (readShape content lang)).map (Shape.hash σ) ≠ [] := by simp
    rw [hmap, if_neg hne]
    simp only [List.isEmpty_cons, Bool.false_eq_true, if_false, Shape.hash_inner, Item.content,
      Item.children, length_map]

theorem fold_eq (hbefore : ∀ t rows, before t rows = rows.addAll σ (beforeItems t)) (t : Syn) :
    ∀ rows, foldNode σ before content lang t rows =
      ((readShape content lang t).hash σ,
        rows.addAll σ (itemsNode beforeItems content lang t)) := by
  induction t using Syn.induct with
  | h kind named extra field startByte endByte children ih =>
    have hlist : ∀ l rows, (∀ c ∈ l, c ∈ children) → foldList σ before content lang l rows =
        ((kept l).map (fun t => (readShape content lang t).hash σ),
        rows.addAll σ (itemsList beforeItems content lang l)) := by
      intro l
      induction l with
      | nil => exact fun rows _ => by rfl
      | cons child l ihl =>
        intro rows hmem
        have hrest : ∀ c ∈ l, c ∈ children := fun c hc => hmem c (mem_cons_of_mem _ hc)
        rw [foldList, itemsList]
        rcases hextra : child.isExtra with _ | _
        · rw [kept_cons hextra]
          simp only [Bool.false_eq_true, if_false]
          rw [ih child (hmem child mem_cons_self), ihl _ hrest, Rows.addAll_append,
            Rows.addAll_append]
          rcases hnamed : child.isNamed with _ | _
          · rfl
          · rw [hbefore]
            rfl
        · rw [kept_cons_extra hextra]
          exact ihl rows hrest
    intro rows
    rw [foldNode, hlist children rows fun _ hc => hc, itemsNode, Rows.addAll_append]
    exact close_eq kind named extra field startByte endByte children _

end

/-! ## Each shape is written once -/

def Rows.contentOf (rows : Rows) (h : Digest) : List ContentRow :=
  rows.contents.filter (·.nodeHash = h)

def Rows.childrenOf (rows : Rows) (h : Digest) : List ChildRow :=
  rows.children.filter (·.parentHash = h)

/-- The children of a shape as child rows have them: an ordinal and a hash. -/
def Shape.edges (σ : Bytes → Digest) : Shape → List (Nat × Digest)
  | .node _ (some _) _ => []
  | .node _ none children => (children.map (Shape.hash σ)).zipIdx.map fun p => (p.2, p.1)

def ContentRow.Describes (row : ContentRow) : Shape → Prop
  | .node kind (some token) _ =>
    row.nodeTag = nodeTagLeaf ∧ row.kind = kind ∧ row.token = some token ∧ row.arity = 0
  | .node kind none children =>
    row.nodeTag = nodeTagInternal ∧ row.kind = kind ∧ row.token = none ∧ row.arity = children.length

/-- A shape has exactly one content row, and its whole list of children in order. -/
def Rows.Written (σ : Bytes → Digest) (rows : Rows) (s : Shape) : Prop :=
  (∃ row, rows.contentOf (s.hash σ) = [row] ∧ row.Describes s) ∧
    (rows.childrenOf (s.hash σ)).map (fun c => (c.ordinal, c.childHash)) = s.edges σ

def Item.Fits (it : Item) : Prop :=
  match it.shape with
  | .node _ _ children => it.fields.length = children.length

section
variable {σ : Bytes → Digest}

theorem Item.describes_content (it : Item) : (it.content σ).Describes it.shape := by
  rcases it with ⟨⟨kind, _ | token, children⟩, rawKind, lang, fields⟩
  · exact ⟨rfl, rfl, rfl, rfl⟩
  · exact ⟨rfl, rfl, rfl, rfl⟩

variable {h : Digest} {fields : List (Option Bytes)} {hashes : List Digest} {c : ChildRow}

theorem childRows_parent (hc : c ∈ childRows h hashes fields) : c.parentHash = h := by
  obtain ⟨p, -, rfl⟩ := mem_map.mp hc
  rfl

theorem childRows_edges (h : Digest) (hlen : fields.length = hashes.length) :
    (childRows h hashes fields).map (fun c => (c.ordinal, c.childHash)) = hashes.zipIdx.map fun p =>
    (p.2, p.1) := by
  refine List.ext_getElem? fun i => ?_
  simp only [childRows, List.getElem?_map, List.getElem?_zipIdx, Option.map_map, Nat.zero_add]
  have hzip : (hashes.zip fields).length = hashes.length := by
    rw [List.length_zip]
    omega
  by_cases hi : i < hashes.length
  · rw [List.getElem?_eq_getElem hi, List.getElem?_eq_getElem (hzip ▸ hi), List.getElem_zip]
    rfl
  · have hnone : (hashes.zip fields)[i]? = none := List.getElem?_eq_none (by omega)
    have hnone' : hashes[i]? = none := List.getElem?_eq_none (by omega)
    rw [hnone, hnone']
    rfl

theorem Item.children_parent (it : Item) (hc : c ∈ it.children σ) :
    c.parentHash = it.shape.hash σ := by
  rcases it with ⟨⟨kind, _ | token, children⟩, rawKind, lang, fields⟩
  · exact childRows_parent hc
  · cases hc

variable {it : Item}

theorem Item.children_edges (hfits : it.Fits) :
    (it.children σ).map (fun c => (c.ordinal, c.childHash)) = it.shape.edges σ := by
  rcases it with ⟨⟨kind, _ | token, children⟩, rawKind, lang, fields⟩
  · have hlen : fields.length = (children.map (Shape.hash σ)).length := by
      rw [length_map]
      exact hfits
    exact childRows_edges _ hlen
  · rfl

/-- The rows hold exactly what the items so far brought. -/
structure Rows.Holds (σ : Bytes → Digest) (rows : Rows) (items : List Item) : Prop where
  seen : ∀ h, h ∈ rows.seen ↔ ∃ it ∈ items, it.shape.hash σ = h
  contents : ∀ row ∈ rows.contents, row.nodeHash ∈ rows.seen
  children : ∀ c ∈ rows.children, c.parentHash ∈ rows.seen
  written : ∀ it ∈ items, rows.Written σ it.shape

variable {rows : Rows} {children : List ChildRow} {seen : List Digest}

theorem Rows.contentOf_append_of_ne {content : ContentRow} (hne : content.nodeHash ≠ h) :
    (⟨seen, rows.contents ++ [content], rows.children ++ children⟩ : Rows).contentOf h =
    rows.contentOf h := by
  rw [Rows.contentOf, Rows.contentOf, filter_append, List.filter_cons_of_neg (by simpa using hne),
    List.filter_nil, List.append_nil]

theorem Rows.childrenOf_append_of_ne {contents : List ContentRow}
    (hne : ∀ c ∈ children, c.parentHash ≠ h) :
    (⟨seen, contents, rows.children ++ children⟩ : Rows).childrenOf h = rows.childrenOf h := by
  have hnone : children.filter (·.parentHash = h) = [] :=
    List.filter_eq_nil_iff.mpr fun c hc => by simpa using hne c hc
  rw [Rows.childrenOf, Rows.childrenOf, filter_append, hnone, List.append_nil]

variable {items : List Item}

theorem Rows.Holds.written_new (hrows : rows.Holds σ items)
    (hfits : it.Fits) (hnew : it.shape.hash σ ∉ rows.seen) :
    (rows.add σ it).Written σ it.shape := by
  have hnone : rows.contentOf (it.shape.hash σ) = [] := by
    refine List.filter_eq_nil_iff.mpr fun row hrow heq => hnew ?_
    rw [← of_decide_eq_true heq]
    exact hrows.contents row hrow
  have hnoChild : rows.childrenOf (it.shape.hash σ) = [] := by
    refine List.filter_eq_nil_iff.mpr fun c hc heq => hnew ?_
    rw [← of_decide_eq_true heq]
    exact hrows.children c hc
  have hown : (it.children σ).filter (·.parentHash = it.shape.hash σ) = it.children σ :=
    List.filter_eq_self.mpr fun c hc => by simpa using it.children_parent hc
  rw [Rows.add, Rows.emit, it.content_nodeHash, if_neg hnew]
  refine ⟨⟨it.content σ, ?_, it.describes_content⟩, ?_⟩
  · rw [Rows.contentOf, filter_append]
    change rows.contentOf _ ++ _ = _
    rw [hnone, List.filter_cons_of_pos (by simpa using it.content_nodeHash σ)]
    rfl
  · rw [Rows.childrenOf, filter_append]
    change (rows.childrenOf _ ++ _).map _ = _
    rw [hnoChild, hown, List.nil_append, Item.children_edges hfits]

theorem Rows.Holds.add (hrows : rows.Holds σ items) (hfits : it.Fits)
    (hsame : ∀ it' ∈ items, it'.shape.hash σ = it.shape.hash σ → it'.shape = it.shape) :
    (rows.add σ it).Holds σ (items ++ [it]) := by
  by_cases hseen : it.shape.hash σ ∈ rows.seen
  · -- met before: of the same shape, whose rows are there
    have hadd : rows.add σ it =
        rows := by rw [Rows.add, Rows.emit, it.content_nodeHash, if_pos hseen]
    obtain ⟨it', hit', hhash⟩ := (hrows.seen _).mp hseen
    rw [hadd]
    refine ⟨fun h => (hrows.seen h).trans ⟨?_, ?_⟩, hrows.contents, hrows.children,
      forall_mem_append.mpr
      ⟨hrows.written, forall_mem_singleton.mpr (hsame it' hit' hhash ▸ hrows.written it' hit')⟩⟩
    · rintro ⟨i, hi, rfl⟩
      exact ⟨i, mem_append_left _ hi, rfl⟩
    · rintro ⟨i, hi, rfl⟩
      rcases mem_append.mp hi with hi | hi
      · exact ⟨i, hi, rfl⟩
      · rw [mem_singleton.mp hi]
        exact ⟨it', hit', hhash⟩
  · have hwritten := hrows.written_new hfits hseen
    have hadd : rows.add σ it =
        ⟨it.shape.hash σ :: rows.seen, rows.contents ++ [it.content σ],
        rows.children ++ it.children σ⟩ := by
      rw [Rows.add, Rows.emit, it.content_nodeHash, if_neg hseen]
    rw [hadd] at hwritten ⊢
    refine ⟨fun h => ?_,
      forall_mem_append.mpr ⟨fun row hrow => mem_cons_of_mem _ (hrows.contents row hrow), ?_⟩,
      forall_mem_append.mpr ⟨fun c hc => mem_cons_of_mem _ (hrows.children c hc), fun c hc => ?_⟩,
      forall_mem_append.mpr ⟨fun it' hit' => ?_, forall_mem_singleton.mpr hwritten⟩⟩
    · rw [mem_cons, hrows.seen]
      constructor
      · rintro (rfl | ⟨i, hi, rfl⟩)
        · exact ⟨it, mem_append_right _ mem_cons_self, rfl⟩
        · exact ⟨i, mem_append_left _ hi, rfl⟩
      · rintro ⟨i, hi, rfl⟩
        rcases mem_append.mp hi with hi | hi
        · exact .inr ⟨i, hi, rfl⟩
        · exact .inl (by rw [mem_singleton.mp hi])
    · exact forall_mem_singleton.mpr (it.content_nodeHash σ ▸ mem_cons_self)
    · exact it.children_parent hc ▸ mem_cons_self
    · have hne : it.shape.hash σ ≠ it'.shape.hash σ :=
        fun heq => hseen ((hrows.seen _).mpr ⟨it', hit', heq.symm⟩)
      rw [Rows.Written, Rows.contentOf_append_of_ne (by rwa [it.content_nodeHash]),
        Rows.childrenOf_append_of_ne fun c hc => by rwa [it.children_parent hc]]
      exact hrows.written it' hit'

def Separate (σ : Bytes → Digest) (items : List Item) : Prop :=
  ∀ it ∈ items, ∀ it' ∈ items, it.shape.hash σ = it'.shape.hash σ → it.shape = it'.shape

theorem holds_addAll (hfits : ∀ it ∈ items, it.Fits) (hsep : Separate σ items) :
    (Rows.addAll σ ⟨[], [], []⟩ items).Holds σ items := by
  induction items using List.reverseRecOn with
  | nil => exact ⟨by simp [Rows.addAll], nofun, nofun, nofun⟩
  | append_singleton items it ih =>
    have hold : ∀ i ∈ items, i ∈ items ++ [it] := fun i hi => mem_append_left _ hi
    have hlast : it ∈ items ++ [it] := mem_append_right _ mem_cons_self
    have hrows :=
      ih (fun i hi => hfits i (hold i hi)) fun i hi j hj => hsep i (hold i hi) j (hold j hj)
    rw [Rows.addAll_append]
    exact hrows.add (hfits it hlast) fun i hi => hsep i (hold i hi) it hlast

end

/-! ## The items of a file -/

def injectedItems (inject : Syn → List (Lang × Syn)) (content : Bytes) (t : Syn) : List Item :=
  (inject t).flatMap fun site => itemsNode (fun _ => []) content site.1 site.2

def itemsFile (inject : Syn → List (Lang × Syn)) (content : Bytes) (lang : Lang) (root : Syn) :
    List Item :=
  itemsNode (injectedItems inject content) content lang root

theorem foldInjected_eq (σ : Bytes → Digest) (content : Bytes) (sites : List (Lang × Syn))
    (rows : Rows) :
    foldInjected σ content sites rows =
      rows.addAll σ (sites.flatMap fun site => itemsNode (fun _ => []) content site.1 site.2) := by
  induction sites generalizing rows with
  | nil => rfl
  | cons site sites ih =>
    have hnothing : ∀ (t : Syn) (rows : Rows), rows = rows.addAll σ ((fun _ => []) t) :=
      fun _ _ => rfl
    have hsite : foldInjectedNode σ content site.1 site.2 rows =
        ((readShape content site.1 site.2).hash σ,
        rows.addAll σ (itemsNode (fun _ => []) content site.1 site.2)) :=
      fold_eq hnothing site.2 rows
    rw [foldInjected, List.foldl_cons, hsite, List.flatMap_cons, Rows.addAll_append]
    exact ih _

theorem parseFile_eq (σ : Bytes → Digest) (inject : Syn → List (Lang × Syn)) (content : Bytes)
    (lang : Lang) (root : Syn) :
    parseFile σ inject content lang root =
      ((readShape content lang root).hash σ,
        Rows.addAll σ ⟨[], [], []⟩ (itemsFile inject content lang root)) :=
  fold_eq (fun t rows => foldInjected_eq σ content (inject t) rows) root _

section
variable {before : Syn → List Item} {content : Bytes} {lang : Lang}

theorem mem_itemsList {children : List Syn} {it : Item}
    (h : it ∈ itemsList before content lang children) :
    ∃ child ∈ kept children, it ∈ before child ∨ it ∈ itemsNode before content lang child := by
  induction children with
  | nil =>
    cases h
  | cons child children ih =>
    rw [itemsList] at h
    rcases hextra : child.isExtra with _ | _
    · rw [kept_cons hextra]
      simp only [hextra, Bool.false_eq_true, if_false] at h
      rcases mem_append.mp h with h | h
      · split at h
        · exact ⟨child, mem_cons_self, .inl h⟩
        · cases h
      · rcases mem_append.mp h with h | h
        · exact ⟨child, mem_cons_self, .inr h⟩
        · obtain ⟨c, hc, hit⟩ := ih h
          exact ⟨c, mem_cons_of_mem _ hc, hit⟩
    · rw [kept_cons_extra hextra]
      simp only [hextra, if_true] at h
      exact ih h

theorem itemsNode_subset {children : List Syn} {child : Syn} (h : child ∈ kept children) :
    itemsNode before content lang child ⊆ itemsList before content lang children := by
  induction children with
  | nil => cases h
  | cons first children ih =>
    rw [itemsList]
    rcases hextra : first.isExtra with _ | _
    · rw [kept_cons hextra] at h
      rcases mem_cons.mp h with rfl | h
      · exact fun it hit => mem_append_right _ (mem_append_left _ hit)
      · exact fun it hit => mem_append_right _ (mem_append_right _ (ih h hit))
    · rw [kept_cons_extra hextra] at h
      exact ih h

theorem forall_items {P : Item → Prop} (hbefore : ∀ t, ∀ it ∈ before t, P it)
    (hown : ∀ t, P (.own content lang t)) (t : Syn) :
    ∀ it ∈ itemsNode before content lang t, P it := by
  induction t using Syn.induct with
  | h _ _ _ _ _ _ _ ih =>
    intro it hit
    rcases mem_append.mp hit with hit | hit
    · obtain ⟨child, hchild, hfrom⟩ := mem_itemsList hit
      rcases hfrom with hfrom | hfrom
      · exact hbefore child it hfrom
      · exact ih child (List.mem_of_mem_filter hchild) it hfrom
    · rw [mem_singleton.mp hit]
      exact hown (.node ..)

theorem exists_item (t : Syn) {s : Shape} (h : Shape.Sub s (readShape content lang t)) :
    ∃ it ∈ itemsNode before content lang t, it.shape = s := by
  induction t using Syn.induct generalizing s with
  | h kind named extra field startByte endByte children ih =>
    have hshape := @readShape_node content lang kind named extra field startByte endByte children
    cases h with
    | self => exact ⟨_, mem_append_right _ mem_cons_self, rfl⟩
    | child hc hsub =>
      injection hshape with _ _ hchildren
      rw [hchildren] at hc
      obtain ⟨child, hchild, rfl⟩ := mem_map.mp hc
      obtain ⟨it, hit, heq⟩ := ih child (List.mem_of_mem_filter hchild) hsub
      exact ⟨it, mem_append_left _ (itemsNode_subset hchild hit), heq⟩

theorem fits_own (t : Syn) : (Item.own content lang t).Fits := by
  cases t
  rw [Item.Fits, Item.own, readShape_node]
  simp only [length_map]

end

section
variable {inject : Syn → List (Lang × Syn)} {content : Bytes} {lang : Lang} {root : Syn}

theorem forall_itemsFile {P : Item → Prop} (hown : ∀ (lang : Lang) t, P (.own content lang t)) :
    ∀ it ∈ itemsFile inject content lang root, P it := by
  refine forall_items (fun t it hit => ?_) (hown lang) root
  obtain ⟨site, -, hmem⟩ := List.mem_flatMap.mp hit
  exact forall_items (fun _ _ h => absurd h List.not_mem_nil) (hown site.1) site.2 it hmem

theorem separate_itemsFile {σ : Bytes → Digest}
    (hfree : ∀ it ∈ itemsFile inject content lang root, ∀ it' ∈ itemsFile inject content lang root,
      CollisionFree σ it.shape it'.shape) : Separate σ (itemsFile inject content lang root) := by
  have htidy : ∀ it ∈ itemsFile inject content lang root, it.shape.Tidy :=
    forall_itemsFile fun _ (.node ..) => tidy_readShape _
  intro it hit it' hit' heq
  exact hash_injective (htidy it hit) (htidy it' hit') (hfree it hit it' hit') heq

end

/-! ## From the root's hash to the tree -/

/-- The hashes the child rows lead to. -/
inductive Rows.Reaches (rows : Rows) (root : Digest) : Digest → Prop
  | root : Rows.Reaches rows root root
  | child {h : Digest} {c : ChildRow} : Rows.Reaches rows root h → c ∈ rows.childrenOf h →
      Rows.Reaches rows root c.childHash

def Rows.rebuild (rows : Rows) : Nat → Digest → Option Shape
  | 0, _ => none
  | fuel + 1, h =>
    match rows.contentOf h with
    | [row] =>
      if row.nodeTag = nodeTagLeaf then some (.node row.kind row.token [])
      else do
        let children ← ((rows.childrenOf h).map ChildRow.childHash).mapM (rows.rebuild fuel)
        some (.node row.kind none children)
    | _ => none

section
variable {σ : Bytes → Digest} {rows : Rows}

theorem Rows.Written.childHashes {kind : Bytes} {children : List Shape}
    (h : rows.Written σ (.node kind none children)) :
    (rows.childrenOf (Shape.hash σ (.node kind none children))).map ChildRow.childHash =
    children.map (Shape.hash σ) := by
  have hsnd := congrArg (List.map Prod.snd) h.2
  rw [map_map, Shape.edges, map_map] at hsnd
  refine hsnd.trans ?_
  refine List.ext_getElem? fun i => ?_
  rw [List.getElem?_map, List.getElem?_zipIdx, Option.map_map]
  exact Option.map_id'

theorem mapM_map_eq_some {f : Digest → Option Shape} {l : List Shape}
    (h : ∀ s ∈ l, f (s.hash σ) = some s) :
    (l.map (Shape.hash σ)).mapM f = some l := by
  induction l with
  | nil => rfl
  | cons s l ih =>
    rw [List.map_cons, List.mapM_cons, h s mem_cons_self, ih fun t ht => h t (mem_cons_of_mem _ ht)]
    rfl

theorem exists_bound {α : Type} {Q : α → Nat → Prop} {l : List α}
    (h : ∀ a ∈ l, ∃ n, ∀ fuel, n ≤ fuel → Q a fuel) :
    ∃ n, ∀ a ∈ l, ∀ fuel, n ≤ fuel → Q a fuel := by
  induction l with
  | nil => exact ⟨0, fun a ha => absurd ha List.not_mem_nil⟩
  | cons a l ih =>
    obtain ⟨n, hn⟩ := h a mem_cons_self
    obtain ⟨m, hm⟩ := ih fun c hc => h c (mem_cons_of_mem _ hc)
    refine ⟨max n m, fun c hc fuel hfuel => ?_⟩
    rcases mem_cons.mp hc with rfl | hc
    · exact hn fuel (by omega)
    · exact hm c hc fuel (by omega)

theorem rebuild_eq {s : Shape} (hs : s.Tidy) (hwritten : ∀ t, Shape.Sub t s → rows.Written σ t) :
    ∃ n, ∀ fuel, n ≤ fuel → rows.rebuild fuel (s.hash σ) = some s := by
  induction s using Shape.induct with
  | h kind token children ih =>
    have hself := hwritten _ (.self _)
    obtain ⟨row, hrow, hdescribes⟩ := hself.1
    rcases token with _ | token
    · obtain ⟨n, hn⟩ :=
        exists_bound fun c hc => ih c hc (hs.child hc) fun t ht => hwritten t (.child hc ht)
      obtain ⟨htag, hkind, -, -⟩ := hdescribes
      refine ⟨n + 1, fun fuel hfuel => ?_⟩
      obtain ⟨fuel, rfl⟩ : ∃ m, fuel = m + 1 := ⟨fuel - 1, by omega⟩
      have hchildren := mapM_map_eq_some fun c hc => hn c hc fuel (by omega)
      rw [Rows.rebuild, hrow]
      dsimp only
      rw [htag, if_neg (by decide), hself.childHashes, hchildren, hkind]
      rfl
    · obtain ⟨htag, hkind, htoken, -⟩ := hdescribes
      refine ⟨1, fun fuel hfuel => ?_⟩
      obtain ⟨fuel, rfl⟩ : ∃ m, fuel = m + 1 := ⟨fuel - 1, by omega⟩
      rw [Rows.rebuild, hrow]
      dsimp only
      rw [if_pos htag, hkind, htoken, hs.leaf]

theorem Rows.Reaches.sub {s : Shape} (hwritten : ∀ t, Shape.Sub t s → rows.Written σ t) {h : Digest}
    (hreach : rows.Reaches (s.hash σ) h) : ∃ t, Shape.Sub t s ∧ t.hash σ = h := by
  induction hreach with
  | root => exact ⟨s, .self s, rfl⟩
  | @child h c _ hc ih =>
    obtain ⟨⟨kind, token, children⟩, hsub, rfl⟩ := ih
    have hself := hwritten _ hsub
    rcases token with _ | token
    · have hmem := List.mem_map_of_mem (f := ChildRow.childHash) hc
      rw [hself.childHashes] at hmem
      obtain ⟨t, ht, hhash⟩ := mem_map.mp hmem
      exact ⟨t, hsub.trans (.child ht (.self t)), hhash⟩
    · have hnone : rows.childrenOf (Shape.hash σ (.node kind (some token) children)) = [] :=
        List.map_eq_nil_iff.mp hself.2
      rw [hnone] at hc
      cases hc

end

/-! ## Addresses are exact -/

/-- A file as the parser leaves it. -/
structure Parsed where
  inject : Syn → List (Lang × Syn)
  content : Bytes
  lang : Lang
  root : Syn

namespace Parsed

def nodeHash (σ : Bytes → Digest) (f : Parsed) : Digest :=
  (parseFile σ f.inject f.content f.lang f.root).1

def rows (σ : Bytes → Digest) (f : Parsed) : Rows :=
  (parseFile σ f.inject f.content f.lang f.root).2

def read (f : Parsed) : Shape := readShape f.content f.lang f.root

def canon (f : Parsed) : Shape := canonShape f.content f.lang f.root

def Plain (f : Parsed) : Prop := Ast.Plain f.content f.root

theorem plain_iff (f : Parsed) : f.Plain ↔ f.read = f.canon := Ast.plain_iff

theorem exists_plain_read (f : Parsed) : ∃ f' : Parsed, f'.Plain ∧ f'.read = f.read := by
  obtain ⟨content, root, hplain, hread⟩ := @exists_plain f.content f.lang f.root
  exact ⟨⟨fun _ => [], content, plainLang, root⟩, hplain, hread⟩

def items (f : Parsed) : List Item := itemsFile f.inject f.content f.lang f.root

end Parsed

/-- Two trees have one hash exactly when they are one tree without extra nodes, with kinds made
canonical. -/
def Exact (σ : Bytes → Digest) (f f' : Parsed) : Prop :=
  f.nodeHash σ = f'.nodeHash σ ↔ f.canon = f'.canon

/-- The rows of a file lead from the root's hash to exactly one content row and the ordered
children of every node, and to the tree. -/
def Complete (σ : Bytes → Digest) (f : Parsed) : Prop :=
  (∀ h, (f.rows σ).Reaches (f.nodeHash σ) h → ∃ s, s.hash σ = h ∧ (f.rows σ).Written σ s) ∧
    ∃ n, ∀ fuel, n ≤ fuel → (f.rows σ).rebuild fuel (f.nodeHash σ) = some f.read

variable {σ : Bytes → Digest}

theorem nodeHash_eq_iff {f f' : Parsed} (hfree : CollisionFree σ f.read f'.read) :
    f.nodeHash σ = f'.nodeHash σ ↔ f.read = f'.read := by
  rw [Parsed.nodeHash, Parsed.nodeHash, parseFile_eq, parseFile_eq]
  constructor
  · exact hash_injective (tidy_readShape _) (tidy_readShape _) hfree
  · exact congrArg (Shape.hash σ)

theorem complete {f : Parsed}
    (hfree : ∀ it ∈ f.items, ∀ it' ∈ f.items, CollisionFree σ it.shape it'.shape) :
    Complete σ f := by
  have hfits : ∀ it ∈ f.items, it.Fits := forall_itemsFile fun _ => fits_own
  have hholds := holds_addAll hfits (separate_itemsFile hfree)
  have hwritten : ∀ t, Shape.Sub t f.read → (f.rows σ).Written σ t := by
    intro t ht
    obtain ⟨it, hit, rfl⟩ := @exists_item (injectedItems f.inject f.content) _ _ f.root t ht
    rw [Parsed.rows, parseFile_eq]
    exact hholds.written it hit
  have hroot : f.nodeHash σ = f.read.hash σ := by
    rw [Parsed.nodeHash, parseFile_eq]
    rfl
  rw [Complete, hroot]
  refine ⟨fun h hreach => ?_, rebuild_eq (tidy_readShape _) hwritten⟩
  obtain ⟨t, ht, hhash⟩ := hreach.sub hwritten
  exact ⟨t, hhash, hwritten t ht⟩

/-- **Addresses are exact on plain trees**, and on no others: a tree is told apart from the plain
trees by its hash, as it is without extra nodes, if and only if it is plain itself. The rows of
every file are complete. -/
theorem addresses_exact {σ : Bytes → Digest} {f : Parsed}
    (hfree : ∀ it ∈ f.items, ∀ it' ∈ f.items, CollisionFree σ it.shape it'.shape) :
    ((∀ f' : Parsed, f'.Plain → CollisionFree σ f.read f'.read → Exact σ f f') ↔ f.Plain) ∧
    Complete σ f := by
  refine ⟨⟨fun hexact => ?_, fun hplain f' hplain' hfree' => ?_⟩, complete hfree⟩
  · -- the plain tree that is read as this one has its hash
    obtain ⟨f', hplain, hread⟩ := f.exists_plain_read
    have hself : CollisionFree σ f.read f.read := by
      obtain ⟨it, hit, hshape⟩ :=
        @exists_item (injectedItems f.inject f.content) _ _ f.root f.read (.self _)
      rw [← hshape]
      exact hfree it hit it hit
    have hfree' : CollisionFree σ f.read f'.read := by
      rw [hread]
      exact hself
    have hcanon : f.canon = f'.canon :=
      (hexact f' hplain hfree').mp ((nodeHash_eq_iff hfree').mpr hread.symm)
    rw [← f'.plain_iff.mp hplain, hread] at hcanon
    exact f.plain_iff.mpr hcanon.symm
  · rw [Exact, nodeHash_eq_iff hfree', f.plain_iff.mp hplain, f'.plain_iff.mp hplain']

/-! ## Two files of a comment each -/

def padDigest (bytes : Bytes) : Digest := Partition.Decomposition.firstBytes bytes

/-- A file of kind `p` with one child, a comment over all of it. -/
def commentFile (content : Bytes) : Parsed :=
  ⟨fun _ => [], content, plainLang,
    .node [0x70] true false none 0 content.length [.node [0x63] true true none 0 content.length []]⟩

def tokenFile (content : Bytes) : Parsed :=
  ⟨fun _ => [], content, plainLang, .node [0x70] true false none 0 content.length []⟩

theorem sub_leaf {s : Shape} {kind : Bytes} {token : Option Bytes}
    (h : Shape.Sub s (.node kind token [])) :
    s = .node kind token [] := by
  rcases h.node with h | ⟨c, hc, _⟩
  · exact h
  · cases hc

theorem tokenFile_read (content : Bytes) :
    (tokenFile content).read = .node [0x70] (some (utf8Text content 0 content.length)) [] := by
  rfl

/-- Files that differ only in a comment have different hashes; a comment has the hash of a token
with its text; two different tokens that are not UTF-8 have one hash. -/
theorem addresses_inexact :
    (CollisionFree padDigest (commentFile [0x23, 0x61]).read (commentFile [0x23, 0x62]).read ∧
        ¬ Exact padDigest (commentFile [0x23, 0x61]) (commentFile [0x23, 0x62])) ∧
      (CollisionFree padDigest (commentFile [0x23, 0x61]).read (tokenFile [0x23, 0x61]).read ∧
        ¬ Exact padDigest (commentFile [0x23, 0x61]) (tokenFile [0x23, 0x61])) ∧
      CollisionFree padDigest (tokenFile [0xFF]).read (tokenFile [0xFE]).read ∧
        ¬ Exact padDigest (tokenFile [0xFF]) (tokenFile [0xFE]) := by
  refine ⟨⟨?_, ?_⟩, ⟨?_, ?_⟩, ?_, ?_⟩
  · intro t t' ht ht' heq
    rw [sub_leaf ht, sub_leaf ht'] at heq
    exact absurd heq (by decide +kernel)
  · intro h
    exact absurd (h.mpr rfl) (by decide +kernel)
  · intro t t' ht ht' _
    rw [sub_leaf ht, sub_leaf ht']
    rfl
  · intro h
    have hcanon := h.mp rfl
    injection hcanon with _ htoken _
    cases htoken
  · intro t t' ht ht' _
    rw [sub_leaf ht, sub_leaf ht']
    decide +kernel
  · intro h
    have hcanon := h.mp (by decide +kernel)
    injection hcanon with _ htoken _
    exact absurd htoken (by decide +kernel)

/-- Two files of one token each, `a` and `b`. -/
theorem addresses_exact_tokens :
    Exact padDigest (tokenFile [0x61]) (tokenFile [0x62]) ∧
    Complete padDigest (tokenFile [0x61]) := by
  have hplain : ∀ byte, ByteArray.validateUTF8 ⟨#[byte]⟩ = true →
      Plain [byte] (tokenFile [byte]).root :=
    fun byte hbyte => .node (fun _ => rfl) (fun _ => hbyte) fun c hc => absurd hc List.not_mem_nil
  have hfree : CollisionFree padDigest (tokenFile [0x61]).read (tokenFile [0x62]).read := by
    intro t t' ht ht' heq
    rw [sub_leaf ht, sub_leaf ht'] at heq
    exact absurd heq (by decide +kernel)
  have hrows : ∀ it ∈ (tokenFile [0x61]).items, ∀ it' ∈ (tokenFile [0x61]).items,
      CollisionFree padDigest it.shape it'.shape := by
    have hitems : ∀ it ∈ (tokenFile [0x61]).items, it.shape = (tokenFile [0x61]).read := by
      intro it hit
      rw [mem_singleton.mp hit]
      rfl
    intro it hit it' hit' t t' ht ht' _
    rw [hitems it hit, tokenFile_read] at ht
    rw [hitems it' hit', tokenFile_read] at ht'
    rw [sub_leaf ht, sub_leaf ht']
  obtain ⟨hexact, hcomplete⟩ := addresses_exact hrows
  exact ⟨hexact.mpr (hplain 0x61 (by decide +kernel)) _ (hplain 0x62 (by decide +kernel)) hfree,
    hcomplete⟩

end LeyLine.Ast
