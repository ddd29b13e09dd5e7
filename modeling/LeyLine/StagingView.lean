import LeyLine.Lib.Assoc
import LeyLine.Lib.Table
import LeyLine.Staging

/-!
# What the overlay shows

`visible` is what a reader of the overlay finds under an id: the shadow's row, nothing
where that is a tombstone, and the live node where there is no row. The four reads are
functions of it (`getNode_eq`, `mem_listChildren`, `lookupChild_eq_some_iff`,
`readContent_eq`).
-/

namespace LeyLine.Staging

open Std (ExtTreeMap)

/-! ## Ids -/

variable {id : Path}

theorem IsId.ne_nil (h : IsId id) : id ≠ [] := by
  rintro rfl
  exact h.1 rfl

theorem not_mem_nameOf (id : Path) : '/' ∉ nameOf id := SepPath.not_mem_lastPart id

variable {name : Path}

theorem parentIdOf_joinId (parentId : Path) (h : '/' ∉ name) :
    parentIdOf (joinId parentId name) = parentId := SepPath.dirPart_join parentId h

theorem nameOf_joinId (parentId : Path) (h : '/' ∉ name) :
    nameOf (joinId parentId name) = name := SepPath.lastPart_join parentId h

theorem isId_joinId (parentId : Path) (hne : name ≠ []) (h : '/' ∉ name) :
    IsId (joinId parentId name) := by
  refine ⟨by rwa [nameOf_joinId parentId h], ?_⟩
  rw [parentIdOf_joinId parentId h, nameOf_joinId parentId h]

theorem IsId.ext {id id' : Path} (h : IsId id) (h' : IsId id')
    (hparent : parentIdOf id = parentIdOf id') (hname : nameOf id = nameOf id') : id = id' := by
  rw [← h.2, ← h'.2, hparent, hname]

theorem IsId.under_iff {d id : Path} (h : IsId id) :
    Under d id ↔ parentIdOf id ≠ [] ∧ AtOrUnder d (parentIdOf id) := by
  have hjoin := h.2
  unfold joinId SepPath.join at hjoin
  split at hjoin
  · rename_i hnil
    constructor
    · intro hunder
      obtain ⟨r, hr⟩ := SepPath.under_iff.mp hunder
      have hsep : '/' ∈ id := by
        rw [hr]
        exact List.mem_append_right d List.mem_cons_self
      have hname := not_mem_nameOf id
      rw [hjoin] at hname
      exact absurd hsep hname
    · exact fun hne => absurd hnil hne.1
  · rename_i hne
    have hkey := SepPath.under_append_iff (d := d) (q := parentIdOf id) (not_mem_nameOf id)
    rw [hjoin] at hkey
    exact ⟨fun hd => ⟨hne, hkey.mp hd⟩, fun hd => hkey.mpr hd.2⟩

variable {t : Nodes}

theorem Nodes.Hierarchical.dir_above (ht : t.Hierarchical) {d : Path} :
    ∀ {id : Path} {h : Held}, t[id]? = some h → Under d id → ∃ e, t[d]? = some e ∧
    e.isDir = true := by
  intro id
  -- on the length of the id: the parent is shorter
  induction hlen : id.length using Nat.strong_induction_on generalizing id with
  | _ n ih =>
    intro h hid hunder
    obtain ⟨hne, hd⟩ := (ht.path id h hid).under_iff.mp hunder
    rcases ht.parent id h hid with hnil | ⟨e, he, hdir⟩
    · exact absurd hnil hne
    · rcases hd with rfl | hd
      · exact ⟨e, he, hdir⟩
      · have hshort : Under (parentIdOf id) id := (ht.path id h hid).under_iff.mpr ⟨hne, .inl rfl⟩
        exact ih _ (hlen ▸ hshort.length_lt) rfl he hd

/-! ## Reads as functions of what is visible -/

def Row.held (r : Row) : Option Held :=
  if r.tombstone then none else
    some ⟨r.isDir, r.size.toNat, r.mtime, (r.record.map utf8).getD []⟩

namespace StagingGraph

def visible (s : StagingGraph) (id : Path) : Option Held :=
  match s.shadow[id]? with
  | some r => r.held
  | none => s.live.nodes[id]?

def Filed (s : StagingGraph) : Prop :=
  ∀ id r, s.shadow[id]? = some r → IsId id ∧ r.parentId = parentIdOf id ∧ r.name = nameOf id

end StagingGraph

theorem Row.shown_eq {r : Row} (h : r.name = nameOf id) :
    r.shown id = r.held.map (Held.node id) := by
  unfold Row.shown Row.held
  split
  · rfl
  · rw [Option.map_some, Held.node, Row.node, h]

/-- The nodes a listing of `parentId` has, by what is found under each id. -/
def Lists (view : Path → Option Held) (parentId : Path) (node : Node) : Prop :=
  ∃ id held, view id = some held ∧ parentIdOf id = parentId ∧ node = held.node id

variable {parentId : Path} {node : Node}

theorem Nodes.mem_listChildren : node ∈ t.listChildren parentId ↔ Lists (t[·]?) parentId node := by
  unfold Nodes.listChildren Lists
  simp only [List.mem_map, List.mem_filter, decide_eq_true_eq, Prod.exists,
    ExtTreeMap.mem_toList_iff_getElem?_eq_some]
  constructor
  · rintro ⟨id, held, ⟨hget, hparent⟩, rfl⟩
    exact ⟨id, held, hget, hparent, rfl⟩
  · rintro ⟨id, held, hget, hparent, rfl⟩
    exact ⟨id, held, ⟨hget, hparent⟩, rfl⟩

theorem Nodes.nodup_listChildren (t : Nodes) (parentId : Path) :
    ((t.listChildren parentId).map (·.id)).Nodup := by
  have hkeys : (t.toList.map Prod.fst).Nodup := by
    rw [ExtTreeMap.map_fst_toList_eq_keys]
    exact ExtTreeMap.nodup_keys
  have hids : (t.listChildren parentId).map (·.id) =
      (t.toList.filter fun x => parentIdOf x.1 = parentId).map Prod.fst := by
    unfold Nodes.listChildren
    rw [List.map_map]
    rfl
  rw [hids]
  exact hkeys.sublist (List.filter_sublist.map Prod.fst)

theorem Lists.unique {view : Path → Option Held} (hpath : ∀ id h, view id = some h → IsId id)
    {node node' : Node} (h : Lists view parentId node)
    (h' : Lists view parentId node') (hname : node.name = node'.name) : node = node' := by
  obtain ⟨id, held, hget, hparent, rfl⟩ := h
  obtain ⟨id', held', hget', hparent', rfl⟩ := h'
  obtain rfl : id = id' :=
    (hpath id held hget).ext (hpath id' held' hget') (hparent.trans hparent'.symm) hname
  rw [Option.mem_unique hget hget']

theorem Nodes.lookupChild_eq_some_iff (ht : t.Hierarchical) :
    t.lookupChild parentId name = some node ↔ Lists (t[·]?) parentId node ∧ node.name = name := by
  unfold Nodes.lookupChild
  rw [Assoc.find?_eq_some_iff_of_unique, Nodes.mem_listChildren, decide_eq_true_eq]
  intro x hx y hy hxn hyn
  rw [decide_eq_true_eq] at hxn hyn
  exact (Nodes.mem_listChildren.mp hx).unique ht.path (Nodes.mem_listChildren.mp hy)
    (hxn.trans hyn.symm)

namespace StagingGraph

variable {s : StagingGraph}

theorem visible_path (hs : s.Filed) {h : Held} (hv : s.visible id = some h) : IsId id := by
  unfold visible at hv
  split at hv
  · rename_i r hr
    exact (hs id r hr).1
  · exact s.live.tree.path id h hv

theorem getNode_eq (hs : s.Filed) (id : Path) :
    s.getNode id = if id = [] then some rootNode else (s.visible id).map (Held.node id) := by
  unfold getNode visible
  split
  · rfl
  · cases hr : s.shadow[id]? with
    | some r => exact Row.shown_eq (hs id r hr).2.2
    | none => exact if_neg ‹_›

theorem readContent_eq (id : Path) (len offset : Nat) :
    s.readContent id len offset = match s.visible id with
      | some h => slice h.content len offset
      | none => [] := by
  unfold readContent visible
  cases hr : s.shadow[id]? with
  | none => rfl
  | some r =>
    cases ht : r.tombstone with
    | true => simp [Row.held, ht]
    | false => cases hrec : r.record <;> simp [Row.held, ht, hrec, slice]

theorem rows_get (hs : s.Filed) (parentId id : Path) :
    (s.shadow.filter fun _ (r : Row) => r.parentId = parentId)[id]? =
      if parentIdOf id = parentId then s.shadow[id]? else none := by
  rw [ExtTreeMap.getElem?_filter']
  cases hr : s.shadow[id]? with
  | none => simp
  | some r =>
    rw [Option.filter_some, (hs id r hr).2.1]
    simp

theorem mem_listChildren (hs : s.Filed) :
    node ∈ s.listChildren parentId ↔ Lists s.visible parentId node := by
  have hshown : ∀ {id r}, s.shadow[id]? = some r →
      r.shown id = (s.visible id).map (Held.node id) := by
    intro id r hr
    rw [Row.shown_eq (hs id r hr).2.2, visible, hr]
  unfold listChildren
  simp only [List.mem_append, List.mem_filterMap, Nodes.mem_listChildren, List.mem_map, Prod.exists,
    ExtTreeMap.mem_toList_iff_getElem?_eq_some, rows_get hs]
  constructor
  · rintro (⟨-, ⟨id, held, hget, hparent, rfl⟩, hnode⟩ | ⟨id, r, hr, hnode⟩)
    · -- a live child, as the shadow has it
      simp only [Held.node, hparent, if_true] at hnode
      cases hr : s.shadow[id]? with
      | some r =>
        rw [hr] at hnode
        obtain ⟨h, hv, rfl⟩ := Option.map_eq_some_iff.mp ((hshown hr).symm.trans hnode)
        exact ⟨id, h, hv, hparent, rfl⟩
      | none =>
        rw [hr] at hnode
        refine ⟨id, held, ?_, hparent, (Option.some.inj hnode).symm⟩
        rw [visible, hr]
        exact hget
    · split at hr
      · rename_i hparent
        split at hnode
        · simp at hnode
        · obtain ⟨h, hv, rfl⟩ := Option.map_eq_some_iff.mp ((hshown hr).symm.trans hnode)
          exact ⟨id, h, hv, hparent, rfl⟩
      · simp at hr
  · rintro ⟨id, held, hv, hparent, rfl⟩
    cases hr : s.shadow[id]? with
    | none =>
      have hget : s.live.nodes[id]? = some held := by
        rw [visible, hr] at hv
        exact hv
      refine .inl ⟨held.node id, ⟨id, held, hget, hparent, rfl⟩, ?_⟩
      simp only [Held.node, hparent, if_true, hr]
    | some r =>
      have hnode : r.shown id = some (held.node id) := by rw [hshown hr, hv]; rfl
      by_cases hlive : ∃ h, s.live.nodes[id]? = some h
      · obtain ⟨h, hget⟩ := hlive
        refine .inl ⟨h.node id, ⟨id, h, hget, hparent, rfl⟩, ?_⟩
        simp only [Held.node, hparent, if_true, hr]
        exact hnode
      · refine .inr ⟨id, r, by rw [if_pos hparent, hr], ?_⟩
        rw [if_neg, hnode]
        intro hmem
        obtain ⟨child, hchild, rfl⟩ := List.mem_map.mp hmem
        obtain ⟨id', h, hget, -, rfl⟩ := Nodes.mem_listChildren.mp hchild
        exact hlive ⟨h, hget⟩

theorem shown_id {r : Row} (h : r.shown id = some node) : node.id = id := by
  unfold Row.shown at h
  split at h
  · simp at h
  · rw [← Option.some.inj h]
    rfl

theorem nodup_listChildren (parentId : Path) : (s.listChildren parentId).Nodup := by
  refine List.Nodup.of_map (·.id) ?_
  have hkeys : ((s.shadow.filter fun _ (r : Row) => r.parentId = parentId).toList.map
      Prod.fst).Nodup := by
    rw [ExtTreeMap.map_fst_toList_eq_keys]
    exact ExtTreeMap.nodup_keys
  unfold listChildren
  rw [List.map_append, List.nodup_append]
  refine ⟨Assoc.nodup_filterMap (fun child node h => ?_) (s.live.nodes.nodup_listChildren parentId),
    Assoc.nodup_filterMap (fun x node h => ?_) hkeys, ?_⟩
  · split at h
    · exact shown_id h
    · rw [Option.some.inj h]
  · split at h
    · simp at h
    · exact shown_id h
  · -- a child listed from the shadow is no live child
    intro id hid id' hid' heq
    obtain ⟨node, hnode, rfl⟩ := List.mem_map.mp hid
    obtain ⟨node', hnode', rfl⟩ := List.mem_map.mp hid'
    obtain ⟨child, hchild, hshow⟩ := List.mem_filterMap.mp hnode
    obtain ⟨x, -, hshow'⟩ := List.mem_filterMap.mp hnode'
    have hchildId : node.id = child.id := by
      split at hshow
      · exact shown_id hshow
      · rw [Option.some.inj hshow]
    split at hshow'
    · simp at hshow'
    · rename_i hout
      refine hout ?_
      rw [← shown_id hshow', ← heq, hchildId]
      exact List.mem_map_of_mem hchild

theorem lookupChild_eq_some_iff (hs : s.Filed) : s.lookupChild parentId name = some node ↔
      Lists s.visible parentId node ∧ node.name = name := by
  have hunique : ∀ x ∈ s.shadow.toList, ∀ y ∈ s.shadow.toList,
      decide (x.2.parentId = parentId ∧ x.2.name = name) = true →
      decide (y.2.parentId = parentId ∧ y.2.name = name) = true → x = y := by
    rintro ⟨id, r⟩ hx ⟨id', r'⟩ hy hxp hyp
    rw [ExtTreeMap.mem_toList_iff_getElem?_eq_some] at hx hy
    rw [decide_eq_true_eq] at hxp hyp
    obtain ⟨hid, hparent, hname⟩ := hs id r hx
    obtain ⟨hid', hparent', hname'⟩ := hs id' r' hy
    obtain rfl : id = id' := hid.ext hid'
      (by rw [← hparent, ← hparent', hxp.1, hyp.1]) (by rw [← hname, ← hname', hxp.2, hyp.2])
    rw [Option.mem_unique hx hy]
  unfold lookupChild
  cases hfind : s.shadow.toList.find? fun x => x.2.parentId = parentId ∧ x.2.name = name with
  | some x =>
    obtain ⟨id, r⟩ := x
    obtain ⟨hmem, hp⟩ := (Assoc.find?_eq_some_iff_of_unique hunique).mp hfind
    rw [ExtTreeMap.mem_toList_iff_getElem?_eq_some] at hmem
    rw [decide_eq_true_eq] at hp
    obtain ⟨hid, hparent, hname⟩ := hs id r hmem
    have hv : s.visible id = r.held := by rw [visible, hmem]
    simp only [Row.shown_eq hname, ← hv]
    constructor
    · intro h
      obtain ⟨held, hheld, rfl⟩ := Option.map_eq_some_iff.mp h
      exact ⟨⟨id, held, hheld, by rw [← hparent, hp.1], rfl⟩, by
        rw [← hp.2, hname]; rfl⟩
    · rintro ⟨⟨id', held, hheld, hparent', rfl⟩, hname'⟩
      obtain rfl : id' = id := (visible_path hs hheld).ext hid
        (by rw [hparent', ← hparent, hp.1]) (by rw [← hname, hp.2]; exact hname')
      rw [hheld]
      rfl
  | none =>
    -- no row of that name: the node is visible exactly where it is live
    have hrow : ∀ id, parentIdOf id = parentId → nameOf id = name → s.shadow[id]? = none := by
      intro id hparent hname
      by_contra hne
      obtain ⟨r, hr⟩ := Option.ne_none_iff_exists'.mp hne
      refine List.find?_eq_none.mp hfind (id, r)
        (ExtTreeMap.mem_toList_iff_getElem?_eq_some.mpr hr) ?_
      rw [decide_eq_true_eq]
      exact ⟨(hs id r hr).2.1.trans hparent, (hs id r hr).2.2.trans hname⟩
    have hlists : ∀ node : Node, node.name = name →
        (Lists (s.live.nodes[·]?) parentId node ↔ Lists s.visible parentId node) := by
      intro node hname
      refine exists_congr fun id => exists_congr fun held => ?_
      constructor
      · rintro ⟨hget, hparent, rfl⟩
        exact ⟨by rw [visible, hrow id hparent hname]; exact hget, hparent, rfl⟩
      · rintro ⟨hget, hparent, rfl⟩
        rw [visible, hrow id hparent hname] at hget
        exact ⟨hget, hparent, rfl⟩
    have hlookup : ∀ node, s.live.nodes.lookupChild parentId name = some node ↔
        Lists s.visible parentId node ∧ node.name = name := fun node => by
      rw [Nodes.lookupChild_eq_some_iff s.live.tree]
      exact and_congr_left fun hname => hlists node hname
    cases hlive : s.live.nodes.lookupChild parentId name with
    | none => simp [← hlookup, hlive]
    | some child =>
      obtain ⟨⟨id, held, hv, hparent, rfl⟩, hname⟩ := (hlookup child).mp hlive
      have htomb : s.isTombstone id = false := by
        rw [isTombstone, hrow id hparent hname]
      simp only [Held.node, htomb, Bool.false_eq_true, if_false]
      rw [← hlookup, hlive]
      rfl

end StagingGraph

end LeyLine.Staging
