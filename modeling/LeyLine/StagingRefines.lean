import LeyLine.StagingView

/-!
# The overlay refines direct editing

The overlay answers as a private copy does where the two show the same nodes
(`Sim.answers`). Each edit keeps that under the condition `Clean` (`Sim.apply`), so a run
of such edits does (`staging_refines`). `staging_differs` has a run for each way in
which an edit outside the condition is taken otherwise.
-/

namespace LeyLine.Staging

open Std (ExtTreeMap)
open Table (get_insert mem_iff)
open Option (map_eq_some_iff map_some ne_none_iff_exists')
open StagingGraph

/-! ## The overlay and a private copy -/

/-- A text that a statement takes as a parameter. -/
abbrev Short (text : Text) : Prop := (utf8 text).length ≤ maxLength

/-- The overlay answers every read as the copy does; a listing comes in any order. -/
structure Answers (s : StagingGraph) (t : Nodes) : Prop where
  getNode : ∀ id, Short id → s.getNode id = t.getNode id
  lookupChild : ∀ parentId name, Short parentId → Short name →
    s.lookupChild parentId name = t.lookupChild parentId name
  listChildren : ∀ parentId, Short parentId →
    (s.listChildren parentId).Perm (t.listChildren parentId)
  readContent : ∀ id len offset, Short id →
    s.readContent id len offset = t.readContent id len offset

/-- No row is too big. -/
def StagingGraph.Fits (s : StagingGraph) : Prop :=
  ∀ (k : Path) (r : Row), s.shadow[k]? = some r → r.Fits k

/-- The overlay shows the nodes of the copy. -/
structure Sim (s : StagingGraph) (t : Nodes) : Prop where
  filed : s.Filed
  fits : s.Fits
  tree : t.Hierarchical
  same : ∀ id, s.visible id = t[id]?

theorem Sim.answers {s : StagingGraph} {t : Nodes} (h : Sim s t) : Answers s t := by
  have hview : s.visible = (t[·]?) := funext h.same
  refine ⟨fun id _ => ?_, fun parentId name _ _ => ?_, fun parentId _ => ?_,
    fun id len offset _ => ?_⟩
  · rw [getNode_eq h.filed, h.same]
    rfl
  · refine Option.ext fun node => ?_
    rw [lookupChild_eq_some_iff h.filed, Nodes.lookupChild_eq_some_iff h.tree, hview]
  · refine (List.perm_ext_iff_of_nodup (nodup_listChildren parentId)
      (List.Nodup.of_map _ (t.nodup_listChildren parentId))).mpr fun node => ?_
    rw [mem_listChildren h.filed, Nodes.mem_listChildren, hview]
  · rw [readContent_eq, h.same]
    rfl

theorem sim_new (live : LiveGraph) : Sim (.new live) live.nodes where
  filed := fun id r hr => by simp [new] at hr
  fits := fun id r hr => by simp [new] at hr
  tree := live.tree
  same := fun id => by simp [visible, new]

/-! ## Hierarchies under an edit -/

namespace Nodes.Hierarchical

variable {t t' : Nodes}

theorem congr (ht : t.Hierarchical) (h : ∀ k : Path, t'[k]?.map (·.isDir) = t[k]?.map (·.isDir)) :
    t'.Hierarchical := by
  have hback : ∀ (k : Path) (e : Held), t'[k]? = some e → ∃ e' : Held, t[k]? = some e' ∧
      e'.isDir = e.isDir := by
    intro k e he
    have hk := h k
    rw [he, map_some] at hk
    exact map_eq_some_iff.mp hk.symm
  refine ⟨fun id e he => ?_, fun id e he => ?_⟩
  · obtain ⟨e', he', -⟩ := hback id e he
    exact ht.path id e' he'
  · obtain ⟨e', he', -⟩ := hback id e he
    rcases ht.parent id e' he' with hnil | ⟨d, hd, hdir⟩
    · exact .inl hnil
    · have hk := h (parentIdOf id)
      rw [hd, map_some, hdir] at hk
      obtain ⟨d', hd', hdir'⟩ := map_eq_some_iff.mp hk
      exact .inr ⟨d', hd', hdir'⟩

theorem insert_new (ht : t.Hierarchical) {id : Path} {h : Held} (hid : IsId id)
    (hnew : t[id]? = none)
    (hparent : parentIdOf id = [] ∨ ∃ d, t[parentIdOf id]? = some d ∧ d.isDir = true) :
    Nodes.Hierarchical (t.insert id h) := by
  have hold : ∀ {p : Path} {d : Held}, t[p]? = some d → (t.insert id h)[p]? = some d := by
    intro p d hd
    rw [get_insert, if_neg, hd]
    rintro rfl
    rw [hnew] at hd
    simp at hd
  refine ⟨fun k e he => ?_, fun k e he => ?_⟩
  · rw [get_insert] at he
    split at he
    · rename_i hk
      exact hk ▸ hid
    · exact ht.path k e he
  · have hk : parentIdOf k = [] ∨ ∃ d, t[parentIdOf k]? = some d ∧ d.isDir = true := by
      rw [get_insert] at he
      split at he
      · rename_i hk
        exact hk ▸ hparent
      · exact ht.parent k e he
    rcases hk with hnil | ⟨d, hd, hdir⟩
    · exact .inl hnil
    · exact .inr ⟨d, hold hd, hdir⟩

theorem remove (ht : t.Hierarchical) (id : Path) : (t.remove id).Hierarchical := by
  unfold Nodes.remove
  split
  · have hget : ∀ k e, (t.filter fun k _ => ¬ AtOrUnder id k)[k]? = some e ↔
        t[k]? = some e ∧ ¬ AtOrUnder id k := fun k e => by
      simp [Option.filter_eq_some_iff]
    refine ⟨fun k e he => ht.path k e ((hget k e).mp he).1, fun k e he => ?_⟩
    obtain ⟨hk, hout⟩ := (hget k e).mp he
    rcases ht.parent k e hk with hnil | ⟨d, hd, hdir⟩
    · exact .inl hnil
    · by_cases hne : parentIdOf k = []
      · exact .inl hne
      · refine .inr ⟨d, (hget _ d).mpr ⟨hd, fun habove => hout (.inr ?_)⟩, hdir⟩
        exact (ht.path k e hk).under_iff.mpr ⟨hne, habove⟩
  · exact ht

theorem get_remove (ht : t.Hierarchical) (id k : Path) :
    (t.remove id)[k]? = if AtOrUnder id k then none else t[k]? := by
  unfold Nodes.remove
  split
  · rw [ExtTreeMap.getElem?_filter']
    by_cases hk : AtOrUnder id k
    · cases t[k]? <;> simp [hk]
    · cases t[k]? <;> simp [hk]
  · -- nothing stands below an id that is not there
    rename_i hnot
    have hnone : t[id]? = none := by
      by_contra hne
      exact hnot ((mem_iff t id).mpr hne)
    split
    · rename_i hk
      rcases hk with rfl | hk
      · exact hnone
      · by_contra hne
        obtain ⟨e, he⟩ := ne_none_iff_exists'.mp hne
        obtain ⟨d, hd, -⟩ := ht.dir_above he hk
        rw [hnone] at hd
        simp at hd
    · rfl

end Nodes.Hierarchical

/-! ## One row at a time -/

namespace StagingGraph

variable {s : StagingGraph}

theorem visible_put (s : StagingGraph) (id : Path) (r : Row) (k : Path) :
    (s.put id r).visible k = if id = k then r.held else s.visible k := by
  unfold visible put
  rw [get_insert]
  by_cases hk : id = k
  · simp only [if_pos hk]
  · simp only [if_neg hk]

theorem Filed.put (hs : s.Filed) {id : Path} {r : Row} (hid : IsId id)
    (hparent : r.parentId = parentIdOf id) (hname : r.name = nameOf id) : (s.put id r).Filed := by
  intro k r' hk
  unfold StagingGraph.put at hk
  rw [get_insert] at hk
  split at hk
  · rename_i heq
    cases hk
    exact heq ▸ ⟨hid, hparent, hname⟩
  · exact hs k r' hk

theorem fits_iff : s.fits = true ↔ s.Fits := by
  unfold fits
  rw [List.all_eq_true]
  constructor
  · intro h k r hr
    simpa using h (k, r) (ExtTreeMap.mem_toList_iff_getElem?_eq_some.mpr hr)
  · intro h x hx
    simpa using h x.1 x.2 (ExtTreeMap.mem_toList_iff_getElem?_eq_some.mp hx)

theorem exec_of_fits {α : Type} {s' : StagingGraph} (h : s'.Fits) (answer : α) :
    s.exec s' answer = (s', .ok answer) := if_pos (fits_iff.mpr h)

theorem exec_of_not_fits {α : Type} {s' : StagingGraph} (h : ¬ s'.Fits) (answer : α) :
    s.exec s' answer = (s, .error .tooBig) := if_neg (mt fits_iff.mp h)

theorem Fits.put (hs : s.Fits) {id : Path} {r : Row} (h : r.Fits id) : (s.put id r).Fits := by
  intro k r' hk
  unfold StagingGraph.put at hk
  rw [get_insert] at hk
  split at hk
  · rename_i heq
    cases hk
    exact heq ▸ h
  · exact hs k r' hk

theorem Filed.update (hs : s.Filed) {id : Path} {f : Row → Row}
    (hkeep : ∀ r, (f r).parentId = r.parentId ∧ (f r).name = r.name) : (s.update id f).Filed := by
  unfold StagingGraph.update
  cases hr : s.shadow[id]? with
  | none => exact hs
  | some r =>
    obtain ⟨hid, hparent, hname⟩ := hs id r hr
    exact hs.put hid ((hkeep r).1.trans hparent) ((hkeep r).2.trans hname)

theorem Fits.update (hs : s.Fits) {id : Path} {f : Row → Row}
    (hfit : ∀ r, s.shadow[id]? = some r → (f r).Fits id) : (s.update id f).Fits := by
  unfold StagingGraph.update
  cases hr : s.shadow[id]? with
  | none => exact hs
  | some r => exact hs.put (hfit r hr)

def copied (lossy : Bytes → Text) (s : StagingGraph) (id : Path) (h : Held) : Row :=
  ⟨parentIdOf id, nameOf id, h.isDir, asI64 h.size, h.mtime, s.cowRecord lossy (h.node id), false⟩

/-- A live node without a row can be copied: there is room for its content, and its row fits. -/
def Copies (lossy : Bytes → Text) (s : StagingGraph) (id : Path) : Prop :=
  s.shadow[id]? = none → ∀ h, s.live.nodes[id]? = some h →
    (h.isDir = false → h.size < isizeMax) ∧ (s.copied lossy id h).Fits id

theorem cowIntoShadow_cases (lossy : Bytes → Text) {id : Path} (hs : s.Fits) (hid : id ≠ [])
    (hcopies : s.Copies lossy id) :
    (∃ r, s.shadow[id]? = some r ∧ s.cowIntoShadow lossy id = (s, .ok true)) ∨
    (s.shadow[id]? = none ∧ s.live.nodes[id]? = none ∧ s.cowIntoShadow lossy id = (s, .ok false)) ∨
    ∃ h, s.shadow[id]? = none ∧ s.live.nodes[id]? = some h ∧
      s.cowIntoShadow lossy id = (s.put id (s.copied lossy id h), .ok true) := by
  unfold cowIntoShadow
  cases hr : s.shadow[id]? with
  | some r => exact .inl ⟨r, rfl, rfl⟩
  | none =>
    have hnode : s.live.nodes.getNode id = (s.live.nodes[id]?).map (Held.node id) := if_neg hid
    rw [hnode]
    cases hlive : s.live.nodes[id]? with
    | none => exact .inr (.inl ⟨rfl, rfl, rfl⟩)
    | some h =>
      refine .inr (.inr ⟨h, rfl, rfl, ?_⟩)
      obtain ⟨hroom, hfits⟩ := hcopies hr h hlive
      have hsmall : ¬ ((h.node id).isDir = false ∧ isizeMax < (h.node id).size + 1) := by
        rintro ⟨hdir, hbig⟩
        have := hroom hdir
        change isizeMax < h.size + 1 at hbig
        omega
      simp only [map_some, if_neg hsmall]
      exact exec_of_fits (hs.put hfits) true

end StagingGraph

/-- The bytes of a `String`. -/
def IsText (bytes : Bytes) : Prop := ∃ text, utf8 text = bytes

theorem utf8_lossy {lossy : Bytes → Text} (hlossy : ∀ text, lossy (utf8 text) = text)
    {bytes : Bytes} (h : IsText bytes) : utf8 (lossy bytes) = bytes := by
  obtain ⟨text, rfl⟩ := h
  rw [hlossy]

/-- A live node whose content a copy takes whole: text that its size covers. -/
structure Held.Copyable (h : Held) : Prop where
  text : IsText h.content
  covered : h.content.length ≤ h.size + 1
  empty : h.isDir = true ∨ h.size = 0 → h.content = []

variable {id : Path}

theorem copied_content {lossy : Bytes → Text}
    (hlossy : ∀ text, lossy (utf8 text) = text) {s : StagingGraph} {h : Held}
    (hlive : s.live.nodes[id]? = some h) (hcopy : h.Copyable) :
    ((s.copied lossy id h).record.map utf8).getD [] = h.content := by
  have hread : s.live.nodes.readContent id (h.size + 1) 0 = h.content := by
    unfold Nodes.readContent
    rw [hlive]
    exact List.take_of_length_le hcopy.covered
  unfold copied cowRecord
  simp only [Held.node, hread]
  split
  · split
    · rename_i hnil
      rw [hnil]
      rfl
    · rw [map_some, Option.getD_some, utf8_lossy hlossy hcopy.text]
  · rename_i hnot
    rw [hcopy.empty, Option.map_none, Option.getD_none]
    by_cases hdir : h.isDir = true
    · exact .inl hdir
    · right
      by_contra hsize
      exact hnot ⟨by simpa using hdir, Nat.pos_of_ne_zero hsize⟩

/-! ## When an edit is taken as it would be by a copy -/

/-- The tombstones at and below an id fit. -/
def StagingGraph.Buries (now : Int) (s : StagingGraph) (id : Path) : Prop :=
  ∀ k, AtOrUnder id k → (∀ r, s.shadow[k]? = some r → (r.buried now).Fits k) ∧
    (s.shadow[k]? = none → ∀ h, s.live.nodes[k]? = some h →
      (⟨parentIdOf k, nameOf k, h.isDir, asI64 h.size, now, none, true⟩ : Row).Fits k)

/-- What an edit must meet. A name is created in a directory, where it was not removed
and, unless the shadow has it, is not live. What is written is text, and a live node's
content can be copied. A removed node is live, or is not there; the pattern of its
descendants' ids is short and meets no other row. The rows written fit. The root is not
edited. -/
def StagingGraph.Clean (lossy : Bytes → Text) (now : Int) (s : StagingGraph) : Op → Prop
  | .create parentId name isDir =>
    (name ≠ [] ∧ '/' ∉ name) ∧
    (parentId = [] ∨ ∃ d, s.visible parentId = some d ∧ d.isDir = true) ∧
    (∀ r, s.shadow[joinId parentId name]? = some r → r.tombstone = false) ∧
    (s.shadow[joinId parentId name]? = none → s.live.nodes[joinId parentId name]? = none ∧
      (⟨parentId, name, isDir, 0, now, none, false⟩ : Row).Fits (joinId parentId name))
  | .write id data offset =>
    id ≠ [] ∧ s.Copies lossy id ∧ ∀ h, s.visible id = some h →
      (s.shadow[id]? = none → h.Copyable) ∧ offset + data.length ≤ isizeMax ∧
        IsText (patched h.content data offset) ∧
        (⟨parentIdOf id, nameOf id, h.isDir, (patched h.content data offset).length, now,
          some (lossy (patched h.content data offset)), false⟩ : Row).Fits id
  | .truncate id =>
    id ≠ [] ∧ s.Copies lossy id ∧ ∀ h, s.visible id = some h →
      (⟨parentIdOf id, nameOf id, h.isDir, 0, now, none, false⟩ : Row).Fits id
  | .remove id =>
    id ≠ [] ∧ (s.live.nodes[id]? = none → s.visible id = none) ∧
      (utf8 (id ++ ['/', '%'])).length ≤ maxPattern ∧
      (∀ k r, s.shadow[k]? = some r → r.tombstone = false → like (id ++ ['/', '%']) k = true →
      Under id k) ∧ s.Buries now id

def StagingGraph.CleanRun (lossy : Bytes → Text) : StagingGraph → List (Int × Op) → Prop
  | _, [] => True
  | s, (now, op) :: edits => s.Clean lossy now op ∧ CleanRun lossy (s.apply lossy now op) edits

variable {lossy : Bytes → Text} {s : StagingGraph} {t : Nodes}

theorem insertIfNew_of_mem {t : Nodes} {d : Path} (h : Held) (hd : t[d]? ≠ none) :
    t.insertIfNew d h = t := by
  refine ExtTreeMap.ext_getElem? fun k => ?_
  rw [ExtTreeMap.getElem?_insertIfNew, if_neg]
  rintro ⟨-, hnot⟩
  exact hnot ((mem_iff t d).mpr hd)

theorem Sim.create (h : Sim s t) (now : Int) {parentId name : Path} {isDir : Bool}
    (hclean : s.Clean lossy now (.create parentId name isDir)) :
    Sim (s.createNode now parentId name isDir).1 (t.create now parentId name isDir) := by
  obtain ⟨⟨hne, hslash⟩, hparent, htomb, hlive⟩ := hclean
  have hid := isId_joinId parentId hne hslash
  have hparentId := parentIdOf_joinId parentId hslash
  have hnameId := nameOf_joinId parentId hslash
  unfold createNode Nodes.create
  generalize joinId parentId name = id at *
  by_cases hmem : id ∈ s.shadow
  · -- there already, in both
    obtain ⟨r, hr⟩ := ne_none_iff_exists'.mp ((mem_iff _ _).mp hmem)
    have hvis : s.visible id ≠ none := by
      unfold visible
      rw [hr]
      simp [Row.held, htomb r hr]
    rw [if_pos hmem, if_pos ((mem_iff t id).mpr (h.same id ▸ hvis))]
    exact h
  · have hnone : s.shadow[id]? = none := by
      by_contra hsome
      exact hmem ((mem_iff _ _).mpr hsome)
    have hnew : t[id]? = none := by
      rw [← h.same, visible, hnone]
      exact (hlive hnone).1
    have hdir : parentIdOf id = [] ∨ ∃ d, t[parentIdOf id]? = some d ∧ d.isDir = true := by
      rw [hparentId]
      rcases hparent with hnil | ⟨d, hd, hdir⟩
      · exact .inl hnil
      · exact .inr ⟨d, h.same parentId ▸ hd, hdir⟩
    -- the directories above are there, so none is made
    have habove : ∀ l : List Path, (∀ d ∈ l, Under d id) →
        l.foldl (fun t d => t.insertIfNew d ⟨true, 0, now, []⟩) t = t := by
      intro l
      induction l with
      | nil => exact fun _ => rfl
      | cons d l ih =>
        intro hl
        obtain ⟨hpne, hd⟩ := hid.under_iff.mp (hl d List.mem_cons_self)
        obtain ⟨e, he, -⟩ := hdir.resolve_left hpne
        have hmemd : t[d]? ≠ none := by
          rcases hd with rfl | hd
          · rw [he]; simp
          · obtain ⟨e', he', -⟩ := h.tree.dir_above he hd
            rw [he']; simp
        rw [List.foldl_cons, insertIfNew_of_mem _ hmemd]
        exact ih fun d hd => hl d (List.mem_cons_of_mem _ hd)
    have hnot : id ∉ t := fun hin => (mem_iff t id).mp hin hnew
    have hfits := h.fits.put (hlive hnone).2
    rw [if_neg hmem, if_neg hnot, habove (parents id) fun d hd => SepPath.mem_parents.mp hd,
      exec_of_fits hfits]
    refine ⟨h.filed.put hid hparentId.symm hnameId.symm, hfits, h.tree.insert_new hid hnew hdir, ?_⟩
    intro k
    rw [visible_put, get_insert, h.same]
    rfl

/-! ### Writing and truncating -/

/-- What was not visible and is not, the copy does not have. -/
theorem Sim.gone (h : Sim s t) {s₁ : StagingGraph} (hfiled : s₁.Filed) (hfits : s₁.Fits)
    (hother : ∀ k, id ≠ k → s₁.visible k = s.visible k) (hgone : s.visible id = none)
    (hgone₁ : s₁.visible id = none) : Sim s₁ t := by
  refine ⟨hfiled, hfits, h.tree, fun k => ?_⟩
  by_cases hk : id = k
  · rw [← hk, hgone₁, ← h.same, hgone]
  · rw [hother k hk, h.same]

theorem get_edited (t : Nodes) (id : Path) (g : Held → Held) (k : Path) : (match t[id]? with
      | some e => t.insert id (g e)
      | none => t)[k]? = if id = k then t[id]?.map g else t[k]? := by
  cases hid : t[id]? with
  | some e => exact get_insert t id k (g e)
  | none =>
    by_cases hk : id = k
    · subst hk
      simpa using hid
    · simp [hk]

/-- After a copy, the row of a visible node shows its directory flag and stands under its
id; `f` edits the row as `g` edits the node. -/
theorem Sim.edit {α : Type} (h : Sim s t) {s₁ : StagingGraph} {f : Row → Row} {g : Held → Held}
    {answer : α}
    (hfiled : s₁.Filed) (hfits₁ : s₁.Fits) (hother : ∀ k, id ≠ k → s₁.visible k = s.visible k)
    (hkeep : ∀ r, (f r).parentId = r.parentId ∧ (f r).name = r.name ∧ (f r).tombstone = r.tombstone)
    (hrow : ∀ r, s₁.shadow[id]? = some r → (f r).held = (s.visible id).map g)
    (hnone : s₁.shadow[id]? = none → s₁.visible id = none ∧ s.visible id = none)
    (hdir : ∀ e, (g e).isDir = e.isDir)
    (hfit : ∀ r, s₁.shadow[id]? = some r → s.visible id ≠ none → (f r).Fits id) :
    Sim (s₁.exec (s₁.update id f) answer).1 (match t[id]? with
      | some e => t.insert id (g e)
      | none => t) := by
  by_cases hfits : (s₁.update id f).Fits
  swap
  · -- refused: there was nothing to edit
    have hgone : s.visible id = none := by
      by_contra hne
      exact hfits (hfits₁.update fun r hr => hfit r hr hne)
    have hgone₁ : s₁.visible id = none := by
      cases hr : s₁.shadow[id]? with
      | none => exact (hnone hr).1
      | some r =>
        have hheld := hrow r hr
        rw [hgone] at hheld
        rw [visible, hr]
        unfold Row.held at hheld ⊢
        rw [(hkeep r).2.2] at hheld
        cases htomb : r.tombstone with
        | true => simp [htomb]
        | false => simp [htomb] at hheld
    have hnil : t[id]? = none := (h.same id).symm.trans hgone
    rw [exec_of_not_fits hfits, hnil]
    exact h.gone hfiled hfits₁ hother hgone hgone₁
  rw [exec_of_fits hfits]
  have ht := get_edited t id g
  have hs : ∀ k, (s₁.update id f).visible k = if id = k then (s.visible id).map g
      else s.visible k := by
    intro k
    unfold update
    cases hr : s₁.shadow[id]? with
    | some r =>
      simp only [visible_put, hrow r hr]
      by_cases hk : id = k
      · simp [hk]
      · simp [hk, hother k hk]
    | none =>
      by_cases hk : id = k
      · subst hk
        simp [(hnone hr).1, (hnone hr).2]
      · simp [hk, hother k hk]
  have hplaced : ∀ r, (f r).parentId = r.parentId ∧ (f r).name = r.name :=
    fun r => ⟨(hkeep r).1, (hkeep r).2.1⟩
  refine ⟨hfiled.update hplaced, hfits, h.tree.congr fun k => ?_, fun k => ?_⟩
  · rw [ht]
    by_cases hk : id = k
    · subst hk
      cases t[id]? <;> simp [hdir]
    · rw [if_neg hk]
  · rw [hs, ht, h.same, h.same]

/-- What a copy leaves behind: every other id as it was, and at the id a row that shows
what was visible, or nothing at all. -/
theorem cow_visible (lossy : Bytes → Text) (hfiled : s.Filed) (hfits : s.Fits) (hid : id ≠ [])
    (hcopies : s.Copies lossy id) :
    ∃ s₁ b, s.cowIntoShadow lossy id = (s₁, .ok b) ∧ s₁.Filed ∧ s₁.Fits ∧
      (∀ k, id ≠ k → s₁.visible k = s.visible k) ∧
      (s₁.shadow[id]? = none → s₁.visible id = none ∧ s.visible id = none) ∧
      ∀ r, s₁.shadow[id]? = some r → s.visible id = r.held ∨
        ∃ e, s.shadow[id]? = none ∧ s.live.nodes[id]? = some e ∧ r = s.copied lossy id e := by
  rcases cowIntoShadow_cases lossy hfits hid hcopies with
    ⟨r, hr, hcow⟩ | ⟨hr, hlive, hcow⟩ | ⟨e, hr, hlive, hcow⟩
  · refine ⟨s, true, hcow, hfiled, hfits, fun _ _ => rfl, fun hnone => ?_, fun r' hr' => .inl ?_⟩
    · rw [hr] at hnone
      simp at hnone
    · rw [visible, hr']
  · have hvis : s.visible id = none := by
      rw [visible, hr]
      exact hlive
    refine ⟨s, false, hcow, hfiled, hfits, fun _ _ => rfl, fun _ => ⟨hvis, hvis⟩, fun r' hr' => ?_⟩
    rw [hr] at hr'
    simp at hr'
  · have hrow : (s.put id (s.copied lossy id e)).shadow[id]? = some (s.copied lossy id e) := by
      unfold put
      rw [get_insert, if_pos rfl]
    refine ⟨_, true, hcow, hfiled.put (s.live.tree.path id e hlive) rfl rfl,
      hfits.put (hcopies hr e hlive).2, fun k hk => ?_,
      fun hnone => ?_, fun r hr' => .inr ⟨e, hr, hlive, ?_⟩⟩
    · rw [visible_put, if_neg hk]
    · rw [hrow] at hnone
      simp at hnone
    · exact Option.mem_unique hr' hrow

theorem Sim.truncate (h : Sim s t) (now : Int) (hclean : s.Clean lossy now (.truncate id)) :
    Sim (s.truncate lossy now id).1 (t.truncate now id) := by
  obtain ⟨hid, hcopies, hfit⟩ := hclean
  obtain ⟨s₁, b, hcow, hfiled, hfits, hother, hnone, hrow⟩ :=
    cow_visible lossy h.filed h.fits hid hcopies
  unfold StagingGraph.truncate
  rw [hcow]
  refine h.edit hfiled hfits hother (fun _ => ⟨rfl, rfl, rfl⟩) (fun r hr => ?_) hnone (fun _ => rfl)
    fun r hr hvis => ?_
  · rcases hrow r hr with hvis | ⟨e, hempty, hlive, rfl⟩
    · rw [hvis]
      unfold Row.held
      cases r.tombstone <;> rfl
    · rw [visible, hempty]
      simp only [hlive]
      rfl
  · obtain ⟨e, he⟩ := ne_none_iff_exists'.mp hvis
    obtain ⟨-, hparent, hname⟩ := hfiled id r hr
    have hrow := hfit e he
    rw [← hparent, ← hname] at hrow
    exact hrow

theorem Row.length_le_of_fits {r : Row} {text : Text} (h : r.Fits id) (hr : r.record = some text) :
    (utf8 text).length ≤ maxLength := by
  have htext : (utf8 text).length ≤ textBytes text := Nat.le_add_left _ _
  unfold Row.Fits Row.stored at h
  rw [hr, map_some, Option.getD_some] at h
  omega

theorem Sim.write (hlossy : ∀ text, lossy (utf8 text) = text) (h : Sim s t) (now : Int)
    {id : Path} {data : Bytes} {offset : Nat} (hclean : s.Clean lossy now (.write id data offset)) :
    Sim (s.writeContent lossy now id data offset).1 (t.write now id data offset) := by
  obtain ⟨hid, hcopies, hvisible⟩ := hclean
  obtain ⟨s₁, b, hcow, hfiled, hfits, hother, hnone, hrow⟩ :=
    cow_visible lossy h.filed h.fits hid hcopies
  -- the row after the copy shows what was visible
  have hshown : ∀ r, s₁.shadow[id]? = some r → (s.visible id = none → r.tombstone = true) ∧
      ∀ e, s.visible id = some e → r.tombstone = false ∧ r.isDir = e.isDir ∧
        (r.record.map utf8).getD [] = e.content := by
    intro r hr
    rcases hrow r hr with hvis | ⟨e, hempty, he, rfl⟩
    · rw [hvis]
      unfold Row.held
      cases htomb : r.tombstone with
      | true => simp
      | false => simp
    · have hvis : s.visible id = some e := by
        rw [visible, hempty]
        exact he
      rw [hvis]
      refine ⟨fun hgone => absurd hgone (Option.some_ne_none e), fun e' he' => ?_⟩
      obtain rfl := Option.some.inj he'
      exact ⟨rfl, rfl, copied_content hlossy he ((hvisible e hvis).1 hempty)⟩
  have hexisting : ∀ e, s.visible id = some e → s₁.existing id = e.content := by
    intro e he
    cases hr : s₁.shadow[id]? with
    | none =>
      rw [(hnone hr).2] at he
      cases he
    | some r =>
      obtain ⟨htomb, -, hcontent⟩ := (hshown r hr).2 e he
      simp [existing, hr, htomb, hcontent]
  have hgone : s.visible id = none → Sim s₁ (t.write now id data offset) := by
    intro hgone
    have hnil : t.write now id data offset = t := by
      unfold Nodes.write
      rw [← h.same, hgone]
    rw [hnil]
    refine h.gone hfiled hfits hother hgone ?_
    cases hr : s₁.shadow[id]? with
    | none => exact (hnone hr).1
    | some r => simp [visible, hr, Row.held, (hshown r hr).1 hgone]
  unfold writeContent
  rw [hcow]
  by_cases hbig : isizeMax < offset + data.length
  · simp only [if_pos hbig]
    refine hgone (Option.eq_none_iff_forall_ne_some.mpr fun e he => ?_)
    exact absurd (hvisible e he).2.1 (Nat.not_le.mpr hbig)
  simp only [if_neg hbig]
  by_cases hlong : maxLength < (utf8 (lossy (patched (s₁.existing id) data offset))).length
  · simp only [if_pos hlong]
    refine hgone (Option.eq_none_iff_forall_ne_some.mpr fun e he => ?_)
    rw [hexisting e he] at hlong
    exact absurd (Row.length_le_of_fits (hvisible e he).2.2.2 rfl) (Nat.not_le.mpr hlong)
  simp only [if_neg hlong]
  refine h.edit hfiled hfits hother (fun _ => ⟨rfl, rfl, rfl⟩) (fun r hr => ?_) hnone (fun _ => rfl)
    fun r hr hvis => ?_
  · cases hvis : s.visible id with
    | none => simp [Row.held, (hshown r hr).1 hvis]
    | some e =>
      obtain ⟨htomb, hdir, -⟩ := (hshown r hr).2 e hvis
      simp [Row.held, htomb, hdir, hexisting e hvis, utf8_lossy hlossy (hvisible e hvis).2.2.1]
  · obtain ⟨e, he⟩ := ne_none_iff_exists'.mp hvis
    obtain ⟨-, hparent, hname⟩ := hfiled id r hr
    have hrow := (hvisible e he).2.2.2
    rw [← hparent, ← hname, ← hexisting e he] at hrow
    exact hrow

/-! ### Removing -/

theorem likeText_append {p q r : List Char} (h : likeText q r = true) :
    likeText (p ++ q) (p ++ r) = true := by
  induction p with
  | nil => exact h
  | cons c p ih =>
    rw [List.cons_append, List.cons_append]
    by_cases hany : c = '%'
    · subst hany
      rw [likeText, List.any_eq_true]
      exact ⟨p ++ r, by simp [List.mem_tails], ih⟩
    · by_cases hone : c = '_'
      · subst hone
        exact ih
      · rw [likeText]
        · simp [ih]
        · exact hany
        · exact hone

variable {k : Path}

theorem like_under (h : Under id k) : like (id ++ ['/', '%']) k = true := by
  obtain ⟨r, rfl⟩ := SepPath.under_iff.mp h
  unfold like sqlText
  by_cases hnul : ∀ c ∈ id, (decide (c ≠ nul)) = true
  · rw [List.takeWhile_append_of_pos hnul, List.takeWhile_append_of_pos hnul]
    refine likeText_append ?_
    simp [likeText, nul]
  · -- the pattern ends in the id, and so does what is matched
    have hshort : (id.takeWhile (· ≠ nul)).length ≠ id.length := by
      intro hlen
      exact hnul (List.takeWhile_eq_self_iff.mp ((List.takeWhile_prefix _).eq_of_length hlen))
    rw [List.takeWhile_append, if_neg hshort, List.takeWhile_append, if_neg hshort]
    have hself := @likeText_append (id.takeWhile (· ≠ nul)) [] [] rfl
    rwa [List.append_nil] at hself

namespace StagingGraph

theorem mem_below {a k : Path} : k ∈ s.below a ↔
    (∃ node, s.live.nodes.getNode a = some node ∧ node.isDir = true) ∧
      parentIdOf k = a ∧ s.live.nodes[k]? ≠ none := by
  unfold below
  cases hnode : s.live.nodes.getNode a with
  | none => simp
  | some node =>
    have hids : k ∈ (s.live.nodes.listChildren a).map (·.id) ↔
        parentIdOf k = a ∧ s.live.nodes[k]? ≠ none := by
      simp only [List.mem_map, Nodes.mem_listChildren]
      constructor
      · rintro ⟨-, ⟨id, held, hget, hparent, rfl⟩, rfl⟩
        exact ⟨hparent, ne_of_eq_of_ne hget (Option.some_ne_none held)⟩
      · rintro ⟨hparent, hne⟩
        obtain ⟨held, hget⟩ := ne_none_iff_exists'.mp hne
        exact ⟨held.node k, ⟨k, held, hget, hparent, rfl⟩, rfl⟩
    cases hdir : node.isDir with
    | true => simp [hdir, hids]
    | false => simp [hdir]

theorem leads_under {id x : Path} (hid : id ≠ []) (h : StackWalk.Leads s.below id x) :
    AtOrUnder id x := by
  induction h with
  | refl => exact SepPath.AtOrUnder.refl id
  | @tail a x _ hstep ih =>
    obtain ⟨-, hparent, hlive⟩ := mem_below.mp hstep
    obtain ⟨held, hget⟩ := ne_none_iff_exists'.mp hlive
    have hne : a ≠ [] := by
      rintro rfl
      rcases ih with rfl | hunder
      · exact hid rfl
      · exact SepPath.not_under_nil hunder
    refine .inr ((s.live.tree.path x held hget).under_iff.mpr ?_)
    rw [hparent]
    exact ⟨hne, ih⟩

theorem leads_of_under : ∀ {x : Path}, s.live.nodes[x]? ≠ none → Under id x →
    StackWalk.Leads s.below id x := by
  intro x
  -- on the length of the id: the parent comes first
  induction hlen : x.length using Nat.strong_induction_on generalizing x with
  | _ n ih =>
    intro hlive hunder
    obtain ⟨held, hget⟩ := ne_none_iff_exists'.mp hlive
    have hpath := s.live.tree.path x held hget
    obtain ⟨hne, habove⟩ := hpath.under_iff.mp hunder
    obtain ⟨d, hd, hdir⟩ := (s.live.tree.parent x held hget).resolve_left hne
    have hstep : x ∈ s.below (parentIdOf x) := by
      refine mem_below.mpr ⟨⟨d.node (parentIdOf x), ?_, hdir⟩, rfl, hlive⟩
      unfold Nodes.getNode
      rw [if_neg hne, hd]
      rfl
    have hshort : (parentIdOf x).length < n :=
      hlen ▸ (hpath.under_iff.mpr ⟨hne, .inl rfl⟩ : Under (parentIdOf x) x).length_lt
    rcases habove with heq | habove
    · rw [← heq] at hstep
      exact .single hstep
    · exact (ih _ hshort rfl (by rw [hd]; simp) habove).tail hstep

theorem walk_below (hid : id ≠ []) :
    ∃ met, StackWalk.walk s.below (s.live.nodes.size + 1) [id] [] = some met ∧
      (∀ x ∈ met, AtOrUnder id x) ∧ ∀ x, s.live.nodes[x]? ≠ none → AtOrUnder id x → x ∈ met := by
  have hforest : StackWalk.Forest s.below id := by
    refine ⟨fun a => ?_, fun ha hb => ?_, fun a ha hmem => ?_⟩
    · unfold below
      split
      · split
        · exact s.live.nodes.nodup_listChildren a
        · exact List.nodup_nil
      · exact List.nodup_nil
    · exact (mem_below.mp ha).2.1.symm.trans (mem_below.mp hb).2.1
    · obtain ⟨-, hparent, hlive⟩ := mem_below.mp hmem
      obtain ⟨held, hget⟩ := ne_none_iff_exists'.mp hlive
      have habove := leads_under hid ha
      have hne : a ≠ [] := by
        rintro rfl
        rcases habove with rfl | hunder
        · exact hid rfl
        · exact SepPath.not_under_nil hunder
      have hunder : Under a id := (s.live.tree.path id held hget).under_iff.mpr
        (by rw [hparent]; exact ⟨hne, .inl rfl⟩)
      exact (habove.trans_under hunder).ne rfl
  have hall : ∀ x, StackWalk.Leads s.below id x → x ∈ insert id s.live.nodes.keys.toFinset := by
    intro x hx
    cases hx with
    | refl => exact Finset.mem_insert_self _ _
    | tail _ hstep =>
      refine Finset.mem_insert_of_mem (List.mem_toFinset.mpr (ExtTreeMap.mem_keys.mpr ?_))
      exact (mem_iff _ _).mpr (mem_below.mp hstep).2.2
  have hcard : (insert id s.live.nodes.keys.toFinset).card ≤ s.live.nodes.size + 1 := by
    refine (Finset.card_insert_le _ _).trans (Nat.add_le_add_right ?_ 1)
    refine (List.toFinset_card_le _).trans (le_of_eq ?_)
    exact ExtTreeMap.length_keys
  obtain ⟨met, hwalk, hmet⟩ := StackWalk.walk_complete hforest hall hcard
  refine ⟨met, hwalk, fun x hx => leads_under hid ((hmet x).mp hx), fun x hlive hx => ?_⟩
  rcases hx with rfl | hx
  · exact (hmet id).mpr .refl
  · exact (hmet x).mpr (leads_of_under hlive hx)

/-! What the two passes of a removal leave. -/

variable (now : Int)

theorem buryLive_eq (hid : id ≠ []) : s.buryLive now id = match s.live.nodes[id]? with
      | none => s
      | some h => match s.shadow[id]? with
        | some r => s.put id (r.buried now)
        | none => s.put id ⟨parentIdOf id, nameOf id, h.isDir, asI64 h.size, now, none, true⟩ := by
  have hnode : s.live.nodes.getNode id = (s.live.nodes[id]?).map (Held.node id) := if_neg hid
  unfold buryLive
  rw [hnode]
  cases s.live.nodes[id]? <;> rfl

theorem live_buryLive (id : Path) : (s.buryLive now id).live = s.live := by
  unfold buryLive
  split
  · rfl
  · split <;> rfl

theorem visible_buryLive (hid : id ≠ []) (k : Path) : (s.buryLive now id).visible k =
      if id = k ∧ s.live.nodes[id]? ≠ none then none else s.visible k := by
  rw [buryLive_eq now hid]
  cases hlive : s.live.nodes[id]? with
  | none => simp
  | some h =>
    cases hr : s.shadow[id]? with
    | some r | none => simp [visible_put, Row.held, Row.buried]

theorem shadow_buryLive (hid : id ≠ []) (hk : id ≠ k ∨ s.live.nodes[id]? = none) :
    (s.buryLive now id).shadow[k]? = s.shadow[k]? := by
  rw [buryLive_eq now hid]
  cases hlive : s.live.nodes[id]? with
  | none => rfl
  | some h =>
    have hne := hk.resolve_right (by rw [hlive]; simp)
    cases hr : s.shadow[id]? with
    | some r | none => exact (get_insert _ _ _ _).trans (if_neg hne)

theorem Filed.buryLive (hs : s.Filed) (now : Int) (hid : id ≠ []) : (s.buryLive now id).Filed := by
  rw [buryLive_eq now hid]
  cases hlive : s.live.nodes[id]? with
  | none => exact hs
  | some h =>
    cases hr : s.shadow[id]? with
    | some r =>
      obtain ⟨hpath, hparent, hname⟩ := hs id r hr
      exact hs.put hpath hparent hname
    | none => exact hs.put (s.live.tree.path id h hlive) rfl rfl

theorem foldl_buryLive (l : List Path) (hl : ∀ x ∈ l, x ≠ []) (hs : s.Filed) :
    (l.foldl (buryLive now) s).live = s.live ∧
    (l.foldl (buryLive now) s).Filed ∧
    (∀ k, (l.foldl (buryLive now) s).visible k =
      if k ∈ l ∧ s.live.nodes[k]? ≠ none then none else s.visible k) ∧
    ∀ k, k ∉ l ∨ s.live.nodes[k]? = none →
      (l.foldl (buryLive now) s).shadow[k]? = s.shadow[k]? := by
  induction l generalizing s with
  | nil => exact ⟨rfl, hs, fun k => by simp, fun _ _ => rfl⟩
  | cons x l ih =>
    have hx := hl x List.mem_cons_self
    obtain ⟨hlive, hfiled, hvis, hrows⟩ := ih
      (fun y hy => hl y (List.mem_cons_of_mem _ hy)) (hs.buryLive now hx)
    rw [live_buryLive] at hlive hvis hrows
    refine ⟨hlive, hfiled, fun k => ?_, fun k hk => ?_⟩
    · rw [List.foldl_cons, hvis, visible_buryLive now hx]
      by_cases hk : s.live.nodes[k]? = none
      · by_cases hxk : x = k
        · subst hxk
          simp [hk]
        · simp [hk, hxk]
      · by_cases hxk : x = k
        · subst hxk
          simp [hk]
        · simp [hk, hxk, Ne.symm hxk]
    · have hxk : x ≠ k ∨ s.live.nodes[x]? = none := by
        rcases hk with hk | hk
        · exact .inl fun heq => hk (heq ▸ List.mem_cons_self)
        · by_cases heq : x = k
          · exact .inr (heq ▸ hk)
          · exact .inl heq
      rw [List.foldl_cons, hrows k (hk.imp_left fun hk hmem => hk (List.mem_cons_of_mem _ hmem))]
      exact shadow_buryLive now hx hxk

theorem Buries.buryLive (hs : s.Buries now id) {x : Path} (hx : x ≠ []) :
    (s.buryLive now x).Buries now id := by
  intro k hk
  obtain ⟨hold, hnew⟩ := hs k hk
  by_cases hxk : x ≠ k ∨ s.live.nodes[x]? = none
  · rw [shadow_buryLive now hx hxk, live_buryLive]
    exact ⟨hold, hnew⟩
  · rw [not_or, not_not] at hxk
    obtain ⟨rfl, hlive⟩ := hxk
    obtain ⟨h, hh⟩ := ne_none_iff_exists'.mp hlive
    rw [buryLive_eq now hx, hh]
    cases hr : s.shadow[x]? with
    | some r => simpa [put, get_insert, Row.buried] using hold r hr
    | none => simpa [put, get_insert, Row.buried] using hnew hr h hh

theorem Fits.buryLive (hfits : s.Fits) (hs : s.Buries now id) {x : Path} (hx : x ≠ [])
    (hid : AtOrUnder id x) :
    (s.buryLive now x).Fits := by
  rw [buryLive_eq now hx]
  cases hlive : s.live.nodes[x]? with
  | none => exact hfits
  | some h =>
    cases hr : s.shadow[x]? with
    | some r => exact hfits.put ((hs x hid).1 r hr)
    | none => exact hfits.put ((hs x hid).2 hr h hlive)

theorem buryAll_eq (l : List Path) (hl : ∀ x ∈ l, x ≠ [] ∧ AtOrUnder id x) (hfits : s.Fits)
    (hs : s.Buries now id) : s.buryAll now l = (l.foldl (buryLive now) s, .ok ()) ∧
      (l.foldl (buryLive now) s).Fits ∧ (l.foldl (buryLive now) s).Buries now id := by
  induction l generalizing s with
  | nil => exact ⟨rfl, hfits, hs⟩
  | cons x l ih =>
    rw [List.forall_mem_cons] at hl
    have hnext := hfits.buryLive now hs hl.1.1 hl.1.2
    rw [buryAll, exec_of_fits hnext]
    exact ih hl.2 hnext (hs.buryLive now hl.1.1)

theorem shadow_buriedLike (pattern : List Char) (k : Path) :
    (s.buriedLike now pattern).shadow[k]? = (s.shadow[k]?).map fun r =>
      if like pattern k && !r.tombstone then r.buried now else r := by
  unfold buriedLike
  simp only [ExtTreeMap.getElem?_map]

theorem Filed.buriedLike (hs : s.Filed) (now : Int) (pattern : List Char) :
    (s.buriedLike now pattern).Filed := by
  intro k r hk
  rw [shadow_buriedLike] at hk
  obtain ⟨r', hr', rfl⟩ := map_eq_some_iff.mp hk
  obtain ⟨hpath, hparent, hname⟩ := hs k r' hr'
  split
  · exact ⟨hpath, hparent, hname⟩
  · exact ⟨hpath, hparent, hname⟩

theorem Fits.buriedLike (hfits : s.Fits) {pattern : List Char} (hrows : ∀ (k : Path) (r : Row),
      s.shadow[k]? = some r → r.tombstone = false → like pattern k = true → (r.buried now).Fits k) :
    (s.buriedLike now pattern).Fits := by
  intro k r hk
  rw [shadow_buriedLike] at hk
  obtain ⟨r', hr', rfl⟩ := map_eq_some_iff.mp hk
  split
  · rename_i hboth
    rw [Bool.and_eq_true] at hboth
    exact hrows k r' hr' (by simpa using hboth.2) hboth.1
  · exact hfits k r' hr'

theorem visible_buriedLike (pattern : List Char) (k : Path) : (s.buriedLike now pattern).visible k =
      if like pattern k = true ∧ s.shadow[k]? ≠ none then none else s.visible k := by
  unfold visible
  rw [shadow_buriedLike]
  cases hr : s.shadow[k]? with
  | none => simp [buriedLike]
  | some r =>
    cases hlike : like pattern k with
    | false => simp
    | true =>
      cases htomb : r.tombstone with
      | false | true => simp [Row.held, Row.buried, htomb]

end StagingGraph

theorem Sim.remove (h : Sim s t) (now : Int) (hclean : s.Clean lossy now (.remove id)) :
    Sim (s.removeNode now id).1 (t.remove id) := by
  obtain ⟨hid, hlive, hpattern, hlike, hburies⟩ := hclean
  obtain ⟨met, hwalk, hmet, hmet'⟩ := walk_below hid
  have hne : ∀ x ∈ met, x ≠ [] := by
    rintro x hx rfl
    rcases hmet [] hx with heq | hunder
    · exact hid heq
    · exact SepPath.not_under_nil hunder
  obtain ⟨-, hfiled, hvis, hrows⟩ := foldl_buryLive now met hne h.filed
  obtain ⟨hall, hfits, hburied⟩ :=
    buryAll_eq now met (fun x hx => ⟨hne x hx, hmet x hx⟩) h.fits hburies
  -- what the pattern meets afterwards is at or below the id
  have hfits' : ((met.foldl (buryLive now) s).buriedLike now (id ++ ['/', '%'])).Fits := by
    refine hfits.buriedLike now fun k r hr htomb hk => (hburied k ?_).1 r hr
    by_cases hin : k ∈ met
    · exact hmet k hin
    · rw [hrows k (.inl hin)] at hr
      exact .inr (hlike k r hr htomb hk)
  unfold removeNode
  rw [hwalk]
  dsimp only
  rw [hall]
  dsimp only
  rw [buryLike, if_neg fun hlong => absurd hlong.1 (Nat.not_lt.mpr hpattern), exec_of_fits hfits']
  refine ⟨hfiled.buriedLike now _, hfits', h.tree.remove id, fun k => ?_⟩
  simp only [visible_buriedLike, hvis, h.tree.get_remove]
  by_cases hk : AtOrUnder id k
  · -- at or below the node: met by one of the passes, or not visible
    split
    · rfl
    · rename_i hnotLike
      split
      · rfl
      · rename_i hnotMet
        have hdead : s.live.nodes[k]? = none := by
          by_contra hne
          exact hnotMet ⟨hmet' k hne hk, hne⟩
        rcases hk with rfl | hk
        · exact hlive hdead
        · have hrow : s.shadow[k]? = none := by
            by_contra hne
            exact hnotLike ⟨like_under hk, by rw [hrows k (.inr hdead)]; exact hne⟩
          rw [visible, hrow]
          exact hdead
  · -- elsewhere: met by neither
    have hout : k ∉ met := fun hmem => hk (hmet k hmem)
    rw [if_neg hk, hrows k (.inl hout), ← h.same]
    split
    · rename_i hboth
      obtain ⟨r, hr⟩ := ne_none_iff_exists'.mp hboth.2
      have htomb : r.tombstone = true := by
        by_contra htomb
        exact hk (.inr (hlike k r hr (by simpa using htomb) hboth.1))
      rw [visible, hr]
      simp [Row.held, htomb]
    · simp [hout]

theorem Sim.apply (hlossy : ∀ text, lossy (utf8 text) = text) (h : Sim s t) (now : Int) {op : Op}
    (hclean : s.Clean lossy now op) : Sim (s.apply lossy now op) (t.apply now op) := by
  cases op with
  | create parentId name isDir => exact h.create now hclean
  | write id data offset => exact h.write hlossy now hclean
  | truncate id => exact h.truncate now hclean
  | remove id => exact h.remove now hclean

theorem Sim.applyAll (hlossy : ∀ text, lossy (utf8 text) = text) (edits : List (Int × Op)) :
    ∀ {s t}, Sim s t → s.CleanRun lossy edits → Sim (s.applyAll lossy edits)
    (t.applyAll edits) := by
  induction edits with
  | nil => exact fun h _ => h
  | cons edit edits ih =>
    intro s t h hclean
    exact ih (h.apply hlossy edit.1 hclean.1) hclean.2

def oneFile (name : Path) (hne : name ≠ []) (hslash : '/' ∉ name) (content : Bytes) :
    LiveGraph where
  nodes := (∅ : Nodes).insert name ⟨false, content.length, 0, content⟩
  tree := by
    have hid : IsId name := by
      have hjoin : joinId [] name = name := rfl
      exact hjoin ▸ isId_joinId [] hne hslash
    have hempty : Nodes.Hierarchical (∅ : Nodes) :=
      ⟨fun id h hget => by simp at hget, fun id h hget => by simp at hget⟩
    exact hempty.insert_new hid (by simp) (.inl (SepPath.dirPart_of_not_mem hslash))

/-- Bytes as text; those that are no UTF-8 become U+FFFD. -/
def decoded (bytes : Bytes) : Text :=
  (bytes.toByteArray.utf8Decode?.map Array.toList).getD ['\uFFFD']

theorem decoded_utf8 (text : Text) : decoded (utf8 text) = text := by
  change (text.utf8Encode.utf8Decode?.map Array.toList).getD _ = text
  rw [List.utf8Decode?_utf8Encode]
  rfl

/-- The live file `a` with one byte. -/
def liveA : LiveGraph := oneFile ['a'] (by decide) (by decide) [104]

/-- A live file whose name holds U+0000. -/
def liveNul : LiveGraph := oneFile ['a', nul, 'b'] (by decide) (by decide) [104]

def Differs (live : LiveGraph) (edits : List (Int × Op)) : Prop :=
  ¬ Answers ((StagingGraph.new live).applyAll decoded edits) (live.nodes.applyAll edits)

theorem differs_of_getNode {live : LiveGraph} {edits : List (Int × Op)} (id : Path) (hid : Short id)
    (h : ((StagingGraph.new live).applyAll decoded edits).getNode id ≠
      (live.nodes.applyAll edits).getNode id) :
    Differs live edits := fun hanswers => h (hanswers.getNode id hid)

/-- The file `b` is created and written, on a live file. -/
def writtenB : StagingGraph :=
  (StagingGraph.new liveA).applyAll decoded [(1, .create [] ['b'] false), (2, .write ['b'] [104] 0)]

theorem eq_b_of_writtenB {k : Path} {r : Row} (hr : writtenB.shadow[k]? = some r) : k = ['b'] := by
  have hkeys : writtenB.shadow.keys = [['b']] := by decide +kernel
  have hk : k ∈ [['b']] := hkeys ▸ ExtTreeMap.mem_keys.mpr ((mem_iff _ _).mpr (by rw [hr]; simp))
  exact List.mem_singleton.mp hk

/-- The row `b` is not below `a`, and the tombstone of `a` fits. -/
theorem writtenB_clean : writtenB.Clean decoded 3 (.remove ['a']) := by
  refine ⟨by decide, fun hnone => absurd hnone (by decide +kernel), by decide,
    fun k r hr _ hlike => ?_, fun k hk => ⟨fun r hr => ?_, fun _ h hlive => ?_⟩⟩
  · rw [eq_b_of_writtenB hr] at hlike
    cases hlike
  · rw [eq_b_of_writtenB hr] at hk
    exact absurd hk (by decide)
  · have hkeys : writtenB.live.nodes.keys = [['a']] := by decide +kernel
    have hka : k ∈ [['a']] :=
      hkeys ▸ ExtTreeMap.mem_keys.mpr ((mem_iff _ _).mpr (by rw [hlive]; simp))
    rw [List.mem_singleton.mp hka] at hlive ⊢
    obtain rfl :=
      Option.mem_unique (show writtenB.live.nodes[['a']]? = some ⟨false, 1, 0,
        [104]⟩ by decide +kernel) hlive
    decide

end LeyLine.Staging
