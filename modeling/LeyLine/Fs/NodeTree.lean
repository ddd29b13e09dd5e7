import LeyLine.Lib.Steps
import LeyLine.StagingRefines

/-!
# The tree a graph stands for

What the operations of the `Graph` trait mean, over the nodes its readers see: a tree of
slash-separated paths. A create makes the directories it misses; it is refused on a name
that is there and under a file. A rename carries a subtree along; it is refused as a
create is, and below itself. What is refused changes nothing.

This is the trait's meaning and not its implementation: `SqliteGraphAdapter` also keeps rows
for every file and directory name it has seen, and never drops one, so a directory made
where a file once was is not reached by its path there. What is said here is about what
the graph's own readers see.

`keep` is what a graph makes of the bytes it is given to hold: the bytes themselves, or,
for records kept as text, their text.
-/

namespace LeyLine.NodeTree

open Std (ExtTreeMap)
open Staging (Held Nodes joinId nameOf parentIdOf patched IsId)
open SepPath (join mem_parents under_append under_iff)

/-- Why an operation is refused. -/
inductive Refusal
  | exists (id : Path)
  | underFile (id : Path)
  | unknown (id : Path)
  | belowItself (id : Path)
  | badPath (id : Path)
  deriving DecidableEq

def isPath (id : Path) : Bool := (id.splitOn '/').all fun c => !c.isEmpty

variable (t : Nodes)

def fileAbove (id : Path) : Bool :=
  (parents id).any fun d => t[d]?.any fun h => !h.isDir

def checkFree (id : Path) : Except Refusal Unit :=
  if isPath id = false then .error (.badPath id)
  else if id ∈ t then .error (.exists id)
  else if fileAbove t id = true then .error (.underFile id)
  else .ok ()

def withParents (now : Int) (id : Path) : Nodes :=
  (parents id).foldl (fun t d => if d ∈ t then t else t.insert d ⟨true, 0, now, []⟩) t

def createNode (now : Int) (parentId name : Path) (isDir : Bool) :
    Except Refusal Nodes := do
  let id := joinId parentId name
  checkFree t id
  .ok ((withParents t now id).insert id ⟨isDir, 0, now, []⟩)

def writeContent (keep : Bytes → Bytes) (t : Nodes) (now : Int) (id : Path) (data : Bytes)
    (offset : Nat) : Except Refusal Nodes :=
  match t[id]? with
  | none => .error (.unknown id)
  | some h =>
    let content := patched h.content data offset
    .ok (t.insert id { h with content := keep content, size := content.length, mtime := now })

/-- The id a node at or below `id` has once `id` is `newId`. -/
def rebase (id newId k : Path) : Path := newId ++ k.drop id.length

/-- The subtree at `id` moves to `newId`. -/
def moveSubtree (id newId : Path) : Nodes :=
  (t.toList.filter fun x => AtOrUnder id x.1).foldl
    (fun m x => m.insert (rebase id newId x.1) x.2) (t.filter fun k _ => ¬ AtOrUnder id k)

def renameNode (now : Int) (id newParentId newName : Path) : Except Refusal Nodes :=
  let newId := joinId newParentId newName
  if id ∉ t then .error (.unknown id)
  else if AtOrUnder id newId then .error (.belowItself id)
  else do
    checkFree t newId
    .ok (moveSubtree (withParents t now newId) id newId)

def fileBytes (id : Path) : Option Bytes :=
  t[id]?.bind fun h => if h.isDir then none else some h.content

/-! ## Paths -/

section Paths

variable {id d : Path}

theorem isPath_iff : isPath id = true ↔ ∀ c ∈ id.splitOn '/', c ≠ [] := by
  simp [isPath]

theorem isPath_append_iff {r : Path} :
    isPath (d ++ '/' :: r) = true ↔ isPath d = true ∧ isPath r = true := by
  simp only [isPath_iff, List.splitOn_append_cons_self, List.mem_append, or_imp, forall_and]

theorem isPath_of_under (h : Under d id) (hid : isPath id = true) : isPath d = true := by
  obtain ⟨r, rfl⟩ := under_iff.mp h
  exact (isPath_append_iff.mp hid).1

theorem isPath_of_name (hne : id ≠ []) (hsep : '/' ∉ id) : isPath id = true := by
  rw [isPath_iff, List.splitOn_eq_singleton hsep]
  simpa using hne

theorem isId_of_isPath (h : isPath id = true) : IsId id := by
  rw [isPath_iff] at h
  by_cases hsep : '/' ∈ id
  · have hsplit := SepPath.splitOn_eq_concat hsep
    have hjoin := SepPath.dirPart_append_lastPart hsep
    refine ⟨h _ (by rw [hsplit]; simp [nameOf]), ?_⟩
    -- a path that starts with a slash has an empty first component
    have hdir : SepPath.dirPart '/' id ≠ [] := fun hnil =>
      h [] (by rw [hsplit, hnil]; simp) rfl
    rw [joinId, join, parentIdOf, if_neg hdir]
    exact hjoin
  · have hname := SepPath.lastPart_join [] hsep
    have hparent := SepPath.dirPart_join [] hsep
    rw [join, if_pos rfl] at hname hparent
    rw [IsId, joinId, nameOf, parentIdOf, hname, hparent, join, if_pos rfl]
    exact ⟨h id (by rw [List.splitOn_eq_singleton hsep]; simp), rfl⟩

end Paths

/-! ## What a create does -/

section Create

variable {t t' : Nodes} {now : Int} {id k parentId name : Path} {isDir : Bool}

theorem fileAbove_eq_false_iff :
    fileAbove t id = false ↔ ∀ d h, Under d id → t[d]? = some h → h.isDir = true := by
  unfold fileAbove
  rw [List.any_eq_false]
  constructor
  · intro h d e hd he
    have := h d (mem_parents.mpr hd)
    simpa [he] using this
  · intro h d hd hany
    cases he : t[d]? with
    | none => simp [he] at hany
    | some e => simp [he, h d e (mem_parents.mp hd) he] at hany

/-- What a new node needs: a path, free, with no file above it. -/
structure Admits (t : Nodes) (id : Path) : Prop where
  path : isPath id = true
  free : t[id]? = none
  dirs : ∀ d h, Under d id → t[d]? = some h → h.isDir = true

theorem checkFree_ok_iff {u : Unit} : checkFree t id = .ok u ↔ Admits t id := by
  unfold checkFree
  constructor
  · intro h
    split at h
    · simp at h
    · rename_i hpath
      split at h
      · simp at h
      · rename_i hfree
        split at h
        · simp at h
        · rename_i hfile
          refine ⟨by simpa using hpath, ?_, fileAbove_eq_false_iff.mp (by simpa using hfile)⟩
          by_contra hne
          exact hfree ((Table.mem_iff t id).mpr hne)
  · rintro ⟨hpath, hfree, hdirs⟩
    have hnot : id ∉ t := fun hin => (Table.mem_iff t id).mp hin hfree
    rw [if_neg (by simp [hpath]), if_neg hnot, if_neg (by simp [fileAbove_eq_false_iff.mpr hdirs])]

theorem get_withParents : (withParents t now id)[k]? =
      t[k]?.or (if Under k id then some ⟨true, 0, now, []⟩ else none) := by
  unfold withParents
  rw [Table.get_foldl_insert_new]
  simp only [mem_parents]

theorem createNode_ok_iff : createNode t now parentId name isDir = .ok t' ↔
    Admits t (joinId parentId name) ∧
        t' = (withParents t now (joinId parentId name)).insert (joinId parentId name)
          ⟨isDir, 0, now, []⟩ := by
  unfold createNode
  simp only [Except.bind_eq_ok_iff, checkFree_ok_iff, Except.ok.injEq]
  constructor
  · rintro ⟨-, hadmits, rfl⟩
    exact ⟨hadmits, rfl⟩
  · rintro ⟨hadmits, rfl⟩
    exact ⟨(), hadmits, rfl⟩

theorem writeContent_ok_iff {keep : Bytes → Bytes} {data : Bytes} {offset : Nat} :
    writeContent keep t now id data offset = .ok t' ↔ ∃ h, t[id]? = some h ∧ t' = t.insert id
        { h with content := keep (patched h.content data offset),
                 size := (patched h.content data offset).length, mtime := now } := by
  unfold writeContent
  cases t[id]? with
  | none => simp
  | some h => simp [eq_comm]

end Create

/-! ## Files -/

section Files

variable {t t' : Nodes} {id k : Path}

theorem fileBytes_eq_some_iff {b : Bytes} :
    fileBytes t id = some b ↔ ∃ h, t[id]? = some h ∧ h.isDir = false ∧ h.content = b := by
  unfold fileBytes
  rw [Option.bind_eq_some_iff]
  refine exists_congr fun h => and_congr_right fun _ => ?_
  cases h.isDir <;> simp

theorem fileBytes_none (h : t[id]? = none) : fileBytes t id = none := by
  unfold fileBytes
  rw [h]
  rfl

end Files

/-! ## The operations keep a hierarchy -/

section Hierarchy

variable {t t' : Nodes} {now : Int} {id newId k parentId name : Path} {isDir : Bool}

theorem hierarchical_iff : t.Hierarchical ↔ ∀ k h, t[k]? = some h →
      IsId k ∧ ∀ d, Under d k → ∃ e, t[d]? = some e ∧ e.isDir = true := by
  constructor
  · intro ht k h hk
    exact ⟨ht.path k h hk, fun d hd => ht.dir_above hk hd⟩
  · intro ht
    refine ⟨fun k h hk => (ht k h hk).1, fun k h hk => ?_⟩
    obtain ⟨hid, habove⟩ := ht k h hk
    by_cases hnil : parentIdOf k = []
    · exact .inl hnil
    · exact .inr (habove _ (hid.under_iff.mpr ⟨hnil, .inl rfl⟩))

theorem isPath_of_get (ht : t.Hierarchical) :
    ∀ {k : Path} {h : Held}, t[k]? = some h → isPath k = true := by
  intro k
  -- on the length of the id: the parent is shorter
  induction hlen : k.length using Nat.strong_induction_on generalizing k with
  | _ n ih =>
    intro h hk
    obtain ⟨hne, hjoin⟩ := ht.path k h hk
    have hname := isPath_of_name hne (Staging.not_mem_nameOf k)
    rcases ht.parent k h hk with hnil | ⟨e, he, -⟩
    · rw [hnil, joinId, join, if_pos rfl] at hjoin
      rwa [hjoin] at hname
    · unfold joinId join at hjoin
      split at hjoin
      · rwa [hjoin] at hname
      · have hshort : (parentIdOf k).length < k.length := by
          conv_rhs => rw [← hjoin]
          simp
        rw [← hjoin]
        exact isPath_append_iff.mpr ⟨ih _ (hlen ▸ hshort) rfl he, hname⟩

theorem Admits.dir_above (h : Admits t id) {d : Path} (hd : Under d id) (now : Int) :
    ∃ e, (withParents t now id)[d]? = some e ∧ e.isDir = true := by
  rw [get_withParents, if_pos hd]
  cases he : t[d]? with
  | none => exact ⟨_, rfl, rfl⟩
  | some e => exact ⟨e, rfl, h.dirs d e hd he⟩

theorem Admits.withParents_hierarchical (h : Admits t id) (ht : t.Hierarchical) (now : Int) :
    (withParents t now id).Hierarchical := by
  rw [hierarchical_iff] at ht ⊢
  intro k e hk
  rw [get_withParents] at hk
  cases htk : t[k]? with
  | some e' =>
    obtain ⟨hid, habove⟩ := ht k e' htk
    refine ⟨hid, fun d hd => ?_⟩
    obtain ⟨e, he, hdir⟩ := habove d hd
    exact ⟨e, by rw [get_withParents, he, Option.some_or], hdir⟩
  | none =>
    -- one of the new directories
    rw [htk, Option.none_or] at hk
    split at hk
    · rename_i hunder
      exact ⟨isId_of_isPath (isPath_of_under hunder h.path), fun d hd =>
        h.dir_above (hd.trans hunder) now⟩
    · simp at hk

theorem Admits.free_withParents (h : Admits t id) (now : Int) :
    (withParents t now id)[id]? = none := by
  rw [get_withParents, h.free, if_neg fun hu => hu.ne rfl]
  rfl

theorem createNode_hierarchical (ht : t.Hierarchical)
    (h : createNode t now parentId name isDir = .ok t') : t'.Hierarchical := by
  obtain ⟨hadmits, rfl⟩ := createNode_ok_iff.mp h
  refine (hadmits.withParents_hierarchical ht now).insert_new (isId_of_isPath hadmits.path)
    (hadmits.free_withParents now) ?_
  by_cases hnil : parentIdOf (joinId parentId name) = []
  · exact .inl hnil
  · exact .inr (hadmits.dir_above ((isId_of_isPath hadmits.path).under_iff.mpr ⟨hnil,
      .inl rfl⟩) now)

theorem insert_hierarchical {e e' : Held} (ht : t.Hierarchical) (he : t[id]? = some e)
    (hkind : e'.isDir = e.isDir) : Nodes.Hierarchical (t.insert id e') := by
  refine ht.congr fun k => ?_
  rw [Table.get_insert]
  split
  · rename_i hk
    rw [← hk, he]
    exact congrArg some hkind
  · rfl

theorem truncate_hierarchical (ht : t.Hierarchical) (now : Int) (id : Path) :
    (Nodes.truncate t now id).Hierarchical := by
  rw [Nodes.truncate]
  split
  · rename_i e he
    exact insert_hierarchical ht he rfl
  · exact ht

theorem writeContent_hierarchical {keep : Bytes → Bytes} {data : Bytes} {offset : Nat}
    (ht : t.Hierarchical) (h : writeContent keep t now id data offset = .ok t') :
    t'.Hierarchical := by
  obtain ⟨e, he, rfl⟩ := writeContent_ok_iff.mp h
  exact insert_hierarchical ht he rfl

end Hierarchy

/-! ## What a rename does -/

section Rename

variable {t t' : Nodes} {now : Int} {id newId d k : Path}

theorem rebase_append (id newId r : Path) : rebase id newId (id ++ r) = newId ++ r := by
  simp [rebase]

theorem rebase_atOrUnder (newId : Path) (h : AtOrUnder id k) :
    AtOrUnder newId (rebase id newId k) ∧ rebase newId id (rebase id newId k) = k := by
  rcases h with rfl | h
  · rw [show rebase id newId id = newId by simp [rebase]]
    exact ⟨.inl rfl, by simp [rebase]⟩
  · obtain ⟨r, rfl⟩ := under_iff.mp h
    rw [rebase_append, rebase_append]
    exact ⟨.inr (under_append newId r), rfl⟩

theorem get_moveSubtree (id : Path) (hfree : ∀ k, AtOrUnder newId k → t[k]? = none) :
    (moveSubtree t id newId)[k]? = if AtOrUnder newId k then t[rebase newId id k]?
      else if AtOrUnder id k then none else t[k]? := by
  have hrows : (t.toList.filter fun x => decide (AtOrUnder id x.1)).Pairwise
      fun x y => rebase id newId x.1 ≠ rebase id newId y.1 := by
    refine ((Table.pairwise_toList_ne t).filter _).imp_of_mem ?_
    intro x y hx hy hne heq
    have hx' := of_decide_eq_true (List.mem_filter.mp hx).2
    have hy' := of_decide_eq_true (List.mem_filter.mp hy).2
    exact hne (by rw [← (rebase_atOrUnder newId hx').2, heq, (rebase_atOrUnder newId hy').2])
  have hget := Table.get_foldl_insert_by (fun x : Path × Held => rebase id newId x.1)
    (fun x => some x.2) k _ (t.filter fun k _ => ¬ AtOrUnder id k) hrows
  simp only [Option.elim_some] at hget
  rw [moveSubtree, hget]
  by_cases hk : AtOrUnder newId k
  · obtain ⟨hold, hback⟩ := rebase_atOrUnder id hk
    rw [if_pos hk, ExtTreeMap.getElem?_filter', hfree k hk, Option.filter_none, Option.or_none]
    -- the row that moved there is the one that stood where `k` comes from
    have hrow : ∀ x ∈ t.toList.filter fun x => decide (AtOrUnder id x.1),
        decide (rebase id newId x.1 = k) = true → x.1 = rebase newId id k ∧ t[x.1]? = some x.2 := by
      intro x hx hxk
      obtain ⟨hxmem, hxold⟩ := List.mem_filter.mp hx
      refine ⟨?_, ExtTreeMap.mem_toList_iff_getElem?_eq_some.mp hxmem⟩
      rw [← of_decide_eq_true hxk, (rebase_atOrUnder newId (of_decide_eq_true hxold)).2]
    refine Option.ext fun h => ?_
    rw [Option.bind_eq_some_iff]
    constructor
    · rintro ⟨x, hx, hxh⟩
      obtain ⟨hxk, hxt⟩ := hrow x (List.mem_of_find?_eq_some hx) (List.find?_some
        (p := fun x : Path × Held => decide (rebase id newId x.1 = k)) hx)
      rw [← hxk, hxt]
      exact hxh
    · intro hh
      refine ⟨(rebase newId id k, h), ?_, rfl⟩
      rw [Assoc.find?_eq_some_iff_of_unique]
      · refine ⟨List.mem_filter.mpr ⟨?_, decide_eq_true hold⟩, decide_eq_true hback⟩
        exact ExtTreeMap.mem_toList_iff_getElem?_eq_some.mpr hh
      · intro x hx y hy hxk hyk
        obtain ⟨hx1, hx2⟩ := hrow x hx hxk
        obtain ⟨hy1, hy2⟩ := hrow y hy hyk
        rw [hx1, ← hy1, hy2] at hx2
        exact Prod.ext (hx1.trans hy1.symm) (Option.some.inj hx2).symm
  · rw [if_neg hk]
    have hnone : (t.toList.filter fun x => decide (AtOrUnder id x.1)).find?
        (fun x => decide (rebase id newId x.1 = k)) = none := by
      rw [List.find?_eq_none]
      intro x hx hxk
      have hxold := of_decide_eq_true (List.mem_filter.mp hx).2
      exact hk (of_decide_eq_true hxk ▸ (rebase_atOrUnder newId hxold).1)
    rw [hnone, Option.bind_none, Option.none_or, ExtTreeMap.getElem?_filter']
    by_cases hold : AtOrUnder id k
    · cases t[k]? <;> simp [hold]
    · cases t[k]? <;> simp [hold]

theorem renameNode_ok_iff {newParentId newName : Path} :
    renameNode t now id newParentId newName = .ok t' ↔
      t[id]? ≠ none ∧ ¬ AtOrUnder id (joinId newParentId newName) ∧
      Admits t (joinId newParentId newName) ∧
        t' = moveSubtree (withParents t now (joinId newParentId newName)) id
          (joinId newParentId newName) := by
  unfold renameNode
  simp only
  rw [← Table.mem_iff]
  split
  · rename_i hid
    exact ⟨fun h => absurd h (by simp), fun h => absurd h.1 hid⟩
  · rename_i hid
    rw [not_not] at hid
    split
    · rename_i hbelow
      exact ⟨fun h => absurd h (by simp), fun h => absurd hbelow h.2.1⟩
    · rename_i hbelow
      simp only [Except.bind_eq_ok_iff, checkFree_ok_iff, Except.ok.injEq]
      constructor
      · rintro ⟨-, hadmits, rfl⟩
        exact ⟨hid, hbelow, hadmits, rfl⟩
      · rintro ⟨-, -, hadmits, rfl⟩
        exact ⟨(), hadmits, rfl⟩

theorem free_below (ht : t.Hierarchical) (hfree : t[newId]? = none) (hk : AtOrUnder newId k) :
    t[k]? = none := by
  rcases hk with rfl | hk
  · exact hfree
  · by_contra hne
    obtain ⟨h, hh⟩ := Option.ne_none_iff_exists'.mp hne
    obtain ⟨e, he, -⟩ := ht.dir_above hh hk
    rw [hfree] at he
    simp at he

theorem rebase_under (id : Path) (hd : AtOrUnder newId d) (hk : Under d k) :
    Under (rebase newId id d) (rebase newId id k) := by
  obtain ⟨r, rfl⟩ := under_iff.mp hk
  rcases hd with rfl | hd
  · rw [rebase_append, show rebase newId id newId = id by simp [rebase]]
    exact under_append id r
  · obtain ⟨a, rfl⟩ := under_iff.mp hd
    rw [List.append_assoc, rebase_append, rebase_append, ← List.append_assoc]
    exact under_append _ r

theorem isPath_rebase (hnew : isPath newId = true) (h : AtOrUnder newId k)
    (hk : isPath (rebase newId id k) = true) : isPath k = true := by
  rcases h with rfl | h
  · exact hnew
  · obtain ⟨r, rfl⟩ := under_iff.mp h
    rw [rebase_append] at hk
    exact isPath_append_iff.mpr ⟨hnew, (isPath_append_iff.mp hk).2⟩

theorem renameNode_hierarchical {newParentId newName : Path} (ht : t.Hierarchical)
    (h : renameNode t now id newParentId newName = .ok t') : t'.Hierarchical := by
  obtain ⟨hid, hbelow, hadmits, rfl⟩ := renameNode_ok_iff.mp h
  have hmade := hadmits.withParents_hierarchical ht now
  have hfree := hadmits.free_withParents now
  have hget := fun k => get_moveSubtree id (k := k) fun k hk => free_below hmade hfree hk
  rw [hierarchical_iff]
  intro k h hk
  rw [hget] at hk
  split at hk
  · -- a node that moved
    rename_i hnew
    refine ⟨isId_of_isPath (isPath_rebase hadmits.path hnew (isPath_of_get hmade hk)), ?_⟩
    intro d hd
    rcases hnew.comparable hd.atOrUnder with hdnew | hdnew
    · obtain ⟨e, he, hdir⟩ := hmade.dir_above hk (rebase_under id hdnew hd)
      exact ⟨e, by rw [hget, if_pos hdnew, he], hdir⟩
    · obtain ⟨e, he, hdir⟩ := hadmits.dir_above hdnew now
      refine ⟨e, ?_, hdir⟩
      rw [hget, if_neg, if_neg, he]
      · exact fun hold => hbelow (.inr (hold.trans_under hdnew))
      · exact fun hnew' => (hnew'.trans_under hdnew).ne rfl
  · rename_i hnew
    split at hk
    · simp at hk
    · rename_i hold
      refine ⟨hmade.path k h hk, fun d hd => ?_⟩
      obtain ⟨e, he, hdir⟩ := hmade.dir_above hk hd
      refine ⟨e, ?_, hdir⟩
      rw [hget, if_neg, if_neg, he]
      · exact fun habove => hold (.inr (habove.trans_under hd))
      · exact fun habove => hnew (.inr (habove.trans_under hd))

end Rename

end LeyLine.NodeTree
