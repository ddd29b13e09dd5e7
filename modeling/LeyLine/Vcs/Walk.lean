import LeyLine.Vcs.Snapshot

/-!
# What a snapshot holds

`walkGraphIntoTree` ends on every graph and sets exactly the files no directory above
which, and which themselves, are ignored (`walk_spec`): a directory that is passed over
takes everything below it along, ignored or not.
-/

namespace LeyLine.Vcs

open Std (ExtTreeMap)
open Staging (Held LiveGraph Node Nodes joinId nameOf parentIdOf slice)
open NodeTree (fileBytes isPath)

/-- The bytes a snapshot reads of a node: as many as the node's size says, and one at
least. -/
def snapshotBytes (t : Nodes) (id : Path) : Bytes :=
  match t[id]? with
  | some h => slice h.content (max h.size 1) 0
  | none => []

/-- The walk from `parentId` meets the file. -/
inductive Meets (t : Nodes) : Path → Path → Prop
  | file {id parentId : Path} {h : Held} : t[id]? = some h → parentIdOf id = parentId →
      isIgnored id = false → h.isDir = false → Meets t parentId id
  | dir {d id parentId : Path} {h : Held} : t[d]? = some h → parentIdOf d = parentId →
      isIgnored d = false → h.isDir = true → Meets t d id → Meets t parentId id

def Via (t : Nodes) (child : Node) (id : Path) : Prop :=
  isIgnored child.id = false ∧
    (child.isDir = true ∧ Meets t child.id id ∨ child.isDir = false ∧ child.id = id)

theorem meets_iff_via (t : Nodes) (parentId id : Path) :
    Meets t parentId id ↔ ∃ child ∈ t.listChildren parentId, Via t child id := by
  simp only [Nodes.mem_listChildren]
  constructor
  · intro h
    cases h with
    | file hid hparent hkept hfile =>
      exact ⟨_, ⟨_, _, hid, hparent, rfl⟩, hkept, .inr ⟨hfile, rfl⟩⟩
    | dir hd hparent hkept hdir hbelow =>
      exact ⟨_, ⟨_, _, hd, hparent, rfl⟩, hkept, .inl ⟨hdir, hbelow⟩⟩
  · rintro ⟨child, ⟨d, h, hd, hparent, rfl⟩, hkept, ⟨hdir, hbelow⟩ | ⟨hfile, rfl⟩⟩
    · exact .dir hd hparent hkept hdir hbelow
    · exact .file hd hparent hkept hfile

/-- A table in which the keys of `S` have the values of `val`, and the others are as
they were. -/
def Sets (S : Path → Prop) (val : Path → Bytes) (m m' : JjTree) : Prop :=
  ∀ k, (S k → m'[k]? = some (val k)) ∧ (¬ S k → m'[k]? = m[k]?)

theorem Sets.foldlM {β : Type*} {f : JjTree → β → Except Fault JjTree}
    {S : β → Path → Prop} {val : Path → Bytes} :
    ∀ {l : List β} {m m' : JjTree}, (∀ x ∈ l, ∀ m m', f m x = .ok m' → Sets (S x) val m m') →
      l.foldlM f m = .ok m' → Sets (fun k => ∃ x ∈ l, S x k) val m m'
  | [], m, m', _, h => by
    cases h
    exact fun k => ⟨by simp, fun _ => rfl⟩
  | x :: l, m, m', hf, h => by
    obtain ⟨m₁, hx, h⟩ := Except.bind_eq_ok_iff.mp h
    rw [List.forall_mem_cons] at hf
    have hhead := hf.1 m m₁ hx
    have htail := Sets.foldlM hf.2 h
    intro k
    constructor
    · rintro ⟨y, hy, hS⟩
      by_cases hrest : ∃ y ∈ l, S y k
      · exact (htail k).1 hrest
      · -- the last turn that sets it is the first
        obtain rfl : y = x := by
          rcases List.mem_cons.mp hy with rfl | hy
          · rfl
          · exact absurd ⟨y, hy, hS⟩ hrest
        rw [(htail k).2 hrest, (hhead k).1 hS]
    · intro hnot
      rw [(htail k).2 fun ⟨y, hy, hS⟩ => hnot ⟨y, List.mem_cons_of_mem _ hy, hS⟩,
        (hhead k).2 fun hS => hnot ⟨x, List.mem_cons_self, hS⟩]

theorem walk_sets (t : Nodes) : ∀ (fuel : Nat) (parentId : Path) {tree tree' : JjTree},
    walkGraphIntoTree t fuel parentId tree = .ok tree' → Sets (Meets t parentId)
    (snapshotBytes t) tree tree'
  | 0, _, _, _, h => absurd h (by simp [walkGraphIntoTree])
  | fuel + 1, parentId, tree, tree', h => by
    simp only [funext fun id => propext (meets_iff_via t parentId id)]
    refine Sets.foldlM (fun child hchild m m' hstep => ?_) h
    obtain ⟨id, held, hid, -, rfl⟩ := Nodes.mem_listChildren.mp hchild
    unfold visit at hstep
    intro k
    split at hstep
    · -- passed over
      rename_i hignored
      cases hstep
      exact ⟨fun hvia => absurd (hvia.1.symm.trans hignored) (by simp), fun _ => rfl⟩
    · rename_i hkept
      rw [Bool.not_eq_true] at hkept
      split at hstep
      · rename_i hdir
        have hbelow := walk_sets t fuel _ hstep k
        refine ⟨fun hvia => hbelow.1 ?_,
          fun hnot => hbelow.2 fun hm => hnot ⟨hkept, .inl ⟨hdir, hm⟩⟩⟩
        rcases hvia.2 with ⟨-, hm⟩ | ⟨hfile, -⟩
        · exact hm
        · cases hfile.symm.trans hdir
      · rename_i hfile
        rw [Bool.not_eq_true] at hfile
        split at hstep
        · simp at hstep
        · cases hstep
          have hget : t[id]? = some held := hid
          have hread : t.readContent id (max held.size 1) 0 = snapshotBytes t id := by
            rw [Nodes.readContent, snapshotBytes, hget]
          rw [Table.get_insert]
          constructor
          · rintro ⟨-, ⟨hdir, -⟩ | ⟨-, rfl⟩⟩
            · cases hfile.symm.trans hdir
            · rw [if_pos rfl]
              exact congrArg some hread
          · intro hnot
            rw [if_neg]
            exact fun hk => hnot ⟨hkept, .inr ⟨hfile, hk⟩⟩

/-! ## Which files a snapshot meets -/

section Met

variable {t : Nodes} {parentId id : Path}

theorem Meets.held (h : Meets t parentId id) : ∃ held, t[id]? = some held ∧ held.isDir = false := by
  induction h with
  | file hid _ _ hfile => exact ⟨_, hid, hfile⟩
  | dir _ _ _ _ _ ih => exact ih

theorem Meets.under (ht : t.Hierarchical) (h : Meets t parentId id) :
    parentId = [] ∨ Under parentId id := by
  have hchild : ∀ {k : Path} {e : Held}, t[k]? = some e → parentIdOf k = [] ∨
      Under (parentIdOf k) k := by
    intro k e hk
    by_cases hnil : parentIdOf k = []
    · exact .inl hnil
    · exact .inr ((ht.path k e hk).under_iff.mpr ⟨hnil, .inl rfl⟩)
  induction h with
  | file hid hparent _ _ => exact hparent ▸ hchild hid
  | dir hd hparent _ _ _ ih =>
    rcases hparent ▸ hchild hd with hnil | hup
    · exact .inl hnil
    · rcases ih with rfl | ih
      · exact absurd rfl (ht.path _ _ hd).ne_nil
      · exact .inr (hup.trans ih)

theorem not_under_child (ht : t.Hierarchical) {d k : Path} {e : Held} (hk : t[k]? = some e)
    (hparent : parentIdOf k = parentId) (hbelow : parentId = [] ∨ Under parentId d) :
    ¬ Under d k := by
  intro hunder
  obtain ⟨hne, habove⟩ := (ht.path k e hk).under_iff.mp hunder
  rw [hparent] at hne habove
  exact (habove.trans_under (hbelow.resolve_left hne)).ne rfl

theorem Meets.kept (ht : t.Hierarchical) (h : Meets t parentId id) {d : Path}
    (hd : AtOrUnder d id) (hbelow : parentId = [] ∨ Under parentId d) : isIgnored d = false := by
  induction h with
  | file hid hparent hkept _ =>
    rcases hd with rfl | hd
    · exact hkept
    · exact absurd hd (not_under_child ht hid hparent hbelow)
  | dir hd' hparent hkept _ hm ih =>
    have habove := (hm.under ht).resolve_left (ht.path _ _ hd').ne_nil
    rcases habove.atOrUnder.comparable hd with hat | hup
    · rcases hat with rfl | hat
      · exact hkept
      · exact ih hd (.inr hat)
    · exact absurd hup (not_under_child ht hd' hparent hbelow)

/-- **The walk from the root meets the files that neither are ignored nor stand below a
directory that is.** -/
theorem meets_iff (ht : t.Hierarchical) :
    Meets t [] id ↔ (∃ held, t[id]? = some held ∧ held.isDir = false) ∧
      ∀ d, AtOrUnder d id → isIgnored d = false := by
  constructor
  · intro h
    exact ⟨h.held, fun d hd => h.kept ht hd (.inl rfl)⟩
  · rintro ⟨⟨held, hid, hfile⟩, hkept⟩
    -- from the file up, a directory at a time
    have hup : ∀ {d : Path}, Meets t d id →
        (d = [] ∨ AtOrUnder d id ∧ ∃ e, t[d]? = some e ∧ e.isDir = true) → Meets t [] id := by
      intro d
      induction hlen : d.length using Nat.strong_induction_on generalizing d with
      | _ n ih =>
        rintro hm (rfl | ⟨hd, e, he, hdir⟩)
        · exact hm
        · have hm' := Meets.dir he rfl (hkept d hd) hdir hm
          by_cases hnil : parentIdOf d = []
          · rwa [hnil] at hm'
          · have hparent := (ht.path d e he).under_iff.mpr ⟨hnil, .inl rfl⟩
            exact ih _ (hlen ▸ hparent.length_lt) rfl hm'
              (.inr ⟨(hparent.trans_atOrUnder hd).atOrUnder, ht.dir_above he hparent⟩)
    refine hup (.file hid rfl (hkept id (.inl rfl)) hfile) ?_
    by_cases hnil : parentIdOf id = []
    · exact .inl hnil
    · have hparent := (ht.path id held hid).under_iff.mpr ⟨hnil, .inl rfl⟩
      exact .inr ⟨hparent.atOrUnder, ht.dir_above hid hparent⟩

end Met

/-! ## The walk ends -/

theorem length_lt_height {t : Nodes} {id : Path} {h : Held} (hid : t[id]? = some h) :
    id.length < height t := by
  have hmax : ∀ l : List (Path × Held), ∀ x ∈ l,
      x.1.length ≤ l.foldr (fun x n => max x.1.length n) 0 := by
    intro l
    induction l with
    | nil => simp
    | cons y l ih =>
      intro x hx
      rcases List.mem_cons.mp hx with rfl | hx
      · exact le_max_left _ _
      · exact (ih x hx).trans (le_max_right _ _)
  exact Nat.lt_succ_of_le (hmax t.toList (id,
    h) (ExtTreeMap.mem_toList_iff_getElem?_eq_some.mpr hid))

theorem walk_ends {t : Nodes} (ht : t.Hierarchical) : ∀ (fuel : Nat) (parentId : Path)
    (tree : JjTree), 0 < fuel → height t ≤ parentId.length + fuel →
      ∃ tree', walkGraphIntoTree t fuel parentId tree = .ok tree'
  | 0, _, _, h, _ => absurd h (by simp)
  | fuel + 1, parentId, tree, _, hfuel => by
    -- every turn succeeds, whatever is set so far
    have hturn : ∀ child ∈ t.listChildren parentId, ∀ tree,
        ∃ tree', visit t (walkGraphIntoTree t fuel) tree child = .ok tree' := by
      intro child hchild tree
      obtain ⟨id, held, hid, hparent, rfl⟩ := Nodes.mem_listChildren.mp hchild
      unfold visit
      split
      · exact ⟨tree, rfl⟩
      · split
        · have hlonger : parentId.length < id.length := by
            by_cases hnil : parentIdOf id = []
            · rw [← hparent, hnil]
              exact List.length_pos_of_ne_nil (ht.path id held hid).ne_nil
            · rw [← hparent]
              exact ((ht.path id held hid).under_iff.mpr ⟨hnil, .inl rfl⟩).length_lt
          have hlow := length_lt_height hid
          exact walk_ends ht fuel id tree (by omega) (by omega)
        · rw [if_neg (by simp [Held.node, NodeTree.isPath_of_get ht hid])]
          exact ⟨_, rfl⟩
    obtain ⟨tree', h, -⟩ := Steps.foldlM_ok
      (P := fun l (_ : JjTree) => ∀ child ∈ l, child ∈ t.listChildren parentId)
      (fun child l tree hl => by
        rw [List.forall_mem_cons] at hl
        obtain ⟨tree', h⟩ := hturn child hl.1 tree
        exact ⟨tree', h, hl.2⟩) fun child hchild => hchild
    exact ⟨tree', h⟩

/-- **What a snapshot holds**, of every graph: the files it meets, with the bytes it
reads of them. -/
theorem walk_spec {t : Nodes} (ht : t.Hierarchical) :
    ∃ tree, walkGraphIntoTree t (height t) [] ∅ = .ok tree ∧
      ∀ id, (Meets t [] id → tree[id]? = some (snapshotBytes t id)) ∧
        (¬ Meets t [] id → tree[id]? = none) := by
  obtain ⟨tree, htree⟩ := walk_ends ht (height t) [] ∅ (Nat.succ_pos _) (by simp)
  refine ⟨tree, htree, fun id => ?_⟩
  have hsets := walk_sets t _ _ htree id
  exact ⟨hsets.1, fun hnot => by rw [hsets.2 hnot]; simp⟩

section Kept

variable {t : Nodes} {k : Path}

theorem meets_of_kept (ht : t.Hierarchical) (hk : fileBytes t k ≠ none)
    (hkept : isIgnored k = false) (habove : ∀ d, Under d k → isIgnored d = false) :
    Meets t [] k := by
  obtain ⟨b, hb⟩ := Option.ne_none_iff_exists'.mp hk
  obtain ⟨h, hh, hfile, -⟩ := NodeTree.fileBytes_eq_some_iff.mp hb
  refine (meets_iff ht).mpr ⟨⟨h, hh, hfile⟩, fun d hd => ?_⟩
  rcases hd with rfl | hd
  · exact hkept
  · exact habove d hd

theorem not_meets_of_ignored (ht : t.Hierarchical) (hk : isIgnored k = true) : ¬ Meets t [] k :=
  fun hm => absurd (((meets_iff ht).mp hm).2 k (.inl rfl)) (by simp [hk])

end Kept

theorem commitSnapshot_ok {w : Nat} {repo repo' : Repo w} {id : CommitId w} {t : Nodes}
    {message : Text} {tree : JjTree}
    (hwalk : walkGraphIntoTree t (height t) [] ∅ = .ok tree)
    (hnew : repo.newCommit id ⟨repo.parentsOfNew, tree, message⟩ = .ok repo') :
    commitSnapshot repo t message id = .ok (repo', id) :=
  Except.bind_eq_ok_iff.mpr ⟨tree, hwalk, Except.bind_eq_ok_iff.mpr ⟨repo', hnew, rfl⟩⟩

end LeyLine.Vcs
