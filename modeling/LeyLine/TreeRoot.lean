import LeyLine.Partition
import LeyLine.Lib.Table

/-!
# The tree root

`treeRootOf` folds a manifest's leaves: its files, and the directories with
nothing beneath them. Each leaf becomes two entries, told apart by the parity of
the rank they carry, and the fold hashes the set of entries. Under a hash without
collisions on the strings at hand the root determines the leaves
(`sortLeaves_eq_of_perm`), and the leaves of a parent-closed manifest determine
it (`entries_eq_of_leaves`).
-/

namespace LeyLine

def treeRootScheme : List Char := "leyline/tree-root/v1".toList

/-- One leaf of the manifest: a file entry, or an empty directory. -/
structure TreeLeaf where
  path : Path
  mode : GitMode
  content : Digest
  deriving DecidableEq

/-- `b` of a leaf's content entry: 0 for a regular file, the git mode
otherwise. -/
def modeTag : GitMode → UInt64
  | .regular => 0
  | m => UInt64.ofNat m.git

section Fold

variable (hash keyed : Bytes → Digest)

/-- The two entries of the leaf with rank `i`. -/
def leafEntries (i : Nat) (leaf : TreeLeaf) : List Partition.Entry :=
  [⟨hash (utf8 leaf.path), UInt64.ofNat (2 * i), UInt64.ofNat (utf8 leaf.path).length⟩,
    ⟨leaf.content, UInt64.ofNat (2 * i + 1), modeTag leaf.mode⟩]

def LeafLE (x y : TreeLeaf) : Prop := (compare (utf8 x.path) (utf8 y.path)).isLE = true

instance : DecidableRel LeafLE := fun x y =>
  inferInstanceAs (Decidable ((compare (utf8 x.path) (utf8 y.path)).isLE = true))

def sortLeaves (leaves : List TreeLeaf) : List TreeLeaf := leaves.insertionSort LeafLE

def rankedEntries (leaves : List TreeLeaf) : List Partition.Entry :=
  leaves.zipIdx.flatMap fun x => leafEntries hash x.2 x.1

def treeSpec (parserId : Digest) : Partition.PartitionSpec :=
  ⟨.rowSet, treeRootScheme, parserId.bytes, 1⟩

/-- `treeRoot` over an explicit leaf set. -/
def treeRootOf (leaves : List TreeLeaf) (parserId : Digest) : Digest :=
  (treeSpec parserId).address keyed (rankedEntries hash (sortLeaves leaves))

/-- Whether a directory has nothing beneath it: the first key from `path/` on
does not start with it. -/
def emptyBelow {H : Type} (entries : Std.ExtTreeMap Path (Entry H)) (path : Path) : Bool :=
  !((entries.keys.find? fun k => (compare (path ++ ['/']) k).isLE).any fun k => (path ++
    ['/']).isPrefixOf k)

def leafOf (entries : Std.ExtTreeMap Path (Entry Digest)) (path : Path) :
    Entry Digest → Option TreeLeaf
  | .file mode blob => some ⟨path, mode.toGitMode, blob⟩
  | .dir => if emptyBelow entries path then some ⟨path, .directory, hash []⟩ else none

/-- The fold's leaves of a manifest: every file entry, and every directory with
no entry beneath it. -/
def leavesOf (entries : Std.ExtTreeMap Path (Entry Digest)) : List TreeLeaf :=
  entries.toList.filterMap fun x => leafOf hash entries x.1 x.2

end Fold

/-! ## The root determines the leaves -/

section Ranked

variable {hash : Bytes → Digest} {leaves leaves' : List TreeLeaf}

theorem modeTag_inj {m m' : GitMode} (h : modeTag m = modeTag m') : m = m' := by
  cases m <;> cases m' <;> first | rfl | cases h

theorem mem_rankedEntries {e : Partition.Entry} :
    e ∈ rankedEntries hash leaves ↔ ∃ i leaf, leaves[i]? = some leaf ∧
    e ∈ leafEntries hash i leaf := by
  rw [rankedEntries, List.mem_flatMap]
  constructor
  · rintro ⟨⟨leaf, i⟩, hx, he⟩
    exact ⟨i, leaf, List.mem_zipIdx_iff_getElem?.mp hx, he⟩
  · rintro ⟨i, leaf, hx, he⟩
    exact ⟨(leaf, i), List.mem_zipIdx_iff_getElem?.mpr hx, he⟩

theorem length_rankedEntries : (rankedEntries hash leaves).length = 2 * leaves.length := by
  rw [rankedEntries, List.length_flatMap]
  simp [leafEntries, Nat.mul_comm]

theorem rank_inj {n m : Nat} (hn : n < 2 ^ 64) (hm : m < 2 ^ 64)
    (h : UInt64.ofNat n = UInt64.ofNat m) : n = m := by
  have h' := congrArg UInt64.toNat h
  rwa [UInt64.toNat_ofNat', UInt64.toNat_ofNat', Nat.mod_eq_of_lt hn, Nat.mod_eq_of_lt hm] at h'

theorem getElem?_of_rankedEntries_subset
    (hinj : Set.InjOn hash {b | ∃ leaf ∈ leaves ++ leaves', b = utf8 leaf.path})
    (hlen : 2 * leaves.length < 2 ^ 64) (hlen' : 2 * leaves'.length < 2 ^ 64)
    (hsub : rankedEntries hash leaves ⊆ rankedEntries hash leaves') {i : Nat} {leaf : TreeLeaf}
    (hi : leaves[i]? = some leaf) : leaves'[i]? = some leaf := by
  obtain ⟨hlt, -⟩ := List.getElem?_eq_some_iff.mp hi
  have hbound : ∀ {j x}, leaves'[j]? = some x → j < leaves'.length := fun h =>
    (List.getElem?_eq_some_iff.mp h).1
  have hpath : ∃ x, leaves'[i]? = some x ∧ hash (utf8 leaf.path) = hash (utf8 x.path) := by
    obtain ⟨j, x, hj, he⟩ := mem_rankedEntries.mp
      (hsub (mem_rankedEntries.mpr ⟨i, leaf, hi, List.mem_cons_self⟩))
    have hjlt := hbound hj
    rcases List.mem_cons.mp he with he | he
    · obtain rfl : i = j := by
        have := rank_inj (by omega) (by omega) (congrArg Partition.Entry.a he)
        omega
      exact ⟨x, hj, congrArg Partition.Entry.addr he⟩
    · have := rank_inj (by omega) (by omega) (congrArg Partition.Entry.a (List.mem_singleton.mp he))
      omega
  have hcontent : ∃ x, leaves'[i]? = some x ∧ leaf.content = x.content ∧
      modeTag leaf.mode = modeTag x.mode := by
    obtain ⟨j, x, hj, he⟩ := mem_rankedEntries.mp
      (hsub (mem_rankedEntries.mpr ⟨i, leaf, hi, List.mem_cons_of_mem _ List.mem_cons_self⟩))
    have hjlt := hbound hj
    rcases List.mem_cons.mp he with he | he
    · have := rank_inj (by omega) (by omega) (congrArg Partition.Entry.a he)
      omega
    · have he := List.mem_singleton.mp he
      obtain rfl : i = j := by
        have := rank_inj (by omega) (by omega) (congrArg Partition.Entry.a he)
        omega
      exact ⟨x, hj, congrArg Partition.Entry.addr he, congrArg Partition.Entry.b he⟩
  obtain ⟨x, hx, hhash⟩ := hpath
  obtain ⟨y, hy, hc, hm⟩ := hcontent
  obtain rfl : x = y := Option.mem_unique hx hy
  have hp : utf8 leaf.path = utf8 x.path :=
    hinj ⟨leaf, List.mem_append_left _ (List.mem_of_getElem? hi), rfl⟩
      ⟨x, List.mem_append_right _ (List.mem_of_getElem? hx), rfl⟩ hhash
  rw [hx]
  obtain ⟨path, mode, content⟩ := leaf
  obtain ⟨path', mode', content'⟩ := x
  obtain rfl : path = path' := utf8_inj hp
  obtain rfl : mode = mode' := modeTag_inj hm
  obtain rfl : content = content' := hc
  rfl

/-- **The set of entries determines the ranked leaves.** -/
theorem leaves_eq_of_rankedEntries_perm
    (hinj : Set.InjOn hash {b | ∃ leaf ∈ leaves ++ leaves', b = utf8 leaf.path})
    (hlen : 2 * leaves.length < 2 ^ 64) (hlen' : 2 * leaves'.length < 2 ^ 64)
    (hperm : (rankedEntries hash leaves).Perm (rankedEntries hash leaves')) : leaves = leaves' := by
  have hinj' : Set.InjOn hash {b | ∃ leaf ∈ leaves' ++ leaves, b = utf8 leaf.path} := by
    refine hinj.mono ?_
    rintro b ⟨leaf, hl, rfl⟩
    exact ⟨leaf, by simpa [or_comm] using hl, rfl⟩
  refine List.ext_getElem? fun i => Option.ext fun leaf => ⟨fun h => ?_, fun h => ?_⟩
  · exact getElem?_of_rankedEntries_subset hinj hlen hlen' hperm.subset h
  · exact getElem?_of_rankedEntries_subset hinj' hlen' hlen hperm.symm.subset h

end Ranked

/-! ## The order of enumeration -/

section Enumeration

instance : Std.Total LeafLE where
  total x y := by
    rw [LeafLE, LeafLE, Std.OrientedOrd.eq_swap (a := utf8 y.path)]
    cases compare (utf8 x.path) (utf8 y.path) <;> simp

instance : IsTrans TreeLeaf LeafLE where
  trans _ _ _ := Std.TransCmp.isLE_trans

theorem pairwise_sortLeaves (leaves : List TreeLeaf) : (sortLeaves leaves).Pairwise LeafLE :=
  List.pairwise_insertionSort LeafLE leaves

theorem sortLeaves_perm (leaves : List TreeLeaf) : (sortLeaves leaves).Perm leaves :=
  List.perm_insertionSort _ _

theorem sortLeaves_eq {leaves leaves' : List TreeLeaf}
    (hdistinct : leaves.Pairwise fun x y => x.path ≠ y.path) (hp : leaves.Perm leaves') :
    sortLeaves leaves = sortLeaves leaves' := by
  have hperm : (sortLeaves leaves).Perm (sortLeaves leaves') :=
    (sortLeaves_perm leaves).trans (hp.trans (sortLeaves_perm leaves').symm)
  refine hperm.eq_of_pairwise (fun x y hx hy hxy hyx => ?_) (pairwise_sortLeaves leaves)
    (pairwise_sortLeaves leaves')
  have hpath : x.path = y.path := by
    rw [LeafLE] at hxy hyx
    rw [Std.OrientedOrd.eq_swap] at hyx
    cases hc : compare (utf8 x.path) (utf8 y.path) with
    | lt => simp [hc] at hyx
    | gt => simp [hc] at hxy
    | eq => exact utf8_inj (Std.LawfulEqOrd.eq_of_compare hc)
  have hnodup : (leaves.map (·.path)).Nodup := List.pairwise_map.mpr hdistinct
  exact List.inj_on_of_nodup_map hnodup ((sortLeaves_perm leaves).mem_iff.mp hx)
    (hp.mem_iff.mpr ((sortLeaves_perm leaves').mem_iff.mp hy)) hpath

end Enumeration

/-! ## The leaves determine the manifest -/

section Leaves

variable {H : Type}

theorem emptyBelow_iff {entries : Std.ExtTreeMap Path (Entry H)} {path : Path} :
    emptyBelow entries path = true ↔ ∀ q, entries[q]? ≠ none → ¬ Under path q := by
  have hmem : ∀ q, q ∈ entries.keys ↔ entries[q]? ≠ none := fun q => by
    rw [Std.ExtTreeMap.mem_keys, Table.mem_iff]
  rw [emptyBelow, Bool.not_eq_true', Option.any_eq_false]
  constructor
  · intro h q hq hu
    have hext : (compare (path ++ ['/']) q).isLE = true := by
      obtain ⟨r, rfl⟩ := hu
      cases r with
      | nil => rw [List.append_nil, Std.ReflOrd.compare_self]; rfl
      | cons c r => rw [SepPath.compare_append_cons]; rfl
    cases hf : entries.keys.find? (fun k => (compare (path ++ ['/']) k).isLE) with
    | none => exact absurd (List.find?_eq_none.mp hf q ((hmem q).mpr hq)) (by simp [hext])
    | some k =>
      -- the first key from `path/` on comes no later than `q`, so it extends it too
      obtain ⟨hk, as, bs, hsplit, has⟩ := List.find?_eq_some_iff_append.mp hf
      have hkq : (compare k q).isLE = true := by
        have hq' := (hmem q).mpr hq
        have hord : entries.keys.Pairwise fun a b => compare a b = .lt :=
          Std.ExtTreeMap.ordered_keys
        rw [hsplit] at hq' hord
        rcases List.mem_append.mp hq' with hqa | hqb
        · exact absurd (has q hqa) (by simp [hext])
        · rcases List.mem_cons.mp hqb with rfl | hqb
          · rw [Std.ReflOrd.compare_self]; rfl
          · have := (List.pairwise_append.mp hord).2.1
            rw [(List.pairwise_cons.mp this).1 q hqb]
            rfl
      obtain ⟨r, rfl⟩ := hu
      have hext := List.isPrefixOf_iff_prefix.mpr (SepPath.isPrefix_of_between r _ k hk hkq)
      rw [h k hf] at hext
      simp at hext
  · intro h k hf
    by_contra hk
    rw [Bool.not_eq_false] at hk
    exact h k ((hmem k).mp (List.mem_of_find?_eq_some hf)) (List.isPrefixOf_iff_prefix.mp hk)

theorem Mode.toGitMode_inj {m m' : Mode} (h : m.toGitMode = m'.toGitMode) : m = m' := by
  cases m <;> cases m' <;> first | rfl | cases h

theorem Mode.toGitMode_ne_directory (m : Mode) : m.toGitMode ≠ .directory := by
  cases m <;> decide

/-- A manifest as the fold is given one: every path above an entry is a
directory, so that nothing lies under a file, and its leaves' ranks fit the
framing. -/
structure TreeManifest where
  entries : Std.ExtTreeMap Path (Entry Digest)
  parents_dir : ∀ d p, entries[p]? ≠ none → Under d p → entries[d]? = some .dir
  fits : 2 * entries.size < 2 ^ 64

variable {hash : Bytes → Digest} {entries : Std.ExtTreeMap Path (Entry Digest)}

variable {p : Path}

theorem leafOf_path {e : Entry Digest} {leaf : TreeLeaf}
    (h : leafOf hash entries p e = some leaf) : leaf.path = p := by
  cases e with
  | file mode blob =>
    rw [leafOf, Option.some.injEq] at h
    rw [← h]
  | dir =>
    rw [leafOf] at h
    split at h
    · rw [← Option.some.inj h]
    · simp at h

theorem mem_leavesOf {leaf : TreeLeaf} : leaf ∈ leavesOf hash entries ↔
      ∃ e, entries[leaf.path]? = some e ∧ leafOf hash entries leaf.path e = some leaf := by
  rw [leavesOf, List.mem_filterMap]
  constructor
  · rintro ⟨⟨p, e⟩, hx, hl⟩
    obtain rfl := leafOf_path hl
    exact ⟨e, Std.ExtTreeMap.mem_toList_iff_getElem?_eq_some.mp hx, hl⟩
  · rintro ⟨e, he, hl⟩
    exact ⟨(leaf.path, e), Std.ExtTreeMap.mem_toList_iff_getElem?_eq_some.mpr he, hl⟩

theorem pairwise_leavesOf : (leavesOf hash entries).Pairwise fun x y => x.path ≠ y.path := by
  rw [leavesOf, List.pairwise_filterMap]
  refine (Table.pairwise_toList_ne entries).imp fun {x y} hne l hl l' hl' => ?_
  rw [leafOf_path hl, leafOf_path hl']
  exact hne

variable (hash)

theorem length_leavesOf_le : (leavesOf hash entries).length ≤ entries.size := by
  rw [← Std.ExtTreeMap.length_toList]
  exact List.length_filterMap_le _ _

theorem file_iff_mem_leavesOf {mode : Mode} {blob : Digest} :
    entries[p]? = some (.file mode blob) ↔ ⟨p, mode.toGitMode, blob⟩ ∈ leavesOf hash entries := by
  rw [mem_leavesOf]
  constructor
  · exact fun h => ⟨_, h, rfl⟩
  · rintro ⟨e, he, hl⟩
    cases e with
    | file mode' blob' =>
      simp only [leafOf, Option.some.injEq, TreeLeaf.mk.injEq, true_and] at hl
      rw [he, Mode.toGitMode_inj hl.1, hl.2]
    | dir =>
      rw [leafOf] at hl
      split at hl
      · simp only [Option.some.injEq, TreeLeaf.mk.injEq, true_and] at hl
        exact absurd hl.1.symm mode.toGitMode_ne_directory
      · simp at hl

theorem exists_leaf_atOrUnder (hp : entries[p]? ≠ none) :
    ∃ leaf ∈ leavesOf hash entries, AtOrUnder p leaf.path := by
  classical
  have hmem : ∀ q, q ∈ entries.keys.toFinset.filter (AtOrUnder p) ↔
      entries[q]? ≠ none ∧ AtOrUnder p q := fun q => by
    rw [Finset.mem_filter, List.mem_toFinset, Std.ExtTreeMap.mem_keys, Table.mem_iff]
  obtain ⟨q, hq, hmax⟩ := Finset.exists_max_image (entries.keys.toFinset.filter (AtOrUnder p))
    List.length ⟨p, (hmem p).mpr ⟨hp, SepPath.AtOrUnder.refl p⟩⟩
  obtain ⟨hne, hpq⟩ := (hmem q).mp hq
  have hbelow : ∀ q', entries[q']? ≠ none → ¬ Under q q' := by
    intro q' hq' hu
    have hle := hmax q' ((hmem q').mpr ⟨hq', (hpq.trans_under hu).atOrUnder⟩)
    have hlt := hu.length_lt
    omega
  obtain ⟨e, he⟩ := Option.ne_none_iff_exists'.mp hne
  cases e with
  | file mode blob => exact ⟨_, (file_iff_mem_leavesOf hash).mp he, hpq⟩
  | dir =>
    refine ⟨⟨q, .directory, hash []⟩, mem_leavesOf.mpr ⟨.dir, he, ?_⟩, hpq⟩
    rw [leafOf, if_pos (emptyBelow_iff.mpr hbelow)]

theorem TreeManifest.dir_iff_leaves (m : TreeManifest) : m.entries[p]? = some .dir ↔
      ∃ leaf ∈ leavesOf hash m.entries, Under p leaf.path ∨
      (leaf.path = p ∧ leaf.mode = .directory) := by
  constructor
  · intro hp
    obtain ⟨leaf, hleaf, hat | hu⟩ := exists_leaf_atOrUnder hash (by rw [hp]; simp)
    · refine ⟨leaf, hleaf, .inr ⟨hat.symm, ?_⟩⟩
      obtain ⟨e, he, hl⟩ := mem_leavesOf.mp hleaf
      rw [← hat, hp, Option.some.injEq] at he
      rw [← he, leafOf] at hl
      split at hl
      · rw [← Option.some.inj hl]
      · simp at hl
    · exact ⟨leaf, hleaf, .inl hu⟩
  · rintro ⟨leaf, hleaf, hu | ⟨rfl, hmode⟩⟩
    · obtain ⟨e, he, -⟩ := mem_leavesOf.mp hleaf
      exact m.parents_dir p leaf.path (by rw [he]; simp) hu
    · obtain ⟨e, he, hl⟩ := mem_leavesOf.mp hleaf
      cases e with
      | dir => exact he
      | file mode blob =>
        rw [leafOf, Option.some.injEq] at hl
        rw [← hl] at hmode
        exact absurd hmode mode.toGitMode_ne_directory

/-- **The leaves of a parent-closed manifest determine it.** -/
theorem TreeManifest.entries_eq_of_leaves {m m' : TreeManifest}
    (h : ∀ leaf, leaf ∈ leavesOf hash m.entries ↔ leaf ∈ leavesOf hash m'.entries) :
    m.entries = m'.entries := by
  refine Std.ExtTreeMap.ext_getElem? fun p => Option.ext fun e => ?_
  cases e with
  | file mode blob => rw [file_iff_mem_leavesOf hash, h, ← file_iff_mem_leavesOf]
  | dir => simp only [m.dir_iff_leaves hash, m'.dir_iff_leaves hash, h]

end Leaves

/-! ## The root identifies the tree -/

/-- **`treeRoot` identifies the tree.** With no collisions of the plain hash on
the leaves' paths and of the keyed hash on the two strings folded, two roots are
equal exactly when the parser ids and the manifests are, in whatever order the
leaves are enumerated. -/
theorem treeRootOf_eq_iff (hash keyed : Bytes → Digest) (m m' : TreeManifest)
    (parserId parserId' : Digest) (leaves leaves' : List TreeLeaf)
    (hleaves : leaves.Perm (leavesOf hash m.entries))
    (hleaves' : leaves'.Perm (leavesOf hash m'.entries))
    (hpaths : Set.InjOn hash {b | ∃ leaf ∈ leaves ++ leaves', b = utf8 leaf.path})
    (hfold : Set.InjOn keyed {(treeSpec parserId).preimage (rankedEntries hash (sortLeaves leaves)),
      (treeSpec parserId').preimage (rankedEntries hash (sortLeaves leaves'))}) :
    treeRootOf hash keyed leaves parserId = treeRootOf hash keyed leaves' parserId' ↔
      parserId = parserId' ∧ m.entries = m'.entries := by
  have hlen : 2 * leaves.length < 2 ^ 64 := by
    have hle : (leavesOf hash m.entries).length ≤ m.entries.size := length_leavesOf_le hash
    have := m.fits
    have := hleaves.length_eq
    omega
  have hlen' : 2 * leaves'.length < 2 ^ 64 := by
    have hle : (leavesOf hash m'.entries).length ≤ m'.entries.size := length_leavesOf_le hash
    have := m'.fits
    have := hleaves'.length_eq
    omega
  constructor
  · intro h
    have hfits : ∀ (id : Digest) (l : List TreeLeaf), 2 * l.length < 2 ^ 64 →
        (treeSpec id).Fits (rankedEntries hash (sortLeaves l)) := by
      intro id l hl
      refine ⟨show (utf8 treeRootScheme).length < 256 ^ 8 by decide, ?_, ?_⟩
      · rw [treeSpec, id.length_eq]
        omega
      · rw [length_rankedEntries, (sortLeaves_perm l).length_eq]
        omega
    have hpre := hfold (Set.mem_insert _ _) (Set.mem_insert_of_mem _ rfl) h
    obtain ⟨hspec, hfolded⟩ := Partition.PartitionSpec.preimage_inj
      (hfits parserId leaves hlen) (hfits parserId' leaves' hlen') hpre
    refine ⟨Digest.ext (congrArg Partition.PartitionSpec.params hspec), ?_⟩
    have hperm : (rankedEntries hash (sortLeaves leaves)).Perm
        (rankedEntries hash (sortLeaves leaves')) := by
      refine ((treeSpec parserId).folded_perm _).symm.trans ?_
      rw [hfolded]
      exact (treeSpec parserId').folded_perm _
    have hsorted : sortLeaves leaves = sortLeaves leaves' := by
      refine leaves_eq_of_rankedEntries_perm (hpaths.mono ?_) ?_ ?_ hperm
      · rintro b ⟨leaf, hl, rfl⟩
        refine ⟨leaf, ?_, rfl⟩
        rwa [List.mem_append, (sortLeaves_perm leaves).mem_iff,
          (sortLeaves_perm leaves').mem_iff, ← List.mem_append] at hl
      · rw [(sortLeaves_perm leaves).length_eq]
        exact hlen
      · rw [(sortLeaves_perm leaves').length_eq]
        exact hlen'
    refine TreeManifest.entries_eq_of_leaves hash fun leaf => ?_
    rw [← hleaves.mem_iff, ← hleaves'.mem_iff, ← (sortLeaves_perm leaves).mem_iff, hsorted,
      (sortLeaves_perm leaves').mem_iff]
  · rintro ⟨rfl, hm⟩
    have hperm : leaves.Perm leaves' := hleaves.trans (hm ▸ hleaves'.symm)
    have hdistinct : leaves.Pairwise fun x y => x.path ≠ y.path :=
      (hleaves.pairwise_iff Ne.symm).mpr pairwise_leavesOf
    rw [treeRootOf, treeRootOf, sortLeaves_eq hdistinct hperm]

def headDigest (b : Bytes) : Digest := Partition.Decomposition.firstBytes b

def tailDigest (b : Bytes) : Digest := headDigest (b.drop (b.length - 32))

/-- A directory `d` with the two files `a` and `b`. -/
def dirEntries (mode : Mode) : Std.ExtTreeMap Path (Entry Digest) :=
  (((∅ : Std.ExtTreeMap Path (Entry Digest)).insert "d".toList .dir).insert "d/a".toList
    (.file mode (headDigest [255]))).insert "d/b".toList (.file .regular (headDigest [254]))

theorem dirEntries_parents (mode : Mode) (d p : Path) (hp : (dirEntries mode)[p]? ≠ none)
    (hu : Under d p) :
    (dirEntries mode)[d]? = some .dir := by
  have hmem := SepPath.mem_parents.mpr hu
  rw [dirEntries, Table.get_insert, Table.get_insert, Table.get_insert] at hp
  have hparents : SepPath.parents '/' p ⊆ ["d".toList] := by
    split_ifs at hp with hb ha hd
    · exact hb ▸ by decide
    · exact ha ▸ by decide
    · exact hd ▸ by decide
    · exact absurd (by simp) hp
  obtain rfl := List.mem_singleton.mp (hparents hmem)
  cases mode with
  | regular | executable | symlink => decide

def dirTree (mode : Mode) : TreeManifest where
  entries := dirEntries mode
  parents_dir := dirEntries_parents mode
  fits := by cases mode <;> decide

theorem headDigest_injOn_paths {leaves : List TreeLeaf} (h : ∀ x ∈ leaves, ∀ y ∈ leaves,
      headDigest (utf8 x.path) = headDigest (utf8 y.path) → utf8 x.path = utf8 y.path) :
    Set.InjOn headDigest {b | ∃ leaf ∈ leaves, b = utf8 leaf.path} := by
  rintro _ ⟨x, hx, rfl⟩ _ ⟨y, hy, rfl⟩ heq
  exact h x hx y hy heq

/-- The mode of a file is part of the root; the order of the leaves is not. -/
theorem treeRootOf_eq_iff_dirTree :
    treeRootOf headDigest tailDigest (leavesOf headDigest (dirTree .regular).entries)
        (headDigest []) ≠
      treeRootOf headDigest tailDigest (leavesOf headDigest (dirTree .executable).entries)
        (headDigest []) ∧
    treeRootOf headDigest tailDigest (leavesOf headDigest (dirTree .regular).entries)
        (headDigest []) =
      treeRootOf headDigest tailDigest (leavesOf headDigest (dirTree .regular).entries).reverse
        (headDigest []) := by
  refine ⟨fun h => ?_, ?_⟩
  · have hm := ((treeRootOf_eq_iff headDigest tailDigest (dirTree .regular) (dirTree .executable)
      (headDigest []) (headDigest []) _ _ (List.Perm.refl _) (List.Perm.refl _)
      (headDigest_injOn_paths (by decide +kernel))
      (Set.injOn_pair.mpr fun h => absurd h (by decide +kernel))).mp h).2
    have hget := congrArg (fun e : Std.ExtTreeMap Path (Entry Digest) => e["d/a".toList]?) hm
    cases hget
  · exact (treeRootOf_eq_iff headDigest tailDigest (dirTree .regular) (dirTree .regular)
      (headDigest []) (headDigest []) _ _ (List.Perm.refl _) (List.reverse_perm _)
      (headDigest_injOn_paths (by decide +kernel))
        (Set.injOn_pair.mpr fun _ => by decide +kernel)).mpr ⟨rfl, rfl⟩

end LeyLine
