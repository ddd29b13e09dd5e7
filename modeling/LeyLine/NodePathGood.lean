import LeyLine.Lib.Table
import LeyLine.NodePath

/-!
# What every parse keeps

A node's row agrees with the interning tables, the node above it is there, and the
children of a node in a file have distinct positions and one language: `Good`. The tables
only grow, and what is said of a row is said in terms that growth keeps (`NodeOk.mono`), so
a step needs a proof only for the rows it adds or removes (`Good.putNode`, `Good.keep`).
-/

namespace LeyLine.NodePath

open Std (ExtTreeMap)
open Option (bind_eq_some_iff mem_unique ne_none_iff_exists' some_ne_none)
open Interned (find_eq_some_iff grows_intern row_intern)
open SepPath (dirPart lastPart)

/-! ## Nids -/

variable {f o : Nat}

theorem fileNid_inj {f o f' o' : Nat} (ho : o < 2 ^ 24) (ho' : o' < 2 ^ 24)
    (h : fileNid f o = fileNid f' o') : f = f' ∧ o = o' := by
  unfold fileNid at h
  omega

variable {d : Nat}

theorem dirNid_ne_fileNid (hd : d ≠ 0) : dirNid d ≠ fileNid f o := by
  unfold dirNid fileNid
  omega

theorem dirNid_inj {d d' : Nat} (h : dirNid d = dirNid d') : d = d' := by
  unfold dirNid at h
  omega

theorem row_ne_zero {α : Type} {t : Interned α} {i : Nat} {a : α} (h : t.row i = some a) :
    i ≠ 0 := by
  rintro rfl
  simp [Interned.row] at h

/-! ## The invariant -/

/-- A row agrees with the interning tables. -/
inductive NodeOk (db : Db) (nid : Int) (row : NodeRow) : Prop
  | root (n : Nat) : nid = dirNid 1 → row.parentNid = none → row.nameId = some n →
      db.names.row n = some [] → NodeOk db nid row
  | dir (d p n : Nat) : nid = dirNid d → db.dirs.row d = some (some p, n) →
      row.parentNid = some (dirNid p) → row.nameId = some n → NodeOk db nid row
  | file (f d n : Nat) : nid = fileNid f 0 → db.files.row f = some (d, n) →
      row.parentNid = some (dirNid d) → row.nameId = some n → NodeOk db nid row
  | ast (f o o' k : Nat) (entry : Nat × Nat) (lang rawKind : Text) : nid = fileNid f o →
      o < 2 ^ 24 → o' < o → db.files.row f = some entry →
      row.parentNid = some (fileNid f o') → row.nameId = none → row.kindId = some k →
      db.kinds.row k = some (lang, rawKind) → PlainName rawKind → NodeOk db nid row

/-- The interning tables of one database go on in another. -/
structure Extends (db db' : Db) : Prop where
  names : db.names.Grows db'.names
  kinds : db.kinds.Grows db'.kinds
  dirs : db.dirs.Grows db'.dirs
  files : db.files.Grows db'.files

theorem Extends.refl (db : Db) : Extends db db := ⟨.refl _, .refl _, .refl _, .refl _⟩

theorem Extends.trans {db db' db'' : Db} (h : Extends db db') (h' : Extends db' db'') :
    Extends db db'' :=
  ⟨h.names.trans h'.names, h.kinds.trans h'.kinds, h.dirs.trans h'.dirs, h.files.trans h'.files⟩

theorem extends_nodes (db : Db) (nodes : ExtTreeMap Int NodeRow) :
    Extends db { db with nodes := nodes } :=
  ⟨.refl _, .refl _, .refl _, .refl _⟩

variable {row : NodeRow} {nid : Int}

theorem NodeOk.mono {db db' : Db} (hext : Extends db db') (h : NodeOk db nid row) :
    NodeOk db' nid row := by
  cases h with
  | root n hnid hparent hname hroot => exact .root n hnid hparent hname (hext.names _ _ hroot)
  | dir d p n hnid hrow hparent hname => exact .dir d p n hnid (hext.dirs _ _ hrow) hparent hname
  | file f d n hnid hrow hparent hname =>
    exact .file f d n hnid (hext.files _ _ hrow) hparent hname
  | ast f o o' k entry lang rawKind hnid ho ho' hf hparent hname hkind hrow hplain =>
    exact .ast f o o' k entry lang rawKind hnid ho ho' (hext.files _ _ hf) hparent hname hkind
      (hext.kinds _ _ hrow) hplain

/-- The interning tables are a tree of directories with files in them. -/
structure TablesOk (db : Db) : Prop where
  root : ∃ n, db.dirs.row 1 = some (none, n) ∧ db.names.row n = some []
  rootOnly : ∀ d n, db.dirs.row d = some (none, n) → d = 1
  dir : ∀ d p n, db.dirs.row d = some (some p, n) → p < d ∧ db.dirs.row p ≠ none ∧
    ∃ name, db.names.row n = some name ∧ PlainName name
  file : ∀ f d n, db.files.row f = some (d, n) → db.dirs.row d ≠ none ∧
    ∃ name, db.names.row n = some name ∧ PlainName name

theorem fileNid_nonneg (f o : Nat) : 0 ≤ fileNid f o := Int.natCast_nonneg _

theorem dirNid_neg (h : d ≠ 0) : dirNid d < 0 := by
  unfold dirNid
  omega

variable {db : Db}

theorem dirNid_neg_of_row (h : db.dirs.row d ≠ none) : dirNid d < 0 :=
  dirNid_neg (by rintro rfl; exact h rfl)

theorem NodeOk.of_file_parent (ht : TablesOk db) {nid q : Int}
    (hq : 0 ≤ q) (h : NodeOk db nid row) (hp : row.parentNid = some q) :
    ∃ f o o' k lang rawKind, nid = fileNid f o ∧ o < 2 ^ 24 ∧ o' < o ∧ q = fileNid f o' ∧
      row.nameId = none ∧ row.kindId = some k ∧ db.kinds.row k = some (lang, rawKind) ∧
      PlainName rawKind := by
  cases h with
  | root n hnid hnone => cases hnone.symm.trans hp
  | dir d p n hnid hdir hparent =>
    have hneg := dirNid_neg_of_row (ht.dir d p n hdir).2.1
    rw [mem_unique hparent hp] at hneg
    exact absurd hq hneg.not_ge
  | file f d n hnid hfile hparent =>
    have hneg := dirNid_neg_of_row (ht.file f d n hfile).1
    rw [mem_unique hparent hp] at hneg
    exact absurd hq hneg.not_ge
  | ast f o o' k entry lang rawKind hnid ho ho' hfile hparent hname hkind hrow hplain =>
    exact ⟨f, o, o', k, lang, rawKind, hnid, ho, ho', mem_unique hp hparent, hname, hkind, hrow,
      hplain⟩

/-- Two children of one node of a file: their positions differ and their language is one. -/
def Siblings (db : Db) (nid nid' : Int) (row row' : NodeRow) : Prop :=
  (row.ord = row'.ord → nid = nid') ∧
    ∀ k k' lang rawKind lang' rawKind', row.kindId = some k → row'.kindId = some k' →
      db.kinds.row k = some (lang, rawKind) → db.kinds.row k' = some (lang', rawKind') →
      lang = lang'

/-- What holds of every database a run of parses leaves. -/
structure Good (db : Db) : Prop where
  tables : TablesOk db
  node : ∀ (nid : Int) (row : NodeRow), db.nodes[nid]? = some row → NodeOk db nid row
  rootNode : db.nodes[dirNid 1]? ≠ none
  above : ∀ (nid : Int) (row : NodeRow) (p : Int), db.nodes[nid]? = some row →
    row.parentNid = some p → db.nodes[p]? ≠ none
  siblings : ∀ (nid : Int) (row : NodeRow) (nid' : Int) (row' : NodeRow) (f o : Nat),
    db.nodes[nid]? = some row → db.nodes[nid']? = some row' →
    row.parentNid = some (fileNid f o) → row'.parentNid = some (fileNid f o) →
    Siblings db nid nid' row row'

/-! ## Removing rows -/

theorem Good.keep {db : Db} (h : Good db) (keep : Int → Bool) (hroot : keep (dirNid 1) = true)
    (hclosed : ∀ (nid : Int) (row : NodeRow) (p : Int), db.nodes[nid]? = some row →
      keep nid = true → row.parentNid = some p → keep p = true) :
    Good { db with nodes := db.nodes.filter fun nid _ => keep nid } := by
  have hget : ∀ (nid : Int) (row : NodeRow), (db.nodes.filter fun nid _ => keep nid)[nid]? =
      some row ↔
        db.nodes[nid]? = some row ∧ keep nid = true := fun nid row => by
    simp [Option.filter_eq_some_iff]
  have hstays : ∀ nid : Int, db.nodes[nid]? ≠ none → keep nid = true →
      (db.nodes.filter fun nid _ => keep nid)[nid]? ≠ none := by
    intro nid hne hk
    obtain ⟨row, hrow⟩ := ne_none_iff_exists'.mp hne
    rw [(hget nid row).mpr ⟨hrow, hk⟩]
    simp
  refine ⟨⟨h.tables.root, h.tables.rootOnly, h.tables.dir, h.tables.file⟩, fun nid row hrow => ?_,
    hstays _ h.rootNode hroot, fun nid row p hrow hp => ?_,
    fun nid row nid' row' f o hrow hrow' => ?_⟩
  · exact (h.node nid row ((hget nid row).mp hrow).1).mono (extends_nodes db _)
  · obtain ⟨hold, hk⟩ := (hget nid row).mp hrow
    exact hstays p (h.above nid row p hold hp) (hclosed nid row p hold hk hp)
  · exact h.siblings nid row nid' row' f o ((hget nid row).mp hrow).1 ((hget nid' row').mp hrow').1

theorem Good.deleteFileRows (h : Good db) (relPath : Text) : Good (db.deleteFileRows relPath) := by
  unfold Db.deleteFileRows
  split
  · exact h
  · rename_i f hf
    have hfne : f ≠ 0 := by
      obtain ⟨d, -, hat⟩ := bind_eq_some_iff.mp hf
      obtain ⟨n, -, hfind⟩ := bind_eq_some_iff.mp hat
      exact row_ne_zero (find_eq_some_iff.mp hfind)
    have hneg : ∀ d : Nat, ¬ (fileNid f 0 ≤ dirNid d ∧ dirNid d ≤ fileNid f (2 ^ 24 - 1)) := by
      unfold fileNid dirNid
      omega
    refine h.keep (fun nid => ¬ (fileNid f 0 ≤ nid ∧ nid ≤ fileNid f (2 ^ 24 - 1)))
      (decide_eq_true (hneg 1)) fun nid row p hrow hk hp => ?_
    refine decide_eq_true fun hin => of_decide_eq_true hk ?_
    -- above a row of another file or a directory stands no row of this file
    cases h.node nid row hrow with
    | root n hnid hparent => cases hparent.symm.trans hp
    | dir d q n hnid hdir hparent =>
      rw [← mem_unique hparent hp] at hin
      exact absurd hin (hneg q)
    | file f' d n hnid hfile hparent =>
      rw [← mem_unique hparent hp] at hin
      exact absurd hin (hneg d)
    | ast f' o o' k entry lang rawKind hnid ho ho' hfile hparent =>
      rw [← mem_unique hparent hp] at hin
      rw [hnid]
      unfold fileNid at hin ⊢
      omega

theorem Good.sweepOnce (h : Good db) : Good db.sweepOnce := by
  refine h.keep (fun nid => ¬ (nid < -1 ∧ some nid ∉ db.nodes.toList.map (·.2.parentNid)))
    (decide_eq_true fun hlt => absurd hlt.1 (by decide)) fun nid row p hrow _ hp => ?_
  refine decide_eq_true fun hout => hout.2 (List.mem_map.mpr ⟨(nid, row), ?_, hp⟩)
  exact ExtTreeMap.mem_toList_iff_getElem?_eq_some.mpr hrow

theorem Good.sweepOrphanedDirs (h : Good db) (rounds : Nat) :
    Good (Db.sweepOrphanedDirs rounds db) := by
  induction rounds generalizing db with
  | zero => exact h
  | succ rounds ih =>
    unfold Db.sweepOrphanedDirs
    split
    · exact h
    · exact ih h.sweepOnce

/-! ## Growing the tables -/

theorem extends_internName (db : Db) (text : Text) : Extends db (db.internName text).1 :=
  ⟨db.names.grows_intern text, .refl _, .refl _, .refl _⟩

theorem extends_internKind (db : Db) (lang rawKind : Text) :
    Extends db (db.internKind lang rawKind).1 :=
  ⟨.refl _, db.kinds.grows_intern _, .refl _, .refl _⟩

theorem extends_internDir (db : Db) (cur : Nat) (comp : Text) :
    Extends db (db.internDir cur comp).1 :=
  (extends_internName db comp).trans ⟨.refl _, .refl _, grows_intern _ _, .refl _⟩

theorem Good.grow {db db' : Db} (h : Good db) (hext : Extends db db')
    (hnodes : db'.nodes = db.nodes) (htables : TablesOk db') : Good db' := by
  refine ⟨htables, fun nid row hrow => ?_, ?_, fun nid row p hrow hp => ?_,
    fun nid row nid' row' f o hrow hrow' hp hp' => ?_⟩
  · rw [hnodes] at hrow
    exact (h.node nid row hrow).mono hext
  · rw [hnodes]
    exact h.rootNode
  · rw [hnodes] at hrow ⊢
    exact h.above nid row p hrow hp
  · rw [hnodes] at hrow hrow'
    obtain ⟨hord, hlang⟩ := h.siblings nid row nid' row' f o hrow hrow' hp hp'
    refine ⟨hord, fun k k' lang rawKind lang' rawKind' hk hk' hrowk hrowk' => ?_⟩
    -- a child of a node in a file has an old kind
    have hold : ∀ {nid : Int} {row : NodeRow} {k : Nat} {l r : Text}, db.nodes[nid]? = some row →
        row.parentNid = some (fileNid f o) → row.kindId = some k → db'.kinds.row k = some (l, r) →
        db.kinds.row k = some (l, r) := by
      intro nid row k l r hrow hp hk hl
      obtain ⟨-, -, -, k', lang, rawKind, -, -, -, -, -, hkind, hkrow, -⟩ :=
        (h.node nid row hrow).of_file_parent h.tables (fileNid_nonneg f o) hp
      obtain rfl : k' = k := mem_unique hkind hk
      rw [hkrow, ← hl]
      exact (hext.kinds _ _ hkrow).symm
    exact hlang k k' lang rawKind lang' rawKind' hk hk' (hold hrow hp hk hrowk)
      (hold hrow' hp' hk' hrowk')

theorem TablesOk.internName (h : TablesOk db) (text : Text) : TablesOk (db.internName text).1 := by
  have hgrow := (extends_internName db text).names
  obtain ⟨n, hroot, hname⟩ := h.root
  refine ⟨⟨n, hroot, hgrow _ _ hname⟩, h.rootOnly, fun d p n hd => ?_, fun f d n hf => ?_⟩
  · obtain ⟨hlt, hp, name, hn, hplain⟩ := h.dir d p n hd
    exact ⟨hlt, hp, name, hgrow _ _ hn, hplain⟩
  · obtain ⟨hd, name, hn, hplain⟩ := h.file f d n hf
    exact ⟨hd, name, hgrow _ _ hn, hplain⟩

variable {cur : Nat} {comp : Text}

theorem TablesOk.internDir (h : TablesOk db) (hcur : db.dirs.row cur ≠ none)
    (hplain : PlainName comp) :
    TablesOk (db.internDir cur comp).1 := by
  have hnamed := h.internName comp
  have hrow : (db.internName comp).1.names.row (db.internName comp).2 = some comp := row_intern _ _
  have hgrow := grows_intern db.dirs (some cur, (db.internName comp).2)
  have hcases : ∀ d r, (db.internDir cur comp).1.dirs.row d = some r → db.dirs.row d = some r ∨
      (r = (some cur, (db.internName comp).2) ∧ d = db.dirs.rows.length + 1) := fun d r hd =>
    (Interned.row_intern_cases hd).imp_right fun hnew => ⟨hnew.1, hnew.2.1⟩
  have hstays : ∀ p, db.dirs.row p ≠ none →
      (db.dirs.intern (some cur, (db.internName comp).2)).1.row p ≠ none := by
    intro p hp
    obtain ⟨r, hr⟩ := ne_none_iff_exists'.mp hp
    rw [hgrow p r hr]
    simp
  obtain ⟨n, hroot, hname⟩ := hnamed.root
  refine ⟨⟨n, hgrow _ _ hroot, hname⟩, fun d n hd => ?_, fun d p n hd => ?_, fun f d n hf => ?_⟩
  · rcases hcases d _ hd with hd | ⟨hne, -⟩
    · exact hnamed.rootOnly d n hd
    · cases congrArg Prod.fst hne
  · rcases hcases d _ hd with hd | ⟨heq, hlast⟩
    · obtain ⟨hlt, hp, hn⟩ := hnamed.dir d p n hd
      exact ⟨hlt, hstays p hp, hn⟩
    · -- the new link is numbered past the directory it hangs in
      obtain ⟨hp, hn⟩ := Prod.mk.inj heq
      obtain rfl := Option.some.inj hp
      obtain ⟨r, hr⟩ := ne_none_iff_exists'.mp hcur
      have hle := Interned.row_le hr
      exact ⟨by omega, hstays p hcur, comp, hn ▸ hrow, hplain⟩
  · obtain ⟨hd, hn⟩ := hnamed.file f d n hf
    exact ⟨hstays d hd, hn⟩

theorem TablesOk.ensureFile (h : TablesOk db) {dirId nameId : Nat} {name : Text}
    (hdir : db.dirs.row dirId ≠ none) (hname : db.names.row nameId = some name)
    (hplain : PlainName name) :
    TablesOk { db with files := (db.files.intern (dirId, nameId)).1 } := by
  refine ⟨h.root, h.rootOnly, h.dir, fun f d n hf => ?_⟩
  rcases Interned.row_intern_cases hf with hf | ⟨heq, -⟩
  · exact h.file f d n hf
  · cases heq
    exact ⟨hdir, name, hname, hplain⟩

theorem TablesOk.internKind (h : TablesOk db) (lang rawKind : Text) :
    TablesOk (db.internKind lang rawKind).1 :=
  ⟨h.root, h.rootOnly, h.dir, h.file⟩

/-! ## Looking up by name -/

theorem dirAt_eq_some_iff : db.dirAt cur comp = some d ↔
      ∃ n, db.names.row n = some comp ∧ db.dirs.row d = some (some cur, n) := by
  unfold Db.dirAt
  simp only [bind_eq_some_iff, find_eq_some_iff]

theorem fileAt_eq_some_iff : db.fileAt cur comp = some f ↔
      ∃ n, db.names.row n = some comp ∧ db.files.row f = some (cur, n) := by
  unfold Db.fileAt
  simp only [bind_eq_some_iff, find_eq_some_iff]

theorem Extends.dirAt {db db' : Db} (h : Extends db db')
    (hd : db.dirAt cur comp = some d) : db'.dirAt cur comp = some d := by
  obtain ⟨n, hn, hrow⟩ := dirAt_eq_some_iff.mp hd
  exact dirAt_eq_some_iff.mpr ⟨n, h.names _ _ hn, h.dirs _ _ hrow⟩

variable {comps : List Text}

theorem Extends.dirs_at {db db' : Db} (h : Extends db db')
    (hd : comps.foldlM db.dirAt cur = some d) : comps.foldlM db'.dirAt cur = some d := by
  induction comps generalizing cur with
  | nil => exact hd
  | cons comp comps ih =>
    obtain ⟨next, hnext, hrest⟩ := bind_eq_some_iff.mp hd
    exact bind_eq_some_iff.mpr ⟨next, h.dirAt hnext, ih hrest⟩

theorem foldlM_concat {α β : Type} (f : β → α → Option β) (b : β) (l : List α) (a : α) :
    (l ++ [a]).foldlM f b = (l.foldlM f b).bind (f · a) := by
  rw [List.foldlM_append]
  refine congrArg ((l.foldlM f b).bind ·) (funext fun x => ?_)
  exact bind_pure (f x a)

theorem Extends.dirs_at_back {db db' : Db} (h : Extends db db') (htables : TablesOk db)
    (hd : comps.foldlM db'.dirAt 1 = some d)
    (hold : db.dirs.row d ≠ none) : comps.foldlM db.dirAt 1 = some d := by
  induction comps using List.reverseRecOn generalizing d with
  | nil => exact hd
  | append_singleton comps comp ih =>
    rw [foldlM_concat] at hd ⊢
    obtain ⟨p, hp, hlast⟩ := bind_eq_some_iff.mp hd
    obtain ⟨n, hn, hrow⟩ := dirAt_eq_some_iff.mp hlast
    -- the row is an old one, so its directory and its name are
    obtain ⟨⟨q, m⟩, hr⟩ := ne_none_iff_exists'.mp hold
    obtain ⟨rfl, rfl⟩ := Prod.mk.inj (mem_unique (h.dirs _ _ hr) hrow)
    obtain ⟨-, hpold, name, hname, -⟩ := htables.dir d p m hr
    obtain rfl := mem_unique (h.names _ _ hname) hn
    refine bind_eq_some_iff.mpr ⟨p, ih hp hpold, ?_⟩
    exact dirAt_eq_some_iff.mpr ⟨m, hname, hr⟩

theorem internDir_dirAt (db : Db) (cur : Nat) (comp : Text) :
    (db.internDir cur comp).1.dirAt cur comp = some (db.internDir cur comp).2 :=
  dirAt_eq_some_iff.mpr ⟨(db.internName comp).2, row_intern _ _, row_intern _ _⟩

theorem row_of_dirAt (h : db.dirAt cur comp = some d) : db.dirs.row d ≠ none := by
  obtain ⟨n, -, hrow⟩ := dirAt_eq_some_iff.mp h
  rw [hrow]
  simp

/-! ## Adding a row -/

theorem get_putNode (db : Db) (nid : Int) (row : NodeRow) (k : Int) :
    (db.putNode nid row).nodes[k]? = if nid = k ∧ db.nodes[nid]? = none then some row
    else db.nodes[k]? := by
  unfold Db.putNode
  rw [ExtTreeMap.getElem?_insertIfNew]
  refine if_congr (and_congr Std.LawfulEqOrd.compare_eq_iff_eq ?_) rfl rfl
  rw [Table.mem_iff, not_not]

theorem get_putNode_new (hfree : db.nodes[nid]? = none) (row : NodeRow) (k : Int) :
    (db.putNode nid row).nodes[k]? = if nid = k then some row else db.nodes[k]? := by
  rw [get_putNode]
  exact if_congr (and_iff_left hfree) rfl rfl

theorem Siblings.symm {nid nid' : Int} {row row' : NodeRow}
    (h : Siblings db nid nid' row row') : Siblings db nid' nid row' row :=
  ⟨fun hord => (h.1 hord.symm).symm, fun k k' l r l' r' hk hk' hrow hrow' =>
    (h.2 k' k l' r' l r hk' hk hrow' hrow).symm⟩

theorem siblings_self (db : Db) (nid : Int) (row : NodeRow) : Siblings db nid nid row row := by
  refine ⟨fun _ => rfl, fun k k' l r l' r' hk hk' hrow hrow' => ?_⟩
  obtain rfl := mem_unique hk hk'
  exact congrArg Prod.fst (mem_unique hrow hrow')

theorem Good.putNode (h : Good db) (hok : NodeOk db nid row)
    (hparent : ∀ p, row.parentNid = some p → db.nodes[p]? ≠ none)
    (hsib : ∀ (f o : Nat) (nid' : Int) (row' : NodeRow), row.parentNid = some (fileNid f o) →
      db.nodes[nid']? = some row' → row'.parentNid = some (fileNid f o) →
      Siblings db nid nid' row row') :
    Good (db.putNode nid row) := by
  have hcases : ∀ {k : Int} {r : NodeRow}, (db.putNode nid row).nodes[k]? = some r →
      (k = nid ∧ r = row) ∨ db.nodes[k]? = some r := by
    intro k r hk
    rw [get_putNode] at hk
    split at hk
    · rename_i hnew
      exact .inl ⟨hnew.1.symm, (Option.some.inj hk).symm⟩
    · exact .inr hk
  have hstays : ∀ k : Int, db.nodes[k]? ≠ none → (db.putNode nid row).nodes[k]? ≠ none := by
    intro k hk
    rw [get_putNode]
    split
    · simp
    · exact hk
  have hext : Extends db (db.putNode nid row) := extends_nodes db _
  refine ⟨⟨h.tables.root, h.tables.rootOnly, h.tables.dir, h.tables.file⟩, fun k r hk => ?_,
    hstays _ h.rootNode, fun k r p hk hp => ?_, fun k r k' r' f o hk hk' hp hp' => ?_⟩
  · rcases hcases hk with ⟨rfl, rfl⟩ | hk
    · exact hok.mono hext
    · exact (h.node k r hk).mono hext
  · rcases hcases hk with ⟨rfl, rfl⟩ | hk
    · exact hstays p (hparent p hp)
    · exact hstays p (h.above k r p hk hp)
  · rcases hcases hk with ⟨rfl, rfl⟩ | hold
    · rcases hcases hk' with ⟨rfl, rfl⟩ | hold'
      · exact siblings_self _ _ _
      · exact hsib f o k' r' hp hold' hp'
    · rcases hcases hk' with ⟨rfl, rfl⟩ | hold'
      · exact (hsib f o k r hp' hold hp).symm
      · exact h.siblings k r k' r' f o hold hold' hp hp'

/-! ## A chain of directories -/

theorem Good.internDirs (h : Good db)
    (hcur : db.dirs.row cur ≠ none) (hplain : ∀ comp ∈ comps, PlainName comp) :
    let s := comps.foldl (fun s comp => s.1.internDir s.2 comp) (db, cur)
    Good s.1 ∧ Extends db s.1 ∧ s.1.nodes = db.nodes ∧ comps.foldlM s.1.dirAt cur = some s.2 ∧
      s.1.dirs.row s.2 ≠ none := by
  induction comps generalizing db cur with
  | nil => exact ⟨h, .refl db, rfl, rfl, hcur⟩
  | cons comp comps ih =>
    have hext := extends_internDir db cur comp
    have hgood : Good (db.internDir cur comp).1 :=
      h.grow hext rfl (h.tables.internDir hcur (hplain comp List.mem_cons_self))
    obtain ⟨hgood', hext', hnodes, hpath, hrow⟩ :=
      ih hgood (row_of_dirAt (internDir_dirAt db cur comp)) fun c hc =>
        hplain c (List.mem_cons_of_mem _ hc)
    refine ⟨hgood', hext.trans hext', hnodes, ?_, hrow⟩
    exact bind_eq_some_iff.mpr ⟨_, hext'.dirAt (internDir_dirAt db cur comp), hpath⟩

def SameFiles (db db' : Db) : Prop := ∀ f o : Nat, db'.nodes[fileNid f o]? = db.nodes[fileNid f o]?

theorem Good.ensureDirNode (h : Good db) (hcur : db.dirs.row cur ≠ none)
    (hnode : db.nodes[dirNid cur]? ≠ none) (hplain : PlainName comp) :
    let s := db.ensureDirNode cur comp
    Good s.1 ∧ Extends db s.1 ∧ SameFiles db s.1 ∧ s.1.dirAt cur comp = some s.2 ∧
      s.1.nodes[dirNid s.2]? ≠ none := by
  have hext := extends_internDir db cur comp
  have hgood : Good (db.internDir cur comp).1 := h.grow hext rfl (h.tables.internDir hcur hplain)
  have hat := internDir_dirAt db cur comp
  have hdne : (db.internDir cur comp).2 ≠ 0 := by
    obtain ⟨r, hr⟩ := ne_none_iff_exists'.mp (row_of_dirAt hat)
    exact row_ne_zero hr
  have hdirrow : (db.internDir cur comp).1.dirs.row (db.internDir cur comp).2 =
      some (some cur, (db.internName comp).2) := row_intern _ _
  have hcurne : cur ≠ 0 := by rintro rfl; exact hcur rfl
  -- the link is the one `internDir` makes, and its row is put beside it
  have heq : db.ensureDirNode cur comp =
      ((db.internDir cur comp).1.putNode (dirNid (db.internDir cur comp).2)
      ⟨some (dirNid cur), some (db.internName comp).2, none, 0⟩, (db.internDir cur comp).2) := rfl
  rw [heq]
  refine ⟨hgood.putNode (.dir _ cur _ rfl hdirrow rfl rfl) (fun p hp => ?_)
    (fun f o nid' row' hp => ?_), hext.trans (extends_nodes _ _), fun f o => ?_, hat, ?_⟩
  · rw [← Option.some.inj hp]
    exact hnode
  · exact absurd (Option.some.inj hp) (dirNid_ne_fileNid hcurne)
  · rw [get_putNode, if_neg fun hnew => dirNid_ne_fileNid hdne hnew.1]
    rfl
  · rw [get_putNode]
    split
    · simp
    · rename_i hold
      exact fun hnone => hold ⟨rfl, hnone⟩

theorem Good.ensureDirNodesFrom (h : Good db) (hcur : db.dirs.row cur ≠ none)
    (hnode : db.nodes[dirNid cur]? ≠ none) (hplain : ∀ comp ∈ comps, PlainName comp) :
    let s := comps.foldl (fun s comp => s.1.ensureDirNode s.2 comp) (db, cur)
    Good s.1 ∧ Extends db s.1 ∧ SameFiles db s.1 ∧ comps.foldlM s.1.dirAt cur = some s.2 ∧
      s.1.nodes[dirNid s.2]? ≠ none := by
  induction comps generalizing db cur with
  | nil => exact ⟨h, .refl db, fun _ _ => rfl, rfl, hnode⟩
  | cons comp comps ih =>
    obtain ⟨hgood, hext, hsame, hat, hthere⟩ :=
      h.ensureDirNode hcur hnode (hplain comp List.mem_cons_self)
    obtain ⟨hgood', hext', hsame', hpath, hthere'⟩ :=
      ih hgood (row_of_dirAt hat) hthere fun c hc => hplain c (List.mem_cons_of_mem _ hc)
    refine ⟨hgood', hext.trans hext', fun f o => (hsame' f o).trans (hsame f o), ?_, hthere'⟩
    exact bind_eq_some_iff.mpr ⟨_, hext'.dirAt hat, hpath⟩

/-! ## One file -/

def dirComps (dirPath : Text) : List Text := if dirPath = [] then [] else dirPath.splitOn '/'

theorem internDirChain_eq (db : Db) (dirPath : Text) : db.internDirChain dirPath =
    (dirComps dirPath).foldl (fun s comp => s.1.internDir s.2 comp) (db, 1) := by
  unfold Db.internDirChain dirComps
  split <;> rfl

variable {relPath : Text}

theorem lookupFileId_eq_some_iff : db.lookupFileId relPath = some f ↔
      ∃ d, (dirComps (dirPart '/' relPath)).foldlM db.dirAt 1 = some d ∧
        db.fileAt d (lastPart '/' relPath) = some f := by
  unfold Db.lookupFileId dirComps
  rw [bind_eq_some_iff]
  by_cases hnil : dirPart '/' relPath = []
  · simp only [if_pos hnil]
    rfl
  · simp only [if_neg hnil]

theorem Good.ensureDirNodes (h : Good db)
    (hplain : ∀ comp ∈ dirComps (dirPart '/' relPath), PlainName comp) :
    let s := db.ensureDirNodes relPath
    Good s.1 ∧ Extends db s.1 ∧ SameFiles db s.1 ∧
      (dirComps (dirPart '/' relPath)).foldlM s.1.dirAt 1 = some s.2 ∧
      s.1.nodes[dirNid s.2]? ≠ none := by
  have hext := extends_internName db []
  have hnamed : Good (db.internName []).1 := h.grow hext rfl (h.tables.internName [])
  let seeded := (db.internName []).1.putNode (dirNid 1) ⟨none, some (db.internName []).2, none, 0⟩
  have hseeded : Good seeded := hnamed.putNode (.root _ rfl rfl rfl (row_intern _ _))
    (fun p hp => absurd hp (by simp)) fun f o nid' row' hp => absurd hp (by simp)
  obtain ⟨n, hroot, -⟩ := hseeded.tables.root
  have hsame : SameFiles db seeded := fun f o => by
    rw [get_putNode, if_neg fun hnew => dirNid_ne_fileNid Nat.one_ne_zero hnew.1]
    rfl
  have heq : db.ensureDirNodes relPath =
      (dirComps (dirPart '/' relPath)).foldl (fun s comp => s.1.ensureDirNode s.2 comp)
        (seeded, 1) := by
    unfold Db.ensureDirNodes dirComps
    by_cases hnil : dirPart '/' relPath = []
    · simp only [if_pos hnil]
      rfl
    · simp only [if_neg hnil]
      rfl
  obtain ⟨hgood, hext', hsame', hpath, hthere⟩ := hseeded.ensureDirNodesFrom
    (by simp [hroot]) hseeded.rootNode hplain
  rw [heq]
  exact ⟨hgood, (hext.trans (extends_nodes _ _)).trans hext',
    fun f o => (hsame' f o).trans (hsame f o), hpath, hthere⟩

theorem plain_of_comps (h : ∀ comp ∈ relPath.splitOn '/', comp ≠ []) :
    (∀ comp ∈ dirComps (dirPart '/' relPath), PlainName comp) ∧
    PlainName (lastPart '/' relPath) := by
  by_cases hsep : '/' ∈ relPath
  · have hsplit := SepPath.splitOn_eq_concat hsep
    refine ⟨fun comp hcomp => ?_, h _ (hsplit ▸ by simp), SepPath.not_mem_lastPart relPath⟩
    unfold dirComps at hcomp
    split at hcomp
    · cases hcomp
    · exact ⟨h comp (hsplit ▸ List.mem_append_left _ hcomp), SepPath.not_mem_of_mem_splitOn hcomp⟩
  · rw [SepPath.dirPart_of_not_mem hsep, SepPath.lastPart_of_not_mem hsep]
    refine ⟨fun comp hcomp => absurd hcomp List.not_mem_nil, h relPath ?_, hsep⟩
    rw [List.splitOn_eq_singleton hsep]
    exact List.mem_singleton.mpr rfl

theorem extends_deleteFileRows (db : Db) (relPath : Text) :
    Extends db (db.deleteFileRows relPath) ∧ Extends (db.deleteFileRows relPath) db := by
  unfold Db.deleteFileRows
  split
  · exact ⟨.refl db, .refl db⟩
  · exact ⟨extends_nodes db _, ⟨.refl _, .refl _, .refl _, .refl _⟩⟩

theorem deleteFileRows_get (hf : db.lookupFileId relPath = some f) (ho : o < 2 ^ 24) :
    (db.deleteFileRows relPath).nodes[fileNid f o]? = none := by
  have hrange : fileNid f 0 ≤ fileNid f o ∧ fileNid f o ≤ fileNid f (2 ^ 24 - 1) := by
    unfold fileNid
    omega
  unfold Db.deleteFileRows
  rw [hf]
  rw [ExtTreeMap.getElem?_filter', Option.filter_eq_none_iff]
  exact fun _ _ hkept => of_decide_eq_true hkept hrange

theorem Good.file_of_row (h : Good db) (ho : o < 2 ^ 24)
    (hrow : db.nodes[fileNid f o]? ≠ none) : ∃ d n, db.files.row f = some (d, n) := by
  obtain ⟨row, hrow⟩ := ne_none_iff_exists'.mp hrow
  cases h.node _ row hrow with
  | root n hnid => exact absurd hnid.symm (dirNid_ne_fileNid Nat.one_ne_zero)
  | dir d p n hnid hdir => exact absurd hnid.symm (dirNid_ne_fileNid (row_ne_zero hdir))
  | file f' d n hnid hfile =>
    obtain ⟨rfl, -⟩ := fileNid_inj ho (by norm_num) hnid
    exact ⟨d, n, hfile⟩
  | ast f' o₁ o' k entry lang rawKind hnid ho₁ ho' hfile =>
    obtain ⟨rfl, -⟩ := fileNid_inj ho ho₁ hnid
    exact ⟨entry.1, entry.2, hfile⟩

theorem Good.ensureFileId {db₀ : Db} (h₀ : Good db₀)
    (hplain : ∀ comp ∈ relPath.splitOn '/', comp ≠ []) {db : Db}
    (hdb : (db₀.deleteFileRows relPath).ensureFileId relPath = (db, f)) :
    ∃ d n, Good db ∧ db.files.row f = some (d, n) ∧ db.names.row n = some (lastPart '/' relPath) ∧
      (dirComps (dirPart '/' relPath)).foldlM db.dirAt 1 = some d ∧
      ∀ o < 2 ^ 24, db.nodes[fileNid f o]? = none := by
  obtain ⟨hdirs, hlast⟩ := plain_of_comps hplain
  have h₁ := h₀.deleteFileRows relPath
  obtain ⟨hext₀, hback₀⟩ := extends_deleteFileRows db₀ relPath
  obtain ⟨n₀, hroot, -⟩ := h₁.tables.root
  obtain ⟨h₂, hext₂, hnodes₂, hpath₂, hrow₂⟩ :=
    h₁.internDirs (by rw [hroot]; exact some_ne_none _) hdirs
  rw [← internDirChain_eq] at h₂ hext₂ hnodes₂ hpath₂ hrow₂
  have hdel : ∀ f', db₀.lookupFileId relPath = some f' → ∀ o < 2 ^ 24,
      (db₀.deleteFileRows relPath).nodes[fileNid f' o]? = none := fun f' hf' o ho =>
    deleteFileRows_get hf' ho
  have heq : (db₀.deleteFileRows relPath).ensureFileId relPath =
      (let s := (db₀.deleteFileRows relPath).internDirChain (dirPart '/' relPath)
      let t := s.1.internName (lastPart '/' relPath)
      ({ t.1 with files := (s.1.files.intern (s.2, t.2)).1 },
        (s.1.files.intern (s.2, t.2)).2)) := rfl
  rw [heq] at hdb
  generalize db₀.deleteFileRows relPath = db₁ at *
  generalize db₁.internDirChain (dirPart '/' relPath) = s at *
  cases hdb
  have hext₃ := extends_internName s.1 (lastPart '/' relPath)
  have h₃ : Good (s.1.internName (lastPart '/' relPath)).1 :=
    h₂.grow hext₃ rfl (h₂.tables.internName _)
  have hname : (s.1.internName (lastPart '/' relPath)).1.names.row
      (s.1.internName (lastPart '/' relPath)).2 = some (lastPart '/' relPath) :=
    row_intern _ _
  generalize (s.1.internName (lastPart '/' relPath)).2 = n at *
  have hext₄ : Extends (s.1.internName (lastPart '/' relPath)).1
      { (s.1.internName (lastPart '/' relPath)).1 with
        files := (s.1.files.intern (s.2, n)).1 } :=
    ⟨.refl _, .refl _, .refl _, grows_intern s.1.files _⟩
  have hfile : (s.1.files.intern (s.2, n)).1.row (s.1.files.intern (s.2, n)).2 = some (s.2, n) :=
    row_intern _ _
  generalize (s.1.files.intern (s.2, n)).2 = f at *
  refine ⟨s.2, n, h₃.grow hext₄ rfl (h₃.tables.ensureFile hrow₂ hname hlast), hfile, hname,
    (hext₃.trans hext₄).dirs_at hpath₂, fun o ho => ?_⟩
  -- a row of the file would be an old one, and the file's old rows are gone
  change s.1.nodes[fileNid f o]? = none
  rw [hnodes₂]
  by_contra hne
  obtain ⟨d', n', hold⟩ := h₁.file_of_row ho hne
  have hgrown := (hext₂.trans (hext₃.trans hext₄)).files _ _ hold
  obtain ⟨rfl, rfl⟩ := Prod.mk.inj (mem_unique hgrown hfile)
  obtain ⟨hdir, name, hn, -⟩ := h₁.tables.file f _ _ hold
  obtain rfl := Option.some.inj (((hext₂.trans (hext₃.trans hext₄)).names _ _ hn).symm.trans hname)
  have hlookup : db₀.lookupFileId relPath = some f := by
    refine lookupFileId_eq_some_iff.mpr ⟨s.2, ?_, ?_⟩
    · exact hback₀.dirs_at (hext₂.dirs_at_back h₁.tables hpath₂ hdir)
    · exact fileAt_eq_some_iff.mpr ⟨n', hback₀.names _ _ hn, hback₀.files _ _ hold⟩
  exact hne (hdel f hlookup o ho)

/-- While a file's tree is written: its own row is there, and otherwise the rows of the
nodes written so far. -/
structure Filled (db : Db) (lang : Text) (f : Nat) (done : List AstRow) : Prop where
  good : Good db
  file : ∃ entry, db.files.row f = some entry
  base : db.nodes[fileNid f 0]? ≠ none
  cover : ∀ o < 2 ^ 24, db.nodes[fileNid f o]? ≠ none → o = 0 ∨ ∃ r ∈ done, r.ordinal = o
  rows : ∀ r ∈ done, ∃ k, db.kinds.row k = some (lang, r.rawKind) ∧
    db.nodes[fileNid f r.ordinal]? = some ⟨some (fileNid f r.parent), none, some k, r.ord⟩

theorem Filled.putAst {lang : Text} {done : List AstRow} {r : AstRow}
    (h : Filled db lang f done) (hfits : ∀ x ∈ r :: done, x.ordinal < 2 ^ 24)
    (hafter : ∀ x ∈ r :: done, x.parent < x.ordinal) (hnew : ∀ x ∈ done, x.ordinal ≠ r.ordinal)
    (habove : r.parent = 0 ∨ ∃ p ∈ done, p.ordinal = r.parent)
    (hnumbered : ∀ x ∈ done, x.parent = r.parent → x.ord = r.ord → x = r)
    (hplain : PlainName r.rawKind) : Filled (Db.putAst lang f db r) lang f (done ++ [r]) := by
  obtain ⟨db₁, k, heq, hext, hnodes, hgood, hkind⟩ : ∃ db₁ k, Db.putAst lang f db r =
      db₁.putNode (fileNid f r.ordinal) ⟨some (fileNid f r.parent), none, some k, r.ord⟩ ∧
      Extends db db₁ ∧ db₁.nodes = db.nodes ∧ Good db₁ ∧
      db₁.kinds.row k = some (lang, r.rawKind) := by
    have hext := extends_internKind db lang r.rawKind
    exact ⟨_, _, rfl, hext, rfl, h.good.grow hext rfl (h.good.tables.internKind _ _),
      row_intern _ _⟩
  rw [heq]
  obtain ⟨entry, hentry⟩ := h.file
  have hrfits := hfits r List.mem_cons_self
  have hrafter := hafter r List.mem_cons_self
  -- the row is new
  have hfree : db.nodes[fileNid f r.ordinal]? = none := by
    by_contra hne
    rcases h.cover r.ordinal hrfits hne with hzero | ⟨x, hx, heqx⟩
    · omega
    · exact hnew x hx heqx
  have hget := @get_putNode_new (fileNid f r.ordinal) db₁ (hnodes ▸ hfree)
    ⟨some (fileNid f r.parent), none, some k, r.ord⟩
  rw [hnodes] at hget
  have hparent : db.nodes[fileNid f r.parent]? ≠ none := by
    rcases habove with hzero | ⟨p, hp, hpo⟩
    · rw [hzero]
      exact h.base
    · obtain ⟨k', -, hrow⟩ := h.rows p hp
      rw [← hpo, hrow]
      simp
  refine ⟨hgood.putNode (.ast f r.ordinal r.parent k entry lang r.rawKind rfl hrfits hrafter
    (hext.files _ _ hentry) rfl rfl rfl hkind hplain) (fun p hp => ?_) ?_,
    ⟨entry, hext.files _ _ hentry⟩, ?_, fun o ho hne => ?_, fun x hx => ?_⟩
  · rw [hnodes, ← Option.some.inj hp]
    exact hparent
  · -- a sibling is a node written before, in another position
    intro f' o nid' row' hp hrow' hp'
    rw [hnodes] at hrow'
    have hp'' : row'.parentNid = some (fileNid f r.parent) := hp'.trans hp.symm
    have hsib : ∃ x ∈ done, nid' = fileNid f x.ordinal ∧ x.parent = r.parent ∧
        row'.ord = x.ord ∧ ∃ k', row'.kindId = some k' ∧
        db.kinds.row k' = some (lang, x.rawKind) := by
      obtain ⟨f₁, o₁, o', -, -, -, hnid, ho₁, ho', hsame, -⟩ :=
        (h.good.node nid' row' hrow').of_file_parent h.good.tables (fileNid_nonneg f r.parent) hp''
      obtain ⟨rfl, rfl⟩ := fileNid_inj (ho'.trans ho₁) (hrafter.trans hrfits) hsame.symm
      rcases h.cover o₁ ho₁ (by rw [← hnid, hrow']; exact some_ne_none _) with
        hzero | ⟨x, hx, hxo⟩
      · omega
      · obtain ⟨kx, hkx, hxrow⟩ := h.rows x hx
        rw [hxo, ← hnid, hrow'] at hxrow
        cases hxrow
        have hxmem := List.mem_cons_of_mem r hx
        have hpx := (fileNid_inj ((hafter x hxmem).trans (hfits x hxmem)) (hrafter.trans hrfits)
          (Option.some.inj hp'')).2
        exact ⟨x, hx, hxo ▸ hnid, hpx, rfl, kx, rfl, hkx⟩
    obtain ⟨x, hx, hnid, hxp, hxord, kx, hkx, hkxrow⟩ := hsib
    refine ⟨fun hord => ?_, fun k₁ k₂ l r₁ l' r₂ h₁ h₂ hrow₁ hrow₂ => ?_⟩
    · have hsame := hnumbered x hx hxp (hxord.symm.trans hord.symm)
      exact absurd (congrArg AstRow.ordinal hsame) (hnew x hx)
    · cases h₁
      obtain rfl := mem_unique hkx h₂
      have hl := congrArg Prod.fst (mem_unique hkind hrow₁)
      have hl' := congrArg Prod.fst (mem_unique (hext.kinds _ _ hkxrow) hrow₂)
      exact hl.symm.trans hl'
  · rw [hget]
    split
    · simp
    · exact h.base
  · rw [hget] at hne
    by_cases hro : fileNid f r.ordinal = fileNid f o
    · exact .inr ⟨r, by simp, (fileNid_inj hrfits ho hro).2⟩
    · rw [if_neg hro] at hne
      rcases h.cover o ho hne with hzero | ⟨x, hx, hxo⟩
      · exact .inl hzero
      · exact .inr ⟨x, List.mem_append_left _ hx, hxo⟩
  · rcases List.mem_append.mp hx with hx | hx
    · obtain ⟨kx, hkx, hxrow⟩ := h.rows x hx
      refine ⟨kx, hext.kinds _ _ hkx, ?_⟩
      rw [hget, if_neg, hxrow]
      intro hro
      exact hnew x hx (fileNid_inj hrfits (hfits x (List.mem_cons_of_mem _ hx)) hro).2.symm
    · rw [List.mem_singleton.mp hx]
      exact ⟨k, hkind, by rw [hget, if_pos rfl]⟩

theorem Good.filled_nil (h : Good db) {lang : Text} {f d n k : Nat}
    (hrow : db.files.row f = some (d, n)) (hdir : db.nodes[dirNid d]? ≠ none)
    (hempty : ∀ o < 2 ^ 24, db.nodes[fileNid f o]? = none) :
    Filled (db.putNode (fileNid f 0) ⟨some (dirNid d), some n, some k, 0⟩) lang f [] := by
  have hok : NodeOk db (fileNid f 0) ⟨some (dirNid d), some n, some k, 0⟩ :=
    .file f d n rfl hrow rfl rfl
  have hget := get_putNode_new (hempty 0 (by norm_num)) ⟨some (dirNid d), some n, some k, 0⟩
  have hdne : d ≠ 0 := by
    have hd := (h.tables.file f d n hrow).1
    rintro rfl
    exact hd rfl
  refine ⟨h.putNode hok (fun p hp => ?_) (fun f' o nid' row' hp => ?_), ⟨_, hrow⟩, ?_,
    fun o ho hne => ?_, fun r hr => absurd hr List.not_mem_nil⟩
  · rw [← Option.some.inj hp]
    exact hdir
  · exact absurd (Option.some.inj hp) (dirNid_ne_fileNid hdne)
  · rw [hget, if_pos rfl]
    simp
  · rw [hget] at hne
    by_cases ho0 : fileNid f 0 = fileNid f o
    · exact .inl (fileNid_inj (by norm_num) ho ho0).2.symm
    · rw [if_neg ho0] at hne
      exact absurd (hempty o ho) hne

theorem Filled.putAll (pf : ParsedFile) :
    ∀ (rest done : List AstRow), pf.rows = done ++ rest → Filled db pf.lang f done →
      Good (rest.foldl (Db.putAst pf.lang f) db) := by
  intro rest
  induction rest generalizing db with
  | nil => exact fun done _ h => h.good
  | cons r rest ih =>
    intro done hrows h
    have hmem : ∀ x ∈ r :: done, x ∈ pf.rows := fun x hx => by
      rw [hrows]
      rcases List.mem_cons.mp hx with rfl | hx
      · simp
      · exact List.mem_append_left _ hx
    have hr := hmem r List.mem_cons_self
    refine ih (done ++ [r]) (by rw [hrows]; simp) (h.putAst (fun x hx => pf.fits x (hmem x hx))
      (fun x hx => pf.after x (hmem x hx)) (fun x hx => ?_) (pf.above done r rest hrows)
      (fun x hx => pf.numbered x (hmem x (List.mem_cons_of_mem _ hx)) r hr) (pf.kinds r hr))
    have hdistinct := pf.distinct
    rw [hrows, List.map_append, List.map_cons] at hdistinct
    exact (List.nodup_append.mp hdistinct).2.2 _ (List.mem_map_of_mem hx) _ List.mem_cons_self

theorem Good.projectFile (h : Good db) (pf : ParsedFile) : Good (db.projectFile pf) := by
  obtain ⟨hdirs, hlast⟩ := plain_of_comps pf.plain
  generalize hfile : (db.deleteFileRows pf.rel).ensureFileId pf.rel = s
  obtain ⟨db₁, f⟩ := s
  obtain ⟨d, n, h₁, hrow, hname, hpath, hfree⟩ := h.ensureFileId pf.plain hfile
  obtain ⟨h₂, hext₂, hsame, hpath₂, hthere⟩ := h₁.ensureDirNodes hdirs
  generalize hdir : db₁.ensureDirNodes pf.rel = s₂ at *
  obtain ⟨db₂, d'⟩ := s₂
  obtain rfl : d = d' := mem_unique (hext₂.dirs_at hpath) hpath₂
  have hext₃ := extends_internName db₂ (lastPart '/' pf.rel)
  have h₃ := h₂.grow hext₃ rfl (h₂.tables.internName _)
  have hnodes₃ : (db₂.internName (lastPart '/' pf.rel)).1.nodes = db₂.nodes := rfl
  -- the name was interned with the file
  have hn : (db₂.internName (lastPart '/' pf.rel)).2 = n :=
    Interned.row_inj (row_intern db₂.names _) (hext₃.names _ _ (hext₂.names _ _ hname))
  generalize hnamed : db₂.internName (lastPart '/' pf.rel) = s₃ at *
  obtain ⟨db₃, n'⟩ := s₃
  obtain rfl : n' = n := hn
  have hext₄ := extends_internKind db₃ pf.lang pf.rootKind
  have h₄ := h₃.grow hext₄ rfl (h₃.tables.internKind _ _)
  have hnodes₄ : (db₃.internKind pf.lang pf.rootKind).1.nodes = db₃.nodes := rfl
  generalize hkinded : db₃.internKind pf.lang pf.rootKind = s₄ at *
  obtain ⟨db₄, k⟩ := s₄
  have hnodes : db₄.nodes = db₂.nodes := hnodes₄.trans hnodes₃
  have hext := hext₂.trans (hext₃.trans hext₄)
  simp only [Db.projectFile, hfile, hdir, hnamed, hkinded]
  refine Filled.putAll pf pf.rows [] rfl (h₄.filled_nil (hext.files _ _ hrow) ?_ fun o ho => ?_)
  · rw [hnodes]
    exact hthere
  · rw [hnodes, hsame f o]
    exact hfree o ho

/-! ## Every run -/

theorem good_seed : Good (createSchema.step .seed) := by
  have hdb : createSchema.step .seed = createSchema.putNode (dirNid 1) ⟨none, some 1, none, 0⟩ :=
    rfl
  have hget : ∀ (nid : Int) (row : NodeRow), (createSchema.step .seed).nodes[nid]? = some row →
      nid = dirNid 1 ∧ row = ⟨none, some 1, none, 0⟩ := by
    intro nid row hrow
    rw [hdb, get_putNode] at hrow
    split at hrow
    · rename_i heq
      exact ⟨heq.1.symm, (Option.some.inj hrow).symm⟩
    · simp [createSchema] at hrow
  have hdirs : ∀ d r, (createSchema.step .seed).dirs.row d = some r → d = 1 ∧ r = (none, 1) := by
    intro d r hd
    match d with
    | 0 => simp [Interned.row] at hd
    | 1 => exact ⟨rfl, (Option.some.inj hd).symm⟩
    | d + 2 =>
      have hnone : (createSchema.step .seed).dirs.row (d + 2) = none := rfl
      cases hnone.symm.trans hd
  refine ⟨⟨⟨1, rfl, rfl⟩, fun d n hd => (hdirs d _ hd).1, fun d p n hd => ?_, fun f d n hf => ?_⟩,
    fun nid row hrow => ?_, ?_, fun nid row p hrow hp => ?_,
    fun nid row nid' row' f o hrow hrow' hp => ?_⟩
  · cases congrArg Prod.fst (hdirs d _ hd).2
  · cases f with
    | zero => simp [Interned.row] at hf
    | succ f =>
      have hnone : (createSchema.step .seed).files.row (f + 1) = none := rfl
      cases hnone.symm.trans hf
  · obtain ⟨rfl, rfl⟩ := hget nid row hrow
    exact .root 1 rfl rfl rfl rfl
  · exact some_ne_none _
  · rw [(hget nid row hrow).2] at hp
    simp at hp
  · rw [(hget nid row hrow).2] at hp
    simp at hp

theorem Good.step {db : Db} (h : Good db) (step : Step) : Good (db.step step) := by
  cases step with
  | seed => exact (h.ensureDirNodes fun comp hcomp => absurd hcomp (by decide +revert)).1
  | drop relPath => exact h.deleteFileRows relPath
  | project pf => exact h.projectFile pf
  | sweep => exact h.sweepOrphanedDirs _

theorem good_run (steps : List Step) : Good (Db.run steps) := by
  unfold Db.run
  generalize hdb : createSchema.step .seed = db
  have h : Good db := hdb ▸ good_seed
  clear hdb
  induction steps generalizing db with
  | nil => exact h
  | cons step steps ih => exact ih _ (h.step step)

end LeyLine.NodePath
