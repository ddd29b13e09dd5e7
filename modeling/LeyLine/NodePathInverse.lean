import LeyLine.Lib.Climb
import LeyLine.NodePathSegment

/-!
# Paths and node ids

Whether `resolve_path` and `node_path` are inverse on the databases parses leave. Both
go along the parents of a node: rendering climbs, and each step of resolving goes to a
child. So each direction holds where it holds on every link of the way.

A link is lost in two ways. A directory's name is looked up among the files of its parent
first, and `files` keeps the files that are gone. A rendered `{kind}_{rank}` is taken for
the kind of an only child, if there is one. In the other direction, a rank is accepted
where none is rendered.
-/

namespace LeyLine.NodePath

open Std (ExtTreeMap)
open Option (bind_eq_some_iff mem_unique ne_none_iff_exists')
open Db (run)

variable {db : Db} {q nid : Int} {row : NodeRow} {comp : Text} {comps : List Text}

/-! ## Resolving, one component at a time -/

def stepDown (db : Db) (q : Int) (comp : Text) : Option Int :=
  if q < 0 then
    match db.fileAt (-q).toNat comp with
    | some fileId => some (fileNid fileId 0)
    | none => (db.dirAt (-q).toNat comp).map dirNid
  else db.resolveAstSegment q comp

theorem stepDown_dir {d : Nat} (hd : d ≠ 0) (comp : Text) : stepDown db (dirNid d) comp =
    match db.fileAt d comp with
    | some fileId => some (fileNid fileId 0)
    | none => (db.dirAt d comp).map dirNid := by
  have hback : (-dirNid d).toNat = d := by simp [dirNid]
  rw [stepDown, if_pos (dirNid_neg hd), hback]

theorem stepDown_ast (hq : 0 ≤ q) (comp : Text) :
    stepDown db q comp = db.resolveAstSegment q comp :=
  if_neg hq.not_gt

theorem Good.nonneg_of_resolve (h : Good db) (hq : 0 ≤ q)
    (hres : db.resolveAstSegment q comp = some nid) : 0 ≤ nid := by
  obtain ⟨rawKind, row, hmem⟩ := mem_of_resolveAstSegment hres
  obtain ⟨hrow, hp, -⟩ := mem_ofRawKind.mp hmem
  obtain ⟨f, o, -, -, -, -, rfl, -⟩ := (h.node nid row hrow).of_file_parent h.tables hq hp
  exact fileNid_nonneg f o

theorem Good.foldlM_resolve (h : Good db) (hq : 0 ≤ q) (comps : List Text) :
    comps.foldlM db.resolveAstSegment q = comps.foldlM (stepDown db) q := by
  induction comps generalizing q with
  | nil => rfl
  | cons comp rest ih =>
    rw [List.foldlM_cons, List.foldlM_cons, stepDown_ast hq]
    cases hres : db.resolveAstSegment q comp with
    | none => rfl
    | some next => exact ih (h.nonneg_of_resolve hq hres)

theorem Good.descend_eq (h : Good db) {d : Nat} (hd : d ≠ 0) (comps : List Text) :
    db.descend d comps = comps.foldlM (stepDown db) (dirNid d) := by
  induction comps generalizing d with
  | nil => rfl
  | cons comp rest ih =>
    rw [List.foldlM_cons, stepDown_dir hd, Db.descend]
    cases hfile : db.fileAt d comp with
    | some fileId => exact h.foldlM_resolve (fileNid_nonneg fileId 0) rest
    | none =>
      cases hdir : db.dirAt d comp with
      | none => rfl
      | some d' =>
        obtain ⟨n, -, hrow⟩ := dirAt_eq_some_iff.mp hdir
        exact ih (row_ne_zero hrow)

theorem Good.resolvePath_eq (h : Good db) (path : Text) :
    db.resolvePath path = (dirComps path).foldlM (stepDown db) (dirNid 1) := by
  unfold Db.resolvePath dirComps
  split
  · rfl
  · exact h.descend_eq Nat.one_ne_zero _

/-! ## Rows of directories and files -/

theorem NodeOk.of_dir {d p n : Nat} (h : NodeOk db (dirNid d) row)
    (hdir : db.dirs.row d = some (some p, n)) (ht : TablesOk db) :
    row.parentNid = some (dirNid p) ∧ row.nameId = some n := by
  have hd := row_ne_zero hdir
  cases h with
  | root m hnid =>
    obtain ⟨m', hroot, -⟩ := ht.root
    rw [dirNid_inj hnid, hroot] at hdir
    cases congrArg (Option.map Prod.fst) hdir
  | dir d' p' n' hnid hrow hparent hname =>
    rw [dirNid_inj hnid, hrow] at hdir
    obtain ⟨rfl, rfl⟩ : p' = p ∧ n' = n := by simpa using hdir
    exact ⟨hparent, hname⟩
  | file f' d' n' hnid | ast f o o' k entry lang rawKind hnid =>
    exact absurd hnid (dirNid_ne_fileNid hd)

theorem NodeOk.of_file {f d n : Nat} (h : NodeOk db (fileNid f 0) row)
    (hfile : db.files.row f = some (d, n)) :
    row.parentNid = some (dirNid d) ∧ row.nameId = some n := by
  cases h with
  | root m hnid => exact absurd hnid.symm (dirNid_ne_fileNid Nat.one_ne_zero)
  | dir d' p' n' hnid hrow => exact absurd hnid.symm (dirNid_ne_fileNid (row_ne_zero hrow))
  | file f' d' n' hnid hrow hparent hname =>
    obtain ⟨rfl, -⟩ := fileNid_inj (by norm_num) (by norm_num) hnid
    obtain ⟨rfl, rfl⟩ : d' = d ∧ n' = n := by simpa using hrow.symm.trans hfile
    exact ⟨hparent, hname⟩
  | ast f' o o' k entry lang rawKind hnid ho ho' =>
    have := (fileNid_inj (by norm_num) ho hnid).2
    omega

theorem nodeDisplayName_of_name {n : Nat} (hrow : db.nodes[nid]? = some row)
    (hname : row.nameId = some n) : db.nodeDisplayName nid = db.names.row n := by
  simp only [Db.nodeDisplayName, hrow, hname]

theorem exists_dirNid (hq : q < 0) : ∃ d : Nat, d ≠ 0 ∧ q = dirNid d :=
  ⟨(-q).toNat, by omega, by unfold dirNid; omega⟩

/-! ## One link of the way -/

theorem Good.of_stepDown (h : Good db) (hstep : stepDown db q comp = some nid)
    (hrow : db.nodes[nid]? = some row) : row.parentNid = some q ∧
      (db.nodeDisplayName nid = some comp ↔ (0 ≤ q → PlainSegment db q comp)) := by
  rcases lt_or_ge q 0 with hq | hq
  · obtain ⟨d, hd, rfl⟩ := exists_dirNid hq
    rw [stepDown_dir hd] at hstep
    have hnamed : ∀ n, db.names.row n = some comp → row.nameId = some n →
        (db.nodeDisplayName nid = some comp ↔ (0 ≤ dirNid d → PlainSegment db (dirNid d) comp)) :=
      fun n hn hname => iff_of_true (by rw [nodeDisplayName_of_name hrow hname, hn])
        fun hnonneg => absurd hq hnonneg.not_gt
    cases hfile : db.fileAt d comp with
    | some fileId =>
      obtain ⟨n, hn, hfrow⟩ := fileAt_eq_some_iff.mp hfile
      rw [hfile] at hstep
      cases hstep
      obtain ⟨hparent, hname⟩ := (h.node _ row hrow).of_file hfrow
      exact ⟨hparent, hnamed n hn hname⟩
    | none =>
      rw [hfile] at hstep
      obtain ⟨d', hdir, rfl⟩ := Option.map_eq_some_iff.mp hstep
      obtain ⟨n, hn, hdrow⟩ := dirAt_eq_some_iff.mp hdir
      obtain ⟨hparent, hname⟩ := (h.node _ row hrow).of_dir hdrow h.tables
      exact ⟨hparent, hnamed n hn hname⟩
  · rw [stepDown_ast hq] at hstep
    obtain ⟨rawKind, row', hmem⟩ := mem_of_resolveAstSegment hstep
    obtain ⟨hrow', hp, -⟩ := mem_ofRawKind.mp hmem
    obtain rfl : row' = row := mem_unique hrow' hrow
    rw [h.name_iff_of_resolve hq hstep, forall_prop_of_true hq]
    exact ⟨hp, Iff.rfl⟩

/-- A node that its parent does not find under its name. -/
inductive Shadowed (db : Db) (nid : Int) (row : NodeRow) : Prop
  /-- A directory with the name of a file that its parent has, or had. -/
  | file (p n f : Nat) : nid < 0 → row.parentNid = some (dirNid p) → row.nameId = some n →
      db.files.row f = some (p, n) → Shadowed db nid row
  | kind (q : Int) : 0 ≤ q → row.parentNid = some q → Mistaken db q nid → Shadowed db nid row

theorem Good.stepDown_dir_iff (h : Good db) {d p n : Nat} (hdir : db.dirs.row d = some (some p, n))
    (hn : db.names.row n = some comp) :
    stepDown db (dirNid p) comp = some (dirNid d) ↔ ∀ f, db.files.row f ≠ some (p, n) := by
  have hp : p ≠ 0 := by
    rintro rfl
    exact (h.tables.dir d 0 n hdir).2.1 rfl
  rw [stepDown_dir hp]
  cases hfile : db.fileAt p comp with
  | some fileId =>
    obtain ⟨n', hn', hrow⟩ := fileAt_eq_some_iff.mp hfile
    obtain rfl := Interned.row_inj hn hn'
    refine iff_of_false (fun heq => ?_) fun hnone => hnone fileId hrow
    exact dirNid_ne_fileNid (row_ne_zero hdir) (Option.some.inj heq).symm
  | none =>
    refine iff_of_true ?_ fun f hrow => ?_
    · rw [dirAt_eq_some_iff.mpr ⟨n, hn, hdir⟩]
      rfl
    · rw [fileAt_eq_some_iff.mpr ⟨n, hn, hrow⟩] at hfile
      simp at hfile

theorem Good.stepDown_name_iff (h : Good db) (hrow : db.nodes[nid]? = some row)
    (hp : row.parentNid = some q) (hcomp : db.nodeDisplayName nid = some comp) :
    stepDown db q comp = some nid ↔ ¬ Shadowed db nid row := by
  cases h.node nid row hrow with
  | root n hnid hnone => cases hnone.symm.trans hp
  | dir d p n hnid hdir hparent hname =>
    obtain rfl : q = dirNid p := mem_unique hp hparent
    rw [nodeDisplayName_of_name hrow hname] at hcomp
    rw [hnid, h.stepDown_dir_iff hdir hcomp]
    have hneg := dirNid_neg_of_row (h.tables.dir d p n hdir).2.1
    constructor
    · rintro hnone (⟨p', n', f, -, hp', hn', hf⟩ | ⟨q, hq, hq', -⟩)
      · obtain rfl := dirNid_inj (mem_unique hp' hp)
        obtain rfl := mem_unique hn' hname
        exact hnone f hf
      · obtain rfl := mem_unique hq' hp
        exact absurd hq hneg.not_ge
    · intro hclear f hf
      exact hclear (.file p n f (dirNid_neg (row_ne_zero hdir)) hp hname hf)
  | file f d n hnid hfile hparent hname =>
    obtain rfl : q = dirNid d := mem_unique hp hparent
    rw [nodeDisplayName_of_name hrow hname] at hcomp
    have hdir := (h.tables.file f d n hfile).1
    have hneg := dirNid_neg_of_row hdir
    refine iff_of_true ?_ ?_
    · rw [stepDown_dir (by rintro rfl; exact hdir rfl), fileAt_eq_some_iff.mpr ⟨n, hcomp, hfile⟩,
        hnid]
    · rintro (⟨-, -, -, hlt, -⟩ | ⟨q, hq, hq', -⟩)
      · rw [hnid] at hlt
        exact absurd (fileNid_nonneg f 0) hlt.not_ge
      · obtain rfl := mem_unique hq' hp
        exact absurd hq hneg.not_ge
  | ast f o o' k entry lang rawKind hnid ho ho' hfile hparent hname hkind hkrow =>
    obtain rfl : q = fileNid f o' := mem_unique hp hparent
    have hq := fileNid_nonneg f o'
    rw [stepDown_ast hq,
      h.resolve_name_iff hq (mem_ofRawKind.mpr ⟨hrow, hp, k, lang, hkind, hkrow⟩) hcomp]
    refine not_congr ⟨fun hmis => .kind _ hq hp hmis, ?_⟩
    rintro (⟨_, _, _, -, -, hn', -⟩ | ⟨q, hq, hq', hmis⟩)
    · cases hname.symm.trans hn'
    · rwa [← mem_unique hq' hp]

/-! ## The whole way -/

/-- A node and components, one for each link above it. -/
inductive Along (db : Db) (link : Int → Int → Text → Prop) : Int → List Text → Prop
  | top {nid : Int} {row : NodeRow} : db.nodes[nid]? = some row → row.parentNid = none →
      Along db link nid []
  | under {nid q : Int} {row : NodeRow} {comp : Text} {comps : List Text} :
      db.nodes[nid]? = some row → row.parentNid = some q → link q nid comp →
      Along db link q comps → Along db link nid (comps ++ [comp])

theorem along_concat_iff (link : Int → Int → Text → Prop) (hrow : db.nodes[nid]? = some row)
    (hp : row.parentNid = some q) :
    Along db link nid (comps ++ [comp]) ↔ link q nid comp ∧ Along db link q comps := by
  constructor
  · intro h
    generalize hall : comps ++ [comp] = all at h
    cases h with
    | top hrow' hnone =>
      obtain rfl := mem_unique hrow hrow'
      cases hnone.symm.trans hp
    | under hrow' hp' hlink habove =>
      obtain rfl := mem_unique hrow hrow'
      obtain rfl := mem_unique hp hp'
      obtain ⟨rfl, hlast⟩ := List.append_inj' hall rfl
      obtain rfl := List.head_eq_of_cons_eq hlast
      exact ⟨hlink, habove⟩
  · rintro ⟨hlink, habove⟩
    exact .under hrow hp hlink habove

/-- The names on the way to a node. -/
abbrev Rendered (db : Db) : Int → List Text → Prop :=
  Along db fun _ nid comp => db.nodeDisplayName nid = some comp

/-- Below a file every component has the rendered form. -/
abbrev Plain (db : Db) : Int → List Text → Prop :=
  Along db fun q _ comp => 0 ≤ q → PlainSegment db q comp

/-- No node on the way is shadowed. -/
inductive Clear (db : Db) : Int → Prop
  | top {nid : Int} {row : NodeRow} : db.nodes[nid]? = some row → row.parentNid = none →
      Clear db nid
  | under {nid q : Int} {row : NodeRow} : db.nodes[nid]? = some row → row.parentNid = some q →
      ¬ Shadowed db nid row → Clear db q → Clear db nid

theorem Good.top_iff (h : Good db) (hrow : db.nodes[nid]? = some row) :
    row.parentNid = none ↔ nid = dirNid 1 := by
  cases h.node nid row hrow with
  | root n hnid hnone => exact iff_of_true hnone hnid
  | dir d p n hnid hdir hparent =>
    refine iff_of_false (by rw [hparent]; simp) fun heq => ?_
    obtain rfl := dirNid_inj (hnid.symm.trans heq)
    obtain ⟨n', hroot, -⟩ := h.tables.root
    cases congrArg (Option.map Prod.fst) (hroot.symm.trans hdir)
  | file f d n hnid hfile hparent | ast f o o' k entry lang rawKind hnid ho ho' hfile hparent =>
    refine iff_of_false (by rw [hparent]; simp) fun heq => ?_
    exact dirNid_ne_fileNid Nat.one_ne_zero (heq.symm.trans hnid)

theorem Good.walk_rendered_iff (h : Good db) (hcomps : Rendered db nid comps) :
    comps.foldlM (stepDown db) (dirNid 1) = some nid ↔ Clear db nid := by
  induction hcomps with
  | top hrow hnone =>
    refine iff_of_true ?_ (.top hrow hnone)
    rw [(h.top_iff hrow).mp hnone]
    rfl
  | under hrow hp hname _ ih =>
    rw [foldlM_concat, bind_eq_some_iff]
    constructor
    · rintro ⟨q', hwalk, hstep⟩
      -- the last step came from the parent
      cases (h.of_stepDown hstep hrow).1.symm.trans hp
      exact .under hrow hp ((h.stepDown_name_iff hrow hp hname).mp hstep) (ih.mp hwalk)
    · intro hclear
      cases hclear with
      | top hrow' hnone =>
        obtain rfl := mem_unique hrow hrow'
        cases hnone.symm.trans hp
      | under hrow' hp' hshadow habove =>
        obtain rfl := mem_unique hrow hrow'
        obtain rfl := mem_unique hp hp'
        exact ⟨_, ih.mpr habove, (h.stepDown_name_iff hrow hp hname).mpr hshadow⟩

theorem Good.rendered_iff_of_walk (h : Good db)
    (hwalk : comps.foldlM (stepDown db) (dirNid 1) = some nid) (hrow : db.nodes[nid]? = some row) :
    Rendered db nid comps ↔ Plain db nid comps := by
  induction comps using List.reverseRecOn generalizing nid row with
  | nil =>
    have hnone := (h.top_iff hrow).mpr (Option.some.inj hwalk).symm
    exact iff_of_true (.top hrow hnone) (.top hrow hnone)
  | append_singleton comps comp ih =>
    rw [foldlM_concat] at hwalk
    obtain ⟨q, hwalk, hstep⟩ := bind_eq_some_iff.mp hwalk
    obtain ⟨hp, hname⟩ := h.of_stepDown hstep hrow
    obtain ⟨qrow, hqrow⟩ := ne_none_iff_exists'.mp (h.above nid row q hrow hp)
    calc Rendered db nid (comps ++ [comp])
        ↔ db.nodeDisplayName nid = some comp ∧ Rendered db q comps := along_concat_iff _ hrow hp
      _ ↔ (0 ≤ q → PlainSegment db q comp) ∧ Plain db q comps := and_congr hname (ih hwalk hqrow)
      _ ↔ Plain db nid (comps ++ [comp]) :=
          (along_concat_iff (fun q _ comp => 0 ≤ q → PlainSegment db q comp) hrow hp).symm

/-! ## The path that is rendered -/

theorem slash_not_digit {r : Nat} : '/' ∉ Nat.toDigits 10 r := fun hmem =>
  absurd (Nat.isDigit_of_mem_toDigits (by norm_num) le_rfl hmem) (by decide)

theorem Good.exists_name (h : Good db) (hrow : db.nodes[nid]? = some row) :
    ∃ comp, db.nodeDisplayName nid = some comp ∧
      (row.parentNid = none → comp = []) ∧ (row.parentNid ≠ none → PlainName comp) := by
  cases h.node nid row hrow with
  | root n hnid hnone hname hn =>
    exact ⟨[], by rw [nodeDisplayName_of_name hrow hname, hn], fun _ => rfl,
      fun hne => absurd hnone hne⟩
  | dir d p n hnid hdir hparent hname =>
    obtain ⟨-, -, comp, hn, hplain⟩ := h.tables.dir d p n hdir
    exact ⟨comp, by rw [nodeDisplayName_of_name hrow hname, hn],
      fun hnone => absurd (hnone.symm.trans hparent) (by simp), fun _ => hplain⟩
  | file f d n hnid hfile hparent hname =>
    obtain ⟨-, comp, hn, hplain⟩ := h.tables.file f d n hfile
    exact ⟨comp, by rw [nodeDisplayName_of_name hrow hname, hn],
      fun hnone => absurd (hnone.symm.trans hparent) (by simp), fun _ => hplain⟩
  | ast f o o' k entry lang rawKind hnid ho ho' hfile hparent hname hkind hkrow hplain =>
    refine ⟨_, h.nodeDisplayName_ast (fileNid_nonneg f o')
      (mem_ofRawKind.mpr ⟨hrow, hparent, k, lang, hkind, hkrow⟩),
      fun hnone => absurd (hnone.symm.trans hparent) (by simp), fun _ => ?_⟩
    split
    · refine ⟨by simp, fun hslash => ?_⟩
      rcases List.mem_append.mp hslash with hslash | hslash
      · exact hplain.2 hslash
      · rcases List.mem_cons.mp hslash with hslash | hslash
        · cases hslash
        · exact slash_not_digit hslash
    · exact hplain

theorem Good.plain_of_rendered (h : Good db) (hcomps : Rendered db nid comps) :
    ∀ comp ∈ comps, PlainName comp := by
  induction hcomps with
  | top => exact fun comp hcomp => absurd hcomp List.not_mem_nil
  | under hrow hp hname _ ih =>
    intro comp hcomp
    rcases List.mem_append.mp hcomp with hcomp | hcomp
    · exact ih comp hcomp
    · obtain ⟨name, hname', -, hplain⟩ := h.exists_name hrow
      rw [List.mem_singleton.mp hcomp, mem_unique hname hname']
      exact hplain (by simp [hp])

/-- Where the climb stands, from the directories down to the nodes of a file. -/
def height (db : Db) (nid : Int) : Nat :=
  if nid < 0 then (-nid).toNat else db.dirs.rows.length + 1 + (nid % 2 ^ 24).toNat

theorem height_dir {d : Nat} (hd : d ≠ 0) : height db (dirNid d) = d := by
  rw [height, if_pos (dirNid_neg hd)]
  simp [dirNid]

theorem height_file {f o : Nat} (ho : o < 2 ^ 24) :
    height db (fileNid f o) = db.dirs.rows.length + 1 + o := by
  rw [height, if_neg (fileNid_nonneg f o).not_gt]
  unfold fileNid
  omega

theorem Good.height_lt (h : Good db) (hrow : db.nodes[nid]? = some row)
    (hp : row.parentNid = some q) : height db q < height db nid := by
  cases h.node nid row hrow with
  | root n hnid hnone => cases hnone.symm.trans hp
  | dir d p n hnid hdir hparent =>
    obtain ⟨hlt, hprow, -⟩ := h.tables.dir d p n hdir
    obtain rfl : q = dirNid p := mem_unique hp hparent
    rw [hnid, height_dir (by rintro rfl; exact hprow rfl), height_dir (row_ne_zero hdir)]
    exact hlt
  | file f d n hnid hfile hparent =>
    obtain ⟨hdrow, -⟩ := h.tables.file f d n hfile
    obtain ⟨entry, hentry⟩ := ne_none_iff_exists'.mp hdrow
    obtain rfl : q = dirNid d := mem_unique hp hparent
    rw [hnid, height_dir (row_ne_zero hentry), height_file (by norm_num)]
    have := Interned.row_le hentry
    omega
  | ast f o o' k entry lang rawKind hnid ho ho' hfile hparent =>
    obtain rfl : q = fileNid f o' := mem_unique hp hparent
    rw [hnid, height_file (ho'.trans ho), height_file ho]
    omega

def up (db : Db) (nid : Int) : Option Int := (db.nodes[nid]?).bind (·.parentNid)

theorem Good.climb_eq (h : Good db) {nid : Int} {way : List Int} (hway : Climb.Path (up db) nid way)
    (hthere : db.nodes[nid]? ≠ none) : ∃ comps, Rendered db nid comps ∧
      ∀ turns, way.length ≤ turns → ∀ below, db.climb turns nid below = some (comps ++ below) := by
  induction hway with
  | @top nid htop =>
    obtain ⟨row, hrow⟩ := ne_none_iff_exists'.mp hthere
    obtain ⟨comp, hname, hempty, -⟩ := h.exists_name hrow
    have hnone : row.parentNid = none := by simpa [up, hrow] using htop
    refine ⟨[], .top hrow hnone, fun turns hturns below => ?_⟩
    obtain ⟨turns, rfl⟩ : ∃ t, turns = t + 1 := ⟨turns - 1, by simp at hturns; omega⟩
    simp [Db.climb, hname, hempty hnone, hrow, hnone]
  | @step nid q way hup _ ih =>
    obtain ⟨row, hrow⟩ := ne_none_iff_exists'.mp hthere
    have hp : row.parentNid = some q := by simpa [up, hrow] using hup
    obtain ⟨comps, hcomps, hclimb⟩ := ih (h.above nid row q hrow hp)
    obtain ⟨comp, hname, -, hplain⟩ := h.exists_name hrow
    have hne := (hplain (by simp [hp])).1
    refine ⟨comps ++ [comp], .under hrow hp hname hcomps, fun turns hturns below => ?_⟩
    obtain ⟨turns, rfl⟩ : ∃ t, turns = t + 1 := ⟨turns - 1, by simp at hturns; omega⟩
    simp only [Db.climb, hname, hne, if_false, hrow, Option.bind_some, hp]
    rw [hclimb turns (by simpa using hturns), List.append_assoc]
    rfl

theorem Good.exists_rendered (h : Good db) (hthere : db.nodes[nid]? ≠ none) :
    ∃ comps, Rendered db nid comps ∧ db.nodePath nid = some (['/'].intercalate comps) := by
  have hmem : ∀ x : Int, x ∈ db.nodes.keys.toFinset ↔ db.nodes[x]? ≠ none := fun x => by
    simp
  have hway : ∃ way, Climb.Path (up db) nid way ∧ way.length ≤ db.nodes.keys.toFinset.card := by
    refine Climb.exists_path (height db) (fun x hx y hy => ?_) nid ((hmem nid).mpr hthere)
    obtain ⟨row, hrow, hp⟩ := bind_eq_some_iff.mp hy
    exact ⟨(hmem y).mpr (h.above x row y hrow hp), h.height_lt hrow hp⟩
  obtain ⟨way, hway, hlen⟩ := hway
  obtain ⟨comps, hcomps, hclimb⟩ := h.climb_eq hway hthere
  have hcard : way.length ≤ db.nodes.size + 1 := by
    refine hlen.trans ((List.toFinset_card_le _).trans ?_)
    rw [ExtTreeMap.length_keys]
    exact Nat.le_succ _
  refine ⟨comps, hcomps, ?_⟩
  rw [Db.nodePath, hclimb _ hcard, List.append_nil]
  rfl

/-! ## Components and paths -/

theorem intercalate_dirComps (path : Text) : ['/'].intercalate (dirComps path) = path := by
  unfold dirComps
  split
  · rename_i hnil
    rw [hnil]
    rfl
  · exact List.intercalate_splitOn '/'

theorem dirComps_intercalate (hplain : ∀ comp ∈ comps, PlainName comp) :
    dirComps (['/'].intercalate comps) = comps := by
  cases comps with
  | nil => rfl
  | cons comp rest =>
    have hsplit : (['/'].intercalate (comp :: rest)).splitOn '/' = comp :: rest :=
      List.splitOn_intercalate '/' (fun name hname => (hplain name hname).2) (List.cons_ne_nil _ _)
    rw [dirComps, if_neg, hsplit]
    intro hnil
    rw [hnil] at hsplit
    obtain rfl : [] = comp := List.head_eq_of_cons_eq hsplit
    exact (hplain [] List.mem_cons_self).1 rfl

theorem rendered_unique {comps' : List Text} (h : Rendered db nid comps)
    (h' : Rendered db nid comps') : comps = comps' := by
  induction h generalizing comps' with
  | top hrow hnone =>
    cases h' with
    | top => rfl
    | under hrow' hp =>
      obtain rfl := mem_unique hrow hrow'
      cases hnone.symm.trans hp
  | under hrow hp hname _ ih =>
    cases h' with
    | top hrow' hnone =>
      obtain rfl := mem_unique hrow hrow'
      cases hnone.symm.trans hp
    | under hrow' hp' hname' habove =>
      obtain rfl := mem_unique hrow hrow'
      obtain rfl := mem_unique hp hp'
      rw [ih habove, mem_unique hname hname']

theorem Good.nodePath_eq_iff (h : Good db) (hthere : db.nodes[nid]? ≠ none) (path : Text) :
    db.nodePath nid = some path ↔ Rendered db nid (dirComps path) := by
  obtain ⟨comps, hcomps, hpath⟩ := h.exists_rendered hthere
  rw [hpath, Option.some.injEq]
  constructor
  · rintro rfl
    rwa [dirComps_intercalate (h.plain_of_rendered hcomps)]
  · intro hrendered
    rw [rendered_unique hcomps hrendered, intercalate_dirComps]

/-- In every database that parses leave, a node's path is rendered. It resolves to the
node just where none of the way is shadowed, and a path that resolves to a node is the
one rendered for it just where its components below a file have the rendered form. -/
theorem path_inverse_iff (steps : List Step) :
    (∀ nid, (run steps).nodes[nid]? ≠ none → ∃ path, (run steps).nodePath nid = some path ∧
      ((run steps).resolvePath path = some nid ↔ Clear (run steps) nid)) ∧
    ∀ path nid, (run steps).resolvePath path = some nid → (run steps).nodes[nid]? ≠ none →
      ((run steps).nodePath nid = some path ↔ Plain (run steps) nid (dirComps path)) := by
  have h := good_run steps
  refine ⟨fun nid hthere => ?_, fun path nid hres hthere => ?_⟩
  · obtain ⟨comps, hcomps, hpath⟩ := h.exists_rendered hthere
    refine ⟨_, hpath, ?_⟩
    rw [h.resolvePath_eq, dirComps_intercalate (h.plain_of_rendered hcomps)]
    exact h.walk_rendered_iff hcomps
  · obtain ⟨row, hrow⟩ := ne_none_iff_exists'.mp hthere
    rw [h.resolvePath_eq] at hres
    rw [h.nodePath_eq_iff hthere]
    exact h.rendered_iff_of_walk hres hrow

/-! ## A file that was replaced, and a rank that is not rendered -/

/-- The file `a`, without nodes below its root. -/
def fileA : ParsedFile where
  rel := ['a']
  lang := ['x']
  rootKind := ['r']
  rows := []
  plain := by decide
  distinct := by simp
  fits := by simp
  after := by simp
  above := by simp
  numbered := by simp
  kinds := by simp

/-- The file `b` in a directory `a`, with one node below its root. -/
def fileAB : ParsedFile where
  rel := ['a', '/', 'b']
  lang := ['x']
  rootKind := ['r']
  rows := [⟨1, 0, 0, ['k']⟩]
  plain := by decide
  distinct := by simp
  fits := by simp
  after := by simp
  above := by
    intro before r rest hrows
    cases before with
    | nil => exact .inl (by rw [← List.head_eq_of_cons_eq hrows])
    | cons x before => exact absurd (congrArg List.length hrows) (by simp)
  numbered := by simp
  kinds := by decide

theorem path_inverse_iff_fileAB :
    (∃ path, (run [.project fileAB]).nodePath (fileNid 1 1) = some path ∧
      ((run [.project fileAB]).resolvePath path = some (fileNid 1 1) ↔
        Clear (run [.project fileAB]) (fileNid 1 1))) ∧
    ((run [.project fileAB]).nodePath (fileNid 1 1) = some ['a', '/', 'b', '/', 'k'] ↔
      Plain (run [.project fileAB]) (fileNid 1 1) [['a'], ['b'], ['k']]) :=
  ⟨(path_inverse_iff [.project fileAB]).1 _ (by decide +kernel),
    (path_inverse_iff [.project fileAB]).2 ['a', '/', 'b', '/', 'k'] _ (by decide +kernel)
      (by decide +kernel)⟩

/-- The file `a` gives way to a directory of that name. -/
def replaced : List Step := [.project fileA, .drop ['a'], .project fileAB]

/-- The directory's path resolves to the file that is gone, and a node's path is also
resolved with a rank that is not rendered. -/
theorem path_not_inverse : ((run replaced).nodes[dirNid 2]? ≠ none ∧
      (run replaced).nodePath (dirNid 2) = some ['a'] ∧
      (run replaced).resolvePath ['a'] = some (fileNid 1 0) ∧ fileNid 1 0 ≠ dirNid 2) ∧
    ((run [.project fileAB]).nodes[fileNid 1 1]? ≠ none ∧
      (run [.project fileAB]).resolvePath ['a', '/', 'b', '/', 'k', '_', '0'] = some (fileNid 1 1) ∧
      (run [.project fileAB]).nodePath (fileNid 1 1) = some ['a', '/', 'b', '/', 'k']) := by
  decide +kernel

end LeyLine.NodePath
