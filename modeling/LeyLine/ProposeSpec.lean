import LeyLine.SourceWrite
import LeyLine.PassSpec
import LeyLine.Lib.PathEdit

/-!
# What a proposal does to the tree

The abstract reading of a proposal is an edit set (`specEdits`): at each path it
names, the entry the change asks for. An accepted proposal's plans fit the
manifest as edits (`Plannable.fits`), and its pass leaves the tree these edits
leave (`Plannable.passManifest_eq`). Neither acceptance nor the result depends on
the order of the list.
-/

namespace LeyLine

open Except (bind_eq_ok_iff require_eq_ok_iff)
open Change

variable {H Lang Rows : Type} [DecidableEq H] [DecidableEq Lang]
  {env : Env H Lang Rows} {s : Store H}

section Plans

omit [DecidableEq Lang]

/-! ## Plans -/

/-- The plan a write is decided to, if it neither is refused nor moved. -/
def planOf (env : Env H Lang Rows) (s : Store H) (w : Proposed H) : Option (Plan H) :=
  match decideOne env s w with
  | .ok (.plan q) => some q
  | _ => none

/-- The bytes a write lands: the bytes sent, or their clean merge with what the
path holds when the base moved. -/
def landing (env : Env H Lang Rows) (s : Store H) (w : Proposed H) (bytes : Bytes) : Bytes :=
  match w.base, s.entry w.path with
  | .blob expected, some (.file _ theirs) =>
    if theirs = expected then bytes
    else match s.blobBytes expected, s.blobBytes theirs with
      | some base, some current => match env.merge base bytes current with
        | .clean merged => merged
        | _ => bytes
      | _, _ => bytes
  | _, _ => bytes

def landed (env : Env H Lang Rows) (s : Store H) (w : Proposed H) : Change :=
  match w.change with
  | .write bytes mode => .write (landing env s w bytes) mode
  | c => c

def Change.Allowed (path : Path) (current : Option (Entry H)) : Change → Prop
  | .write _ _ => (current = none ∧ plainRelative path = true) ∨ ∃ mode blob,
      current = some (.file mode blob)
  | .delete => ∃ mode blob, current = some (.file mode blob)
  | .mkdir => current = none ∧ plainRelative path = true
  | .rmdir => current = some .dir

variable {q : Plan H}

omit [DecidableEq H] in
theorem mergeMoved_plan {path : Path} {expected theirs : H} {held : Mode} {bytes : Bytes}
    {mode : Option Mode} (h : mergeMoved env s path expected held theirs bytes mode = .plan q) :
    ∃ base current merged, s.blobBytes expected = some base ∧
      s.blobBytes theirs = some current ∧ env.merge base bytes current = .clean merged ∧
      q = ⟨path, some (.file held theirs), .write merged mode⟩ := by
  rw [mergeMoved] at h
  split at h
  · simp at h
  · split at h
    · rename_i base current hb hc
      split at h
      · rename_i merged hm
        exact ⟨base, current, merged, hb, hc, hm, by simpa using h.symm⟩
      · simp at h
      · simp at h
    · simp at h

variable {w : Proposed H}

theorem planOf_eq_some : planOf env s w = some q ↔ decideOne env s w = .ok (.plan q) := by
  rw [planOf]
  cases decideOne env s w with
  | error e => simp
  | ok d => cases d <;> simp

def planned (env : Env H Lang Rows) (s : Store H) (w : Proposed H) : Plan H :=
  ⟨w.path, s.entry w.path, landed env s w⟩

theorem planOf_spec (h : planOf env s w = some q) :
    q = planned env s w ∧ (landed env s w).Allowed w.path (s.entry w.path) := by
  rw [planned]
  obtain ⟨path, base, change⟩ := w
  have h := planOf_eq_some.mp h
  cases he : s.entry path with
  | none =>
    cases change <;> cases base <;> simp_all [decideOne, landed, landing, Change.Allowed]
    all_goals split at h <;> simp_all
  | some en =>
    cases en with
    | dir =>
      cases change <;> cases base <;> simp_all [decideOne, landed, Change.Allowed]
    | file held theirs =>
      cases change with
      | write bytes mode =>
        have hall : ∀ b, (write b mode).Allowed path (some (.file held theirs)) :=
          fun b => .inr ⟨held, theirs, rfl⟩
        refine ⟨?_, hall _⟩
        cases base with
        | any => simpa [decideOne, he, landed, landing, eq_comm] using h
        | absent =>
          simp only [decideOne, he] at h
          split at h
          · simpa [he, landed, landing, eq_comm] using h
          · simp at h
        | blob expected =>
          simp only [decideOne, he] at h
          split at h
          · rename_i heq
            simpa [he, landed, landing, heq, eq_comm] using h
          · rename_i hne
            obtain ⟨old, now, merged, hb, hc, hm, rfl⟩ := mergeMoved_plan (by simpa using h)
            simp [landed, landing, he, hne, hb, hc, hm]
      | delete =>
        cases base <;> simp only [decideOne, he] at h
        all_goals first | split at h | skip
        all_goals simp_all [landed, Change.Allowed]
      | mkdir | rmdir => cases base <;> simp [decideOne, he] at h

def landsMerged (env : Env H Lang Rows) (s : Store H) (w : Proposed H) : Bool :=
  (landed env s w).bytes.map env.hash ≠ w.change.bytes.map env.hash

def Deciding.add (env : Env H Lang Rows) (s : Store H) (d : Deciding H) (w : Proposed H) :
    Deciding H :=
  { d with
    seen := w.path :: d.seen
    plans := d.plans ++ [planned env s w]
    merged := if landsMerged env s w then d.merged ++ [w.path] else d.merged }

theorem decideStep_of_plan {d : Deciding H} (hnew : w.path ∉ d.seen) (hq : planOf env s w ≠ none) :
    decideStep env s d w = .ok (d.add env s w) := by
  obtain ⟨q, hq⟩ := Option.ne_none_iff_exists'.mp hq
  obtain rfl := (planOf_spec hq).1
  rw [decideStep, require_eq_ok_iff (x := ()) |>.mpr (by simpa using hnew), planOf_eq_some.mp hq]
  by_cases h : (landed env s w).bytes.map env.hash = w.change.bytes.map env.hash <;>
    simp [bind, Except.bind, pure, Except.pure, Deciding.add, planned, landsMerged, h]

theorem decideStep_ok {d d' : Deciding H} (h : decideStep env s d w = .ok d') : w.path ∉ d.seen ∧
      (planOf env s w ≠ none ∧ d' = d.add env s w ∨ ∃ st, d'.moved = d.moved ++ [st]) := by
  have hstep := h
  obtain ⟨_, hreq, h⟩ := bind_eq_ok_iff.mp h
  obtain ⟨dec, hdec, h⟩ := bind_eq_ok_iff.mp h
  have hnew : w.path ∉ d.seen := by simpa using require_eq_ok_iff.mp hreq
  refine ⟨hnew, ?_⟩
  cases dec with
  | plan q =>
    have hq : planOf env s w ≠ none := by simp [planOf_eq_some.mpr hdec]
    rw [decideStep_of_plan hnew hq] at hstep
    exact .inl ⟨hq, (Except.ok.inj hstep).symm⟩
  | moved st r =>
    cases h
    exact .inr ⟨st, rfl⟩

variable (env s) in
/-- The loop ends with nothing moved exactly when nothing had moved before,
every path is new and every write has a plan. -/
theorem decide_loop_iff : ∀ (writes : List (Proposed H)) (d d' : Deciding H),
      (writes.foldlM (decideStep env s) d = .ok d' ∧ d'.moved = []) ↔
      d.moved = [] ∧ (∀ w ∈ writes, w.path ∉ d.seen) ∧ (writes.map (·.path)).Nodup ∧
        (∀ w ∈ writes, planOf env s w ≠ none) ∧ d' = writes.foldl (Deciding.add env s) d
  | [], d, d' => by
    constructor
    · rintro ⟨h, hm⟩
      cases h
      exact ⟨hm, by simp, by simp, by simp, rfl⟩
    · rintro ⟨hm, -, -, -, rfl⟩
      exact ⟨rfl, hm⟩
  | w :: writes, d, d' => by
    rw [List.foldl_cons, List.map_cons, List.nodup_cons, List.forall_mem_cons,
      List.forall_mem_cons, List.foldlM_cons]
    have hfresh : (∀ x ∈ writes, x.path ∉ (d.add env s w).seen) ↔
        w.path ∉ writes.map (·.path) ∧ ∀ x ∈ writes, x.path ∉ d.seen := by
      simp only [Deciding.add, List.mem_cons, not_or, List.mem_map, not_exists, not_and]
      exact ⟨fun h => ⟨fun x hx => (h x hx).1, fun x hx => (h x hx).2⟩,
        fun h x hx => ⟨h.1 x hx, h.2 x hx⟩⟩
    constructor
    · rintro ⟨h, hm⟩
      obtain ⟨d₁, hstep, h⟩ := bind_eq_ok_iff.mp h
      have hrest := (decide_loop_iff writes d₁ d').mp ⟨h, hm⟩
      obtain ⟨hnew, ⟨hq, rfl⟩ | ⟨st, hmoved⟩⟩ := decideStep_ok hstep
      · obtain ⟨hm₁, hf, hnodup, hplan, hd'⟩ := hrest
        exact ⟨hm₁, ⟨hnew, (hfresh.mp hf).2⟩, ⟨(hfresh.mp hf).1, hnodup⟩, ⟨hq, hplan⟩, hd'⟩
      · rw [hmoved] at hrest
        exact absurd hrest.1 (by simp)
    · rintro ⟨hm, ⟨hnew, hf⟩, ⟨hw, hnodup⟩, ⟨hq, hplan⟩, hd'⟩
      rw [decideStep_of_plan hnew hq]
      exact (decide_loop_iff writes (d.add env s w) d').mpr ⟨hm, hfresh.mpr ⟨hw, hf⟩, hnodup,
        hplan, hd'⟩

variable (env s) in
theorem foldl_add (writes : List (Proposed H)) (d : Deciding H) :
    (writes.foldl (Deciding.add env s) d).plans = d.plans ++ writes.map (planned env s) ∧
      (writes.foldl (Deciding.add env s) d).merged =
        d.merged ++ (writes.filter (landsMerged env s)).map (·.path) ∧
      (writes.foldl (Deciding.add env s) d).conflicts = d.conflicts := by
  induction writes generalizing d with
  | nil => simp
  | cons w writes ih =>
    obtain ⟨hp, hm, hc⟩ := ih (d.add env s w)
    refine ⟨?_, ?_, ?_⟩
    · rw [List.foldl_cons, hp]
      simp [Deciding.add]
    · rw [List.foldl_cons, hm]
      by_cases h : landsMerged env s w <;> simp [Deciding.add, h]
    · rw [List.foldl_cons, hc]
      rfl

/-- Every write has a plan of its own. -/
structure Plannable (env : Env H Lang Rows) (s : Store H) (writes : List (Proposed H)) :
    Prop where
  nodup : (writes.map (·.path)).Nodup
  plan : ∀ w ∈ writes, planOf env s w ≠ none

/-- **What deciding a proposal comes to.** -/
theorem decide_eq_ok_iff {writes : List (Proposed H)} {x : List (Plan H) × List Path} :
    decide env s writes = .ok x ↔ Plannable env s writes ∧ x = (writes.map (planned env s),
        Table.sortedSet ((writes.filter (landsMerged env s)).map (·.path))) := by
  have hloop := decide_loop_iff env s writes {}
  simp only [List.not_mem_nil, not_false_eq_true, implies_true, true_and] at hloop
  obtain ⟨hplans, hmerged, hconf⟩ := foldl_add env s writes {}
  constructor
  · intro h
    obtain ⟨d, hd, h⟩ := bind_eq_ok_iff.mp h
    obtain ⟨_, -, h⟩ := bind_eq_ok_iff.mp h
    obtain ⟨_, hm, h⟩ := bind_eq_ok_iff.mp h
    cases h
    obtain ⟨hnodup, hplan, rfl⟩ := (hloop d).mp ⟨hd, by simpa using require_eq_ok_iff.mp hm⟩
    exact ⟨⟨hnodup, hplan⟩, by rw [hplans, hmerged]; rfl⟩
  · rintro ⟨⟨hnodup, hplan⟩, rfl⟩
    obtain ⟨hd, hm⟩ := (hloop _).mpr ⟨hnodup, hplan, rfl⟩
    rw [decide, hd]
    simp [bind, Except.bind, Except.require, hm, hconf, pure, Except.pure, hplans, hmerged]

/-! ## The edits a proposal asks for -/

def changeAt (env : Env H Lang Rows) (s : Store H) (writes : List (Proposed H)) (p : Path) :
    Option Change :=
  (writes.find? fun w => w.path = p).map (landed env s)

/-- A change as an edit: a write keeps the mode of the file it replaces unless it
names one. -/
def Change.edit (hash : Bytes → H) (held : Option (Entry H)) : Change → PathTree.Edit (Entry H)
  | .write bytes mode =>
    .put (.file ((mode.or (held.bind Entry.fileMode)).getD .regular) (hash bytes))
  | .delete => .remove
  | .mkdir => .makeDir
  | .rmdir => .remove

def specEdits (env : Env H Lang Rows) (s : Store H) (writes : List (Proposed H)) :
    PathTree.Edits Char (Entry H) :=
  fun p => (changeAt env s writes p).map (Change.edit env.hash (s.entry p))

variable {writes writes' : List (Proposed H)}

variable {c : Change} {p : Path}

theorem changeAt_eq_some (hnodup : (writes.map (·.path)).Nodup) :
    changeAt env s writes p = some c ↔ ∃ w ∈ writes, w.path = p ∧ landed env s w = c := by
  rw [changeAt, Option.map_eq_some_iff]
  constructor
  · rintro ⟨w, hw, rfl⟩
    exact ⟨w, List.mem_of_find?_eq_some hw, by simpa using List.find?_some hw, rfl⟩
  · rintro ⟨w, hw, rfl, rfl⟩
    refine ⟨w, ?_, rfl⟩
    cases hf : writes.find? (fun x => x.path = w.path) with
    | none => exact absurd (List.find?_eq_none.mp hf w hw) (by simp)
    | some x =>
      have hx : x.path = w.path := by simpa using List.find?_some hf
      rw [List.inj_on_of_nodup_map hnodup (List.mem_of_find?_eq_some hf) hw hx]

variable (env s) in
theorem changeAt_perm (hnodup : (writes.map (·.path)).Nodup) (hp : writes.Perm writes') :
    changeAt env s writes = changeAt env s writes' := by
  have hnodup' : (writes'.map (·.path)).Nodup := (hp.map _).nodup_iff.mp hnodup
  funext p
  refine Option.ext fun c => ?_
  rw [changeAt_eq_some hnodup, changeAt_eq_some hnodup']
  simp only [hp.mem_iff]

theorem Plannable.perm (h : Plannable env s writes) (hp : writes.Perm writes') :
    Plannable env s writes' :=
  ⟨(hp.map _).nodup_iff.mp h.nodup, fun w hw => h.plan w (hp.mem_iff.mpr hw)⟩

theorem Plannable.allowed (h : Plannable env s writes)
    (hc : changeAt env s writes p = some c) : c.Allowed p (s.entry p) := by
  obtain ⟨w, hw, rfl, rfl⟩ := (changeAt_eq_some h.nodup).mp hc
  obtain ⟨q, hq⟩ := Option.ne_none_iff_exists'.mp (h.plan w hw)
  exact (planOf_spec hq).2

theorem Plannable.mem_planned (h : Plannable env s writes) : q ∈ writes.map (planned env s) ↔
      changeAt env s writes q.path = some q.change ∧ q.current = s.entry q.path := by
  rw [changeAt_eq_some h.nodup, List.mem_map]
  constructor
  · rintro ⟨w, hw, rfl⟩
    exact ⟨⟨w, hw, rfl, rfl⟩, rfl⟩
  · rintro ⟨⟨w, hw, hpath, hchange⟩, hcur⟩
    refine ⟨w, hw, ?_⟩
    rw [planned, hpath, hchange, ← hcur]

/-! ## The structure check -/

/-- What the structure check checks, of the change at each path. -/
structure Structured (s : Store H) (change : Path → Option Change) : Prop where
  under_held : ∀ d p mode blob, change p ≠ none → s.entry p = none → Under d p →
    s.entry d = some (.file mode blob) → ∃ c, change d = some c ∧ c.leaves
  under_created : ∀ d p bytes mode, change p ≠ none → s.entry p = none → Under d p →
    change d = some (.write bytes mode) → s.entry d ≠ none
  left : ∀ d p, change d = some .rmdir → s.entry p ≠ none → Under d p → Sweeps d →
    ∃ c, change p = some c ∧ c.leaves
  added : ∀ d p, change d = some .rmdir → change p ≠ none → s.entry p = none → ¬ Under d p

theorem Plannable.any_planned (h : Plannable env s writes) (f : Change → Bool) (p : Path) :
    ((writes.map (planned env s)).any fun q => f q.change && q.path == p) = true ↔
      ∃ c, changeAt env s writes p = some c ∧ f c = true := by
  simp only [List.any_eq_true, h.mem_planned, Bool.and_eq_true, beq_iff_eq]
  constructor
  · rintro ⟨q, ⟨hc, -⟩, hf, rfl⟩
    exact ⟨q.change, hc, hf⟩
  · rintro ⟨c, hc, hf⟩
    exact ⟨⟨p, s.entry p, c⟩, ⟨hc, rfl⟩, hf, rfl⟩

theorem Plannable.conflictAbove_eq_none (h : Plannable env s writes) :
    conflictAbove s (writes.map (planned env s)) p = none ↔ ∀ d, Under d p →
        (∀ mode blob, s.entry d = some (.file mode blob) →
          ∃ c, changeAt env s writes d = some c ∧ c.leaves = true) ∧
        ∀ bytes mode, changeAt env s writes d = some (.write bytes mode) → s.entry d ≠ none := by
  rw [conflictAbove, List.find?_eq_none]
  simp only [parents, SepPath.mem_parents]
  refine forall_congr' fun d => imp_congr_right fun _ => ?_
  rw [Bool.not_eq_true, Bool.or_eq_false_iff, Bool.and_eq_false_iff, Bool.not_eq_false',
    h.any_planned leaves d]
  refine and_congr ?_ ?_
  · cases hd : s.entry d with
    | none => simp
    | some e => cases e <;> simp [Entry.fileMode]
  · rw [List.any_eq_false]
    constructor
    · intro hq bytes mode hc hd
      exact hq ⟨d, none, .write bytes mode⟩ (h.mem_planned.mpr ⟨hc, hd.symm⟩) (by simp [isWrite])
    · intro hd q hq hcontra
      obtain ⟨hc, hcur⟩ := h.mem_planned.mp hq
      obtain ⟨path, current, change⟩ := q
      cases change with
      | write bytes mode =>
        simp only [isWrite, Bool.and_true, Bool.and_eq_true, beq_iff_eq] at hcontra
        obtain ⟨hnone, rfl⟩ := hcontra
        exact hd bytes mode hc (hcur.symm.trans (Option.isNone_iff_eq_none.mp hnone))
      | delete | mkdir | rmdir => simp [isWrite] at hcontra

theorem Plannable.occupied_eq_false (h : Plannable env s writes) {d : Path} :
    occupied s (writes.map (planned env s)) d = false ↔
    (∀ p, s.entry p ≠ none → Under d p → Sweeps d →
        ∃ c, changeAt env s writes p = some c ∧ c.leaves = true) ∧
      ∀ p, changeAt env s writes p ≠ none → s.entry p = none → ¬ Under d p := by
  rw [occupied, Bool.or_eq_false_iff, List.any_eq_false, List.any_eq_false]
  refine and_congr ?_ ?_
  · simp only [Store.mem_under, Bool.not_eq_true, Bool.not_eq_false', h.any_planned leaves, and_imp]
  · constructor
    · intro hq p hc hp hu
      obtain ⟨c, hc⟩ := Option.ne_none_iff_exists'.mp hc
      exact hq ⟨p, none, c⟩ (h.mem_planned.mpr ⟨hc, hp.symm⟩) (by simpa using hu)
    · intro hp q hq hcontra
      obtain ⟨hc, hcur⟩ := h.mem_planned.mp hq
      rw [Bool.and_eq_true, hcur, Option.isNone_iff_eq_none, decide_eq_true_iff] at hcontra
      exact hp q.path (by simp [hc]) hcontra.1 hcontra.2

omit [DecidableEq H] in
theorem checkCreated_eq_ok {plans : List (Plan H)} {x : Unit} : checkCreated s plans q = .ok x ↔
      (q.current = none → conflictAbove s plans q.path = none) := by
  rw [checkCreated]
  cases hcur : q.current with
  | some e => simp
  | none => cases conflictAbove s plans q.path <;> simp

omit [DecidableEq H] in
theorem checkRemoved_eq_ok {plans : List (Plan H)} {x : Unit} : checkRemoved s plans q = .ok x ↔
      (q.change = .rmdir → occupied s plans q.path = false) := by
  rw [checkRemoved]
  split
  · rename_i h
    simp [require_eq_ok_iff, h]
  · rename_i h
    simp [h]

/-- **What the structure check comes to.** -/
theorem Plannable.checkStructure_eq_ok (h : Plannable env s writes) :
    checkStructure s (writes.map (planned env s)) = .ok () ↔
    Structured s (changeAt env s writes) := by
  have hsplit : checkStructure s (writes.map (planned env s)) = .ok () ↔
      (∀ p, changeAt env s writes p ≠ none → s.entry p = none →
        conflictAbove s (writes.map (planned env s)) p = none) ∧
      ∀ d, changeAt env s writes d = some .rmdir → occupied s (writes.map (planned env s)) d =
      false := by
    rw [checkStructure, bind_eq_ok_iff]
    simp only [Except.forM_eq_ok_iff, checkCreated_eq_ok, checkRemoved_eq_ok, h.mem_planned]
    constructor
    · rintro ⟨_, hc, hr⟩
      refine ⟨fun p hp hnone => ?_, fun d hd => hr ⟨d, s.entry d, .rmdir⟩ ⟨hd, rfl⟩ rfl⟩
      obtain ⟨c, hcp⟩ := Option.ne_none_iff_exists'.mp hp
      exact hc ⟨p, none, c⟩ ⟨hcp, hnone.symm⟩ rfl
    · rintro ⟨hc, hr⟩
      exact ⟨(), fun q hq hnone => hc q.path (by simp [hq.1]) (hq.2 ▸ hnone),
        fun q hq hrm => hr q.path (hrm ▸ hq.1)⟩
  rw [hsplit]
  simp only [h.conflictAbove_eq_none, h.occupied_eq_false]
  constructor
  · rintro ⟨habove, hempty⟩
    exact ⟨fun d p mode blob hc hp hu hd => (habove p hc hp d hu).1 mode blob hd,
      fun d p bytes mode hc hp hu hd => (habove p hc hp d hu).2 bytes mode hd,
      fun d p hd => (hempty d hd).1 p,
      fun d p hd hc hp => (hempty d hd).2 p hc hp⟩
  · intro hs
    exact ⟨fun p hc hp d hu => ⟨fun mode blob hd => hs.under_held d p mode blob hc hp hu hd,
        fun bytes mode hd => hs.under_created d p bytes mode hc hp hu hd⟩,
      fun d hd => ⟨fun p => hs.left d p hd, fun p hc hp => hs.added d p hd hc hp⟩⟩

/-- **An accepted proposal fits the tree** as a set of edits. -/
theorem Plannable.fits (h : Plannable env s writes) (hs : Structured s (changeAt env s writes)) :
    (specEdits env s writes).Fits '/' Sweeps .dir (fun p => plainRelative p = true) s.manifest := by
  have hedit : ∀ p e, specEdits env s writes p = some e ↔
      ∃ c, changeAt env s writes p = some c ∧ c.edit env.hash (s.entry p) = e := fun p e =>
    Option.map_eq_some_iff
  have hleaves : ∀ p, (∃ c, changeAt env s writes p = some c ∧ c.leaves = true) →
      specEdits env s writes p = some .remove := by
    rintro p ⟨c, hc, hl⟩
    refine (hedit p _).mpr ⟨c, hc, ?_⟩
    cases c <;> simp_all [leaves, edit]
  have hremove : ∀ p, specEdits env s writes p = some .remove →
      (∃ m b, s.entry p = some (.file m b)) ∨
      changeAt env s writes p = some .rmdir ∧ s.entry p = some .dir := by
    intro p hp
    obtain ⟨c, hc, he⟩ := (hedit p _).mp hp
    have hall := h.allowed hc
    cases c with
    | write bytes mode | mkdir => simp [edit] at he
    | delete => exact .inl hall
    | rmdir => exact .inr ⟨hc, hall⟩
  have hput : ∀ p n, specEdits env s writes p = some (.put n) →
      ∃ bytes mode, changeAt env s writes p = some (.write bytes mode) ∧ n ≠ .dir ∧
        (s.entry p = none ∧ plainRelative p = true ∨ ∃ m b, s.entry p = some (.file m b)) := by
    intro p n hp
    obtain ⟨c, hc, he⟩ := (hedit p _).mp hp
    cases c with
    | write bytes mode =>
      rw [edit, PathTree.Edit.put.injEq] at he
      exact ⟨bytes, mode, hc, by rw [← he]; simp, h.allowed hc⟩
    | delete | mkdir | rmdir => simp [edit] at he
  have hmk : ∀ p, specEdits env s writes p = some .makeDir →
      changeAt env s writes p = some .mkdir := by
    intro p hp
    obtain ⟨c, hc, he⟩ := (hedit p _).mp hp
    cases c <;> simp_all [edit]
  have hadds : ∀ p, (specEdits env s writes).Adds p → changeAt env s writes p ≠ none := by
    rintro p (hp | ⟨n, hp⟩)
    · simp [hmk p hp]
    · obtain ⟨bytes, mode, hc, -⟩ := hput p n hp
      simp [hc]
  refine ⟨?_, ?_, ?_, ?_, ?_, ?_, ?_⟩
  · intro p hp
    obtain ⟨-, -, -, hne, -⟩ := hput p _ hp
    exact hne rfl
  · intro p n hp hdir
    obtain ⟨-, -, -, -, ⟨hnone, -⟩ | ⟨m, b, hfile⟩⟩ := hput p n hp
    · cases hnone.symm.trans hdir
    · cases hfile.symm.trans hdir
  · intro p hp
    exact (h.allowed (hmk p hp)).1
  · intro p hp
    obtain ⟨m, b, hfile⟩ | ⟨-, hdir⟩ := hremove p hp
    · simp [Store.manifest, hfile]
    · simp [Store.manifest, hdir]
  · rintro p (hp | ⟨n, hp⟩) hnone
    · exact (h.allowed (hmk p hp)).2
    · obtain ⟨-, -, -, -, ⟨-, hplain⟩ | ⟨m, b, hfile⟩⟩ := hput p n hp
      · exact hplain
      · cases hnone.symm.trans hfile
  · intro d p hadd hnone hu
    have hc := hadds p hadd
    have hheld : ∀ mode blob, s.entry d = some (.file mode blob) →
        specEdits env s writes d = some .remove := fun mode blob hd =>
      hleaves d (hs.under_held d p mode blob hc hnone hu hd)
    constructor
    · intro n hd
      obtain ⟨bytes, mode, hcd, -, ⟨hdn, -⟩ | ⟨m, b, hfile⟩⟩ := hput d n hd
      · exact hs.under_created d p bytes mode hc hnone hu hcd hdn
      · cases hd.symm.trans (hheld m b hfile)
    · cases hd : s.entry d with
      | none => exact .inl hd
      | some e =>
        cases e with
        | dir => exact .inr (.inl hd)
        | file m b => exact .inr (.inr (hheld m b hd))
  · intro d p hrm hdir hu hsweeps
    have hcd : changeAt env s writes d = some .rmdir := by
      obtain ⟨m, b, hfile⟩ | ⟨hcd, -⟩ := hremove d hrm
      · cases hfile.symm.trans hdir
      · exact hcd
    have hleft : s.entry p ≠ none → specEdits env s writes p = some .remove := fun hp =>
      hleaves p (hs.left d p hcd hp hu hsweeps)
    refine ⟨fun hadd => ?_, hleft⟩
    by_cases hp : s.entry p = none
    · exact hs.added d p hcd (hadds p hadd) hp hu
    · rcases hadd with hmkp | ⟨n, hputp⟩
      · cases hmkp.symm.trans (hleft hp)
      · cases hputp.symm.trans (hleft hp)

/-! ## The pass that lands it -/

def planMemory (plans : List (Plan H)) : InMemory :=
  .written (writtenFiles plans) (pathsOf plans .delete)
    ⟨writtenModes plans, pathsOf plans .mkdir, pathsOf plans .rmdir⟩

def planReach (plans : List (Plan H)) : Reach :=
  .paths ((writtenFiles plans).keys ++ pathsOf plans .delete)

def Change.seen : Change → Seen
  | .write bytes _ => .memory bytes
  | .delete => .gone
  | .mkdir => .dir
  | .rmdir => .gone

omit [DecidableEq H] in
theorem seen_gone_iff {held : Option (Entry H)} {hash : Bytes → H} {c : Option Change} :
    c.map seen = some .gone ↔ c.map (edit hash held) = some .remove := by
  cases c with
  | none => simp
  | some c => cases c <;> simp [seen, edit]

omit [DecidableEq H] in
theorem seen_dir_iff {held : Option (Entry H)} {hash : Bytes → H} {c : Option Change} :
    c.map seen = some .dir ↔ c.map (edit hash held) = some .makeDir := by
  cases c with
  | none => simp
  | some c => cases c <;> simp [seen, edit]

theorem Plannable.get_foldl_planned {V : Type} (h : Plannable env s writes)
    (f : Change → Option V) (p : Path) :
    ((writes.map (planned env s)).foldl (fun m q => (f q.change).elim m (m.insert q.path))
      (∅ : Std.ExtTreeMap Path V))[p]? = (changeAt env s writes p).bind f := by
  have hpair : (writes.map (planned env s)).Pairwise fun q q' => q.path ≠ q'.path :=
    List.pairwise_map.mpr (List.pairwise_map.mp h.nodup)
  have hempty : (∅ : Std.ExtTreeMap Path V)[p]? = none := by simp
  rw [Table.get_foldl_insert_by Plan.path (fun q => f q.change) p _ _ hpair, changeAt,
    List.find?_map, hempty, Option.or_none, Option.bind_map, Option.bind_map]
  rfl

theorem Plannable.writtenFiles_get (h : Plannable env s writes) (p : Path) :
    (writtenFiles (writes.map (planned env s)))[p]? = (changeAt env s writes p).bind bytes :=
  h.get_foldl_planned bytes p

theorem Plannable.writtenModes_get (h : Plannable env s writes) (p : Path) :
    (writtenModes (writes.map (planned env s)))[p]? = (changeAt env s writes p).bind mode :=
  h.get_foldl_planned mode p

theorem Plannable.mem_pathsOf (h : Plannable env s writes) :
    p ∈ pathsOf (writes.map (planned env s)) c ↔ changeAt env s writes p = some c := by
  rw [pathsOf, Table.mem_sortedSet, List.mem_map]
  simp only [List.mem_filter, decide_eq_true_eq, h.mem_planned]
  constructor
  · rintro ⟨q, ⟨⟨hc, -⟩, rfl⟩, rfl⟩
    exact hc
  · intro hc
    exact ⟨⟨p, s.entry p, c⟩, ⟨⟨hc, rfl⟩, rfl⟩, rfl⟩

theorem Plannable.seenAt_eq (h : Plannable env s writes) (dir : Directory) (p : Path) :
    seenAt dir (planReach (writes.map (planned env s)))
    (some (planMemory (writes.map (planned env s)))) s p =
      (changeAt env s writes p).map seen := by
  have hkeys : p ∈ (writtenFiles (writes.map (planned env s))).keys ↔
      (changeAt env s writes p).bind bytes ≠ none := by
    rw [Std.ExtTreeMap.mem_keys, Table.mem_iff, h.writtenFiles_get]
  cases hc : changeAt env s writes p with
  | none =>
    simp [seenAt, memorySeen, diskSeen, planReach, planMemory, InMemory.edits, InMemory.bytes,
      InMemory.files, h.mem_pathsOf, h.writtenFiles_get, hkeys, hc, Reach.whole]
  | some c =>
    cases c <;> simp [seenAt, memorySeen, diskSeen, scopedSeen, planReach, planMemory, removes,
        InMemory.removes, InMemory.edits, InMemory.bytes, InMemory.files, h.mem_pathsOf,
        h.writtenFiles_get, hkeys, hc, seen, bytes, Reach.whole]

/-- The file a proposal's pass stores where the proposal writes one. -/
theorem Plannable.treeLeaf_write (h : Plannable env s writes) (dir : Directory) {bytes : Bytes}
    {mode : Option Mode} (hc : changeAt env s writes p = some (.write bytes mode))
    (hcur : PathTree.swept '/' Sweeps .dir
      (passGone dir (planReach (writes.map (planned env s)))
        (some (planMemory (writes.map (planned env s)))) s)
      (passDirs dir (planReach (writes.map (planned env s)))
        (some (planMemory (writes.map (planned env s)))) s)
      s.entry p = s.entry p) :
    treeLeaf env.hash dir (planReach (writes.map (planned env s)))
      (some (planMemory (writes.map (planned env s)))) s p =
      some (.file ((mode.or ((s.entry p).bind Entry.fileMode)).getD .regular)
        (env.hash bytes)) := by
  have hscoped : (planReach (writes.map (planned env s))).whole = false := rfl
  rw [treeLeaf, passLeaf, passCurrent, h.seenAt_eq, hc, hscoped, if_neg (by simp), hcur]
  simp [seen, filePut, putEntry, planMemory, InMemory.edits, h.writtenModes_get, hc, Change.mode]

/-- **The pass of an accepted proposal leaves what its edits leave.** -/
theorem Plannable.passManifest_eq (h : Plannable env s writes)
    (hs : Structured s (changeAt env s writes)) (hwf : s.manifest.WellFormed) (dir : Directory) :
    passManifest env.hash dir (planReach (writes.map (planned env s)))
      (some (planMemory (writes.map (planned env s)))) s =
      PathTree.applied '/' .dir (specEdits env s writes) s.manifest := by
  have hfits := h.fits hs
  let plans := writes.map (planned env s)
  have hwf' := Manifest.wellFormed_iff.mp hwf
  have hgone : passGone dir (planReach plans) (some (planMemory plans)) s =
      {g | specEdits env s writes g = some .remove} := by
    ext g
    rw [passGone, Set.mem_ofPred_eq, h.seenAt_eq, Set.mem_ofPred_eq, specEdits, seen_gone_iff]
    exact ⟨fun hg => hg.1, fun hg => ⟨hg, hfits.remove_at g hg⟩⟩
  have hdirs : passDirs dir (planReach plans) (some (planMemory plans)) s =
      {d | specEdits env s writes d = some .makeDir} := by
    ext d
    rw [passDirs, Set.mem_ofPred_eq, h.seenAt_eq, Set.mem_ofPred_eq, specEdits, seen_dir_iff]
    refine ⟨fun hd => hd.1, fun hd => ⟨hd, fun hswept => ?_⟩⟩
    cases (hfits.makeDir_at d hd).symm.trans (PathTree.swept_removals hswept)
  have hleaf : treeLeaf env.hash dir (planReach plans) (some (planMemory plans)) s =
      (specEdits env s writes).leaf := by
    funext p
    rw [PathTree.Edits.leaf]
    have hedit : specEdits env s writes p =
      (changeAt env s writes p).map (edit env.hash (s.entry p)) := rfl
    cases hc : changeAt env s writes p with
    | none =>
      rw [treeLeaf, passLeaf, h.seenAt_eq, hc]
      simp [hedit, hc]
    | some c =>
      cases c with
      | write bytes mode =>
        have hput : specEdits env s writes p =
            some ((write bytes mode).edit env.hash (s.entry p)) := by
          rw [hedit, hc, Option.map_some]
        have hswept := PathTree.Edits.Fits.swept_put hwf' hfits hput
        rw [← hgone, ← hdirs] at hswept
        rw [hput]
        exact h.treeLeaf_write dir hc hswept
      | delete | mkdir | rmdir =>
        rw [treeLeaf, passLeaf, h.seenAt_eq, hc]
        simp [hedit, hc, edit, seen, filePut, putEntry]
  rw [passManifest, hgone, hdirs, hleaf]
  exact PathTree.Edits.Fits.passed_eq_applied hwf' hfits

end Plans

end LeyLine
