import LeyLine.Lib.Table
import LeyLine.StoreFs.Serve

/-!
# The inode table

`inode_of` numbers a path the first time it is asked for it; a rename moves the numbers of a path
and of all below it, with one `rename` for each path the table held when it began. Through any
sequence of these the two maps stay inverse to each other and no number comes back.
-/

namespace LeyLine.StoreFs

open Table (get_erase get_insert)

namespace Inodes

/-- A rename that succeeded: neither path is the root, and neither lies below the other (a target
with something below it is not replaced). -/
structure Move where
  src : Path
  dst : Path
  src_ne : src ≠ []
  dst_ne : dst ≠ []
  not_into : ¬ Under src dst
  not_onto : ¬ Under dst src

/-- Where the move takes a path at or below its source. -/
def Move.path (m : Move) (p : Path) : Path := m.dst ++ p.drop m.src.length

def Inverse (n : Inodes) : Prop :=
  ∀ (i : Nat) (p : Path), n.byInode[i]? = some p ↔ n.byPath[p]? = some i

/-- The move takes a path the table holds to `p`. -/
def Overtaken (n : Inodes) (m : Move) (p : Path) : Prop :=
  ∃ q : Path, n.byPath[q]? ≠ none ∧ AtOrUnder m.src q ∧ m.path q = p

variable {n : Inodes} {m : Move} {p q : Path}

/-! ## Where a path goes -/

theorem Move.path_append (m : Move) (r : Path) : m.path (m.src ++ r) = m.dst ++ r := by
  rw [Move.path, List.drop_left]

theorem Move.exists_append (h : AtOrUnder m.src p) :
    ∃ r, p = m.src ++ r ∧ AtOrUnder m.dst (m.dst ++ r) := by
  obtain rfl | h := h
  · exact ⟨[], by simp, .inl (by simp)⟩
  · obtain ⟨r, rfl⟩ := SepPath.under_iff.mp h
    exact ⟨'/' :: r, rfl, .inr (SepPath.under_append _ _)⟩

theorem Move.path_inj (hp : AtOrUnder m.src p) (hq : AtOrUnder m.src q) (h : m.path p = m.path q) :
    p = q := by
  obtain ⟨r, rfl, -⟩ := m.exists_append hp
  obtain ⟨r', rfl, -⟩ := m.exists_append hq
  rw [m.path_append, m.path_append] at h
  rw [List.append_cancel_left h]

/-- The two trees do not meet unless they are one. -/
theorem Move.path_self (hp : AtOrUnder m.src p) (hq : AtOrUnder m.src (m.path p)) :
    m.path p = p := by
  obtain ⟨r, rfl, hdst⟩ := m.exists_append hp
  rw [m.path_append] at hq ⊢
  rw [((hq.comparable hdst).resolve_right m.not_onto).resolve_right m.not_into]

/-! ## One path, and a tree -/

theorem get_rename (h : n.Inverse) (src dst : Path) (i : Nat) (p : Path) :
    ((n.rename src dst).byInode[i]? = some p ↔ (n.rename src dst).byPath[p]? = some i) ∧
      ((n.rename src dst).byPath[p]? = some i ↔ n.byPath[src]? = some i ∧ p = dst ∨
        n.byPath[p]? = some i ∧ p ≠ src ∧ (p = dst → n.byPath[src]? = none)) := by
  have hip := h i p
  unfold rename
  cases hsrc : n.byPath[src]? with
  | none => grind
  | some j =>
    have hjs := (h j src).mpr hsrc
    have hid := h i dst
    simp only [get_insert]
    cases hdst : (n.byPath.erase src)[dst]? with
    | none =>
      rw [get_erase] at hdst ⊢
      grind
    | some k =>
      rw [get_erase] at hdst
      simp only [get_erase]
      have := h k dst
      grind

theorem rename_next (n : Inodes) (src dst : Path) : (n.rename src dst).next = n.next := by
  unfold rename
  split <;> rfl

theorem get_renames {l : List Path} (hnodup : l.Nodup) (hbelow : ∀ p ∈ l, AtOrUnder m.src p)
    (h : n.Inverse) :
    let n' := l.foldl (fun n p => n.rename p (m.path p)) n
    n'.Inverse ∧ n'.next = n.next ∧ ∀ (i : Nat) (q : Path), n'.byPath[q]? = some i ↔
      (∃ p ∈ l, n.byPath[p]? = some i ∧ q = m.path p) ∨
        n.byPath[q]? = some i ∧ q ∉ l ∧ ∀ p ∈ l, q = m.path p → n.byPath[p]? = none := by
  induction l generalizing n with
  | nil => simp [h]
  | cons p l ih =>
    rw [List.nodup_cons] at hnodup
    rw [List.forall_mem_cons] at hbelow
    obtain ⟨hinverse, hnext, hrest⟩ :=
      ih hnodup.2 hbelow.2 fun i q => (get_rename h p (m.path p) i q).1
    refine ⟨hinverse, hnext.trans (rename_next n p _), fun i q => (hrest i q).trans ?_⟩
    -- no other path goes where this one goes, nor stands there
    have hapart : m.path p ∉ l := fun hq => hnodup.1 (m.path_self hbelow.1 (hbelow.2 _ hq) ▸ hq)
    have hkept : ∀ q ∈ l, (n.rename p (m.path p)).byPath[q]? = n.byPath[q]? := fun q hq => by
      refine Option.ext fun i => (get_rename h p (m.path p) i q).2.trans ?_
      have hne : q ≠ p ∧ q ≠ m.path p :=
        ⟨fun heq => hnodup.1 (heq ▸ hq), fun heq => hapart (heq ▸ hq)⟩
      simp [hne]
    have hmoved : (∃ q' ∈ l, (n.rename p (m.path p)).byPath[q']? = some i ∧ q = m.path q') ↔
        ∃ q' ∈ l, n.byPath[q']? = some i ∧ q = m.path q' :=
      exists_congr fun q' => and_congr_right fun hq' => by rw [hkept q' hq']
    have hfree : (∀ q' ∈ l, q = m.path q' → (n.rename p (m.path p)).byPath[q']? = none) ↔
        ∀ q' ∈ l, q = m.path q' → n.byPath[q']? = none :=
      forall₂_congr fun q' hq' => by rw [hkept q' hq']
    rw [hmoved, hfree, (get_rename h p _ i q).2, List.exists_mem_cons_iff, List.forall_mem_cons,
      List.mem_cons, not_or]
    constructor
    · rintro (hm | ⟨hi | ⟨hi, hne, hover⟩, hnot, hfree⟩)
      · exact .inl (.inr hm)
      · exact .inl (.inl hi)
      · exact .inr ⟨hi, ⟨hne, hnot⟩, hover, hfree⟩
    · rintro ((⟨hi, rfl⟩ | hm) | ⟨hi, hnot, hover, hfree⟩)
      · refine .inr ⟨.inl ⟨hi, rfl⟩, hapart, fun q hq heq => absurd ?_ hnodup.1⟩
        rwa [m.path_inj hbelow.1 (hbelow.2 q hq) heq]
      · exact .inl hm
      · exact .inr ⟨.inr ⟨hi, hnot.1, hover⟩, hnot.2, hfree⟩

theorem get_renameTree (h : n.Inverse) (m : Move) :
    let n' := n.renameTree m.src m.dst
    n'.Inverse ∧ n'.next = n.next ∧ ∀ (i : Nat) (q : Path), n'.byPath[q]? = some i ↔
      (∃ p, AtOrUnder m.src p ∧ n.byPath[p]? = some i ∧ q = m.path p) ∨
        n.byPath[q]? = some i ∧ ¬ AtOrUnder m.src q ∧ ¬ n.Overtaken m q := by
  have heq : n.renameTree m.src m.dst =
      (m.src :: n.byPath.keys.filter fun p => (m.src ++ ['/']).isPrefixOf p).foldl
      (fun n p => n.rename p (m.path p)) n := by
    have hsrc : m.path m.src = m.dst := by simp [Move.path]
    rw [List.foldl_cons, hsrc]
    rfl
  have hnodup : (m.src :: n.byPath.keys.filter fun p => (m.src ++ ['/']).isPrefixOf p).Nodup := by
    refine List.nodup_cons.mpr ⟨fun hin => ?_, n.byPath.nodup_keys.filter _⟩
    rw [List.mem_filter, List.isPrefixOf_iff_prefix] at hin
    exact SepPath.Under.ne hin.2 rfl
  have hmem (p : Path) : p ∈
      m.src :: n.byPath.keys.filter (fun p => (m.src ++ ['/']).isPrefixOf p) ↔
      p = m.src ∨ n.byPath[p]? ≠ none ∧ Under m.src p := by
    rw [List.mem_cons, List.mem_filter, Std.ExtTreeMap.mem_keys, Table.mem_iff,
      List.isPrefixOf_iff_prefix]
    rfl
  rw [heq]
  generalize m.src :: n.byPath.keys.filter _ = l at hnodup hmem ⊢
  have hbelow : ∀ p ∈ l, AtOrUnder m.src p := fun p hp => ((hmem p).mp hp).imp Eq.symm And.right
  have hheld : ∀ p : Path, n.byPath[p]? ≠ none → AtOrUnder m.src p → p ∈ l := fun p hp hat =>
    (hmem p).mpr (hat.imp Eq.symm fun hu => ⟨hp, hu⟩)
  obtain ⟨hinverse, hnext, hget⟩ := get_renames hnodup hbelow h
  refine ⟨hinverse, hnext,
    fun i q => (hget i q).trans (or_congr ⟨?_, ?_⟩ (and_congr_right fun hq => and_congr ?_ ?_))⟩
  · rintro ⟨p, hp, hi, rfl⟩
    exact ⟨p, hbelow p hp, hi, rfl⟩
  · rintro ⟨p, hp, hi, rfl⟩
    exact ⟨p, hheld p (by simp [hi]) hp, hi, rfl⟩
  · exact not_congr ⟨hbelow q, hheld q (by simp [hq])⟩
  · refine ⟨fun hfree ⟨p, hp, hat, heq⟩ => hp (hfree p (hheld p hp hat) heq.symm),
      fun hfree p hp heq => ?_⟩
    by_contra hne
    exact hfree ⟨p, hne, hbelow p hp, heq.symm⟩

end Inodes

/-! ## Any sequence -/

open Inodes

inductive InodeStep where
  | allocate (path : Path)
  | rename (m : Move)

variable {H Rows : Type} {P : Platform} {w : World H Rows P}

def World.inodeStep (w : World H Rows P) : InodeStep → World H Rows P
  | .allocate path => (inodeOf path w).2
  | .rename m => { w with inodes := w.inodes.renameTree m.src m.dst }

def World.inodeRun (w : World H Rows P) (steps : List InodeStep) : World H Rows P :=
  steps.foldl World.inodeStep w

structure Inodes.Good (n : Inodes) : Prop where
  inverse : n.Inverse
  root : n.byPath[([] : Path)]? = some rootInode
  below : ∀ (p : Path) (i : Nat), n.byPath[p]? = some i → i < n.next

/-- A number that was given out and names nothing goes on to name nothing. -/
structure Inodes.Before (n n' : Inodes) : Prop where
  next : n.next ≤ n'.next
  retired : ∀ i < n.next, n.byInode[i]? = none → n'.byInode[i]? = none

theorem Inodes.Good.step (h : w.inodes.Good) (s : InodeStep) :
    (w.inodeStep s).inodes.Good ∧ w.inodes.Before (w.inodeStep s).inodes := by
  cases s with
  | allocate path =>
    rw [World.inodeStep, inodeOf]
    cases hpath : w.inodes.byPath[path]? with
    | some inode => exact ⟨h, le_rfl, fun _ _ hi => hi⟩
    | none =>
      have hroot : path ≠ [] := by
        rintro rfl
        cases hpath.symm.trans h.root
      refine ⟨⟨fun i p => ?_, ?_, fun p i hi => ?_⟩, Nat.le_succ _, fun i hi hnone => ?_⟩
      · have hip := h.inverse i p
        have hlt := h.below p i
        simp only [get_insert]
        grind
      · simp only [get_insert, if_neg hroot, h.root]
      · simp only [get_insert] at hi
        have hlt := h.below p i
        grind
      · simp only [get_insert, if_neg hi.ne', hnone]
  | rename m =>
    obtain ⟨hinverse, hnext, hget⟩ := get_renameTree h.inverse m
    have hold : ∀ (q : Path) (i : Nat), (w.inodes.renameTree m.src m.dst).byPath[q]? = some i →
        ∃ p : Path, w.inodes.byPath[p]? = some i := fun q i hq =>
      ((hget i q).mp hq).elim (fun ⟨p, _, hp, _⟩ => ⟨p, hp⟩) fun hq => ⟨q, hq.1⟩
    refine ⟨⟨hinverse, (hget _ _).mpr (.inr ⟨h.root, ?_, ?_⟩), fun q i hi => ?_⟩, hnext.ge,
      fun i _ hnone => ?_⟩
    · exact fun hat => hat.elim m.src_ne SepPath.not_under_nil
    · exact fun ⟨q, _, _, hnil⟩ => m.dst_ne (List.append_eq_nil_iff.mp hnil).1
    · obtain ⟨p, hp⟩ := hold q i hi
      exact hnext ▸ h.below p i hp
    · refine Option.eq_none_iff_forall_ne_some.mpr fun q hq => ?_
      obtain ⟨p, hp⟩ := hold q i ((hinverse i q).mp hq)
      cases hnone.symm.trans ((h.inverse i p).mpr hp)

theorem Inodes.Good.run (h : w.inodes.Good) (steps : List InodeStep) :
    (w.inodeRun steps).inodes.Good ∧ w.inodes.Before (w.inodeRun steps).inodes := by
  induction steps generalizing w with
  | nil => exact ⟨h, le_rfl, fun _ _ hi => hi⟩
  | cons s steps ih =>
    obtain ⟨hgood, hstep⟩ := h.step s
    obtain ⟨hgood', hrest⟩ := ih hgood
    refine ⟨hgood', hstep.next.trans hrest.next, fun i hi hnone => ?_⟩
    exact hrest.retired i (hi.trans_le hstep.next) (hstep.retired i hi hnone)

theorem World.allocate_answers (w : World H Rows P) (path : Path) :
    ∃ i, (inodeOf path w).1 = .ok i ∧ (w.inodeStep (.allocate path)).inodes.byPath[path]? = some i ∧
    (∀ q, q ≠ path → (w.inodeStep (.allocate path)).inodes.byPath[q]? = w.inodes.byPath[q]?) ∧
    (w.inodes.byPath[path]? = none ∧ i = w.inodes.next ∨ w.inodes.byPath[path]? = some i) := by
  rw [World.inodeStep, inodeOf]
  cases hpath : w.inodes.byPath[path]? with
  | some inode => exact ⟨inode, rfl, hpath, fun _ _ => rfl, .inr rfl⟩
  | none =>
    refine ⟨w.inodes.next, rfl, ?_, fun q hq => ?_, .inl ⟨rfl, rfl⟩⟩
    · simp only [get_insert, if_true]
    · simp only [get_insert, if_neg hq.symm]

end LeyLine.StoreFs
