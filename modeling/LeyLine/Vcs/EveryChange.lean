import LeyLine.Vcs.CommitLoop

/-!
# Every change reaches a snapshot

Whatever changes the graph should leave something behind that makes the loop take another
snapshot: an event on its way, or a root the loop has not seen. `Settled` says so for each
place the loop can be at. Steps that are `Allowed` keep it, and the loop, left alone, comes
to rest; at rest, nothing is left behind and the newest commit holds the files.

What is not allowed is what breaks it: operations that send no event, a snapshot that
fails when it was the last, senders dropped before the loop is at rest, and a publish
while the loop is on its way to overwrite the root it last saw.
-/

namespace LeyLine.Vcs

open Std (ExtTreeMap)
open Staging (Held LiveGraph Nodes joinId slice)
open NodeTree (fileBytes)

variable {w : Nat} {keep : Bytes → Bytes} {listing : Listing} {rootOf : Nodes → Digest}

/-! ## Graphs a snapshot holds all of -/

/-- No file that is not ignored stands in an ignored directory, and each is covered by its
size. -/
def plain (t : Nodes) : Bool :=
  t.toList.all fun x => x.2.isDir || isIgnored x.1 ||
    ((parents x.1).all (fun d => !isIgnored d) &&
    Decidable.decide (x.2.content.length ≤ max x.2.size 1))

variable {t : Nodes}

theorem plain_iff : plain t = true ↔ ∀ id h, t[id]? = some h → h.isDir = false →
    isIgnored id = false →
      (∀ d, Under d id → isIgnored d = false) ∧ h.content.length ≤ max h.size 1 := by
  unfold plain
  rw [List.all_eq_true]
  constructor
  · intro hall id h hid hfile hkept
    have hx := hall (id, h) (ExtTreeMap.mem_toList_iff_getElem?_eq_some.mpr hid)
    simp only [hfile, hkept, Bool.false_or, Bool.and_eq_true, List.all_eq_true,
      Bool.not_eq_true', decide_eq_true_eq] at hx
    exact ⟨fun d hd => hx.1 d (SepPath.mem_parents.mpr hd), hx.2⟩
  · rintro hall ⟨id, h⟩ hx
    have hid := ExtTreeMap.mem_toList_iff_getElem?_eq_some.mp hx
    cases hfile : h.isDir with
    | true => rfl
    | false =>
      cases hkept : isIgnored id with
      | true => rfl
      | false =>
        obtain ⟨habove, hsize⟩ := hall id h hid hfile hkept
        simp only [Bool.false_or, Bool.and_eq_true, List.all_eq_true, Bool.not_eq_true',
          decide_eq_true_eq]
        exact ⟨fun d hd => habove d (SepPath.mem_parents.mp hd), hsize⟩

theorem walk_plain (ht : t.Hierarchical) (hplain : plain t = true) {tree : JjTree}
    (hwalk : walkGraphIntoTree t (height t) [] ∅ = .ok tree) (id : Path) :
    tree[id]? = if isIgnored id = true then none else fileBytes t id := by
  obtain ⟨tree', hwalk', hheld⟩ := walk_spec ht
  cases hwalk'.symm.trans hwalk
  split
  · rename_i hign
    exact (hheld id).2 (not_meets_of_ignored ht hign)
  · rename_i hkept
    rw [Bool.not_eq_true] at hkept
    by_cases hm : Meets t [] id
    · obtain ⟨h, hh, hfile⟩ := hm.held
      rw [(hheld id).1 hm, NodeTree.fileBytes_eq_some_iff.mpr ⟨h, hh, hfile, rfl⟩,
        snapshotBytes, hh]
      exact congrArg some (List.take_of_length_le ((plain_iff.mp hplain) id h hh hfile hkept).2)
    · rw [(hheld id).2 hm]
      by_contra hne
      obtain ⟨b, hb⟩ := Option.ne_none_iff_exists'.mp (Ne.symm hne)
      obtain ⟨h, hh, hfile, -⟩ := NodeTree.fileBytes_eq_some_iff.mp hb
      exact hm (meets_of_kept ht (by rw [hb]; simp) hkept
        ((plain_iff.mp hplain) id h hh hfile hkept).1)

/-! ## What is allowed -/

def Repo.fresh (repo : Repo w) (id : CommitId w) : Bool :=
  id ≠ repo.rootCommitId && (repo.getCommit id).isNone

namespace Loop

def Queued (s : Loop w) : Prop := s.unsent ≠ [] ∨ s.channel ≠ []

instance (s : Loop w) : Decidable s.Queued := inferInstanceAs (Decidable (_ ∨ _))

/-- The loop compares the root with the one it last saw before it sees another. -/
def comparesRoot (s : Loop w) : Bool :=
  match s.phase with
  | .select => true
  | .quiet => true
  | .walking _ ofRoot => ofRoot
  | _ => false

/-- The steps after which every change is still seen. A truncate sends no event, so one of
another change must be on its way. -/
def Allowed (s : Loop w) : Action w → Prop
  | .perform _ (.truncate _) => s.Queued
  | .perform _ (.revert _) => False
  | .publish root _ => s.watched = true ∧ s.closed = false ∧ root ≠ s.lastRoot ∧
      root ≠ zeroRoot ∧ s.comparesRoot = true
  | .dropSenders => s.Rests
  | .commit succeeds id _ => s.isWalking = false ∨ s.Queued ∨
      (succeeds = true ∧ s.repo.fresh id = true ∧ plain s.graph = true) ∨
      (succeeds = false ∧ s.rootDue = true)
  | _ => True

instance (s : Loop w) : ∀ a : Action w, Decidable (s.Allowed a)
  | .perform _ (.create _ _ _) => isTrue trivial
  | .perform _ (.write _ _ _) => isTrue trivial
  | .perform _ (.truncate _) => inferInstanceAs (Decidable s.Queued)
  | .perform _ (.remove _) => isTrue trivial
  | .perform _ (.rename _ _ _) => isTrue trivial
  | .perform _ (.revert _) => isFalse nofun
  | .send _ => isTrue trivial
  | .publish _ _ => inferInstanceAs (Decidable (_ ∧ _))
  | .dropSenders => inferInstanceAs (Decidable s.Rests)
  | .recv => isTrue trivial
  | .elapse => isTrue trivial
  | .poll _ => isTrue trivial
  | .commit _ _ _ => inferInstanceAs (Decidable (_ ∨ _))
  | .flush _ => isTrue trivial
  | .reread _ => isTrue trivial

/-! ## What every place of the loop leaves to be done -/

def Settled (s : Loop w) : Prop :=
  match s.phase with
  | .select => s.Queued ∨ s.rootDue = true ∨ s.InSync
  | .quiet => True
  | .walking _ false => s.touched = true → s.Queued
  | .walking _ true => s.touched = true → s.Queued ∨ s.rootDue = true
  | .flush => s.Queued ∨ s.InSync
  | .reread => s.Queued ∨ s.InSync
  | .done => s.InSync

structure Good (s : Loop w) : Prop where
  tree : s.graph.Hierarchical
  settled : s.Settled
  closed : s.closed = true → (s.phase = .select ∨ s.phase = .done) ∧ s.unsent = [] ∧
    s.channel = [] ∧ s.rootDue = false
  done : s.phase = .done → s.closed = true

variable {s : Loop w}

theorem settled_of_queued (h : s.Queued) (hdone : s.phase ≠ .done) : s.Settled := by
  unfold Settled
  split
  · exact .inl h
  · trivial
  · exact fun _ => h
  · exact fun _ => .inl h
  · exact .inl h
  · exact .inl h
  · rename_i hphase
    exact absurd hphase hdone

theorem Good.inSync (h : s.Good) (hrests : s.Rests) : s.InSync := by
  have hsettled := h.settled
  unfold Settled at hsettled
  rcases hrests with hdone | ⟨hselect, hunsent, hchannel, hroot⟩
  · rwa [hdone] at hsettled
  · rw [hselect] at hsettled
    rcases hsettled with (hu | hc) | hr | hsync
    · exact absurd hunsent hu
    · exact absurd hchannel hc
    · cases hr.symm.trans hroot
    · exact hsync

end Loop

/-! ## Each step keeps it -/

theorem map_toOption_eq_some {ε α β : Type*} {x : Except ε α} {f : α → β} {b : β}
    (h : x.toOption.map f = some b) : ∃ a, x = .ok a ∧ f a = b := by
  cases x with
  | error e => simp [Except.toOption] at h
  | ok a => exact ⟨a, rfl, Option.some.inj h⟩

variable {repo : Repo w}

theorem Op.perform_spec {now : Int} {t t' : Nodes} {event : Option WriteEvent}
    {op : Op} (hrevert : ∀ hex, op ≠ .revert hex)
    (h : op.perform keep listing repo now t = some (t', event)) (ht : t.Hierarchical) :
    (event = none → ∃ id, op = .truncate id) ∧ t'.Hierarchical := by
  cases op with
  | create parentId name isDir =>
    obtain ⟨t₁, hcreate, heq⟩ := map_toOption_eq_some h
    cases heq
    exact ⟨by simp, NodeTree.createNode_hierarchical ht hcreate⟩
  | write id data offset =>
    unfold Op.perform at h
    dsimp only at h
    split at h
    · simp at h
    · obtain ⟨t₁, hwrite, heq⟩ := map_toOption_eq_some h
      cases heq
      exact ⟨by simp, NodeTree.writeContent_hierarchical ht hwrite⟩
  | truncate id =>
    cases h
    exact ⟨fun _ => ⟨id, rfl⟩, NodeTree.truncate_hierarchical ht now id⟩
  | remove id =>
    cases h
    exact ⟨by simp, ht.remove id⟩
  | rename id newParentId newName =>
    obtain ⟨t₁, hrename, heq⟩ := map_toOption_eq_some h
    cases heq
    exact ⟨by simp, NodeTree.renameNode_hierarchical ht hrename⟩
  | revert hex => exact absurd rfl (hrevert hex)

namespace Loop

variable {s : Loop w}

theorem good_perform {now : Int} {op : Op} (h : s.Good) (hallowed : s.Allowed (.perform now op)) :
    (s.next keep listing rootOf (.perform now op)).Good := by
  have hrevert : ∀ hex, op ≠ .revert hex := by
    rintro hex rfl
    exact hallowed
  rw [next]
  split
  · exact h
  · rename_i hopen
    rw [Bool.not_eq_true, Bool.or_eq_false_iff] at hopen
    split
    · exact h
    · rename_i t event hperform
      obtain ⟨hevent, ht⟩ := Op.perform_spec hrevert hperform h.tree
      have hqueued : s.unsent ++ event.toList ≠ [] ∨ s.channel ≠ [] := by
        cases event with
        | some e => exact .inl (by simp)
        | none =>
          obtain ⟨id, rfl⟩ := hevent rfl
          rw [Option.toList_none, List.append_nil]
          exact hallowed
      have hnotDone : s.phase ≠ .done := fun hdone => by
        rw [h.done hdone] at hopen
        cases hopen.1
      refine ⟨ht, settled_of_queued hqueued hnotDone, fun hclosed => ?_, h.done⟩
      cases hopen.1.symm.trans hclosed

theorem good_send (h : s.Good) (i : Nat) : (s.next keep listing rootOf (.send i)).Good := by
  rw [next]
  split
  · exact h
  · rename_i e he
    -- a closed loop has nothing to send
    have hopen : s.closed = false := by
      by_contra hclosed
      rw [Bool.not_eq_false] at hclosed
      rw [(h.closed hclosed).2.1] at he
      simp at he
    refine ⟨h.tree, settled_of_queued (.inr (by simp)) fun hdone => ?_, fun hclosed => ?_, h.done⟩
    · cases (h.done hdone).symm.trans hopen
    · cases hopen.symm.trans hclosed

theorem good_publish {root : Digest} {image : LiveGraph} (h : s.Good)
    (hallowed : s.Allowed (.publish root image)) :
    (s.next keep listing rootOf (.publish root image)).Good := by
  obtain ⟨hwatched, hopen, hnew, hzero, hcompares⟩ := hallowed
  have hdue : rootDue { s with root := root, graph := image.nodes, touched := true } = true := by
    simp [rootDue, hwatched, hnew, hzero]
  refine ⟨image.tree, ?_, fun hclosed => absurd (hopen.symm.trans hclosed) (by simp), h.done⟩
  unfold comparesRoot at hcompares
  unfold Settled
  rw [next]
  split
  · exact .inr (.inl hdue)
  · trivial
  · rename_i hphase
    rw [hphase] at hcompares
    simp at hcompares
  · exact fun _ => .inr hdue
  all_goals
    rename_i hphase
    rw [hphase] at hcompares
    simp at hcompares

theorem good_dropSenders (h : s.Good) (hallowed : s.Allowed .dropSenders) :
    (s.next keep listing rootOf .dropSenders).Good := by
  rw [next]
  split
  · refine ⟨h.tree, h.settled, fun _ => ?_, fun hdone => rfl⟩
    rcases hallowed with hdone | ⟨hselect, hunsent, hchannel, hroot⟩
    · exact h.closed (h.done hdone)
    · exact ⟨.inl hselect, hunsent, hchannel, hroot⟩
  · exact h

theorem good_recv (h : s.Good) : (s.next keep listing rootOf .recv).Good := by
  -- the first event, or the end of the channel
  have hrecv : s.phase = .select ∨ s.phase = .quiet → s.recv.Good := by
    intro hphase
    unfold Loop.recv
    split
    · rename_i e rest hchannel
      refine ⟨h.tree, trivial, fun hclosed => ?_, fun hdone => absurd hdone (by simp)⟩
      rw [(h.closed hclosed).2.2.1] at hchannel
      simp at hchannel
    · rename_i hchannel
      split
      · rename_i hclosed
        obtain ⟨hplace, hunsent, -, hroot⟩ := h.closed hclosed
        have hselect : s.phase = .select := by
          rcases hphase with hselect | hquiet
          · exact hselect
          · rcases hplace with hplace | hplace
            · exact hplace
            · cases hquiet.symm.trans hplace
        exact ⟨h.tree, h.inSync (.inr ⟨hselect, hunsent, hchannel, hroot⟩),
          fun _ => ⟨.inr rfl, hunsent, hchannel, hroot⟩, fun _ => hclosed⟩
      · exact h
  rw [next]
  split
  · rename_i hphase
    exact hrecv (.inl hphase)
  · rename_i hphase
    exact hrecv (.inr hphase)
  · exact h

theorem good_elapse (h : s.Good) : (s.next keep listing rootOf .elapse).Good := by
  rw [next]
  split
  · rename_i hquiet
    refine ⟨h.tree, fun htouched => absurd htouched (by simp), fun hclosed => ?_,
      fun hdone => absurd hdone (by simp)⟩
    cases hquiet.2.2.symm.trans hclosed
  · exact h

theorem good_poll (h : s.Good) (opens : Bool) :
    (s.next keep listing rootOf (.poll opens)).Good := by
  rw [next]
  split
  · rename_i hdue
    refine ⟨h.tree, fun htouched => absurd htouched (by simp), fun hclosed => ?_,
      fun hdone => absurd hdone (by simp)⟩
    cases hdue.2.2.symm.trans (h.closed hclosed).2.2.2
  · exact h

theorem good_flush (h : s.Good) (succeeds : Bool) :
    (s.next keep listing rootOf (.flush succeeds)).Good := by
  rw [next]
  split
  · rename_i hflush
    have hsettled := h.settled
    unfold Settled at hsettled
    rw [hflush] at hsettled
    refine ⟨h.tree, hsettled, fun hclosed => ?_, fun hdone => absurd hdone (by simp)⟩
    rcases (h.closed hclosed).1 with hplace | hplace
    · cases hflush.symm.trans hplace
    · cases hflush.symm.trans hplace
  · exact h

theorem good_reread (h : s.Good) (opens : Bool) :
    (s.next keep listing rootOf (.reread opens)).Good := by
  rw [next]
  split
  · rename_i hreread
    have hsettled := h.settled
    unfold Settled at hsettled
    rw [hreread] at hsettled
    refine ⟨h.tree, ?_, fun hclosed => ?_, fun hdone => absurd hdone (by simp)⟩
    · rcases hsettled with hqueued | hsync
      · exact .inl hqueued
      · exact .inr (.inr hsync)
    · rcases (h.closed hclosed).1 with hplace | hplace
      · cases hreread.symm.trans hplace
      · cases hreread.symm.trans hplace
  · exact h

variable {id : CommitId w}

theorem fresh_newCommit (h : repo.fresh id = true)
    (commit : Commit w) : ∃ repo', repo.newCommit id commit = .ok repo' ∧
    repo'.newestTree = commit.tree := by
  simp only [Repo.fresh, Bool.and_eq_true, decide_eq_true_eq, ne_eq, Option.isNone_iff_eq_none] at h
  refine ⟨_, if_neg ?_, rfl⟩
  rintro (heq | hsome)
  · exact h.1 heq
  · rw [h.2] at hsome
    simp at hsome

theorem committed_spec (h : s.Good) (message : Text) (torn : JjTree)
    (htouched : s.touched = false) (hfresh : s.repo.fresh id = true)
    (hplain : plain s.graph = true) :
    ∃ repo, s.committed message id torn = .ok repo ∧ ∀ k, repo.newestTree[k]? =
      if isIgnored k = true then none else fileBytes s.graph k := by
  obtain ⟨tree, hwalk, -⟩ := walk_spec h.tree
  obtain ⟨repo, hnew, htree⟩ := fresh_newCommit hfresh ⟨s.repo.parentsOfNew, tree, message⟩
  refine ⟨repo, ?_, fun k => ?_⟩
  · rw [committed, htouched, commitSnapshot_ok hwalk hnew]
    rfl
  · rw [htree]
    exact walk_plain h.tree hplain hwalk k

theorem Good.leave (h : s.Good) {message : Text} {ofRoot : Bool}
    (hwalking : s.phase = .walking message ofRoot) {phase : Phase}
    (hphase : phase ≠ .done) (hsettled : Settled { s with repo := repo, phase := phase }) :
    Good { s with repo := repo, phase := phase } := by
  refine ⟨h.tree, hsettled, fun hclosed => ?_, fun hdone => absurd hdone hphase⟩
  rcases (h.closed hclosed).1 with hplace | hplace
  · cases hwalking.symm.trans hplace
  · cases hwalking.symm.trans hplace

theorem afterCommit_ne_done (ofRoot : Bool) : afterCommit ofRoot ≠ .done := by
  cases ofRoot with
  | false | true => simp [afterCommit]

theorem good_commit {succeeds : Bool} {torn : JjTree} (h : s.Good)
    (hallowed : s.Allowed (.commit succeeds id torn)) :
    (s.next keep listing rootOf (.commit succeeds id torn)).Good := by
  rw [next]
  split
  · rename_i message ofRoot hwalking
    by_cases hq : s.Queued
    · -- with an event on its way another snapshot follows
      split
      · exact h.leave hwalking (afterCommit_ne_done ofRoot)
          (settled_of_queued hq (afterCommit_ne_done ofRoot))
      · exact h.leave hwalking (by simp) (settled_of_queued hq (by simp))
    · have hselect : s.rootDue = true → ∀ repo : Repo w,
          Settled { s with repo := repo, phase := .select } := fun hd _ => .inr (.inl hd)
      rcases hallowed with hnot | hq' | ⟨rfl, hfresh, hplain⟩ | ⟨rfl, hd⟩
      · rw [isWalking, hwalking] at hnot
        simp at hnot
      · exact absurd hq' hq
      · have hsettled := h.settled
        unfold Settled at hsettled
        rw [hwalking] at hsettled
        by_cases htouched : s.touched = true
        · -- only a poll's snapshot can have been changed under: the root is another again
          cases ofRoot with
          | false => exact absurd (hsettled htouched) hq
          | true =>
            have hd := (hsettled htouched).resolve_left hq
            split
            · exact h.leave hwalking (by simp [afterCommit]) (hselect hd _)
            · exact h.leave hwalking (by simp) (hselect hd _)
        · rw [Bool.not_eq_true] at htouched
          obtain ⟨repo, hcommitted, hsync⟩ := committed_spec h message torn htouched
            hfresh hplain
          rw [hcommitted]
          refine h.leave hwalking (afterCommit_ne_done ofRoot) ?_
          cases ofRoot with
          | false => exact .inr hsync
          | true => exact .inr (.inr hsync)
      · exact h.leave hwalking (by simp) (hselect hd _)
  · exact h

variable {a : Action w}

theorem good_next (h : s.Good) (hallowed : s.Allowed a) : (s.next keep listing rootOf a).Good := by
  cases a with
  | perform now op => exact good_perform h hallowed
  | send i => exact good_send h i
  | publish root image => exact good_publish h hallowed
  | dropSenders => exact good_dropSenders h hallowed
  | recv => exact good_recv h
  | elapse => exact good_elapse h
  | poll opens => exact good_poll h opens
  | commit succeeds id torn => exact good_commit h hallowed
  | flush succeeds => exact good_flush h succeeds
  | reread opens => exact good_reread h opens

/-! ## The loop comes to rest -/

def Turn (s : Loop w) : Action w → Prop
  | .recv => (s.phase = .select ∨ s.phase = .quiet) ∧ (s.channel ≠ [] ∨ s.closed = true)
  | .elapse => s.phase = .quiet ∧ s.channel = [] ∧ s.closed = false
  | .poll opens => s.phase = .select ∧ opens = true ∧ s.rootDue = true
  | .commit _ _ _ => s.isWalking = true
  | .flush _ => s.phase = .flush
  | .reread _ => s.phase = .reread
  | _ => False

/-- What the loop has before it: so much for each event, and for what the place it is at
leads to. -/
def ahead (s : Loop w) : Nat :=
  7 * s.channel.length +
    match s.phase with
    | .select => (if s.rootDue then 2 else 0) + 1
    | .quiet => 7
    | .walking _ false => 6
    | .walking _ true => (if s.rootDue then 2 else 0) + 2
    | .flush => 5
    | .reread => 4
    | .done => 0

theorem ahead_recv (hphase : s.phase = .select ∨ s.phase = .quiet)
    (hready : s.channel ≠ [] ∨ s.closed = true) : s.recv.ahead < s.ahead := by
  unfold Loop.recv
  cases hchannel : s.channel with
  | cons e rest =>
    have hlen : s.channel.length = rest.length + 1 := by rw [hchannel]; rfl
    unfold ahead
    rcases hphase with hphase | hphase
    · rw [hphase]
      dsimp only
      omega
    · rw [hphase]
      dsimp only
      omega
  | nil =>
    have hclosed := hready.resolve_left (not_not.mpr hchannel)
    unfold ahead
    rcases hphase with hphase | hphase
    · simp [hclosed, hphase, hchannel]
    · simp [hclosed, hphase, hchannel]

theorem ahead_commit (succeeds : Bool) (id : CommitId w) (torn : JjTree) {message : Text}
    {ofRoot : Bool} (hwalking : s.phase = .walking message ofRoot) :
    (s.next keep listing rootOf (.commit succeeds id torn)).ahead < s.ahead := by
  have hnow : s.ahead = 7 * s.channel.length +
      if ofRoot then (if s.rootDue then 2 else 0) + 2 else 6 := by
    unfold ahead
    rw [hwalking]
    cases ofRoot with
    | false | true => rfl
  have hselect : ∀ repo : Repo w, ahead { s with repo := repo, phase := .select } =
      7 * s.channel.length + ((if s.rootDue then 2 else 0) + 1) := fun _ => rfl
  have hflush : ∀ repo : Repo w, ahead { s with repo := repo, phase := .flush } =
      7 * s.channel.length + 5 := fun _ => rfl
  rw [next, hwalking, hnow]
  dsimp only
  split
  · cases ofRoot with
    | false =>
      refine lt_of_eq_of_lt (hflush _) ?_
      simp
    | true =>
      refine lt_of_eq_of_lt (hselect _) ?_
      simp
  · refine lt_of_eq_of_lt (hselect s.repo) ?_
    cases ofRoot with
    | false =>
      simp only [Bool.false_eq_true, if_false]
      split
      · omega
      · omega
    | true => simp

theorem ahead_turn (h : s.Turn a) : (s.next keep listing rootOf a).ahead < s.ahead := by
  cases a with
  | recv =>
    have hrecv := ahead_recv h.1 h.2
    rw [next]
    rcases h.1 with hphase | hphase
    · rw [hphase]
      exact hrecv
    · rw [hphase]
      exact hrecv
  | elapse =>
    obtain ⟨hphase, hrest⟩ := h
    rw [next, if_pos ⟨hphase, hrest⟩]
    unfold ahead
    rw [hphase]
    exact Nat.lt_succ_self _
  | poll opens =>
    obtain ⟨hphase, hopens, hdue⟩ := h
    rw [next, if_pos ⟨hphase, hopens, hdue⟩]
    unfold ahead
    rw [hphase, hdue]
    have hseen : ∀ p, rootDue { s with lastRoot := s.root, phase := p, touched := false } = false :=
      fun p => by simp [rootDue]
    rw [hseen]
    simp
  | commit succeeds id torn =>
    change s.isWalking = true at h
    unfold isWalking at h
    split at h
    · rename_i message ofRoot hwalking
      exact ahead_commit succeeds id torn hwalking
    · simp at h
  | flush succeeds =>
    change s.phase = .flush at h
    rw [next, if_pos h]
    unfold ahead
    rw [h]
    exact Nat.lt_succ_self _
  | reread opens =>
    change s.phase = .reread at h
    rw [next, if_pos h]
    unfold ahead
    rw [h]
    have hdue : ∀ due : Bool, (if due = true then 2 else 0) + 1 < 4 := by decide
    exact Nat.add_lt_add_left (hdue _) _
  | perform now op | send i | publish root image | dropSenders => exact h.elim

theorem unsent_recv : s.recv.unsent = s.unsent := by
  unfold Loop.recv
  split
  · rfl
  · split
    · rfl
    · rfl

theorem unsent_turn (h : s.Turn a) : (s.next keep listing rootOf a).unsent = s.unsent := by
  cases a with
  | recv =>
    rw [next]
    split
    · exact unsent_recv
    · exact unsent_recv
    · rfl
  | elapse | poll opens | flush succeeds | reread opens =>
    rw [next]
    split
    · rfl
    · rfl
  | commit succeeds id torn =>
    rw [next]
    split
    · split
      · rfl
      · rfl
    · rfl
  | perform now op | send i | publish root image | dropSenders => exact h.elim

theorem rests_of_no_turn (hunsent : s.unsent = []) (h : ∀ a : Action w, ¬ s.Turn a) : s.Rests := by
  have hrecv := h .recv
  cases hphase : s.phase with
  | select =>
    have hchannel : s.channel = [] := by
      by_contra hne
      exact hrecv ⟨.inl hphase, .inl hne⟩
    refine .inr ⟨hphase, hunsent, hchannel, ?_⟩
    by_contra hdue
    exact h (.poll true) ⟨hphase, rfl, by simpa using hdue⟩
  | quiet =>
    have hready : s.channel = [] ∧ s.closed = false := by
      constructor
      · by_contra hne
        exact hrecv ⟨.inr hphase, .inl hne⟩
      · by_contra hclosed
        exact hrecv ⟨.inr hphase, .inr (by simpa using hclosed)⟩
    exact absurd ⟨hphase, hready⟩ (h .elapse)
  | walking message ofRoot =>
    exact absurd (show s.isWalking = true by rw [isWalking, hphase])
      (h (.commit true s.repo.rootCommitId ∅))
  | flush => exact absurd hphase (h (.flush true))
  | reread => exact absurd hphase (h (.reread true))
  | done => exact .inl hphase

end Loop

/-! ## Every change reaches a snapshot -/

def Loop.start (graph : LiveGraph) (watched : Bool) (root : Digest) (repo : Repo w) : Loop w :=
  ⟨graph.nodes, [], [], false, .select, [], false, watched, root,
    if watched then root else zeroRoot, repo⟩

theorem Loop.good_start {graph : LiveGraph} {watched : Bool} {root : Digest}
    (hsync : (Loop.start graph watched root repo).InSync) :
    (Loop.start graph watched root repo).Good :=
  ⟨graph.tree, .inr (.inr hsync), fun h => absurd h (by simp [Loop.start]),
    fun h => absurd h (by simp [Loop.start])⟩

/-- **Every change reaches a snapshot**, in every run whose steps are allowed: at rest, the
newest commit holds exactly the files that are not ignored. Once the operations have
stopped and sent their events, the loop takes so many steps at most, and where none is due
it rests. -/
theorem changes_reach_snapshot (keep : Bytes → Bytes) (listing : Listing) (rootOf : Nodes → Digest)
    (graph : LiveGraph) (watched : Bool) (root : Digest) (repo : Repo w)
    (hsync : (Loop.start graph watched root repo).InSync) {actions : List (Action w)}
    (hallowed : Machine.Along (Loop.next keep listing rootOf) Loop.Allowed
      (Loop.start graph watched root repo) actions) :
    let s :=
      Machine.run (Loop.next keep listing rootOf) (Loop.start graph watched root repo) actions
    (s.Rests → s.InSync) ∧
      (s.unsent = [] → ∀ turns, Machine.Along (Loop.next keep listing rootOf) Loop.Turn s turns →
        turns.length ≤ s.ahead ∧
        ((∀ a, ¬ (Machine.run (Loop.next keep listing rootOf) s turns).Turn a) →
          (Machine.run (Loop.next keep listing rootOf) s turns).Rests)) := by
  intro s
  have hgood : s.Good :=
    hallowed.keeps (fun _ _ h ha => Loop.good_next h ha) (Loop.good_start hsync)
  refine ⟨hgood.inSync, fun hunsent turns hturns => ⟨?_, fun hno => ?_⟩⟩
  · exact hturns.length_le fun _ _ => Loop.ahead_turn
  · refine Loop.rests_of_no_turn ?_ hno
    -- the loop's own steps send no event
    exact hturns.keeps (I := fun s => s.unsent = [])
      (fun s a h ht => (Loop.unsent_turn ht).trans h) hunsent

/-! ## Runs -/

def byPath : Listing := ⟨ExtTreeMap.toList, fun _ => .refl _⟩

def emptyRepo : Repo 1 := ⟨⟨['0'], rfl⟩, [], []⟩

def fileA : LiveGraph := Staging.liveA

def fileLog : LiveGraph := Staging.oneFile "app.log".toList (by decide) (by decide) [105]

def emptyLoop : Loop 1 :=
  .start ⟨∅, ⟨fun id h hget => by simp at hget, fun id h hget => by simp at hget⟩⟩ true zeroRoot
    emptyRepo

def root1 : Digest := ⟨List.replicate 32 1, by simp⟩

def root2 : Digest := ⟨List.replicate 32 2, by simp⟩

/-- A run of the loop on an empty graph; a flush publishes `root1`. -/
def runLoop (actions : List (Action 1)) : Loop 1 :=
  Machine.run (Loop.next (fun bytes => bytes) byPath fun _ => root1) emptyLoop actions

def idOf (c : Char) : CommitId 1 := ⟨[c], rfl⟩

/-- The file `a` is made, truncated and written, and a snapshot taken of it and flushed. -/
def makeA : List (Action 1) :=
  [.perform 1 (.create [] ['a'] false), .send 0, .perform 1 (.truncate ['a']),
    .perform 2 (.write ['a'] [104] 0), .send 0,
    .recv, .recv, .elapse, .commit true (idOf '1') ∅, .flush true, .reread true]

def runFromA (actions : List (Action 1)) : Loop 1 := runLoop (makeA ++ actions)

theorem not_inSync_of {s : Loop 1} (id : Path) (hkept : isIgnored id = false)
    (h : s.repo.newestTree[id]? ≠ fileBytes s.graph id) : ¬ s.InSync := by
  intro hsync
  refine h ((hsync id).trans ?_)
  rw [hkept]
  rfl

/-- A truncate sends no event; nor does a revert; the events of a snapshot that fails are
forgotten; so are those collected when the senders go; a root published during the flush is
taken for the loop's own. Each run is at rest, and the newest commit is not the graph. -/
theorem change_misses_snapshot :
    (∃ s, s = runFromA [.perform 3 (.truncate ['a'])] ∧ s.Rests ∧ ¬ s.InSync) ∧
    (∃ s, s = runFromA [.perform 3 (.remove ['a']), .send 0, .recv, .elapse,
        .commit true (idOf '2') ∅, .flush true, .reread true, .perform 4 (.revert ['1'])] ∧
      s.Rests ∧ ¬ s.InSync) ∧
    (∃ s, s = runFromA [.perform 3 (.remove ['a']), .send 0, .recv, .elapse,
        .commit false (idOf '2') ∅] ∧ s.Rests ∧ ¬ s.InSync) ∧
    (∃ s, s = runFromA [.perform 3 (.remove ['a']), .send 0, .recv, .dropSenders, .recv] ∧
      s.Rests ∧ ¬ s.InSync) ∧
    ∃ s, s = runFromA [.perform 3 (.write ['a'] [105] 0), .send 0, .recv, .elapse,
        .commit true (idOf '2') ∅, .flush true, .publish root2 fileLog, .reread true] ∧
      s.Rests ∧ ¬ s.InSync := by
  refine ⟨⟨_, rfl, by decide +kernel, ?_⟩, ⟨_, rfl, by decide +kernel, ?_⟩,
    ⟨_, rfl, by decide +kernel, ?_⟩, ⟨_, rfl, by decide +kernel, ?_⟩,
    ⟨_, rfl, by decide +kernel, ?_⟩⟩
  all_goals exact not_inSync_of ['a'] (by decide) (by decide +kernel)

def publishA : List (Action 1) := [.publish root2 fileA, .poll true, .commit true (idOf '2') ∅]

theorem inSync_emptyLoop : emptyLoop.InSync := by
  intro id
  have hnone : fileBytes emptyLoop.graph id = none :=
    NodeTree.fileBytes_none (by simp [emptyLoop, Loop.start])
  have htree : emptyLoop.repo.newestTree = ∅ := rfl
  rw [hnone, htree, ite_self]
  simp

/-- A file made and written, a new root with another file, and a snapshot for each. -/
theorem changes_reach_snapshot_twice : (runFromA publishA).Rests ∧ (runFromA publishA).InSync := by
  have hrests : (runFromA publishA).Rests := by decide +kernel
  have hallowed : Machine.Along (Loop.next (fun bytes => bytes) byPath fun _ => root1) Loop.Allowed
      emptyLoop (makeA ++ publishA) := by decide +kernel
  have hboth := changes_reach_snapshot (fun bytes => bytes) byPath (fun _ => root1) _ _ _ _
    inSync_emptyLoop hallowed
  exact ⟨hrests, hboth.1 hrests⟩

end LeyLine.Vcs
