import LeyLine.Vcs.Snapshot

/-!
# Finding a commit by its first digits

The search goes back from the heads with a stack of ids and those seen. Each commit that is
expanded was not seen before, which bounds the ids that are put on the stack (`unexpanded`);
what is seen and does not match has its parents seen or on the stack, so the search misses no
ancestor of a head.
-/

namespace LeyLine.Vcs

section Resolve

variable {w : Nat} {repo : Repo w} {hex : Text}

/-- The ids the commits that are not seen would put on the stack. -/
def unexpanded (commits : List (CommitId w × Commit w)) (seen : List (CommitId w)) : Nat :=
  ((commits.filter fun c => c.1 ∉ seen).map fun c => c.2.parentIds.length).sum

theorem unexpanded_cons (c : CommitId w × Commit w) (commits : List (CommitId w × Commit w))
    (seen : List (CommitId w)) : unexpanded (c :: commits) seen =
      (if c.1 ∈ seen then 0 else c.2.parentIds.length) + unexpanded commits seen := by
  unfold unexpanded
  by_cases hc : c.1 ∈ seen
  · simp [hc]
  · simp [hc]

theorem unexpanded_seen (id : CommitId w) (seen : List (CommitId w)) :
    ∀ commits : List (CommitId w × Commit w), unexpanded commits (id :: seen) ≤
    unexpanded commits seen
  | [] => le_rfl
  | c :: commits => by
    rw [unexpanded_cons, unexpanded_cons]
    refine Nat.add_le_add ?_ (unexpanded_seen id seen commits)
    split
    · exact Nat.zero_le _
    · rename_i hc
      rw [if_neg fun hmem => hc (List.mem_cons_of_mem id hmem)]

theorem unexpanded_expand {id : CommitId w} {seen : List (CommitId w)} {commit : Commit w}
    (hid : id ∉ seen) : ∀ {commits : List (CommitId w × Commit w)}, (id, commit) ∈ commits →
      commit.parentIds.length + unexpanded commits (id :: seen) ≤ unexpanded commits seen
  | c :: commits, hmem => by
    rw [unexpanded_cons, unexpanded_cons]
    rcases List.mem_cons.mp hmem with rfl | hmem
    · rw [if_pos List.mem_cons_self, if_neg hid, Nat.zero_add]
      exact Nat.add_le_add_left (unexpanded_seen id seen commits) _
    · have ih := unexpanded_expand hid hmem
      have hc : (if c.1 ∈ id :: seen then 0 else c.2.parentIds.length) ≤
          if c.1 ∈ seen then 0 else c.2.parentIds.length := by
        split
        · exact Nat.zero_le _
        · rename_i hc
          rw [if_neg fun hin => hc (List.mem_cons_of_mem id hin)]
      omega

theorem resolveLoop_ends : ∀ (fuel : Nat) {queue seen : List (CommitId w)},
    queue.length + unexpanded repo.commits seen < fuel → resolveLoop repo hex fuel queue seen ≠
    .error .stuck
  | 0, _, _, h => absurd h (by simp)
  | _ + 1, [], _, _ => by simp [resolveLoop]
  | fuel + 1, id :: queue, seen, hfuel => by
    rw [List.length_cons] at hfuel
    have hless := unexpanded_seen id seen repo.commits
    rw [resolveLoop]
    split
    · exact resolveLoop_ends fuel (by omega)
    · rename_i hseen
      split
      · exact resolveLoop_ends fuel (by omega)
      · cases hget : repo.getCommit id with
        | none => simp
        | some commit =>
          dsimp only
          split
          · simp
          · have hmem : (id, commit) ∈ repo.commits := by
              obtain ⟨x, hx, hxc⟩ := Option.map_eq_some_iff.mp hget
              have hxid : x.1 = id := by simpa using List.find?_some hx
              rw [← hxid, ← hxc]
              exact List.mem_of_find?_eq_some hx
            have hexpand := unexpanded_expand hseen hmem
            refine resolveLoop_ends fuel ?_
            rw [List.length_append, List.length_reverse]
            omega

theorem resolve_ends : resolveCommitByPrefix repo hex ≠ .error .stuck := by
  refine resolveLoop_ends _ ?_
  rw [List.length_reverse]
  have hall : unexpanded repo.commits [] =
      (repo.commits.map fun c => c.2.parentIds.length).sum := by simp [unexpanded]
  rw [hall, Repo.links]
  omega

/-- An ancestor of a head, by the commits that are stored. -/
inductive Repo.Reaches (repo : Repo w) : CommitId w → Prop
  | head {id} : id ∈ repo.heads → Reaches repo id
  | parent {id commit p} : Reaches repo id → id ≠ repo.rootCommitId →
      repo.getCommit id = some commit → p ∈ commit.parentIds → Reaches repo p

/-- What an answer says of the ancestors of the heads. -/
def Repo.Answers (repo : Repo w) (hex : Text) : Except Fault (Commit w) → Prop
  | .ok commit => ∃ id, repo.Reaches id ∧ repo.getCommit id = some commit ∧ hex <+: id.hex
  | .error .missingCommit =>
    ∃ id, repo.Reaches id ∧ id ≠ repo.rootCommitId ∧ repo.getCommit id = none
  | .error fault => fault = .noCommit hex ∧ ∀ id, repo.Reaches id → id ≠ repo.rootCommitId →
      ¬ hex <+: id.hex

theorem resolveLoop_answers : ∀ (fuel : Nat) {queue seen : List (CommitId w)},
    (∀ id ∈ queue, repo.Reaches id) → (∀ id ∈ repo.heads, id ∈ queue ∨ id ∈ seen) →
    (∀ id ∈ seen, id ≠ repo.rootCommitId → ¬ hex <+: id.hex ∧ ∀ commit,
      repo.getCommit id = some commit → ∀ p ∈ commit.parentIds, p ∈ queue ∨ p ∈ seen) →
    resolveLoop repo hex fuel queue seen ≠ .error .stuck →
    repo.Answers hex (resolveLoop repo hex fuel queue seen)
  | 0, _, _, _, _, _, hstuck => absurd rfl hstuck
  | _ + 1, [], seen, _, hheads, hseen, _ => by
    refine ⟨rfl, fun id hid => ?_⟩
    have hmem : id ∈ seen := by
      induction hid with
      | head hid => exact (hheads _ hid).resolve_left List.not_mem_nil
      | parent _ hroot hget hp ih =>
        exact (((hseen _ ih hroot).2 _ hget _ hp)).resolve_left List.not_mem_nil
    exact fun hroot => (hseen id hmem hroot).1
  | fuel + 1, id :: queue, seen, hqueue, hheads, hseen, hstuck => by
    rw [List.forall_mem_cons] at hqueue
    rw [resolveLoop] at hstuck ⊢
    split_ifs at hstuck ⊢ with hold hroot hprefix
    · exact resolveLoop_answers fuel hqueue.2 (by grind) (by grind) hstuck
    · exact resolveLoop_answers fuel hqueue.2 (by grind) (by grind) hstuck
    · cases hget : repo.getCommit id with
      | none => exact ⟨id, hqueue.1, hroot, hget⟩
      | some commit => exact ⟨id, hqueue.1, hget, List.isPrefixOf_iff_prefix.mp hprefix⟩
    · cases hget : repo.getCommit id with
      | none => exact ⟨id, hqueue.1, hroot, hget⟩
      | some commit =>
        have hother : ¬ hex <+: id.hex := mt List.isPrefixOf_iff_prefix.mpr hprefix
        rw [hget] at hstuck
        refine resolveLoop_answers fuel (fun x hx => ?_) (by grind) (by grind) hstuck
        rcases List.mem_append.mp hx with hx | hx
        · exact .parent hqueue.1 hroot hget (List.mem_reverse.mp hx)
        · exact hqueue.2 x hx

/-- **Finding a commit by its first digits is exact.** For any repository, also one whose parents
run in a circle, the search ends; a commit it answers is an ancestor of a head with these digits,
and where it answers none there is none, the root commit apart. -/
theorem resolve_exact (repo : Repo w) (hex : Text) :
    repo.Answers hex (resolveCommitByPrefix repo hex) := by
  refine resolveLoop_answers _ (fun id hid => .head (List.mem_reverse.mp hid))
    (fun id hid => ?_) nofun resolve_ends
  exact .inl (List.mem_reverse.mpr hid)

end Resolve

end LeyLine.Vcs
