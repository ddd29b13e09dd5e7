import LeyLine.PassSpec

/-!
# The blobs a pass stores

A pass only ever adds blobs, each at the address of its own bytes, and the bytes
of every file it takes from memory are among them.
-/

namespace LeyLine

variable {H Lang Rows : Type} [DecidableEq H]

/-- The blobs of `s'` are those of `s` and bytes stored at their own address. -/
def Store.GrowsTo (σ : Bytes → H) (s s' : Store H) : Prop :=
  ∀ h, s'.blobs h = s.blobs h ∨ (s.blobs h = none ∧ ∃ b, s'.blobs h = some b ∧ σ b = h)

def Store.Honest (σ : Bytes → H) (s : Store H) : Prop := ∀ h b, s.blobs h = some b → σ b = h

namespace Store.GrowsTo

variable {σ : Bytes → H} {s s₁ s₂ : Store H}

omit [DecidableEq H] in
theorem of_eq (h : s₁.blobs = s.blobs) : s.GrowsTo σ s₁ := fun a => .inl (congrFun h a)

omit [DecidableEq H] in
theorem trans (h₁ : s.GrowsTo σ s₁) (h₂ : s₁.GrowsTo σ s₂) : s.GrowsTo σ s₂ := by
  intro h
  rcases h₂ h with heq | ⟨hnone, b, hb, hσ⟩
  · rw [heq]
    exact h₁ h
  · rcases h₁ h with heq | ⟨-, b', hb', -⟩
    · exact .inr ⟨heq ▸ hnone, b, hb, hσ⟩
    · rw [hb'] at hnone
      simp at hnone

omit [DecidableEq H] in
theorem stored (h : s.GrowsTo σ s₁) {a : H} (ha : s.blobs a ≠ none) : s₁.blobs a ≠ none := by
  rcases h a with heq | ⟨hnone, -⟩
  · rwa [heq]
  · exact absurd hnone ha

omit [DecidableEq H] in
theorem honest (h : s.GrowsTo σ s₁) (hs : s.Honest σ) : s₁.Honest σ := by
  intro a b hb
  rcases h a with heq | ⟨-, b', hb', hσ⟩
  · exact hs a b (heq ▸ hb)
  · obtain rfl : b' = b := Option.mem_unique hb' hb
    exact hσ

theorem storeBlob (s : Store H) (bytes : Bytes) : s.GrowsTo σ (s.storeBlob σ bytes) := by
  intro h
  simp only [Store.storeBlob]
  split
  · rename_i heq
    cases hs : s.blobs h with
    | none => exact .inr ⟨rfl, bytes, rfl, heq.symm⟩
    | some b => exact .inl rfl
  · exact .inl rfl

end Store.GrowsTo

/-! ## The operations that store no bytes -/

section Frames

variable (s : Store H)

omit [DecidableEq H] in
theorem Store.blobs_foldl {β : Type} {f : Store H → β → Store H}
    (hf : ∀ s x, (f s x).blobs = s.blobs) (l : List β) : (l.foldl f s).blobs = s.blobs :=
  (Steps.foldl f l s).invariant (P := fun s' => s'.blobs = s.blobs)
    (fun σ x _ hs hP => by rw [hs, hf, hP]) rfl

omit [DecidableEq H] in
@[simp] theorem Store.blobs_putParents (p : Path) : (s.putParents p).blobs = s.blobs := by
  rw [putParents, Store.blobs_foldl]
  exact fun _ _ => rfl

omit [DecidableEq H] in
theorem blobs_removeGone (whole : Bool) (old : Store H) (seen : List (Path × Seen)) :
    (removeGone whole old seen s).blobs = s.blobs := by
  refine s.blobs_foldl (fun s x => ?_) _
  split
  · rw [Store.removeTree, Store.blobs_foldl]
    · rfl
    · exact fun _ _ => rfl
  · rfl

theorem blobs_putDirs (whole : Bool) (old : Store H) (seen : List (Path × Seen)) :
    (putDirs whole old seen s).blobs = s.blobs := by
  refine s.blobs_foldl (fun s x => ?_) _
  split
  · exact Store.blobs_putParents s x.1
  · rfl

omit [DecidableEq H] in
theorem blobs_setDiagnostics (out : Outcomes H) (whole : Bool) (old : Store H)
    (stored : Std.ExtTreeMap Path H) : (setDiagnostics out whole old stored s).blobs = s.blobs := by
  rw [setDiagnostics, Store.blobs_foldl, Store.blobs_foldl]
  · exact fun _ _ => rfl
  · intro s x
    split <;> rfl

end Frames

/-! ## The loops -/

variable {σ : Bytes → H} {dir : Directory} {reach : Reach} {memory : Option InMemory}
  {out : Outcomes H} {s s' : Store H}

theorem growsTo_putFilesStep {whole : Bool} {old : Store H} {x : Path × Seen}
    {acc acc' : Store H × Std.ExtTreeMap Path H}
    (h : putFilesStep σ dir memory out.projected whole old acc x = .ok acc') :
    acc.1.GrowsTo σ acc'.1 ∧ ∀ b, x.2 = .memory b → acc'.1.blobs (σ b) ≠ none := by
  rw [putFilesStep] at h
  cases hf : filePut σ dir memory out.projected old.stats x.1 (current whole old acc.1 x.1) x.2 with
  | error e =>
    simp only [hf] at h
    simp [bind, Except.bind] at h
  | ok f =>
    simp only [hf] at h
    cases f with
    | none =>
      cases h
      refine ⟨.of_eq rfl, fun b hb => ?_⟩
      rw [hb, filePut] at hf
      simp at hf
    | some f =>
      cases h
      have hblobs : (storeFile σ x.1 (current whole old acc.1 x.1) f acc.1).blobs =
          (f.bytes.elim acc.1 (acc.1.storeBlob σ ·)).blobs := by
        rw [storeFile, Store.putFile]
        split <;> simp [Store.setDiagnostic]
      refine ⟨?_, fun b hb => ?_⟩
      · refine .trans ?_ (.of_eq hblobs)
        cases f.bytes with
        | none => exact .of_eq rfl
        | some b => exact .storeBlob acc.1 b
      · rw [hb, filePut, Except.ok.injEq, Option.some.injEq] at hf
        rw [hblobs, ← hf]
        simp [Store.storeBlob]

theorem growsTo_sync (h : sync σ dir reach memory out s = .ok s') : s.GrowsTo σ s' ∧
      ∀ p b, seenAt dir reach memory s p = some (.memory b) → s'.blobs (σ b) ≠ none := by
  obtain ⟨acc, hput, rfl⟩ := sync_ok h
  have hrun := Steps.foldlM hput
  rw [Store.GrowsTo, blobs_setDiagnostics]
  refine ⟨?_, fun p b hseen => ?_⟩
  · refine hrun.invariant (P := fun acc : Store H × Std.ExtTreeMap Path H => s.GrowsTo σ acc.1)
      (fun _ _ _ hstep hP => hP.trans (growsTo_putFilesStep hstep).1) ?_
    exact .of_eq ((blobs_putDirs _ _ _ _).trans (blobs_removeGone _ _ _ _))
  · have hstored : ∀ x ∈ (seenMap dir reach memory s).toList, ∀ b, x.2 = Seen.memory b →
        acc.1.blobs (σ b) ≠ none := by
      refine hrun.establish (P := fun (x : Path × Seen) acc => ∀ b, x.2 = Seen.memory b →
        acc.1.blobs (σ b) ≠ none) ?_ ?_
      · exact fun _ _ _ hstep => (growsTo_putFilesStep hstep).2
      · intro x _ _ _ hstep hP b hb
        exact (growsTo_putFilesStep hstep).1.stored (hP b hb)
    exact hstored (p, .memory b) (mem_seen.mpr hseen) b rfl

variable [DecidableEq Lang] {fe : Frontend H Lang Rows} {p : Pass} {db db' : Db H Rows}

omit [DecidableEq Lang] in
theorem growsTo_parseAll {files : List Path} {work : WorkList Lang} {st : ParseState H Rows}
    (h : parseAll σ fe p db files work = .ok st) : db.store.GrowsTo σ st.store := by
  refine (Steps.foldlM h).invariant (P := fun st : ParseState H Rows =>
    db.store.GrowsTo σ st.store) (fun st f st' hs hP => ?_) (.of_eq rfl)
  rw [parseStep] at hs
  cases hp : parseFilePure fe p f with
  | error msg =>
    simp only [hp, Except.ok.injEq] at hs
    exact hs ▸ hP
  | ok x =>
    simp only [hp] at hs
    obtain ⟨ins, -, hs⟩ := Except.bind_eq_ok_iff.mp hs
    cases hs
    exact hP.trans (.storeBlob st.store x.1)

/-- **A pass adds blobs and drops none**, and stores the bytes it took from
memory. -/
theorem PassStages.growsTo (c : PassStages σ fe p db db') : db.store.GrowsTo σ db'.store ∧
      ∀ rel b, seenAt p.dir (p.reach c.walked) p.memory db.store rel = some (.memory b) →
        db'.store.blobs (σ b) ≠ none := by
  obtain ⟨hgrow, hmem⟩ := growsTo_sync c.sync_eq
  refine ⟨(growsTo_parseAll c.parse_eq).trans hgrow, fun rel b hseen => hmem rel b ?_⟩
  rw [← hseen, seenAt, seenAt, Store.entry, Store.entry, (parseAll_inv c.parse_eq).tree_eq]

end LeyLine
