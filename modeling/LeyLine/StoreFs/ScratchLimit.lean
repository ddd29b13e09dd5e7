import LeyLine.StoreFs.ScratchCount

/-!
# The scratch limit

What each call on scratch does to the count, and from it what a run of requests does:
scratch holds no more bytes than its limit, and `used` is what it holds.
-/

namespace LeyLine.StoreFs

open Req (Moves Ends)
open Scratch

/-- A host that does not fail between a reservation and what it is for: `fstatat` tells
the size of what is there, a failed `pwrite` has not made the file longer, and a file can
be extended. -/
structure Os.Steady (os : Os) : Prop where
  fstatat : ∀ t, os.fstatat t = none
  pwrite : ∀ t size offset data e written,
    os.pwrite t size offset data = some (e, written) → written = 0 ∨ offset + written ≤ size
  ftruncate : ∀ t old size, old < size → os.ftruncate t old size = none

namespace Scratch

variable {opened : Nat → Prop} {free : Path → Prop} {limit : Nat} {os : Os} {s : Scratch}
  {path : Path}

/-! ## Calls that keep the regular files -/

theorem sysCall_same (fault : Nat → Option Errno) : Moves Same (sysCall fault) :=
  fun s => same_ticks s _

theorem checkName_same (name : Path) : Moves Same (checkName name) := .require _ _

theorem putNew_same {node : Node} (hnode : ∀ i, node ≠ .file i) :
    Moves Same (putNew os path node) :=
  .bind (sysCall_same _) fun _ s =>
    Ends.check (Q := fun _ s' => Same s s') (fun _ => Req.Closed.refl s) fun hnew =>
      same_put hnode hnew

theorem openDir_same (make : Bool) (dir : Path) : Moves Same (openDir os make dir) := by
  refine .bind (checkName_same _) fun _ => .bind (sysCall_same _) fun _ => .reads fun r => ?_
  rcases r with _ | _ | _ | _
  · exact .ite (.bind (putNew_same (by simp)) fun _ => sysCall_same _) (.fail _)
  · exact .pure _
  · exact .fail _
  · exact .fail _

theorem openDirs_same (make : Bool) : ∀ dirs, Moves Same (openDirs os make dirs)
  | [] => .pure _
  | dir :: dirs => .bind (openDir_same make dir) fun _ => openDirs_same make dirs

theorem parentOf_same (path : Path) (make : Bool) : Moves Same (parentOf os path make) :=
  .bind (openDirs_same make _) fun _ => checkName_same _

theorem fstatat_same (path : Path) : Moves Same (fstatat os path) :=
  .bind (sysCall_same _) fun _ => .reads fun _ => .ofOption _ _

theorem stat_same (path : Path) : Moves Same (stat os path) := by
  refine .bind (.attempt (.bind (parentOf_same path false) fun _ => fstatat_same path)) fun r => ?_
  cases r with
  | ok stat => exact .pure _
  | error e => exact .ite (.pure _) (.fail _)

theorem mkdir_same (path : Path) : Moves Same (mkdir os path) :=
  .bind (parentOf_same path true) fun _ => putNew_same (by simp)

theorem symlink_same (target : Bytes) (path : Path) : Moves Same (symlink os target path) :=
  .bind (parentOf_same path true) fun _ => .requires fun _ => putNew_same (by simp)

theorem readlink_same (path : Path) : Moves Same (readlink os path) := by
  refine .bind (parentOf_same path false) fun _ => .bind (sysCall_same _) fun _ =>
    .reads fun r => ?_
  rcases r with _ | _ | _ | _
  · exact .fail _
  · exact .fail _
  · exact .pure _
  · exact .fail _

theorem rmdirat_same (path : Path) : Moves Same (rmdirat os path) := by
  refine .bind (sysCall_same _) fun _ s => Ends.read (Q := fun _ s' => Same s s') ?_
  rcases hget : s.entryAt path with _ | ⟨perm⟩ | _ | _
  · exact Req.Closed.refl s
  · exact Ends.check (fun _ => Req.Closed.refl s) fun _ => same_drop (by simp) hget
  · exact Req.Closed.refl s
  · exact Req.Closed.refl s

theorem rmdir_same (path : Path) : Moves Same (rmdir os path) :=
  .bind (parentOf_same path false) fun _ => rmdirat_same path

theorem statFile_same (file : HostFile) : Moves Same (statFile os file) :=
  .bind (sysCall_same _) fun _ => .read _

theorem readExactAt_same (file : HostFile) (offset size : Nat) :
    Moves Same (readExactAt os file offset size) := by
  refine .bind (sysCall_same _) fun _ => ?_
  cases file with
  | some ino => exact .reads fun _ => .map (.require _ _)
  | none => exact .map (.require _ _)

theorem openat_rdonly (path : Path) (s : Scratch) : Ends (openat os path oRdonly 0) s fun r s' =>
    Same s s' ∧ (r = .ok none → ∃ perm, s'.entryAt path = some (.directory perm)) := by
  refine Ends.bind (R := fun _ s' => Same s s') (sysCall_same _ s)
    (fun e s' hs => ⟨hs, by simp⟩) fun _ s' hs => Ends.read ?_
  rcases hget : s'.entryAt path with _ | ⟨perm⟩ | _ | _
  · exact Ends.require (fun _ => ⟨hs, by simp⟩) fun h => absurd h (by decide)
  · exact Ends.require (fun _ => ⟨hs, by simp⟩) fun _ => Ends.require (fun _ => ⟨hs, by simp⟩)
      fun _ => ⟨hs, fun _ => ⟨perm, hget⟩⟩
  · exact Ends.require (fun _ => ⟨hs, by simp⟩) fun _ => ⟨hs, by simp⟩
  · exact Ends.require (fun _ => ⟨hs, by simp⟩) fun _ => ⟨hs, by simp⟩

theorem chmod_same (path : Path) (perm : Nat) : Moves Same (chmod os path perm) := by
  refine .bind (parentOf_same path false) fun _ s => ?_
  refine Ends.bind (Q := fun _ s' => Same s s') (openat_rdonly path s) (fun e s' hs => hs.1)
    fun file s₁ ⟨hs, hdir⟩ => ?_
  have hopen : Same s₁ (sysCall os.fault s₁).2 := sysCall_same _ s₁
  refine Ends.bind (R := fun _ s' => Same s s' ∧ s'.entries = s₁.entries)
    ⟨Req.Closed.trans hs hopen, rfl⟩ (fun e s' hs => hs.1) fun _ s₂ ⟨hs₂, heq⟩ => ?_
  intro hn
  refine Req.Closed.trans hs₂ (fun hn₂ => same_setPerm _ (fun hnone i hmem => ?_) hn₂) hn
  obtain ⟨p, hget⟩ := hdir (by rw [hnone])
  rw [entryAt, ← heq, (Assoc.get_eq_some_iff hn₂).mpr hmem] at hget
  simp at hget

/-! ## Calls that change a regular file -/

theorem openat_sound (h : Sound opened free limit s) (flags mode : Nat) :
    Ends (openat os path flags mode) s fun r s' => Sound opened free limit s' ∧
      ∀ i, r = .ok (some i) → i ∈ s'.inos := by
  refine Ends.bind (R := fun _ s' => Sound opened free limit s') ((sysCall_same _ s).sound h)
    (fun e s' hs => ⟨hs, by simp⟩) fun _ s' hs => Ends.read ?_
  rcases hget : s'.entryAt path with _ | ⟨perm⟩ | _ | i
  · refine Ends.require (fun _ => ⟨hs, by simp⟩) fun _ => ?_
    refine ⟨hs.create hget mode, fun i hi => ?_⟩
    cases Except.ok.inj hi
    exact List.mem_cons_self
  · exact Ends.require (fun _ => ⟨hs, by simp⟩) fun _ => Ends.require (fun _ => ⟨hs, by simp⟩)
      fun _ => ⟨hs, fun i hi => absurd (Except.ok.inj hi) (by simp)⟩
  · exact Ends.require (fun _ => ⟨hs, by simp⟩) fun _ => ⟨hs, by simp⟩
  · refine Ends.require (fun _ => ⟨hs, by simp⟩) fun _ => ⟨hs, fun j hj => ?_⟩
    cases Except.ok.inj hj
    exact mem_inos.mpr ⟨path, (Assoc.get_eq_some_iff hs.names).mp hget⟩

theorem openAt_sound (h : Sound opened free limit s) (flags mode : Nat) :
    Ends (openAt os path flags mode) s fun r s' => Sound opened free limit s' ∧
      ∀ i, r = .ok (some i) → i ∈ s'.inos :=
  Ends.bind (R := fun _ s' => Sound opened free limit s') ((parentOf_same _ _ s).sound h)
    (fun e s' hs => ⟨hs, by simp⟩) fun _ _ hs => openat_sound hs flags mode

theorem length_pwritten (bytes : Bytes) (offset : Nat) (data : Bytes) :
    (pwritten bytes offset data).length =
      if data = [] then bytes.length else max bytes.length (offset + data.length) := by
  unfold pwritten resized
  split
  · rfl
  · simp
    omega

theorem length_resized (bytes : Bytes) (n : Nat) : (resized bytes n).length = n := by
  simp [resized]
  omega

theorem ends_reserve {α : Type} {f : Unit → HostCall α} {n : Nat}
    {Q : Except Errno α → Scratch → Prop} (hlimit : s.limit < u64Max) (he : Q (.error .ENOSPC) s)
    (hf : s.used + n ≤ s.limit → Ends (f ()) { s with used := s.used + n } Q) :
    Ends (reserve n >>= f) s Q := by
  refine Ends.bind (R := fun r s' => r = .error .ENOSPC ∧ s' = s ∨
    r = .ok () ∧ s' = { s with used := s.used + n } ∧ s.used + n ≤ s.limit) ?_ ?_ ?_
  · refine Ends.check (fun _ => .inl ⟨rfl, rfl⟩) fun hle => .inr ⟨rfl, rfl, ?_⟩
    omega
  · rintro e s' (⟨heq, rfl⟩ | ⟨heq, -⟩)
    · rwa [Except.error.inj heq]
    · simp at heq
  · rintro ⟨⟩ s' (⟨heq, -⟩ | ⟨-, rfl, hle⟩)
    · simp at heq
    · exact hf hle

theorem ends_writeAllAt (hos : os.Steady) {i offset n : Nat} {data : Bytes} (used : Nat)
    (hdata : data = [] → n = 0) (hn : data ≠ [] → offset + data.length ≤ isizeMax →
      n = offset + data.length - (s.bytesOf i).length)
    (h : Sound opened free limit { s with used := used }) (hi : i ∈ s.inos)
    (hused : s.used = used + n) (hle : s.used ≤ limit) :
    Ends (writeAllAt os i offset data) s fun r s' => match r with
      | .ok _ => Sound opened free limit s'
      | .error _ => Sound opened free limit { s' with used := s'.used - n } := by
  have hgive : s.used - n = used := by omega
  refine Ends.ite (fun hnil => ?_) fun hne =>
    Ends.read (Ends.read (Ends.update (Ends.require ?_ ?_)))
  · have hs : { s with used := used } = s := by
      rw [hdata hnil, Nat.add_zero] at hused
      rw [← hused]
    exact hs ▸ h
  · intro _
    rw [hgive]
    exact (same_ticks { s with used := used } _).sound h
  · intro hfits
    have hbase : Sound opened free limit { s with used := used, ticks := s.ticks + 1 } :=
      (same_ticks { s with used := used } _).sound h
    cases hw : os.pwrite s.ticks (s.bytesOf i).length offset data with
    | none =>
      refine hbase.setBytes hi s.used ?_ hle
      change s.used + (s.bytesOf i).length = used + (pwritten (s.bytesOf i) offset data).length
      rw [length_pwritten, if_neg hne]
      have := hn hne hfits
      omega
    | some x =>
      obtain ⟨e, written⟩ := x
      change Sound opened free limit { ({ s with ticks := s.ticks + 1 }.setBytes i
        (pwritten (s.bytesOf i) offset (data.take (min written (data.length - 1))))) with
          used := s.used - n }
      rw [hgive]
      refine hbase.setBytes hi used ?_ (by omega)
      change used + (s.bytesOf i).length = used + (pwritten (s.bytesOf i) offset _).length
      rw [length_pwritten, List.length_take]
      split
      · rfl
      · rename_i hsome
        have hpos : written ≠ 0 := by
          rintro rfl
          exact hsome (by simp)
        have := (hos.pwrite _ _ _ _ _ _ hw).resolve_left hpos
        omega

theorem write_sound (hos : os.Steady) (hlimit : limit < u64Max) (h : Sound opened free limit s)
    {file : HostFile} {offset : Nat} {data : Bytes} (hfile : ∀ i, file = some i → i ∈ s.inos)
    (hdata : data = [] → ∀ i, file = some i → offset ≤ (s.bytesOf i).length) :
    Sound opened free limit (write os file offset data s).2 := by
  refine Ends.bind (Q := fun _ s' => Sound opened free limit s')
    (R := fun _ s' => s' = { s with ticks := s.ticks + 1 }) rfl
    (fun e s' hs => hs ▸ (same_ticks s _).sound h) ?_
  rintro ⟨⟩ s' rfl
  have h' : Sound opened free limit { s with ticks := s.ticks + 1 } := (same_ticks s _).sound h
  refine Ends.ofOption (fun _ => h') fun i hi => Ends.read ?_
  have hmem := hfile i hi
  refine ends_reserve (by rw [h'.sameLimit]; exact hlimit) h' fun hle => ?_
  have hwrite : Ends (writeAllAt os i offset data) { s with
      used := s.used + (min (offset + data.length) u64Max - (s.bytesOf i).length)
      ticks := s.ticks + 1 } _ :=
    ends_writeAllAt hos s.used (fun hnil => ?_) (fun _ hfits => ?_) h' hmem rfl ?_
  · refine Ends.attempt (hwrite.mono fun r s' hs => ?_)
    cases r with
    | ok _ | error e => exact hs
  · have := hdata hnil i hi
    rw [hnil]
    simp only [List.length_nil]
    omega
  · change _ = offset + data.length - (s.bytesOf i).length
    unfold isizeMax at hfits
    unfold u64Max
    omega
  · rw [← h'.sameLimit]
    exact hle

theorem setLen_sound (hos : os.Steady) (hlimit : limit < u64Max) (h : Sound opened free limit s)
    {file : HostFile} {size : Nat} (hfile : ∀ i, file = some i → i ∈ s.inos)
    (hsize : size ≤ isizeMax) : Sound opened free limit (setLen os file size s).2 := by
  refine Ends.bind (Q := fun _ s' => Sound opened free limit s')
    (R := fun _ s' => s' = { s with ticks := s.ticks + 1 }) rfl
    (fun e s' hs => hs ▸ (same_ticks s _).sound h) ?_
  rintro ⟨⟩ s' rfl
  have h' : Sound opened free limit { s with ticks := s.ticks + 1 } := (same_ticks s _).sound h
  refine Ends.ofOption (fun _ => h') fun i hi => Ends.read ?_
  have hmem := hfile i hi
  refine ends_reserve (by rw [h'.sameLimit]; exact hlimit) h' fun hle => ?_
  have hbase : Sound opened free limit { s with ticks := s.ticks + 1 + 1 } :=
    (same_ticks s _).sound h
  have hle' : s.used + (size - (s.bytesOf i).length) ≤ limit := by
    rw [← h'.sameLimit]
    exact hle
  -- either the file has the new length, or it could not be cut and nothing was reserved
  have htrunc : Ends (ftruncate os i size) { s with
      used := s.used + (size - (s.bytesOf i).length), ticks := s.ticks + 1 } fun r s' =>
      (r = .ok () ∧ s' = { s.setBytes i (resized (s.bytesOf i) size) with
        used := s.used + (size - (s.bytesOf i).length), ticks := s.ticks + 1 + 1 }) ∨
      ((∃ e, r = .error e) ∧ Sound opened free limit s') := by
    refine Ends.read (Ends.read (Ends.update (Ends.require (fun hbig => absurd hsize hbig) ?_)))
    intro _
    generalize ht : os.ftruncate _ _ size = r
    cases r with
    | none => exact .inl ⟨rfl, rfl⟩
    | some e =>
      have hcut : ¬ (s.bytesOf i).length < size :=
        fun hlt => by cases (hos.ftruncate _ _ _ hlt).symm.trans ht
      refine .inr ⟨⟨e, rfl⟩, ?_⟩
      rw [Nat.sub_eq_zero_of_le (Nat.le_of_not_lt hcut), Nat.add_zero]
      exact hbase
  refine Ends.bind htrunc ?_ ?_
  · rintro e s' (⟨heq, -⟩ | ⟨-, hs⟩)
    · simp at heq
    · exact hs
  · rintro ⟨⟩ s' (⟨-, rfl⟩ | ⟨⟨e, heq⟩, -⟩)
    · refine hbase.setBytes hmem _ ?_ ((Nat.sub_le _ _).trans hle')
      change s.used + (size - (s.bytesOf i).length) - ((s.bytesOf i).length - size) +
        (s.bytesOf i).length = s.used + (resized (s.bytesOf i) size).length
      have hcounts : (s.bytesOf i).length ≤ s.used := by
        rw [h.counted]
        exact List.single_le_sum (by simp) _ (List.mem_map_of_mem hmem)
      rw [length_resized]
      omega
    · simp at heq

def bytesAt (s : Scratch) (path : Path) : Nat :=
  match s.entryAt path with
  | some (.file i) => (s.bytesOf i).length
  | _ => 0

theorem freedAt_eq (hos : os.Steady) (s : Scratch) :
    freedAt os path s = (.ok (s.bytesAt path), { s with ticks := s.ticks + 1 }) := by
  have hcall : sysCall os.fstatat s = (.ok (), { s with ticks := s.ticks + 1 }) := by
    simp [sysCall, hos.fstatat]
  have hstat : fstatat os path s = (((s.entryAt path).map (statOf s (os.mtime (s.ticks + 1)))).elim
      (.error .ENOENT) .ok, { s with ticks := s.ticks + 1 }) := by
    rw [fstatat, Req.bind_ok hcall]
    change (Req.ofOption .ENOENT ((s.entryAt path).map _) : HostCall ScratchStat) _ = _
    rcases s.entryAt path with _ | node <;> rfl
  have hattempt : Req.attempt (fstatat os path) s = (.ok (fstatat os path s).1,
      (fstatat os path s).2) := rfl
  rw [freedAt, Req.bind_ok hattempt, hstat]
  unfold bytesAt
  rcases s.entryAt path with _ | _ | _ | _ <;> rfl

theorem Sound.drop_bytesAt (h : Sound opened free limit s) (hpath : free path) {node : Node}
    (hget : s.entryAt path = some node) :
    Sound opened free limit { s.drop path with used := s.used - s.bytesAt path } := by
  refine h.drop hget (fun i hi => ?_) fun hno => ?_
  · rw [hi] at hget
    refine ⟨h.closed path i hpath ((Assoc.get_eq_some_iff h.names).mp hget), ?_⟩
    rw [bytesAt, hget]
  · rw [bytesAt, hget]
    cases node with
    | file i => exact absurd rfl (hno i)
    | directory perm | symlink target => rfl

/-- A call after which the bytes at `path` are given back has to give them up where it succeeds. -/
theorem ends_freed (hos : os.Steady) {call : HostCall Unit} {Q : Scratch → Prop}
    (hcall : Ends call { s with ticks := s.ticks + 1 } fun r s' => match r with
      | .ok _ => Q { s' with used := s'.used - s.bytesAt path }
      | .error _ => Q s') :
    Ends (do let freed ← freedAt os path; call; releaseBytes freed) s fun _ s' => Q s' := by
  refine Ends.bind (R := fun r s' => r = .ok (s.bytesAt path) ∧
    s' = { s with ticks := s.ticks + 1 })
    (by rw [Ends, freedAt_eq hos]; exact ⟨rfl, rfl⟩) (fun e s' hs => absurd hs.1 (by simp)) ?_
  rintro freed s' ⟨hfreed, rfl⟩
  cases hfreed
  exact Ends.bind hcall (fun e s' hs => hs) fun _ s' hs => hs

theorem unlink_sound (hos : os.Steady) (h : Sound opened free limit s) (hpath : free path) :
    Sound opened free limit (unlink os path s).2 := by
  refine Ends.bind (Q := fun _ s' => Sound opened free limit s')
    (R := fun _ s' => Sound opened free limit s') ((parentOf_same path false s).sound h)
    (fun e s' hs => hs) fun _ s₁ h₁ => ends_freed hos ?_
  have hafter : Sound opened free limit { s₁ with ticks := s₁.ticks + 1 + 1 } :=
    (same_ticks s₁ _).sound h₁
  refine Ends.bind (R := fun _ s' => s' = { s₁ with ticks := s₁.ticks + 1 + 1 }) rfl
    (fun e s' hs => hs ▸ hafter) ?_
  rintro ⟨⟩ s' rfl
  refine Ends.read ?_
  generalize hget : ({ s₁ with ticks := s₁.ticks + 1 + 1 } : Scratch).entryAt path = entry
  rcases entry with _ | ⟨perm⟩ | ⟨target⟩ | ⟨i⟩
  · exact hafter
  · exact hafter
  · exact hafter.drop_bytesAt hpath hget
  · exact hafter.drop_bytesAt hpath hget

theorem ends_parentOf (path : Path) (make : Bool) (s : Scratch) :
    Ends (parentOf os path make) s fun r s' => Same s s' ∧ (r = .ok () → path ≠ []) := by
  refine Ends.bind (R := fun _ s' => Same s s') (openDirs_same make _ s)
    (fun e s' hs => ⟨hs, by simp⟩) fun _ s' hs => ?_
  refine Ends.ite (fun hname => ⟨hs, fun _ hnil => hname.1 ?_⟩) fun _ => ⟨hs, by simp⟩
  rw [hnil]
  rfl

theorem mem_drop_iff {x : Path × Node} :
    x ∈ (s.drop path).entries ↔ x ∈ s.entries ∧ x.1 ≠ path := by
  unfold drop
  rw [List.mem_filter, decide_eq_true_eq]

theorem Sound.move {src dst : Path} (h : Sound opened free limit s) (hsrc : src ≠ [])
    (hdst : dst ≠ []) (hfree : free dst) (hempty : ¬ s.Occupied dst) :
    Sound opened (fun _ => False) limit { s.move src dst with used := s.used - s.bytesAt dst } := by
  have hdrop : Sound opened free limit { s.drop dst with used := s.used - s.bytesAt dst } := by
    cases hget : s.entryAt dst with
    | some node => exact h.drop_bytesAt hfree hget
    | none =>
      have hsame : { s.drop dst with used := s.used - s.bytesAt dst } = s := by
        simp only [Scratch.drop, bytesAt, Assoc.erase_of_get_none hget, hget, Nat.sub_zero]
      rw [hsame]
      exact h
  refine hdrop.remap hsrc hdst fun x hx => ?_
  obtain ⟨hmem, hne⟩ := mem_drop_iff.mp hx
  exact ⟨hne, fun hpre => hempty ⟨x, hmem, hpre⟩⟩

theorem rename_sound (hos : os.Steady) {src dst : Path} (h : Sound opened free limit s)
    (hne : src ≠ dst) (hfree : free dst) :
    Sound opened (fun _ => False) limit (rename os src dst s).2 := by
  refine Ends.bind (Q := fun _ s' => Sound opened (fun _ => False) limit s')
    (ends_parentOf src false s) (fun e s' hs => (hs.1.sound h).forget) fun _ s₁ ⟨hs₁, hsrc⟩ => ?_
  have h₁ := hs₁.sound h
  refine Ends.bind (ends_parentOf dst true s₁) (fun e s' hs => (hs.1.sound h₁).forget)
    fun _ s₂ ⟨hs₂, hdst⟩ => ?_
  have h₂ := hs₂.sound h₁
  refine ends_freed hos ?_
  have hafter : Sound opened free limit { s₂ with ticks := s₂.ticks + 1 + 1 } :=
    (same_ticks s₂ _).sound h₂
  refine Ends.bind (R := fun _ s' => s' = { s₂ with ticks := s₂.ticks + 1 + 1 }) rfl
    (fun e s' hs => hs ▸ hafter.forget) ?_
  rintro ⟨⟩ s' rfl
  refine Ends.read (Ends.ofOption (fun _ => hafter.forget) fun node _ => ?_)
  refine Ends.ite (fun heq => absurd heq hne) fun _ => ?_
  refine Ends.require (fun _ => hafter.forget) fun _ => Ends.read ?_
  refine Ends.bind (R := fun _ s' => s' = { s₂ with ticks := s₂.ticks + 1 + 1 }) ?_
    (fun e s' hs => hs ▸ hafter.forget) ?_
  · cases replaceable node _ <;> rfl
  rintro ⟨⟩ s' rfl
  refine Ends.check (fun _ => hafter.forget) fun hempty => ?_
  exact hafter.move (hsrc rfl) (hdst rfl) hfree hempty

end Scratch

end LeyLine.StoreFs
