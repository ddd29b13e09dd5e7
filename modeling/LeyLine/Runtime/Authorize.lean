import LeyLine.Lib.Steps
import LeyLine.Runtime.Service

/-!
# What a grant resolves

`authorization.rs` holds a grant against the spec it is for: its limits must narrow the
requested ones, its workspaces must be the requested ones. Of the two messages only what these
checks read is here, as Cap'n Proto hands it over.
-/

namespace LeyLine.Runtime

open Except (bind_eq_ok_iff require)

/-! ## Limits -/

structure CpuLimits where
  quota : UInt64
  period : UInt64
  deriving DecidableEq, Repr

structure ResourceLimits where
  wallTimeMs : UInt64
  outputBytes : UInt64
  memory : UInt64
  cpu : CpuLimits
  pids : UInt64
  deriving DecidableEq, Repr

/-- `DEFAULT_CPU_PERIOD_US`. -/
def defaultCpuPeriodUs : UInt64 := 100000

def CpuLimits.effectivePeriod (c : CpuLimits) : UInt64 :=
  if c.period = 0 then defaultCpuPeriodUs else c.period

/-- The product of two `u64` in `u128`. -/
def mulU128 (a b : UInt64) : Nat := a.toNat * b.toNat % 2 ^ 128

namespace ResourceLimits

def validate (l : ResourceLimits) : Except ExecutionError Unit :=
  require (!(l.cpu.quota == 0 && l.cpu.period != 0))
    (.invalid "cpu.period without cpu.quota names no ceiling")

def narrows (self requested : ResourceLimits) : Except ExecutionError Unit := do
  [("wallTimeMs", requested.wallTimeMs, self.wallTimeMs),
    ("outputBytes", requested.outputBytes, self.outputBytes),
    ("memory.limit", requested.memory, self.memory),
    ("pids.limit", requested.pids, self.pids)].forM fun (name, requested, resolved) =>
      require (!(requested != 0 && (resolved == 0 || decide (requested < resolved))))
        (.invalid s!"grant limit {name} widens the requested limit")
  require (!(requested.cpu.quota != 0 && (self.cpu.quota == 0 ||
      decide (mulU128 requested.cpu.quota self.cpu.effectivePeriod <
        mulU128 self.cpu.quota requested.cpu.effectivePeriod))))
    (.invalid "grant limit cpu.quota widens the requested limit")

end ResourceLimits

def Bounded {α : Type} [LE α] [Zero α] (resolved requested : α) : Prop :=
  requested ≠ 0 → resolved ≠ 0 ∧ resolved ≤ requested

section Bounded

variable {α : Type} [LE α] [Std.IsPreorder α] [Zero α]

theorem Bounded.refl (a : α) : Bounded a a := fun h => ⟨h, Std.le_refl a⟩

theorem Bounded.trans {a b c : α} (hab : Bounded a b) (hbc : Bounded b c) : Bounded a c := by
  intro hc
  obtain ⟨hb, hle⟩ := hbc hc
  exact ⟨(hab hb).1, Std.le_trans (hab hb).2 hle⟩

end Bounded

/-- `quota / period`. -/
def CpuLimits.bandwidth (c : CpuLimits) : ℚ := c.quota.toNat / c.effectivePeriod.toNat

/-- The bounds of a `ResourceLimits` hold within those of another, with CPU as bandwidth. -/
structure ResourceLimits.Within (l requested : ResourceLimits) : Prop where
  wallTimeMs : Bounded l.wallTimeMs requested.wallTimeMs
  outputBytes : Bounded l.outputBytes requested.outputBytes
  memory : Bounded l.memory requested.memory
  pids : Bounded l.pids requested.pids
  cpu : Bounded l.cpu.bandwidth requested.cpu.bandwidth

theorem CpuLimits.effectivePeriod_pos (c : CpuLimits) : (0 : ℚ) < c.effectivePeriod.toNat := by
  have hne : c.effectivePeriod ≠ 0 := by
    unfold effectivePeriod
    split
    · decide
    · assumption
  exact_mod_cast Nat.pos_of_ne_zero fun h => hne (UInt64.toNat.inj h)

theorem CpuLimits.bandwidth_ne_zero_iff (c : CpuLimits) : c.bandwidth ≠ 0 ↔ c.quota ≠ 0 := by
  rw [bandwidth, ne_eq, div_eq_zero_iff, or_iff_left c.effectivePeriod_pos.ne', Nat.cast_eq_zero,
    ← UInt64.toNat_zero, UInt64.toNat_inj]

theorem mulU128_eq (a b : UInt64) : mulU128 a b = a.toNat * b.toNat := by
  have hlt := Nat.mul_lt_mul'' a.toNat_lt b.toNat_lt
  exact Nat.mod_eq_of_lt (hlt.trans_eq (by norm_num))

theorem CpuLimits.bandwidth_le_iff (c d : CpuLimits) : c.bandwidth ≤ d.bandwidth ↔
      ¬ mulU128 d.quota c.effectivePeriod < mulU128 c.quota d.effectivePeriod := by
  rw [bandwidth, bandwidth, div_le_div_iff₀ c.effectivePeriod_pos d.effectivePeriod_pos, mulU128_eq,
    mulU128_eq, not_lt]
  norm_cast

theorem bounded_iff {resolved requested : UInt64} :
    (!(requested != 0 && (resolved == 0 || decide (requested < resolved)))) = true ↔
      Bounded resolved requested := by
  simp [Bounded, imp_iff_not_or]

theorem bandwidth_bounded_iff {c requested : CpuLimits} :
    (!(requested.quota != 0 && (c.quota == 0 || decide (mulU128 requested.quota c.effectivePeriod <
      mulU128 c.quota requested.effectivePeriod)))) = true ↔
      Bounded c.bandwidth requested.bandwidth := by
  rw [Bounded, CpuLimits.bandwidth_ne_zero_iff, CpuLimits.bandwidth_ne_zero_iff,
    CpuLimits.bandwidth_le_iff]
  simp [imp_iff_not_or]

theorem ResourceLimits.narrows_eq_ok_iff {l requested : ResourceLimits} {u : Unit} :
    l.narrows requested = .ok u ↔ l.Within requested := by
  simp only [narrows, bind_eq_ok_iff, Except.forM_eq_ok_iff, Except.require_eq_ok_iff,
    List.forall_mem_cons, bounded_iff, bandwidth_bounded_iff]
  constructor
  · rintro ⟨-, ⟨hwall, hout, hmem, hpids, -⟩, hcpu⟩
    exact ⟨hwall, hout, hmem, hpids, hcpu⟩
  · rintro ⟨hwall, hout, hmem, hpids, hcpu⟩
    exact ⟨(), ⟨hwall, hout, hmem, hpids, by simp⟩, hcpu⟩

theorem ResourceLimits.Within.refl (l : ResourceLimits) : l.Within l :=
  ⟨.refl _, .refl _, .refl _, .refl _, .refl _⟩

theorem ResourceLimits.Within.trans {a b c : ResourceLimits} (hab : a.Within b) (hbc : b.Within c) :
    a.Within c :=
  ⟨hab.wallTimeMs.trans hbc.wallTimeMs, hab.outputBytes.trans hbc.outputBytes,
    hab.memory.trans hbc.memory, hab.pids.trans hbc.pids, hab.cpu.trans hbc.cpu⟩

/-! ## Workspaces -/

structure DigestRef where
  algorithm : Text
  value : Text
  deriving DecidableEq, Repr

def DigestRef.text (d : DigestRef) : Text := d.algorithm ++ ':' :: d.value

structure WorkspaceIntent where
  name : Text
  graphRoot : DigestRef
  deriving DecidableEq, Repr

/-- A workspace of the grant's message; `WorkspaceGrant` is what is read from it. -/
structure WorkspaceEntry where
  name : Text
  graphRoot : DigestRef
  expectedGeneration : Nat
  operations : List WorkspaceOperation
  deriving DecidableEq, Repr

structure RunSpec where
  workspaceInputs : List WorkspaceIntent
  requestedLimits : ResourceLimits

structure RunGrant where
  workspaces : List WorkspaceEntry
  limits : ResourceLimits

def readDigest (d : DigestRef) (field : String) : Except ExecutionError Text := do
  require (d.algorithm == "blake3-256".toList && d.value.length == 64 &&
      d.value.all fun c => c.isDigit || ('a' ≤ c && c ≤ 'f'))
    (.invalid s!"{field} must be a lowercase blake3-256 digest")
  pure d.text

def readIntent (w : WorkspaceIntent) : Except ExecutionError (Text × Text) := do
  let graphRoot ← readDigest w.graphRoot "workspaceInputs.graphRoot"
  pure (w.name, graphRoot)

def readGrant (w : WorkspaceEntry) : Except ExecutionError WorkspaceGrant := do
  let graphRoot ← readDigest w.graphRoot "grant workspace graphRoot"
  require (!w.operations.isEmpty) (.invalid
    ("grant workspace " ++ String.ofList w.name ++ " has no authorized operations"))
  pure ⟨w.name, graphRoot, w.expectedGeneration, w.operations⟩

def validateWorkspaces (requested : List WorkspaceIntent) (resolved : List WorkspaceEntry) :
    Except ExecutionError (List WorkspaceGrant) := do
  let requested ← requested.mapM readIntent
  let grants ← resolved.mapM readGrant
  let resolved := grants.map fun g => (g.name, g.graphRoot)
  require (!(requested.length != resolved.length || requested.any (fun e => !resolved.contains e) ||
      resolved.any fun e => (resolved.filter fun c => c.1 == e.1).length != 1))
    (.invalid "grant workspaces must exactly match RunSpec.workspaceInputs")
  pure grants

def readLimits (l : ResourceLimits) (field : String) : Except ExecutionError ResourceLimits := do
  l.validate.mapError fun e => .invalid s!"invalid {field}: {e.detail}"
  pure l

def validateLimits (requested resolved : ResourceLimits) :
    Except ExecutionError ResourceLimits := do
  let requested ← readLimits requested "requestedLimits"
  let resolved ← readLimits resolved "grant limits"
  resolved.narrows requested
  pure resolved

/-- The part of `authorize_with_verifier` that holds the grant's resources against the spec's. The
checks around it look at other fields, `read_intent` at the names again. -/
def resolveGrant (spec : RunSpec) (grant : RunGrant) :
    Except ExecutionError (ResourceLimits × List WorkspaceGrant) := do
  let limits ← validateLimits spec.requestedLimits grant.limits
  let workspaces ← validateWorkspaces spec.workspaceInputs grant.workspaces
  spec.workspaceInputs.forM fun w =>
    require (!w.name.isEmpty) (.invalid "workspace name must not be empty")
  pure (limits, workspaces)

def WorkspaceIntent.key (w : WorkspaceIntent) : Text × Text := (w.name, w.graphRoot.text)

def WorkspaceEntry.key (w : WorkspaceEntry) : Text × Text := (w.name, w.graphRoot.text)

/-- The workspaces of the grant are those of the spec, one for one, and no name is there twice. -/
structure Corresponds (spec : RunSpec) (grant : RunGrant) : Prop where
  perm : (spec.workspaceInputs.map (·.key)).Perm (grant.workspaces.map (·.key))
  requested : (spec.workspaceInputs.map (·.name)).Nodup
  resolved : (grant.workspaces.map (·.name)).Nodup

theorem readDigest_eq {d : DigestRef} {field : String} {x : Text} (h : readDigest d field = .ok x) :
    x = d.text := by
  obtain ⟨-, -, hx⟩ := bind_eq_ok_iff.mp h
  exact (Except.ok.inj hx).symm

theorem readIntent_eq {w : WorkspaceIntent} {x : Text × Text} (h : readIntent w = .ok x) :
    x = w.key := by
  obtain ⟨root, hroot, hx⟩ := bind_eq_ok_iff.mp h
  rw [← Except.ok.inj hx, readDigest_eq hroot, WorkspaceIntent.key]

theorem readGrant_eq {w : WorkspaceEntry} {g : WorkspaceGrant} (h : readGrant w = .ok g) :
    (g.name, g.graphRoot) = w.key := by
  obtain ⟨root, hroot, h⟩ := bind_eq_ok_iff.mp h
  obtain ⟨-, -, hg⟩ := bind_eq_ok_iff.mp h
  rw [← Except.ok.inj hg, readDigest_eq hroot, WorkspaceEntry.key]

theorem map_of_mapM {α β γ ε : Type} {f : α → Except ε β} {g : β → γ} {k : α → γ} {l : List α}
    {l' : List β}
    (hf : ∀ a b, f a = .ok b → g b = k a) (h : l.mapM f = .ok l') : l'.map g = l.map k := by
  have hl := Except.mapM_eq_ok_iff.mp h
  clear h
  induction hl with
  | nil => rfl
  | cons hab _ ih => rw [List.map_cons, List.map_cons, hf _ _ hab, ih]

theorem validateWorkspaces_ok {requested : List WorkspaceIntent} {resolved : List WorkspaceEntry}
    {grants : List WorkspaceGrant} (h : validateWorkspaces requested resolved = .ok grants) :
    requested.length = resolved.length ∧ requested.map (·.key) ⊆ resolved.map (·.key) ∧
      (resolved.map (·.name)).Nodup := by
  obtain ⟨keys, hkeys, h⟩ := bind_eq_ok_iff.mp h
  obtain ⟨grants, hgrants, h⟩ := bind_eq_ok_iff.mp h
  obtain ⟨_, hcheck, -⟩ := bind_eq_ok_iff.mp h
  have hkeys := map_of_mapM (g := id) (fun _ _ => readIntent_eq) hkeys
  rw [List.map_id] at hkeys
  rw [map_of_mapM (fun _ _ => readGrant_eq) hgrants, hkeys, Except.require_eq_ok_iff] at hcheck
  simp only [Bool.not_eq_true', Bool.or_eq_false_iff, bne_eq_false_iff_eq, List.length_map,
    List.any_eq_false, Bool.not_eq_true, Bool.not_eq_false, List.contains_iff_mem] at hcheck
  obtain ⟨⟨hlen, hsub⟩, hone⟩ := hcheck
  refine ⟨hlen, hsub, List.nodup_iff_count_eq_one.mpr fun name hname => ?_⟩
  obtain ⟨w, hw, rfl⟩ := List.mem_map.mp hname
  have hcount := hone _ (List.mem_map_of_mem hw)
  rw [← List.countP_eq_length_filter, List.countP_map] at hcount
  rw [List.count, List.countP_map]
  exact hcount

/-- **A grant resolves what the spec requests**, where the spec lists no workspace twice: then, and
only then, the workspaces it is accepted with correspond to the requested ones. The limits
narrow the requested ones in any case, and narrowing is a preorder. -/
theorem grant_resolves_iff {spec : RunSpec} {grant : RunGrant}
    {out : ResourceLimits × List WorkspaceGrant} (h : resolveGrant spec grant = .ok out) :
    (Corresponds spec grant ↔ (spec.workspaceInputs.map (·.key)).Nodup) ∧
      grant.limits.Within spec.requestedLimits ∧ (∀ l : ResourceLimits, l.narrows l = .ok ()) ∧
      ∀ a b c : ResourceLimits, a.narrows b = .ok () → b.narrows c = .ok () →
      a.narrows c = .ok () := by
  obtain ⟨limits, hlimits, h⟩ := bind_eq_ok_iff.mp h
  obtain ⟨workspaces, hworkspaces, -⟩ := bind_eq_ok_iff.mp h
  obtain ⟨hlen, hsub, hnames⟩ := validateWorkspaces_ok hworkspaces
  simp only [validateLimits, readLimits, bind_eq_ok_iff] at hlimits
  obtain ⟨_, ⟨-, -, hrequested⟩, _, ⟨-, -, hresolved⟩, _, hnarrows, -⟩ := hlimits
  cases hrequested
  cases hresolved
  simp only [ResourceLimits.narrows_eq_ok_iff] at hnarrows ⊢
  refine ⟨⟨fun hc => ?_, fun hdistinct => ?_⟩, hnarrows, .refl, fun a b c => .trans⟩
  · have hc := hc.requested
    rw [show spec.workspaceInputs.map (·.name) = (spec.workspaceInputs.map (·.key)).map Prod.fst by
      simp [WorkspaceIntent.key]] at hc
    exact hc.of_map _
  · have hperm := (hdistinct.subperm hsub).perm_of_length_le (by simp [hlen])
    refine ⟨hperm, ?_, hnames⟩
    have hfst := hperm.map Prod.fst
    simp only [List.map_map] at hfst
    exact hfst.nodup_iff.mpr hnames

def plainEntry (name : Text) : WorkspaceEntry :=
  ⟨name, ⟨"blake3-256".toList, List.replicate 64 'a'⟩, 0, [.read]⟩

def unlimited : ResourceLimits := ⟨0, 0, 0, ⟨0, 0⟩, 0⟩

def plainSpec (names : List Text) : RunSpec :=
  ⟨names.map fun n => ⟨n, (plainEntry n).graphRoot⟩, unlimited⟩

def plainGrant (names : List Text) : RunGrant := ⟨names.map plainEntry, unlimited⟩

theorem grant_resolves_iff_two :
    Corresponds (plainSpec [['a'], ['b']]) (plainGrant [['b'], ['a']]) :=
  (grant_resolves_iff rfl).1.mpr (by decide)

/-- The spec asks for one workspace twice; the grant adds one it does not ask for. -/
theorem grant_adds_workspace :
    (∃ out, resolveGrant (plainSpec [['a'], ['a']]) (plainGrant [['a'], ['b']]) = .ok out) ∧
      ¬ Corresponds (plainSpec [['a'], ['a']]) (plainGrant [['a'], ['b']]) :=
  ⟨⟨_, rfl⟩, fun h => absurd h.requested (by decide)⟩

end LeyLine.Runtime
