import LeyLine.Fs.FaultGate
import LeyLine.Lib.Steps

/-!
# Verified reads

The session that `open` makes is one over the payload its root commits to. Together with the
gate's invariant this gives what a read may return. Two more facts are about runs: a page
whose bit is set is hashed again only by callers that had found the bit clear before, and a
read of a mapping left alone returns, with exactly the bytes asked for.
-/

namespace LeyLine.Fs.VerifiedArena

variable {CV Hash : Type} {b : Blake3 CV Hash} {payload : Bytes} {calm : Prop}

/-! ## Opening -/

/-- The payload's part of an arena file: the data of the active buffer. -/
def activeData (header : ArenaHeader) (file : Bytes) : Option Bytes :=
  match header.validateHeader file.length with
  | .error _ => none
  | .ok offset => some ((file.drop offset).take header.dataSize.toNat)

theorem openArena_ok [DecidableEq Hash] {zero root : Hash} {header : ArenaHeader} {file : Bytes}
    {a : VerifiedArena CV Hash} (h : openArena b zero header file root = .ok a) :
    ∃ data, activeData header file = some data ∧ a.data = data ∧ Session b data a ∧
    (data ≠ [] → b.hash data = root) := by
  simp only [openArena, Except.bind_eq_ok_iff, Except.mapError_eq_ok_iff] at h
  obtain ⟨offset, hvalid, h⟩ := h
  split_ifs at h with hsize hroot hmatch
  · cases h
    have hle := ArenaHeader.validateHeader_le hvalid
    have hlen : ((file.drop offset).take header.dataSize.toNat).length = header.dataSize.toNat := by
      rw [List.length_take, List.length_drop]
      omega
    have hdescribes := Outboard.build_describes b ((file.drop offset).take header.dataSize.toNat)
    have hhash : (file.drop offset).take header.dataSize.toNat ≠ [] →
        b.hash ((file.drop offset).take header.dataSize.toNat) = root := by
      intro hne
      have hpos : 0 < header.dataSize.toNat := by
        rw [← hlen]
        exact List.length_pos_iff.mpr hne
      have hzero : root ≠ zero := fun heq => hroot ⟨hpos, heq⟩
      have hsome := not_and_not_right.mp hmatch hzero
      rw [hdescribes.root] at hsome
      exact Option.some.inj hsome
    refine ⟨_, by rw [activeData, hvalid], rfl,
      ⟨hlen.symm, rfl, hdescribes, fun hne => (hhash hne).symm⟩, hhash⟩

theorem openArena_published [DecidableEq Hash] {zero : Hash} {header : ArenaHeader}
    {file data : Bytes} {offset : Nat} (hvalid : header.validateHeader file.length = .ok offset)
    (hsize : header.dataSize.toNat ≤ ArenaHeader.bufferSize file.length)
    (hdata : (file.drop offset).take header.dataSize.toNat = data) (hroot : b.hash data ≠ zero) :
    openArena b zero header file (b.hash data) = .ok
      ⟨data, header.dataSize.toNat, b.hash data, Outboard.build b data,
        Bitmap.empty (chunkCount header.dataSize.toNat), [], 0⟩ := by
  have hmatch : ¬ (b.hash data ≠ zero ∧ (Outboard.build b data).root b ≠ some (b.hash data)) :=
    fun h => h.2 (Outboard.build_describes b data).root
  simp only [openArena, hvalid, Except.mapError, bind, Except.bind, hdata,
    if_neg (Nat.not_lt.mpr hsize), hroot, and_false, if_false, hmatch]

/-! ## Hashing a page again -/

/-- A caller that found a page's bit clear and has not hashed the page yet. -/
def Pending (page : Nat) : Fault → Bool
  | .copying _ index _ _ | .checking _ index _ _ => index == page
  | _ => false

def hashes (page : Nat) (w : World CV Hash) : Nat := w.shared.hashed.count page

def pending (page : Nat) (w : World CV Hash) : Nat := w.callers.countP (Pending page)

variable (a : VerifiedArena CV Hash)

theorem pending_next (page : Nat) (job : Job) (index : Nat)
    (snapshots : List (Nat × Bytes)) : Pending page (a.next job index snapshots) = false := by
  cases job with
  | verify i => rfl
  | read offset buf =>
    rw [VerifiedArena.next]
    split <;> rfl

variable {page : Nat}

theorem pending_fault {a : VerifiedArena CV Hash} (hbit : Bitmap.get a.verified page = true)
    (job : Job) (index : Nat) (snapshots : List (Nat × Bytes)) :
    Pending page (a.fault job index snapshots) = false := by
  rw [fault]
  split
  · rfl
  · split
    · exact pending_next a page job index snapshots
    · rename_i hclear
      have hne : index ≠ page := by
        rintro rfl
        exact hclear hbit
      simpa [Pending] using hne

theorem pending_copy (page : Nat) (job : Job) (index : Nat) (snapshots : List (Nat × Bytes))
    (taken : Bytes) :
    Pending page (a.copy job index snapshots taken) = (index == page) := by
  rw [copy]
  split <;> rfl

theorem pending_serve (page offset : Nat) (buf : Bytes) (index : Nat)
    (snapshots : List (Nat × Bytes)) (dest : Bytes) :
    Pending page (a.serve offset buf index snapshots dest) = false := by
  rw [serve]
  split <;> rfl

theorem hashed_check [DecidableEq Hash] (a : VerifiedArena CV Hash) (page : Nat) (job : Job)
    (index : Nat) (snapshots : List (Nat × Bytes)) (snapshot : Bytes) :
    (a.check b job index snapshots snapshot).1.verified = a.verified ∧
      (a.check b job index snapshots snapshot).1.hashed.count page ≤
        a.hashed.count page + (if index == page then 1 else 0) ∧
      Pending page (a.check b job index snapshots snapshot).2 = false := by
  have hcount : (a.hashed ++ [index]).count page = a.hashed.count page +
      (if index == page then 1 else 0) := by
    rw [List.count_append, List.count_singleton]
  rw [check]
  split
  · exact ⟨rfl, Nat.le_add_right _ _, rfl⟩
  · split
    · exact ⟨rfl, Nat.le_of_eq hcount, rfl⟩
    · exact ⟨rfl, Nat.le_of_eq hcount, rfl⟩

theorem hashes_advanceQuiet [DecidableEq Hash] {a : VerifiedArena CV Hash}
    (hbit : Bitmap.get a.verified page = true) (t : Fault) :
    Bitmap.get (a.advanceQuiet b t).1.verified page = true ∧
      (a.advanceQuiet b t).1.hashed.count page +
      (if Pending page (a.advanceQuiet b t).2 then 1 else 0) ≤
        a.hashed.count page + (if Pending page t then 1 else 0) := by
  cases t with
  | readAt offset buf =>
    refine ⟨hbit, ?_⟩
    rw [advanceQuiet]
    split <;> exact le_rfl
  | faulting job index snapshots =>
    refine ⟨hbit, ?_⟩
    rw [advanceQuiet]
    rw [pending_fault hbit]
    exact le_rfl
  | copying job index snapshots taken =>
    refine ⟨hbit, ?_⟩
    rw [advanceQuiet]
    rw [pending_copy]
    exact le_rfl
  | checking job index snapshots snapshot =>
    obtain ⟨hverified, hcount, hpending⟩ := hashed_check a page job index snapshots snapshot
    rw [advanceQuiet]
    refine ⟨hverified ▸ hbit, ?_⟩
    rw [hpending]
    exact hcount
  | marking job index snapshots snapshot =>
    refine ⟨Bitmap.get_set_mono _ index hbit, ?_⟩
    rw [advanceQuiet]
    rw [pending_next]
    exact le_rfl
  | serving offset buf index snapshots dest =>
    refine ⟨hbit, ?_⟩
    rw [advanceQuiet]
    rw [pending_serve]
    exact le_rfl
  | verifyPage index | served offset buf snapshots dest count | checked index
  | refused job dest why =>
    exact ⟨hbit, le_rfl⟩

theorem hashes_next [DecidableEq Hash] {w : World CV Hash}
    (hbit : Bitmap.get w.shared.verified page = true) (action : Pool.Action Job Pokes) :
    Bitmap.get (Pool.next (program b) w action).shared.verified page = true ∧
      hashes page (Pool.next (program b) w action) + pending page (Pool.next (program b) w action) ≤
        hashes page w + pending page w := by
  cases action with
  | call job =>
    have hnew : Pending page ((program b).enter job) = false := by cases job <;> rfl
    refine ⟨hbit, ?_⟩
    rw [pending, Pool.next, List.countP_append, List.countP_singleton, hnew]
    exact le_rfl
  | step i pokes =>
    rcases hi : w.callers[i]? with _ | t
    · rw [Pool.next, hi]
      exact ⟨hbit, le_rfl⟩
    · have hbit' : Bitmap.get (w.shared.poke pokes).verified page = true := hbit
      obtain ⟨hkept, hle⟩ := hashes_advanceQuiet hbit' t
      obtain ⟨hlt, heq⟩ := List.getElem?_eq_some_iff.mp hi
      have hmem : (if Pending page t then 1 else 0) ≤ w.callers.countP (Pending page) := by
        split
        · rename_i hpending
          exact List.countP_pos_iff.mpr ⟨t, List.mem_of_getElem? hi, hpending⟩
        · exact Nat.zero_le _
      have hset : (w.callers.set i ((w.shared.poke pokes).advanceQuiet b t).2).countP
          (Pending page) = w.callers.countP (Pending page) - (if Pending page t then 1 else 0) +
            (if Pending page ((w.shared.poke pokes).advanceQuiet b t).2 then 1 else 0) := by
        rw [List.countP_set hlt, heq]
      have hsame : (w.shared.poke pokes).hashed = w.shared.hashed := rfl
      rw [Pool.next_step hi]
      refine ⟨hkept, ?_⟩
      change ((w.shared.poke pokes).advanceQuiet b t).1.hashed.count page +
        (w.callers.set i ((w.shared.poke pokes).advanceQuiet b t).2).countP (Pending page) ≤
          w.shared.hashed.count page + w.callers.countP (Pending page)
      rw [hsame] at hle
      omega

/-- **A page whose bit is set is hashed again only by callers that found it clear.** -/
theorem hashes_run [DecidableEq Hash] {w : World CV Hash}
    (hbit : Bitmap.get w.shared.verified page = true) (actions : List (Pool.Action Job Pokes)) :
    hashes page (Pool.run (program b) w actions) ≤ hashes page w + pending page w := by
  have hrun : ∀ (w' : World CV Hash), Bitmap.get w'.shared.verified page = true →
      hashes page (Pool.run (program b) w' actions) +
      pending page (Pool.run (program b) w' actions) ≤
        hashes page w' + pending page w' := by
    induction actions with
    | nil => exact fun _ _ => le_rfl
    | cons action actions ih =>
      intro w' hset
      obtain ⟨hkept, hle⟩ := hashes_next hset action
      exact (ih _ hkept).trans hle
  exact (Nat.le_add_right _ _).trans (hrun w hbit)

/-! ## Reads return -/

def after (payload : Bytes) (index : Nat) : Job → Nat
  | .verify _ => 0
  | .read offset buf =>
    (lastOf payload offset buf - index) * 1029 +
      (lastOf payload offset buf + 1 - offset / chunkLen) + 1

def left (payload : Bytes) : Fault → Nat
  | .readAt offset buf => after payload (offset / chunkLen) (.read offset buf) + 1029
  | .verifyPage index => after payload index (.verify index) + 1029
  | .faulting job index _ => after payload index job + 1028
  | .copying job index _ taken => after payload index job + (chunkLen - taken.length) + 3
  | .checking job index _ _ => after payload index job + 2
  | .marking job index _ _ => after payload index job + 1
  | .serving offset buf index _ _ => lastOf payload offset buf + 1 - index
  | .served _ _ _ _ _ | .checked _ | .refused _ _ _ => 0

def Done : Fault → Prop
  | .served _ _ _ _ _ | .checked _ | .refused _ _ _ => True
  | _ => False

section
variable {a : VerifiedArena CV Hash} (h : Session b payload a)
include h

theorem Session.left_next (job : Job) (index : Nat) (snapshots : List (Nat × Bytes)) :
    left payload (a.next job index snapshots) ≤ after payload index job := by
  cases job with
  | verify i => exact Nat.zero_le _
  | read offset buf =>
    rw [VerifiedArena.next, h.lastPage]
    split
    · simp only [left, after]
      omega
    · simp only [left, after]
      omega

theorem Session.left_lt [DecidableEq Hash] {t : Fault} (ht : Local payload calm t)
    (hdone : ¬ Done t) :
    left payload (a.advanceQuiet b t).2 < left payload t := by
  cases t with
  | readAt offset buf =>
    rw [advanceQuiet]
    split
    · exact Nat.succ_pos _
    · exact Nat.lt_succ_self _
  | verifyPage index => exact Nat.lt_succ_self _
  | faulting job index snapshots =>
    have hnext := h.left_next job index snapshots
    rw [advanceQuiet, fault]
    split
    · exact Nat.succ_pos _
    · split
      · exact Nat.lt_of_le_of_lt hnext (Nat.lt_add_of_pos_right (by decide))
      · simp only [left, List.length_nil, chunkLen]
        omega
  | copying job index snapshots taken =>
    rw [advanceQuiet, copy]
    split
    · rename_i hmore
      rw [VerifiedArena.pageStop] at hmore
      simp only [left, List.length_append, List.length_singleton]
      omega
    · simp only [left]
      omega
  | checking job index snapshots snapshot =>
    rw [advanceQuiet, check]
    split
    · exact Nat.succ_pos _
    · split
      · exact Nat.lt_succ_self _
      · exact Nat.succ_pos _
  | marking job index snapshots snapshot =>
    exact Nat.lt_succ_of_le (h.left_next job index (snapshots ++ [(index, snapshot)]))
  | serving offset buf index snapshots dest =>
    have hlast := ht.1.1.2.2.2
    rw [advanceQuiet, serve, h.lastPage]
    split
    · simp only [left]
      omega
    · simp only [left]
      omega
  | served offset buf snapshots dest count | checked index | refused job dest why =>
    exact absurd trivial hdone

end

def asks : Fault → Option (Nat × Bytes)
  | .readAt offset buf | .serving offset buf _ _ _ | .served offset buf _ _ _ => some (offset, buf)
  | .faulting job _ _ | .copying job _ _ _ | .checking job _ _ _ | .marking job _ _ _
  | .refused job _ _ =>
    match job with
    | .read offset buf => some (offset, buf)
    | .verify _ => none
  | .verifyPage _ | .checked _ => none

theorem asks_next (job : Job) (index : Nat) (snapshots : List (Nat × Bytes)) :
    asks (a.next job index snapshots) = asks (.faulting job index snapshots) := by
  cases job with
  | verify i => rfl
  | read offset buf =>
    rw [VerifiedArena.next]
    split <;> rfl

theorem asks_advanceQuiet [DecidableEq Hash] (a : VerifiedArena CV Hash) (t : Fault) :
    asks (a.advanceQuiet b t).2 = asks t := by
  cases t with
  | readAt offset buf =>
    rw [advanceQuiet]
    split <;> rfl
  | faulting job index snapshots =>
    rw [advanceQuiet, fault]
    split
    · rfl
    · split
      · exact asks_next a job index snapshots
      · rfl
  | copying job index snapshots taken =>
    rw [advanceQuiet, copy]
    split <;> rfl
  | checking job index snapshots snapshot =>
    rw [advanceQuiet, check]
    split
    · rfl
    · split <;> rfl
  | marking job index snapshots snapshot => exact asks_next a job index _
  | serving offset buf index snapshots dest =>
    rw [advanceQuiet, serve]
    split <;> rfl
  | verifyPage index | served offset buf snapshots dest count | checked index
  | refused job dest why =>
    rfl

theorem ServedTo.exact {offset : Nat} {buf dest : Bytes} {snapshots : List (Nat × Bytes)}
    (hcalm : calm)
    (h : ServedTo payload calm offset buf snapshots (stopOf payload offset buf) dest) :
    dest = (payload.drop offset).take (stopOf payload offset buf - offset) ++
      buf.drop (stopOf payload offset buf - offset) := by
  have hlen : ((payload.drop offset).take (stopOf payload offset buf - offset)).length =
      stopOf payload offset buf - offset := by
    rw [List.length_take, List.length_drop]
    unfold stopOf
    omega
  refine List.ext_getElem? fun k => ?_
  rw [List.getElem?_append, hlen]
  by_cases hk : k < stopOf payload offset buf - offset
  · have hright := h.right (offset + k) (Nat.le_add_right _ _) (by omega) (by omega) (.inl hcalm)
    rw [Nat.add_sub_cancel_left] at hright
    rw [if_pos hk, List.getElem?_take, if_pos hk, List.getElem?_drop, hright]
  · have hplace : stopOf payload offset buf - offset + (k - (stopOf payload offset buf - offset)) =
        k := by omega
    rw [if_neg hk, List.getElem?_drop, hplace]
    exact h.frame k (by omega)

/-! ## What the gate promises -/

def ServesAttested (payload : Bytes) (w : World CV Hash) : Prop :=
  ∀ (i offset : Nat) (buf : Bytes) (snapshots : List (Nat × Bytes)) (dest : Bytes) (count : Nat),
    w.callers[i]? = some (.served offset buf snapshots dest count) →
    ∀ p, offset ≤ p → p < offset + count → (∃ s ∈ snapshots, s.1 = p / chunkLen) →
    dest[p - offset]? = payload[p]?

def RefusesUntouched (w : World CV Hash) : Prop :=
  ∀ (i : Nat) (job : Job) (dest : Bytes) (why : Refusal),
    w.callers[i]? = some (.refused job dest why) → dest = job.buf

/-- From here on a page whose bit is set is hashed only by the callers that found it clear. -/
def RehashesPending [DecidableEq Hash] (b : Blake3 CV Hash) (w : World CV Hash) : Prop :=
  ∀ (page : Nat) (more : List (Pool.Action Job Pokes)), Bitmap.get w.shared.verified page = true →
    hashes page (Pool.run (program b) w more) ≤ hashes page w + pending page w

/-- Every read returns when it goes on, with the bytes of the payload in its range. -/
def ReadsExactly [DecidableEq Hash] (b : Blake3 CV Hash) (payload : Bytes) (w : World CV Hash) :
    Prop :=
  ∀ (i : Nat) (t : Fault) (offset : Nat) (buf : Bytes), w.callers[i]? = some t →
    asks t = some (offset, buf) →
    ∃ n snapshots, (Pool.run (program b) w (List.replicate n (.step i []))).callers[i]? =
      some (.served offset buf snapshots
        ((payload.drop offset).take (min (offset + buf.length) payload.length - offset) ++
          buf.drop (min (offset + buf.length) payload.length - offset))
        (min (offset + buf.length) payload.length - offset))

def LeftAlone (actions : List (Pool.Action Job Pokes)) : Prop :=
  ∀ i pokes, .step i pokes ∈ actions → pokes = []

section
variable [DecidableEq Hash] {w : World CV Hash}

theorem along_of_leftAlone {actions : List (Pool.Action Job Pokes)}
    (hcalm : calm → LeftAlone actions) :
    Pool.Along (program b) (Pool.Meets fun pokes _ _ => calm → pokes = []) w actions := by
  induction actions generalizing w with
  | nil => trivial
  | cons action actions ih =>
    refine ⟨?_, ih fun hc i pokes hmem => hcalm hc i pokes (List.mem_cons_of_mem _ hmem)⟩
    cases action with
    | call job => trivial
    | step i pokes => exact fun _ _ hc => hcalm hc i pokes List.mem_cons_self

abbrev Inv (b : Blake3 CV Hash) (payload : Bytes) (calm : Prop) (w : World CV Hash) : Prop :=
  Pool.Inv (Good b payload calm) (fun _ t => Local payload calm t) (fun _ _ => True) w

theorem readsExactly_of_inv (hinj : Function.Injective b.hash) (h : Inv b payload True w) :
    ReadsExactly b payload w := by
  intro i t offset buf hi hasks
  have hstep : ∀ w', Inv b payload True w' →
      Inv b payload True (Pool.next (program b) w' (.step i [])) :=
    fun w' hw' => hw'.nextWhen (keeps hinj) fun _ _ _ => rfl
  have hlt : ∀ w' u, Inv b payload True w' → w'.callers[i]? = some u → ¬ Done u →
      left payload ((program b).advance [] w'.shared u).2 < left payload u :=
    fun w' u hw' hu hdone => hw'.shared.1.left_lt (hw'.each i u hu) hdone
  have hkept : ∀ s u, asks u = some (offset, buf) → asks ((program b).advance [] s u).2 =
      some (offset, buf) :=
    fun s u hu => (asks_advanceQuiet (s.poke []) u).trans hu
  obtain ⟨n, t', ht', hdone, hasks', hinv⟩ :=
    Pool.steps_reach (left payload) hstep hkept hlt h hi hasks
  have hlocal := hinv.each i t' ht'
  cases t' with
  | served o d snapshots dest count =>
    cases hasks'
    obtain ⟨rfl, hserved⟩ := hlocal
    exact ⟨n, snapshots, by rw [ht', hserved.exact trivial]; rfl⟩
  | refused job dest why =>
    cases job with
    | read o d => exact absurd rfl (hlocal.2 trivial o d)
    | verify index => exact absurd hasks' nofun
  | checked index => exact absurd hasks' nofun
  | _ => exact hdone.elim

end

/-- **Verify-on-fault serves only attested bytes.** In every run of reads and page checks, with
anything written to the mapping after the arena was opened. -/
theorem serves_attested [DecidableEq Hash] (hinj : Function.Injective b.hash) {zero : Hash}
    {header : ArenaHeader} {file : Bytes} {a : VerifiedArena CV Hash}
    (hopen : openArena b zero header file (b.hash payload) = .ok a)
    (actions : List (Pool.Action Job Pokes)) :
    ServesAttested payload (Pool.run (program b) ⟨a, []⟩ actions) ∧
      RefusesUntouched (Pool.run (program b) ⟨a, []⟩ actions) ∧
      RehashesPending b (Pool.run (program b) ⟨a, []⟩ actions) ∧
      (activeData header file = some payload → LeftAlone actions →
        ReadsExactly b payload (Pool.run (program b) ⟨a, []⟩ actions)) := by
  obtain ⟨data, hactive, hdata, hsession, hhash⟩ := openArena_ok hopen
  have hstart : ∀ calm : Prop, Inv b data calm ⟨a, []⟩ :=
    fun calm => ⟨⟨hsession, fun _ => hdata⟩, fun i t hi => absurd hi (by simp),
      fun i j t u _ hi _ => absurd hi (by simp)⟩
  have hfree : Pool.Along (program b) (Pool.Meets fun pokes _ _ => False → pokes = []) ⟨a,
      []⟩ actions :=
    along_of_leftAlone nofun
  have hany := (hstart False).along (keeps hinj) hfree
  refine ⟨?_, ?_, fun page more hbit => hashes_run hbit more, fun hpublished halone => ?_⟩
  · intro i offset buf snapshots dest count hi p hp hcount hverified
    obtain ⟨rfl, hserved⟩ := hany.each i _ hi
    have hstop : p < stopOf data offset buf := by omega
    have hne : data ≠ [] := by
      rintro rfl
      unfold stopOf at hstop
      rw [List.length_nil] at hstop
      omega
    obtain rfl := hinj (hhash hne)
    exact hserved.right p hp hstop hstop (.inr hverified)
  · exact fun i job dest why hi => (hany.each i _ hi).1
  · obtain rfl := Option.mem_unique hactive hpublished
    exact readsExactly_of_inv hinj
      ((hstart True).along (keeps hinj) (along_of_leftAlone fun _ => halone))

/-! ## A session, run -/

def plainBlake3 : Blake3 Bytes Bytes := .ofCompression (fun _ c => c) (· ++ ·) id (· ++ ·)

theorem plainBlake3_subtree (data : Bytes) {start count : Nat} (hpos : 0 < count) :
    plainBlake3.subtree data start count =
    (data.drop (start * chunkLen)).take (count * chunkLen) := by
  induction count using Nat.strong_induction_on generalizing start with
  | _ count ih =>
    by_cases htwo : 2 ≤ count
    · have hlt := LeftTree.leftSize_lt htwo
      have hleft := LeftTree.leftSize_pos count
      have hcount : count * chunkLen =
          LeftTree.leftSize count * chunkLen + (count - LeftTree.leftSize count) * chunkLen := by
        rw [← Nat.add_mul, Nat.add_sub_cancel' hlt.le]
      have hsplit :=
        @LeftTree.node_split _ plainBlake3.parent (plainBlake3.leafCv data) _ start htwo
      rw [Blake3.subtree, hsplit, hcount, List.take_add, List.drop_drop, ← Nat.add_mul]
      exact congrArg₂ _ (ih _ hlt hleft) (ih _ (by omega) (by omega))
    · obtain rfl : count = 1 := by omega
      rw [Blake3.subtree, LeftTree.node_one, Nat.one_mul]
      rfl

theorem plainBlake3_hash (data : Bytes) : plainBlake3.hash data = data := by
  rw [Blake3.hash]
  split
  · rfl
  · have htwo : 2 ≤ chunkCount data.length := by omega
    have hlt := LeftTree.leftSize_lt htwo
    have hleft := LeftTree.leftSize_pos (chunkCount data.length)
    have hcount : LeftTree.leftSize (chunkCount data.length) * chunkLen +
        (chunkCount data.length - LeftTree.leftSize (chunkCount data.length)) * chunkLen =
          chunkCount data.length * chunkLen := by
      rw [← Nat.add_mul, Nat.add_sub_cancel' hlt.le]
    have hjoin : data.take (LeftTree.leftSize (chunkCount data.length) * chunkLen) ++
        (data.drop (LeftTree.leftSize (chunkCount data.length) * chunkLen)).take
          ((chunkCount data.length - LeftTree.leftSize (chunkCount data.length)) * chunkLen) =
          data := by
      rw [← List.take_add, hcount]
      refine List.take_of_length_le ?_
      unfold chunkCount chunkLen
      omega
    rw [plainBlake3_subtree data hleft, plainBlake3_subtree data (by omega), Nat.zero_mul,
      List.drop_zero]
    exact hjoin

def byteHeader : ArenaHeader := ⟨ArenaHeader.arenaMagic, 2, 0, 1, 1⟩

def byteFile : Bytes := List.replicate 4096 0 ++ [5, 0]

def byteArena : VerifiedArena Bytes Bytes :=
  ⟨[5], 1, plainBlake3.hash [5], Outboard.build plainBlake3 [5], Bitmap.empty 1, [], 0⟩

theorem openArena_byte : openArena plainBlake3 [] byteHeader byteFile (plainBlake3.hash [5]) =
    .ok byteArena := by
  have hvalid : byteHeader.validateHeader byteFile.length = .ok 4096 := by decide +kernel
  have hdata : (byteFile.drop 4096).take 1 = [5] := by decide +kernel
  exact openArena_published hvalid (by decide +kernel) hdata (by nofun)

/-- One read of the byte, and the byte overwritten once it was copied. -/
def readOnce : List (Pool.Action Job Pokes) :=
  .call (.read 0 [0, 0]) :: List.replicate 5 (.step 0 []) ++ List.replicate 2 (.step 0 [(0, 6)])

theorem serves_attested_byte :
    (Pool.run (program plainBlake3) ⟨byteArena, []⟩ readOnce).callers[0]? =
        some (.served 0 [0, 0] [(0, [5])] [5, 0] 1) ∧
      ServesAttested [5] (Pool.run (program plainBlake3) ⟨byteArena, []⟩ readOnce) := by
  have hinj : Function.Injective plainBlake3.hash := by
    intro data data' h
    rwa [plainBlake3_hash, plainBlake3_hash] at h
  exact ⟨by rfl, (serves_attested hinj openArena_byte readOnce).1⟩

/-- Once a page is verified nobody hashes it any more. -/
def NeverRehashes [DecidableEq Hash] (b : Blake3 CV Hash) (w : World CV Hash) : Prop :=
  ∀ (page : Nat) (more : List (Pool.Action Job Pokes)), Bitmap.get w.shared.verified page = true →
    hashes page (Pool.run (program b) w more) = hashes page w

/-- Two callers find the page's bit clear, and the first of them verifies the page. -/
def bothFault : List (Pool.Action Job Pokes) :=
  [.call (.verify 0), .call (.verify 0), .step 0 [], .step 0 [], .step 1 [], .step 1 []] ++
    List.replicate 4 (.step 0 [])

theorem page_hashed_twice :
    openArena plainBlake3 [] byteHeader byteFile (plainBlake3.hash [5]) = .ok byteArena ∧
      ¬ NeverRehashes plainBlake3 (Pool.run (program plainBlake3) ⟨byteArena, []⟩ bothFault) := by
  refine ⟨openArena_byte, fun h => ?_⟩
  have hbit : Bitmap.get (Pool.run (program plainBlake3) ⟨byteArena, []⟩ bothFault).shared.verified
      0 = true := by
    decide +kernel
  have hcount := h 0 (List.replicate 3 (.step 1 [])) hbit
  exact absurd hcount (by decide)

end LeyLine.Fs.VerifiedArena
