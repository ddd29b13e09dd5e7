import LeyLine.Fs.VerifiedArena

/-!
# What the gate lets through

A session is opened over a payload and keeps its tree. A copy that verifies is the payload's
page, whatever was written to the mapping and when, since the siblings it is folded with are
those of the load. So what a read serves of the pages it verified itself is the payload, and
where nothing is written to the mapping so is everything it serves.

The two are one invariant, over a proposition `calm` that says whether the mapping is left
alone: under it the mapping is the payload, no copy is refused and every page serves right.
-/

namespace LeyLine.Fs.VerifiedArena

variable {CV Hash : Type} {b : Blake3 CV Hash} {payload : Bytes} {calm : Prop}

/-! ## The session -/

/-- A session over a payload. -/
structure Session (b : Blake3 CV Hash) (payload : Bytes) (a : VerifiedArena CV Hash) : Prop where
  dataLen : a.dataLen = payload.length
  length : a.data.length = payload.length
  describes : Outboard.Describes b a.outboard payload
  root : payload ≠ [] → a.root = b.hash payload

def Good (b : Blake3 CV Hash) (payload : Bytes) (calm : Prop) (a : VerifiedArena CV Hash) : Prop :=
  Session b payload a ∧ (calm → a.data = payload)

theorem length_foldl_set (pokes : Pokes) (data : Bytes) :
    (pokes.foldl (fun data p => data.set p.1 p.2) data).length = data.length := by
  induction pokes generalizing data with
  | nil => rfl
  | cons p pokes ih => rw [List.foldl_cons, ih, List.length_set]

theorem Good.poke {a : VerifiedArena CV Hash} (h : Good b payload calm a) {pokes : Pokes}
    (hpokes : calm → pokes = []) :
    Good b payload calm (a.poke pokes) := by
  obtain ⟨hsession, hcalm⟩ := h
  refine ⟨⟨hsession.dataLen, ?_, hsession.describes, hsession.root⟩, fun hc => ?_⟩
  · exact (length_foldl_set pokes a.data).trans hsession.length
  · rw [hpokes hc]
    exact hcalm hc

/-! ## Where callers stand -/

def stopOf (payload : Bytes) (offset : Nat) (buf : Bytes) : Nat :=
  min (offset + buf.length) payload.length

def lastOf (payload : Bytes) (offset : Nat) (buf : Bytes) : Nat :=
  (stopOf payload offset buf - 1) / chunkLen

def InRange (payload : Bytes) (index : Nat) : Job → Prop
  | .read offset buf =>
    offset < payload.length ∧ buf ≠ [] ∧ offset / chunkLen ≤ index ∧
      index ≤ lastOf payload offset buf
  | .verify i => index = i

def Genuine (payload : Bytes) (snapshots : List (Nat × Bytes)) : Prop :=
  ∀ s ∈ snapshots, s.2 = chunkAt payload s.1

/-- The positions a read answers for: of a page it verified itself, and any when the mapping is
left alone. -/
def Vouched (calm : Prop) (snapshots : List (Nat × Bytes)) (p : Nat) : Prop :=
  calm ∨ ∃ s ∈ snapshots, s.1 = p / chunkLen

/-- The destination of a read whose positions below `upTo` are served. -/
structure ServedTo (payload : Bytes) (calm : Prop) (offset : Nat) (buf : Bytes)
    (snapshots : List (Nat × Bytes)) (upTo : Nat) (dest : Bytes) : Prop where
  length : dest.length = buf.length
  right : ∀ p, offset ≤ p → p < stopOf payload offset buf → p < upTo → Vouched calm snapshots p →
    dest[p - offset]? = payload[p]?
  frame : ∀ k, stopOf payload offset buf - offset ≤ k → dest[k]? = buf[k]?

def Local (payload : Bytes) (calm : Prop) : Fault → Prop
  | .faulting job index snapshots => InRange payload index job ∧ Genuine payload snapshots
  | .copying job index snapshots taken =>
    (InRange payload index job ∧ Genuine payload snapshots) ∧ index < chunkCount payload.length ∧
      (calm → taken = (chunkAt payload index).take taken.length)
  | .checking job index snapshots snapshot =>
    (InRange payload index job ∧ Genuine payload snapshots) ∧ index < chunkCount payload.length ∧
      (calm → snapshot = chunkAt payload index)
  | .marking job index snapshots snapshot =>
    (InRange payload index job ∧ Genuine payload snapshots) ∧ snapshot = chunkAt payload index
  | .serving offset buf index snapshots dest =>
    (InRange payload index (.read offset buf) ∧ Genuine payload snapshots) ∧
      ServedTo payload calm offset buf snapshots (pageStart index) dest
  | .served offset buf snapshots dest count =>
    count = stopOf payload offset buf - offset ∧
      ServedTo payload calm offset buf snapshots (stopOf payload offset buf) dest
  | .refused job dest _ => dest = job.buf ∧ (calm → ∀ offset buf, job ≠ .read offset buf)
  | .readAt _ _ | .verifyPage _ | .checked _ => True

/-! ## Pages -/

theorem chunkAt_get (data : Bytes) (i k : Nat) (hk : k < chunkLen) :
    (chunkAt data i)[k]? = data[i * chunkLen + k]? := by
  rw [chunkAt, List.getElem?_take, if_pos hk, List.getElem?_drop]

variable {index offset : Nat} {buf : Bytes}

theorem InRange.lt (h : InRange payload index (.read offset buf)) :
    index < chunkCount payload.length := by
  obtain ⟨hoffset, hbuf, -, hlast⟩ := h
  unfold lastOf stopOf at hlast
  unfold chunkCount chunkLen at *
  omega

section
variable {a : VerifiedArena CV Hash} (h : Session b payload a)
include h

theorem Session.pages : a.pages =
    chunkCount payload.length := by rw [VerifiedArena.pages, h.dataLen]

theorem Session.readStop (offset : Nat) (buf : Bytes) :
    a.readStop offset buf = stopOf payload offset buf := by
  rw [VerifiedArena.readStop, stopOf, h.dataLen]

theorem Session.lastPage (offset : Nat) (buf : Bytes) :
    a.lastPage offset buf = lastOf payload offset buf := by
  rw [VerifiedArena.lastPage, lastOf, h.readStop]

theorem Session.pageStop (hi : index < chunkCount payload.length) :
    a.pageStop index = pageStart index + (chunkAt payload index).length := by
  rw [VerifiedArena.pageStop, h.dataLen, chunkAt_length, pageStart]
  unfold chunkCount chunkLen at *
  omega

theorem Session.slice_length (hi : index < chunkCount payload.length) :
    ((a.data.drop (pageStart index)).take (a.pageStop index - pageStart index)).length =
    (chunkAt payload index).length := by
  rw [h.pageStop hi, Nat.add_sub_cancel_left, List.length_take, List.length_drop, h.length,
    chunkAt_length, pageStart]
  omega

theorem Session.pageBytes_length {snapshots : List (Nat × Bytes)}
    (hgenuine : Genuine payload snapshots) (hi : index < chunkCount payload.length) :
    (a.pageBytes index snapshots).length = (chunkAt payload index).length := by
  rw [pageBytes]
  split
  · rename_i s hfind
    have hindex : s.1 = index := by simpa using List.find?_some hfind
    rw [hgenuine s (List.mem_of_find?_eq_some hfind), hindex]
  · exact h.slice_length hi

theorem Session.pageBytes_eq (hcalm : calm → a.data = payload) {snapshots : List (Nat × Bytes)}
    (hgenuine : Genuine payload snapshots) (hi : index < chunkCount payload.length)
    (hvouched : calm ∨ ∃ s ∈ snapshots, s.1 = index) :
    a.pageBytes index snapshots = chunkAt payload index := by
  rw [pageBytes]
  split
  · rename_i s hfind
    have hindex : s.1 = index := by simpa using List.find?_some hfind
    rw [hgenuine s (List.mem_of_find?_eq_some hfind), hindex]
  · rename_i hfind
    rcases hvouched with hc | ⟨s, hs, hindex⟩
    · have hslice := h.slice_length hi
      rw [hcalm hc] at hslice ⊢
      rw [h.pageStop hi, Nat.add_sub_cancel_left, chunkAt, pageStart, List.take_eq_take_iff]
      rw [← chunkAt, chunkAt_length, List.length_drop]
      omega
    · have hnone := List.find?_eq_none.mp hfind s hs
      exact absurd hindex (by simpa using hnone)

end

/-! ## Serving -/

variable {dest : Bytes}

theorem getElem?_splice {dest part : Bytes} {lo hi : Nat} (hle : lo ≤ hi) (hhi : hi ≤ dest.length)
    (hpart : part.length = hi - lo) (k : Nat) : (dest.take lo ++ (part ++ dest.drop hi))[k]? =
      if k < lo then dest[k]? else if k < hi then part[k - lo]? else dest[k]? := by
  have htake : (dest.take lo).length = lo := by
    rw [List.length_take]
    omega
  rw [List.getElem?_append, List.getElem?_append, htake, hpart, List.getElem?_take,
    List.getElem?_drop]
  by_cases hlo : k < lo
  · rw [if_pos hlo, if_pos hlo, if_pos hlo]
  · rw [if_neg hlo, if_neg hlo]
    by_cases hk : k < hi
    · rw [if_pos (by omega), if_pos hk]
    · have hplace : hi + (k - lo - (hi - lo)) = k := by omega
      rw [if_neg (by omega), if_neg hk, hplace]

theorem ServedTo.page {offset index : Nat} {buf dest page : Bytes} {snapshots : List (Nat × Bytes)}
    (hin : InRange payload index (.read offset buf))
    (h : ServedTo payload calm offset buf snapshots (pageStart index) dest)
    (hlength : page.length = (chunkAt payload index).length)
    (hpage : (calm ∨ ∃ s ∈ snapshots, s.1 = index) → page = chunkAt payload index)
    {stop lo hi : Nat} (hstop : stop = pageStart index + (chunkAt payload index).length)
    (hlo : lo = max (pageStart index) offset) (hhi : hi = min stop (stopOf payload offset buf)) :
    ServedTo payload calm offset buf snapshots (pageStart (index + 1))
      (dest.take (lo - offset) ++ ((page.drop (lo - pageStart index)).take (hi - lo) ++
        dest.drop (hi - offset))) := by
  have hlt := hin.lt
  obtain ⟨hoffset, hbuf, hfirst, hlast⟩ := hin
  have hpos : 0 < buf.length := List.length_pos_iff.mpr hbuf
  have hdest := h.length
  rw [chunkAt_length] at hlength hstop
  unfold lastOf at hlast
  -- the part asked for is not empty and lies in the page
  have hbounds : pageStart index ≤ lo ∧ offset ≤ lo ∧ lo < hi ∧ hi ≤ stop ∧
      hi - offset ≤ dest.length ∧ hi - pageStart index ≤ page.length := by
    unfold stopOf pageStart at *
    unfold chunkCount chunkLen at *
    omega
  obtain ⟨hstart, hfrom, hlt', hto, hfits, hpageLen⟩ := hbounds
  have hpart : ((page.drop (lo - pageStart index)).take (hi - lo)).length =
      hi - offset - (lo - offset) := by
    rw [List.length_take, List.length_drop]
    omega
  have hget := getElem?_splice (by omega) hfits hpart
  refine ⟨?_, fun p hp hps hup hvouched => ?_, fun k hk => ?_⟩
  · rw [List.length_append, List.length_append, hpart, List.length_take, List.length_drop]
    omega
  · rw [hget]
    by_cases hbefore : p - offset < lo - offset
    · rw [if_pos hbefore]
      exact h.right p hp hps (by omega) hvouched
    · have hafter : p - offset < hi - offset := by
        unfold stopOf pageStart at *
        unfold chunkCount chunkLen at *
        omega
      have hindex : p / chunkLen = index := by
        unfold pageStart at *
        unfold chunkLen at *
        omega
      have hplace : lo - pageStart index + (p - offset - (lo - offset)) =
          p - pageStart index := by omega
      have hwhole : index * chunkLen + (p - pageStart index) = p := by
        unfold pageStart at *
        omega
      rw [if_neg hbefore, if_pos hafter, List.getElem?_take, if_pos (by omega), List.getElem?_drop,
        hplace,
        hpage (by rwa [Vouched, hindex] at hvouched),
        chunkAt_get _ _ _ (by unfold pageStart at *; omega), hwhole]
  · rw [hget, if_neg (by omega), if_neg (by omega)]
    exact h.frame k hk

variable {snapshots : List (Nat × Bytes)}

theorem ServedTo.mono {offset upTo upTo' : Nat}
    (h : ServedTo payload calm offset buf snapshots upTo' dest)
    (hle : ∀ p, p < stopOf payload offset buf → p < upTo → p < upTo') :
    ServedTo payload calm offset buf snapshots upTo dest :=
  ⟨h.length, fun p hp hps hup => h.right p hp hps (hle p hps hup), h.frame⟩

theorem servedTo_start :
    ServedTo payload calm offset buf snapshots (pageStart (offset / chunkLen)) buf := by
  refine ⟨rfl, fun p hp _ hup => ?_, fun _ _ => rfl⟩
  unfold pageStart at hup
  unfold chunkLen at hup
  omega

section
variable {a : VerifiedArena CV Hash}

theorem local_serve (h : Good b payload calm a)
    (hlocal : Local payload calm (.serving offset buf index snapshots dest)) :
    Local payload calm (a.serve offset buf index snapshots dest) := by
  obtain ⟨hsession, hcalm⟩ := h
  obtain ⟨⟨hin, hgenuine⟩, hserved⟩ := hlocal
  have hpage := hserved.page hin (hsession.pageBytes_length hgenuine hin.lt)
    (hsession.pageBytes_eq hcalm hgenuine hin.lt) (hsession.pageStop hin.lt) rfl rfl
  rw [serve, hsession.lastPage, hsession.readStop]
  split
  · rename_i hnext
    exact ⟨⟨⟨hin.1, hin.2.1, hin.2.2.1.trans (Nat.le_succ _), hnext⟩, hgenuine⟩, hpage⟩
  · refine ⟨rfl, hpage.mono fun p hp _ => ?_⟩
    unfold lastOf pageStart at *
    unfold chunkLen at *
    omega

variable {job : Job}

theorem local_next (h : Session b payload a) (hin : InRange payload index job)
    (hgenuine : Genuine payload snapshots) : Local payload calm (a.next job index snapshots) := by
  cases job with
  | verify i => trivial
  | read offset buf =>
    rw [VerifiedArena.next, h.lastPage]
    split
    · rename_i hlt
      exact ⟨⟨hin.1, hin.2.1, hin.2.2.1.trans (Nat.le_succ _), hlt⟩, hgenuine⟩
    · refine ⟨⟨⟨hin.1, hin.2.1, le_rfl, hin.2.2.1.trans hin.2.2.2⟩, hgenuine⟩, servedTo_start⟩

theorem local_fault (h : Session b payload a)
    (hlocal : Local payload calm (.faulting job index snapshots)) :
    Local payload calm (a.fault job index snapshots) := by
  obtain ⟨hin, hgenuine⟩ := hlocal
  rw [fault, h.pages]
  split
  · refine ⟨rfl, fun _ offset buf hjob => ?_⟩
    subst hjob
    have hlt := hin.lt
    omega
  · rename_i hpages
    split
    · exact local_next h hin hgenuine
    · exact ⟨⟨hin, hgenuine⟩, Nat.lt_of_not_le hpages, fun _ => rfl⟩

theorem local_copy (h : Good b payload calm a) {taken : Bytes}
    (hlocal : Local payload calm (.copying job index snapshots taken)) :
    Local payload calm (a.copy job index snapshots taken) := by
  obtain ⟨hsession, hcalm⟩ := h
  obtain ⟨hjob, hlt, htaken⟩ := hlocal
  rw [copy, hsession.pageStop hlt]
  split
  · refine ⟨hjob, hlt, fun hc => ?_⟩
    have hplace : taken.length < (chunkAt payload index).length := by omega
    have hsmall : taken.length < chunkLen := by
      rw [chunkAt_length] at hplace
      omega
    have hbyte : a.data.getD (pageStart index + taken.length) 0 =
        (chunkAt payload index).get ⟨taken.length, hplace⟩ := by
      have hget := chunkAt_get payload index taken.length hsmall
      rw [List.getElem?_eq_getElem hplace] at hget
      rw [hcalm hc, List.getD_eq_getElem?_getD, pageStart, ← hget]
      rfl
    rw [List.length_append, List.length_singleton, List.take_add_one, ← htaken hc, hbyte,
      List.getElem?_eq_getElem hplace]
    rfl
  · refine ⟨hjob, hlt, fun hc => ?_⟩
    rw [htaken hc]
    exact List.take_of_length_le (by omega)

theorem local_check [DecidableEq Hash] (hinj : Function.Injective b.hash) (h : Session b payload a)
    {snapshot : Bytes} (hlocal : Local payload calm (.checking job index snapshots snapshot)) :
    Local payload calm (a.check b job index snapshots snapshot).2 := by
  obtain ⟨hjob, hlt, hsnapshot⟩ := hlocal
  have hne : payload ≠ [] := by
    rintro rfl
    exact Nat.not_lt_zero index hlt
  have hproof := Outboard.prove_eq h.describes hlt
  have hverify :=
    @Blake3.verifyChunk_ok_iff_eq _ _ _ _ snapshot _ _ _ _ _ hinj h.describes hproof hlt
      (h.root hne)
  rw [check, hproof, h.dataLen]
  dsimp only
  split
  · rename_i hok
    exact ⟨hjob, hverify.mp hok⟩
  · rename_i e herror
    refine ⟨rfl, fun hc => ?_⟩
    rw [hverify.mpr (hsnapshot hc)] at herror
    exact absurd herror nofun

theorem session_check [DecidableEq Hash] (h : Session b payload a) (job : Job) (index : Nat)
    (snapshots : List (Nat × Bytes)) (snapshot : Bytes) :
    Session b payload (a.check b job index snapshots snapshot).1 ∧
      (a.check b job index snapshots snapshot).1.data = a.data := by
  rw [check]
  split
  · exact ⟨h, rfl⟩
  · split
    · exact ⟨⟨h.dataLen, h.length, h.describes, h.root⟩, rfl⟩
    · exact ⟨⟨h.dataLen, h.length, h.describes, h.root⟩, rfl⟩

theorem Good.advanceQuiet [DecidableEq Hash] (h : Good b payload calm a) (t : Fault) :
    Good b payload calm (a.advanceQuiet b t).1 := by
  cases t with
  | checking job index snapshots snapshot =>
    obtain ⟨hsession, hdata⟩ := session_check h.1 job index snapshots snapshot
    exact ⟨hsession, fun hc => hdata.trans (h.2 hc)⟩
  | marking job index snapshots snapshot =>
    exact ⟨⟨h.1.dataLen, h.1.length, h.1.describes, h.1.root⟩, h.2⟩
  | _ => exact h

theorem Local.advanceQuiet [DecidableEq Hash] (hinj : Function.Injective b.hash)
    (h : Good b payload calm a) {t : Fault}
    (ht : Local payload calm t) : Local payload calm (a.advanceQuiet b t).2 := by
  cases t with
  | readAt offset buf =>
    rw [VerifiedArena.advanceQuiet, h.1.dataLen]
    split
    · rename_i hempty
      have hnone : stopOf payload offset buf - offset = 0 := by
        rcases hempty with hpast | rfl
        · unfold stopOf
          omega
        · unfold stopOf
          rw [List.length_nil]
          omega
      refine ⟨hnone.symm, rfl, fun p hp hps => ?_, fun _ _ => rfl⟩
      omega
    · rename_i hread
      rw [not_or, not_le] at hread
      refine ⟨⟨hread.1, hread.2, le_rfl, ?_⟩, fun s hs => absurd hs List.not_mem_nil⟩
      have hpos : 0 < buf.length := List.length_pos_iff.mpr hread.2
      unfold lastOf stopOf
      exact Nat.div_le_div_right (by omega)
  | verifyPage index => exact ⟨rfl, fun s hs => absurd hs List.not_mem_nil⟩
  | faulting job index snapshots => exact local_fault h.1 ht
  | copying job index snapshots taken => exact local_copy h ht
  | checking job index snapshots snapshot => exact local_check hinj h.1 ht
  | marking job index snapshots snapshot =>
    obtain ⟨⟨hin, hgenuine⟩, hsnapshot⟩ := ht
    refine local_next h.1 hin fun s hs => ?_
    rcases List.mem_append.mp hs with hs | hs
    · exact hgenuine s hs
    · rw [List.mem_singleton.mp hs]
      exact hsnapshot
  | serving offset buf index snapshots dest => exact local_serve h ht
  | served offset buf snapshots dest count | checked index | refused job dest why => exact ht

theorem keeps [DecidableEq Hash] (hinj : Function.Injective b.hash) :
    Pool.KeepsWhen (program b) (fun pokes _ _ => calm → pokes = []) (Good b payload calm)
      (fun _ t => Local payload calm t) fun _ _ => True where
  enter job _ _ := by cases job <;> trivial
  enterPair _ _ := ⟨trivial, trivial⟩
  shared _ _ t hpokes hgood _ := (hgood.poke hpokes).advanceQuiet t
  own _ _ _ hpokes hgood ht := ht.advanceQuiet hinj (hgood.poke hpokes)
  other _ _ _ _ _ _ _ hu _ _ := hu
  pair _ _ _ _ _ _ _ _ _ _ := ⟨trivial, trivial⟩

end

end LeyLine.Fs.VerifiedArena
