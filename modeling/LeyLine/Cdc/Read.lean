import LeyLine.Cdc.Manifest

/-!
# Storing chunks and reading ranges

`chunkInto` stores the chunks of a byte string; `readRange` serves an interval of
it from a manifest, fetching the blobs of the rows it selects. Over a conforming
store the manifest parses and every interval reads back as the clamped slice, with
one exception: an empty interval strictly inside a chunk selects that chunk and is
then refused, because an empty interval must select no row.
-/

namespace LeyLine.Cdc

open Tiling (slice Tiles)
open Req (bind_ok require_of)

variable {H : Type}

/-! ## Blob stores -/

/-- A content-addressed store: its state, and what `put` and `get` answer. -/
structure BlobStore (H : Type) where
  State : Type
  put : Bytes → Req String State H
  get : State → H → Except String (Option Bytes)

/-- A put answers the address and can be read back, and what can be read stays. -/
structure BlobStore.Conforming (B : BlobStore H) (σ : Bytes → H) : Prop where
  put_ok : ∀ bytes s, (B.put bytes s).1 = .ok (σ bytes)
  get_put : ∀ bytes s, B.get (B.put bytes s).2 (σ bytes) = .ok (some bytes)
  get_kept : ∀ bytes s h held, B.get s h = .ok (some held) →
    B.get (B.put bytes s).2 h = .ok (some held)

section Store

variable [DecidableEq H] (g : Gear) (σ : Bytes → H) (B : BlobStore H)

def storeChunk (data : Bytes) (c : Chunk H) : Req (Error H) B.State Unit := do
  let stored ← Req.withError (fun _ => .refused "store chunk")
    (B.put (slice data c.offset (c.offset + c.len)))
  Req.require (stored = c.hash) (.refused "stored σ must equal the manifest chunk hash")

def storeChunks (data : Bytes) : List (Chunk H) → Req (Error H) B.State Unit
  | [] => pure ()
  | c :: cs => do
    storeChunk B data c
    storeChunks data cs

def chunkInto (data : Bytes) : Req (Error H) B.State (List (Chunk H)) := do
  storeChunks B data (chunk g σ data)
  pure (chunk g σ data)

end Store

/-! ## Reading -/

section Read

variable (B : BlobStore H) (s : B.State)

def fetch (h : H) : Req (Error H) (List H) Bytes := fun fetched =>
  (match B.get s h with
    | .error _ => .error (.refused "get chunk")
    | .ok none => .error (.missing h)
    | .ok (some bytes) => .ok bytes, fetched ++ [h])

/-- `bytes[lo..hi]` with `hi = stop - offset`; out of range it faults. -/
def cut (bytes : Bytes) (lo stop offset : Nat) : Option Bytes :=
  if offset ≤ stop ∧ lo ≤ stop - offset ∧ stop - offset ≤ bytes.length then
    some (slice bytes lo (stop - offset))
  else none

def readChunk (sel : SelectedRange H) (c : Chunk H) : Req (Error H) (List H) Bytes := do
  let bytes ← fetch B s c.hash
  Req.require (bytes.length = c.len) (.wrongLength c.hash)
  Req.ofOption .fault (cut bytes (sel.start - c.offset)
    (min sel.stop (saturatingAdd c.offset c.len)) c.offset)

def readChunks (sel : SelectedRange H) : List (Chunk H) → Req (Error H) (List H) Bytes
  | [] => pure []
  | c :: cs => do
    let bytes ← readChunk B s sel c
    let rest ← readChunks sel cs
    pure (bytes ++ rest)

/-- A parsed range into the buffer that is the second part of the state. -/
def readRangeInto (sel : SelectedRange H) : Req (Error H) (List H × Bytes) Nat := do
  Req.check (fun w => sel.len ≤ w.2.length)
    (.refused "destination buffer is smaller than the parsed interval")
  let result ← Req.onFst (readChunks B s sel sel.chunks)
  Req.require (result.length = sel.len) (.refused "selected chunks do not cover requested range")
  Req.update fun w => (w.1, result ++ w.2.drop result.length)
  pure result.length

/-- The rows that meet `start..stop`. -/
def selectRows (chunks : List (Chunk H)) (start stop : Nat) : List (Chunk H) :=
  (chunks.drop (chunks.findIdx fun c => decide (start < saturatingAdd c.offset c.len))).takeWhile
    fun c => decide (c.offset < stop)

/-- The interval `[offset, offset + len)`, clamped, from a complete manifest. -/
def readRange (m : Manifest H) (offset len : Nat) : Req (Error H) (List H) Bytes := do
  let start := min offset m.sourceLen
  let stop := min (saturatingAdd offset len) m.sourceLen
  let sel ← Req.ofExcept ((SelectedRange.parse (selectRows m.chunks start stop) m.sourceLen start
    stop).mapError .refused)
  let written ← Req.withLocal (List.replicate (stop - start) 0) (readRangeInto B s sel)
  pure written.2

def reconstruct (m : Manifest H) : Req (Error H) (List H) Bytes := readRange B s m 0 usizeMax

end Read

/-! ## The chunks of a byte string -/

section Chunks

variable (g : Gear) (σ : Bytes → H)

theorem nextBoundary_bounds (data : Bytes) :
    nextBoundary g data ≤ data.length ∧ nextBoundary g data ≤ maxChunk ∧
      (nextBoundary g data < data.length → minChunk ≤ nextBoundary g data) := by
  unfold nextBoundary
  split
  · rename_i hsmall
    refine ⟨le_rfl, hsmall.trans (by decide), fun h => absurd h (lt_irrefl _)⟩
  · dsimp only
    have hmm : minChunk ≤ maxChunk := by decide
    split
    · rename_i rel hmatch
      have hrel := g.nextMatch_le hmatch
      rw [Tiling.slice_length] at hrel
      omega
    · omega

variable {data : Bytes} {start : Nat}

theorem chunkFrom_of_lt (h : start < data.length) : chunkFrom g σ data start =
      ⟨σ (slice data start (start + nextBoundary g (data.drop start))), start,
        nextBoundary g (data.drop start)⟩ ::
      chunkFrom g σ data (start + nextBoundary g (data.drop start)) := by
  rw [chunkFrom, dif_pos h]

theorem chunkFrom_of_le (h : data.length ≤ start) : chunkFrom g σ data start = [] := by
  rw [chunkFrom, dif_neg (by omega)]

/-- Every chunk is stored under the address of its own bytes, is at most the
greatest size, and all but the last are at least the least. -/
structure Cut (data : Bytes) (cs : List (Chunk H)) : Prop where
  hash_eq : ∀ c ∈ cs, c.hash = σ (slice data c.offset (c.offset + c.len))
  len_le : ∀ c ∈ cs, c.len ≤ maxChunk
  le_len : ∀ c ∈ cs.dropLast, minChunk ≤ c.len

theorem chunkFrom_cut (hstart : start ≤ data.length) :
    Tiles Chunk.offset Chunk.len start data.length (chunkFrom g σ data start) ∧
      Cut σ data (chunkFrom g σ data start) := by
  induction hn : data.length - start using Nat.strong_induction_on generalizing start with
  | _ n ih =>
    by_cases hlt : start < data.length
    · have hne : data.drop start ≠ [] := by
        rw [ne_eq, List.drop_eq_nil_iff]
        omega
      have hpos := nextBoundary_pos g hne
      obtain ⟨hle, hmax, hmin⟩ := nextBoundary_bounds g (data.drop start)
      rw [List.length_drop] at hle hmin
      have hnext : start + nextBoundary g (data.drop start) ≤ data.length := by omega
      obtain ⟨htiles, hcut⟩ := ih _ (by omega) hnext rfl
      rw [chunkFrom_of_lt g σ hlt]
      refine ⟨⟨rfl, hpos, htiles⟩, List.forall_mem_cons.mpr ⟨rfl, hcut.hash_eq⟩,
        List.forall_mem_cons.mpr ⟨hmax, hcut.len_le⟩, ?_⟩
      by_cases hend : start + nextBoundary g (data.drop start) < data.length
      · -- another chunk follows: this one is not the last
        have hrest : chunkFrom g σ data (start + nextBoundary g (data.drop start)) ≠ [] := by
          rw [chunkFrom_of_lt g σ hend]
          simp
        rw [List.dropLast_cons_of_ne_nil hrest]
        exact List.forall_mem_cons.mpr ⟨hmin (by omega), hcut.le_len⟩
      · rw [chunkFrom_of_le g σ (by omega)]
        simp
    · rw [chunkFrom_of_le g σ (by omega)]
      exact ⟨by show start = data.length; omega, by simp, by simp, by simp⟩

theorem chunk_tiles (data : Bytes) : Tiles Chunk.offset Chunk.len 0 data.length (chunk g σ data) :=
  (chunkFrom_cut g σ (Nat.zero_le _)).1

theorem chunk_cut (data : Bytes) : Cut σ data (chunk g σ data) :=
  (chunkFrom_cut g σ (Nat.zero_le _)).2

end Chunks

/-! ## Storing them -/

def Stored (B : BlobStore H) (s : B.State) (data : Bytes) (cs : List (Chunk H)) : Prop :=
  ∀ c ∈ cs, B.get s c.hash = .ok (some (slice data c.offset (c.offset + c.len)))

section Store

variable [DecidableEq H] {σ : Bytes → H} {B : BlobStore H}

theorem storeChunk_ok (hB : B.Conforming σ) {data : Bytes} {c : Chunk H}
    (hc : c.hash = σ (slice data c.offset (c.offset + c.len))) (s : B.State) :
    storeChunk B data c s = (.ok (), (B.put (slice data c.offset (c.offset + c.len)) s).2) := by
  have hput : Req.withError (fun _ => (Error.refused "store chunk" : Error H))
      (B.put (slice data c.offset (c.offset + c.len))) s =
      (.ok c.hash, (B.put (slice data c.offset (c.offset + c.len)) s).2) := by
    rw [Req.withError, hB.put_ok, hc]
    rfl
  rw [storeChunk, bind_ok hput]
  exact require_of rfl _ _

theorem storeChunks_ok (hB : B.Conforming σ) {data : Bytes} {cs : List (Chunk H)}
    (hcs : ∀ c ∈ cs, c.hash = σ (slice data c.offset (c.offset + c.len))) (s : B.State) :
    ∃ s', storeChunks B data cs s = (.ok (), s') ∧ Stored B s' data cs ∧
      ∀ h held, B.get s h = .ok (some held) → B.get s' h = .ok (some held) := by
  induction cs generalizing s with
  | nil => exact ⟨s, rfl, by simp [Stored], fun _ _ h => h⟩
  | cons c cs ih =>
    obtain ⟨hc, hrest⟩ := List.forall_mem_cons.mp hcs
    obtain ⟨s', hrun, hstored, hkept⟩ :=
      ih hrest (B.put (slice data c.offset (c.offset + c.len)) s).2
    refine ⟨s', ?_, List.forall_mem_cons.mpr ⟨?_, hstored⟩, fun h held hget => ?_⟩
    · rw [storeChunks, bind_ok (storeChunk_ok hB hc s)]
      exact hrun
    · rw [hc]
      exact hkept _ _ (hB.get_put _ _)
    · exact hkept _ _ (hB.get_kept _ _ _ _ hget)

theorem chunkInto_ok (g : Gear) (hB : B.Conforming σ) (data : Bytes) (s : B.State) :
    ∃ s', chunkInto g σ B data s = (.ok (chunk g σ data), s') ∧
    Stored B s' data (chunk g σ data) := by
  obtain ⟨s', hrun, hstored, -⟩ := storeChunks_ok hB (chunk_cut g σ data).hash_eq s
  refine ⟨s', ?_, hstored⟩
  rw [chunkInto, bind_ok hrun]
  rfl

end Store

/-! ## Reading them back -/

section Read

variable {B : BlobStore H} {s : B.State} {data : Bytes}

theorem saturatingAdd_of_le {a b : Nat} (h : a + b ≤ usizeMax) : saturatingAdd a b = a + b :=
  Nat.min_eq_left h

variable {sel : SelectedRange H} {fetched : List H}

theorem readChunk_ok {c : Chunk H}
    (hget : B.get s c.hash = .ok (some (slice data c.offset (c.offset + c.len))))
    (hin : c.offset + c.len ≤ data.length) (hmax : c.offset + c.len ≤ usizeMax)
    (hle : sel.start ≤ sel.stop) (hmeets : c.offset < sel.stop ∧ sel.start < c.offset + c.len) :
    readChunk B s sel c fetched =
      (.ok (slice data (max sel.start c.offset) (min sel.stop (c.offset + c.len))),
        fetched ++ [c.hash]) := by
  have hfetch : fetch B s c.hash fetched =
      (.ok (slice data c.offset (c.offset + c.len)), fetched ++ [c.hash]) := by
    rw [fetch, hget]
  have hlen : (slice data c.offset (c.offset + c.len)).length = c.len := by
    rw [Tiling.slice_length]
    omega
  have hcut : cut (slice data c.offset (c.offset + c.len)) (sel.start - c.offset)
      (min sel.stop (saturatingAdd c.offset c.len)) c.offset =
      some (slice data (max sel.start c.offset) (min sel.stop (c.offset + c.len))) := by
    rw [saturatingAdd_of_le hmax, cut, if_pos (by omega), Tiling.slice_slice (by omega)]
    congr 2 <;> omega
  rw [readChunk, bind_ok hfetch, bind_ok (require_of hlen _ _), hcut]
  rfl

theorem readChunks_ok {cs : List (Chunk H)} (hstored : Stored B s data cs)
    (hin : ∀ c ∈ cs, c.offset + c.len ≤ data.length ∧ c.offset + c.len ≤ usizeMax)
    (hle : sel.start ≤ sel.stop)
    (hmeets : ∀ c ∈ cs, c.offset < sel.stop ∧ sel.start < c.offset + c.len) :
    readChunks B s sel cs fetched =
      (.ok (cs.flatMap fun c => slice data (max sel.start c.offset)
        (min sel.stop (c.offset + c.len))),
        fetched ++ cs.map (·.hash)) := by
  induction cs generalizing fetched with
  | nil => simp [readChunks]
  | cons c cs ih =>
    obtain ⟨hget, hstored⟩ := List.forall_mem_cons.mp hstored
    obtain ⟨hc, hin⟩ := List.forall_mem_cons.mp hin
    obtain ⟨hmc, hmeets⟩ := List.forall_mem_cons.mp hmeets
    rw [readChunks, bind_ok (readChunk_ok hget hc.1 hc.2 hle hmc), bind_ok (ih hstored hin hmeets)]
    simp

theorem slice_clamped (offset len : Nat) :
    slice data (min offset data.length)
    (min (offset + len) data.length) = (data.drop offset).take len := by
  rw [slice, List.take_drop]
  by_cases h : offset ≤ data.length
  · rw [Nat.min_eq_left h, ← List.take_eq_take_min]
  · rw [List.drop_eq_nil_of_le (by rw [List.length_take]; omega),
      List.drop_eq_nil_of_le (by rw [List.length_take]; omega)]

theorem parse_of_selects {cs : List (Chunk H)} {sourceLen start stop : Nat}
    (h : Selects cs sourceLen start stop) :
    SelectedRange.parse cs sourceLen start stop = .ok ⟨cs, start, stop, sourceLen, h⟩ := by
  unfold SelectedRange.parse
  split
  · rfl
  · rename_i e he
    have hok : checkSelection cs sourceLen start stop = .ok () := checkSelection_eq_ok_iff.mpr h
    cases he.symm.trans hok

theorem readRangeInto_ok {out : Bytes}
    (hsel : Selects sel.chunks data.length sel.start sel.stop)
    (hstored : Stored B s data sel.chunks)
    (hout : sel.len ≤ out.length) : readRangeInto B s sel (fetched, out) =
      (.ok sel.len, fetched ++ sel.chunks.map (·.hash),
        slice data sel.start sel.stop ++ out.drop sel.len) := by
  have hread : readChunks B s sel sel.chunks fetched =
      (.ok (slice data sel.start sel.stop), fetched ++ sel.chunks.map (·.hash)) := by
    rcases Nat.lt_or_ge sel.start sel.stop with hlt | hge
    · obtain ⟨a, b, htiles, hne, ha, hstop, hb, hmax, hmeets⟩ := hsel.covers hlt
      have hin : ∀ c ∈ sel.chunks, c.offset + c.len ≤ data.length ∧
          c.offset + c.len ≤ usizeMax := by
        intro c hc
        have := htiles.mem hc
        omega
      rw [readChunks_ok hstored hin hsel.start_le hmeets, htiles.flatMap_trimmed hmeets hne,
        Nat.max_eq_left ha, Nat.min_eq_left hstop]
    · have heq : sel.start = sel.stop := le_antisymm hsel.start_le hge
      rw [hsel.empty heq, heq, Tiling.slice_self]
      simp [readChunks]
  have hlen : (slice data sel.start sel.stop).length = sel.len := by
    have := hsel.stop_le
    rw [Tiling.slice_length, SelectedRange.len]
    omega
  have hcheck : (Req.check (fun w : List H × Bytes => sel.len ≤ w.2.length)
      (.refused "destination buffer is smaller than the parsed interval") : Req (Error H) _ Unit)
        (fetched, out) = (.ok (), fetched, out) := by
    rw [Req.check, if_pos hout]
  have hfst : Req.onFst (readChunks B s sel sel.chunks) (fetched, out) =
      (.ok (slice data sel.start sel.stop), fetched ++ sel.chunks.map (·.hash), out) := by
    rw [Req.onFst, hread]
  rw [readRangeInto, bind_ok hcheck, bind_ok hfst, bind_ok (require_of hlen _ _), hlen]
  rfl

theorem selectRows_eq (m : Manifest H) (start stop : Nat) :
    selectRows m.chunks start stop = Tiling.meeting Chunk.offset Chunk.len start stop m.chunks := by
  have hsat : ∀ c ∈ m.chunks, saturatingAdd c.offset c.len = c.offset + c.len := by
    intro c hc
    exact saturatingAdd_of_le ((m.tiles.mem hc).2.2.trans m.sourceLen_le)
  have hidx : m.chunks.findIdx (fun c => decide (start < saturatingAdd c.offset c.len)) =
      m.chunks.findIdx fun c => decide (start < c.offset + c.len) := by
    generalize m.chunks = cs at hsat
    induction cs with
    | nil => rfl
    | cons c cs ih =>
      obtain ⟨hc, hrest⟩ := List.forall_mem_cons.mp hsat
      rw [List.findIdx_cons, List.findIdx_cons, hc, ih hrest]
  rw [selectRows, Tiling.meeting, hidx]

/-- Whether an interval can be read: it has bytes, or it starts at or past the end,
or at a row. -/
def Readable (m : Manifest H) (offset len : Nat) : Prop :=
  len ≠ 0 ∨ m.sourceLen ≤ offset ∨ ∃ c ∈ m.chunks, c.offset = offset

theorem selects_or_refused (m : Manifest H) (offset len : Nat) : (Readable m offset len ∧
      Selects (selectRows m.chunks (min offset m.sourceLen)
          (min (saturatingAdd offset len) m.sourceLen)) m.sourceLen (min offset m.sourceLen)
        (min (saturatingAdd offset len) m.sourceLen)) ∨
      (¬ Readable m offset len ∧ len = 0 ∧ offset < m.sourceLen ∧
        selectRows m.chunks offset offset ≠ []) := by
  have hmax := m.sourceLen_le
  have hstop : min (saturatingAdd offset len) m.sourceLen = min (offset + len) m.sourceLen := by
    unfold saturatingAdd
    omega
  rw [hstop, selectRows_eq]
  have hzero : 0 ≤ min offset m.sourceLen := Nat.zero_le _
  by_cases hlt : min offset m.sourceLen < min (offset + len) m.sourceLen
  · obtain ⟨a, b, htiles, ha, hb, hle, hne, hmeets⟩ :=
      m.tiles.meeting hzero hlt (Nat.min_le_right _ _)
    refine .inl ⟨.inl (by omega), by omega, by omega, fun heq => by omega, fun _ => ?_⟩
    exact ⟨a, b, htiles, hne, ha, hb, hle, hle.trans hmax, hmeets⟩
  · have heq : min (offset + len) m.sourceLen = min offset m.sourceLen := by omega
    have hiff := m.tiles.meeting_empty hzero
    rw [heq]
    by_cases hempty : Tiling.meeting Chunk.offset Chunk.len (min offset m.sourceLen)
        (min offset m.sourceLen) m.chunks = []
    · refine .inl ⟨?_, le_rfl, Nat.min_le_right _ _, fun _ => hempty,
        fun h => absurd h (lt_irrefl _)⟩
      rcases hiff.mp hempty with hpast | ⟨c, hc, hoff⟩
      · exact .inr (.inl (by omega))
      · by_cases hend : m.sourceLen ≤ offset
        · exact .inr (.inl hend)
        · exact .inr (.inr ⟨c, hc, hoff.trans (Nat.min_eq_left (Nat.le_of_not_le hend))⟩)
    · have hnot := mt hiff.mpr hempty
      push Not at hnot
      have hin : offset < m.sourceLen := by omega
      rw [Nat.min_eq_left hin.le] at hempty hnot
      refine .inr ⟨?_, by omega, hin, by rwa [selectRows_eq]⟩
      rintro (hlen | hpast | ⟨c, hc, hoff⟩)
      · omega
      · omega
      · exact hnot.2 c hc hoff

theorem readRange_spec {m : Manifest H} (hlen : m.sourceLen = data.length)
    (hstored : Stored B s data m.chunks) (offset len : Nat) (fetched : List H) :
    (Readable m offset len ∧ ∃ rows : List (Chunk H), readRange B s m offset len fetched =
        (.ok ((data.drop offset).take len), fetched ++ rows.map Chunk.hash) ∧
      ∀ c ∈ rows, c ∈ m.chunks ∧ c.offset < min (offset + len) data.length ∧
        min offset data.length < c.offset + c.len) ∨
    (¬ Readable m offset len ∧ readRange B s m offset len fetched =
      (.error (.refused "empty requested interval must have no selected chunks"), fetched)) := by
  have hmax := m.sourceLen_le
  have hstop : min (saturatingAdd offset len) m.sourceLen = min (offset + len) m.sourceLen := by
    unfold saturatingAdd
    omega
  rcases selects_or_refused m offset len with ⟨hread, hsel⟩ | ⟨hread, rfl, hin, hrows⟩
  · refine .inl ⟨hread, selectRows m.chunks (min offset m.sourceLen)
      (min (saturatingAdd offset len) m.sourceLen), ?_, fun c hc => ?_⟩
    · have hsub : Stored B s data (selectRows m.chunks (min offset m.sourceLen)
          (min (saturatingAdd offset len) m.sourceLen)) := fun c hc =>
        hstored c ((List.drop_sublist _ _).mem ((List.takeWhile_sublist _).mem hc))
      rw [readRange, parse_of_selects hsel]
      show (Req.withLocal _ (readRangeInto B s _) >>= fun written => pure written.2) fetched = _
      rw [bind_ok (Req.withLocal_ok (readRangeInto_ok (by rw [← hlen]; exact hsel) hsub
        (by simp [SelectedRange.len])))]
      dsimp only
      rw [List.drop_of_length_le (by simp [SelectedRange.len]), List.append_nil, hstop, hlen,
        slice_clamped]
      rfl
    · have hmem : c ∈ m.chunks := (List.drop_sublist _ _).mem ((List.takeWhile_sublist _).mem hc)
      rcases Nat.lt_or_ge (min offset m.sourceLen) (min (saturatingAdd offset len) m.sourceLen) with
        hlt | hge
      · obtain ⟨a, b, -, -, -, -, -, -, hmeets⟩ := hsel.covers hlt
        have := hmeets c hc
        rw [hstop, hlen] at this
        exact ⟨hmem, this⟩
      · rw [hsel.empty (le_antisymm hsel.start_le hge)] at hc
        simp at hc
  · refine .inr ⟨hread, ?_⟩
    have hsat : min (saturatingAdd offset 0) m.sourceLen = offset := by
      omega
    have hcheck : checkSelection (selectRows m.chunks offset offset) m.sourceLen offset offset =
        .error "empty requested interval must have no selected chunks" := by
      have hle : decide (offset ≤ m.sourceLen) = true := by simpa using hin.le
      have hne : (selectRows m.chunks offset offset).isEmpty = false := by simpa using hrows
      simp [checkSelection, Except.require, hle, hne, bind, Except.bind]
    have hparse : SelectedRange.parse (selectRows m.chunks offset offset) m.sourceLen offset
        offset = .error "empty requested interval must have no selected chunks" := by
      unfold SelectedRange.parse
      split
      · rename_i u hu
        cases hu.symm.trans hcheck
      · rename_i e he
        exact congrArg _ (Except.error.inj (he.symm.trans hcheck))
    rw [readRange, hsat, Nat.min_eq_left hin.le, hparse]
    rfl

end Read

/-! ## The round trip -/

section RoundTrip

theorem parse_chunk (g : Gear) (σ : Bytes → H) {data : Bytes} (hlen : data.length ≤ isizeMax) :
    ∃ m, Manifest.parse (chunk g σ data) = .ok m ∧ m.chunks = chunk g σ data ∧
    m.sourceLen = data.length := by
  have hmax : data.length ≤ usizeMax := hlen.trans (by decide)
  have hend : tileEnd 0 (chunk g σ data) = .ok data.length :=
    (tileEnd_eq_ok_iff (Nat.zero_le _)).mpr ⟨chunk_tiles g σ data, hmax⟩
  unfold Manifest.parse
  split
  · rename_i stop hstop
    exact ⟨_, rfl, rfl, Except.ok.inj (hstop.symm.trans hend)⟩
  · rename_i e he
    cases he.symm.trans hend

/-- **Chunks round-trip, and an interval reads back exactly when it is readable.**
Over a conforming store the manifest of any byte string parses, tiles it with
chunks of the sizes allowed and reconstructs it; a read answers the clamped slice,
fetching only blobs of chunks that meet it, unless it is empty and strictly inside
a chunk. -/
theorem chunk_roundTrip [DecidableEq H] (g : Gear) {σ : Bytes → H} {B : BlobStore H}
    (hB : B.Conforming σ) (data : Bytes) (hlen : data.length ≤ isizeMax) (s : B.State) :
    ∃ s' m, chunkInto g σ B data s = (.ok (chunk g σ data), s') ∧
      Manifest.parse (chunk g σ data) = .ok m ∧ m.chunks = chunk g σ data ∧
      Tiles Chunk.offset Chunk.len 0 data.length (chunk g σ data) ∧
      (∀ c ∈ chunk g σ data, c.len ≤ maxChunk) ∧
      (∀ c ∈ (chunk g σ data).dropLast, minChunk ≤ c.len) ∧ (reconstruct B s' m []).1 = .ok data ∧
      ∀ offset len : Nat, ((readRange B s' m offset len []).1 = .ok ((data.drop offset).take len) ∧
          ∀ h ∈ (readRange B s' m offset len []).2, ∃ c ∈ chunk g σ data, c.hash = h ∧
            c.offset < min (offset + len) data.length ∧ min offset data.length < c.offset + c.len) ↔
        (len ≠ 0 ∨ data.length ≤ offset ∨ ∃ c ∈ chunk g σ data, c.offset = offset) := by
  obtain ⟨s', hrun, hstored⟩ := chunkInto_ok g hB data s
  obtain ⟨m, hparse, hchunks, hsource⟩ := parse_chunk g σ hlen
  rw [← hchunks] at hstored
  have hcut := chunk_cut g σ data
  refine ⟨s', m, hrun, hparse, hchunks, chunk_tiles g σ data, hcut.len_le, hcut.le_len, ?_,
    fun offset len => ?_⟩
  · rcases readRange_spec hsource hstored 0 usizeMax [] with ⟨-, rows, hread, -⟩ | ⟨hno, -⟩
    · have hall : data.length ≤ usizeMax := hlen.trans (by decide)
      rw [reconstruct, hread, List.drop_zero, List.take_of_length_le hall]
    · exact absurd (.inl (by decide)) hno
  · have hiff : Readable m offset len ↔
        (len ≠ 0 ∨ data.length ≤ offset ∨ ∃ c ∈ chunk g σ data, c.offset = offset) := by
      rw [Readable, hsource, hchunks]
    rw [← hiff]
    rcases readRange_spec hsource hstored offset len [] with ⟨hread, rows, heq, hrows⟩ | ⟨hno, heq⟩
    · refine ⟨fun _ => hread, fun _ => ?_⟩
      rw [heq]
      refine ⟨rfl, fun h hh => ?_⟩
      obtain ⟨c, hc, rfl⟩ := List.mem_map.mp (by simpa using hh)
      obtain ⟨hmem, hmeets⟩ := hrows c hc
      exact ⟨c, hchunks ▸ hmem, rfl, hmeets⟩
    · rw [heq]
      exact ⟨fun h => absurd h.1 (by simp), fun h => absurd h hno⟩

/-- A store that answers an address as its own bytes, and a hasher that never
matches. -/
def echoStore : BlobStore Bytes := ⟨Unit, fun bytes s => (.ok bytes, s), fun _ h => .ok (some h)⟩

theorem echoStore_conforming : echoStore.Conforming id :=
  ⟨fun _ _ => rfl, fun _ _ => rfl, fun _ _ _ _ h => h⟩

def silentGear : Gear := ⟨fun _ => none, fun h => absurd h (by simp)⟩

theorem nextBoundary_silentGear (data : Bytes) :
    nextBoundary silentGear data = min maxChunk data.length := by
  have hmin : minChunk < maxChunk := by decide
  unfold nextBoundary
  split
  · omega
  · rfl

/-- Ten bytes more than the largest chunk: two chunks, and a read over where they meet. -/
theorem chunk_roundTrip_two_chunks :
    (chunk silentGear id (List.replicate (maxChunk + 10) 7)).map (fun c => (c.offset, c.len)) =
        [(0, maxChunk), (maxChunk, 10)] ∧
      ∃ s' m, chunkInto silentGear id echoStore (List.replicate (maxChunk + 10) 7) () =
          (.ok (chunk silentGear id (List.replicate (maxChunk + 10) 7)), s') ∧
        Manifest.parse (chunk silentGear id (List.replicate (maxChunk + 10) 7)) = .ok m ∧
        (reconstruct echoStore s' m []).1 = .ok (List.replicate (maxChunk + 10) 7) ∧
        (readRange echoStore s' m (maxChunk - 2) 4 []).1 = .ok [7, 7, 7, 7] := by
  refine ⟨?_, ?_⟩
  · have hfirst : nextBoundary silentGear ((List.replicate (maxChunk + 10) 7).drop 0) =
        maxChunk := by
      simp [nextBoundary_silentGear]
    have hsecond : nextBoundary silentGear ((List.replicate (maxChunk + 10) 7).drop (0 +
        maxChunk)) = 10 := by
      have : 10 ≤ maxChunk := by decide
      rw [nextBoundary_silentGear, List.length_drop, List.length_replicate]
      omega
    rw [chunk, chunkFrom_of_lt _ _ (by simp), hfirst, chunkFrom_of_lt _ _ (by simp), hsecond,
      chunkFrom_of_le _ _ (by simp)]
    rfl
  obtain ⟨s', m, hrun, hparse, -, -, -, -, hread, hrange⟩ :=
    chunk_roundTrip silentGear echoStore_conforming (List.replicate (maxChunk + 10) 7)
      (by simp; decide) ()
  refine ⟨s', m, hrun, hparse, hread, ?_⟩
  rw [((hrange (maxChunk - 2) 4).mpr (.inl (by decide))).1, List.drop_replicate,
    List.take_replicate]
  rfl

/-- Two bytes are one chunk; an empty read between them is refused. -/
theorem readRange_refuses_empty_interior :
    ∃ s' m, chunkInto silentGear id echoStore [1, 2] () = (.ok (chunk silentGear id [1, 2]), s') ∧
      Manifest.parse (chunk silentGear id [1, 2]) = .ok m ∧
      (readRange echoStore s' m 1 0 []).1 ≠ .ok ((([1, 2] : Bytes).drop 1).take 0) := by
  obtain ⟨s', hrun, hstored⟩ := chunkInto_ok silentGear echoStore_conforming [1, 2] ()
  obtain ⟨m, hparse, hchunks, hsource⟩ :=
    @parse_chunk _ silentGear (id : Bytes → Bytes) [1, 2] (by decide)
  refine ⟨s', m, hrun, hparse, ?_⟩
  have hone : chunk silentGear id [1, 2] = [⟨[1, 2], 0, 2⟩] := by
    rw [chunk, chunkFrom_of_lt _ _ (by decide), chunkFrom_of_le _ _ (by decide)]
    rfl
  have hno : ¬ Readable m 1 0 := by
    rw [Readable, hsource, hchunks, hone]
    decide
  rcases readRange_spec hsource (hchunks ▸ hstored) 1 0 [] with ⟨hread, -⟩ | ⟨-, heq⟩
  · exact absurd hread hno
  · rw [heq]
    simp

end RoundTrip

end LeyLine.Cdc
