import LeyLine.Cdc.Read

/-!
# Chunking again after an edit

`rechunk` of `cdc/src/lib.rs`. Where a chunk ends is decided by the bytes from its start
on, and by no more of them than the largest chunk has. So a chunk that starts at least
that far before an edit stays as it was, and once the new cuts meet an old one behind the
edit they are the old cuts from there on, shifted. Between the two the bytes are scanned
again. The result is the chunking of the new bytes (`rechunk_eq_chunk`).

Lengths are those of slices, so the arithmetic of the source does not overflow.
-/

namespace LeyLine.Cdc

open Tiling (slice)
open List (drop_drop drop_eq_nil_iff length_append length_drop length_take)

/-! ## Edits -/

/-- The replaced interval of an edit, in the old bytes. -/
structure Edit where
  offset : Nat
  oldEnd : Nat
  oldLen : Nat
  offset_le : offset ≤ oldEnd
  oldEnd_le : oldEnd ≤ oldLen
  deriving DecidableEq

def Edit.parse (offset oldEnd oldLen : Nat) : Except String Edit :=
  if h : offset ≤ oldEnd ∧ oldEnd ≤ oldLen then .ok ⟨offset, oldEnd, oldLen, h.1, h.2⟩
  else .error s!"edit interval {offset}..{oldEnd} is reversed or past the old length {oldLen}"

theorem Edit.parse_ok {offset oldEnd oldLen : Nat} {edit : Edit}
    (h : Edit.parse offset oldEnd oldLen = .ok edit) :
    edit.offset = offset ∧ edit.oldEnd = oldEnd ∧ edit.oldLen = oldLen := by
  rw [Edit.parse] at h
  split_ifs at h
  cases h
  exact ⟨rfl, rfl, rfl⟩

/-! ## The rescan -/

/-- What an incremental chunking cost. -/
structure RechunkStats where
  prefixKept : Nat
  tailReused : Nat
  rehashed : Nat
  bytesScanned : Nat
  deriving DecidableEq, Repr

variable {H : Type}

section Rechunk

variable (g : Gear) (σ : Bytes → H) (search : List (Chunk H) → Nat → Option Nat)
  (old : List (Chunk H)) (newData : Bytes) (edit : Edit)

def Edit.delta : Int := newData.length - edit.oldLen

def kept : List (Chunk H) := old.takeWhile fun c => c.offset + maxChunk ≤ edit.offset

/-- The old chunk the new cuts have met at `pos`, behind the edit. -/
def resync (pos : Nat) : Option Nat :=
  let oldPos : Int := pos - edit.delta newData
  if edit.oldEnd ≤ oldPos then search old oldPos.toNat else none

def Chunk.shift (delta : Int) (c : Chunk H) : Chunk H :=
  { c with offset := (c.offset + delta).toNat }

/-- The loop: `out` is what has been cut so far, `rehashed` how many of its chunks were
hashed again. -/
def rescan (prefixKept scanStart pos : Nat) (out : List (Chunk H)) (rehashed : Nat) :
    List (Chunk H) × RechunkStats :=
  if _h : pos < newData.length then
    match resync search old newData edit pos with
    | some idx =>
      (out ++ (old.drop idx).map (Chunk.shift (edit.delta newData)),
        { prefixKept, tailReused := old.length - idx, rehashed, bytesScanned := pos - scanStart })
    | none =>
      let len := nextBoundary g (newData.drop pos)
      rescan prefixKept scanStart (pos + len)
        (out ++ [⟨σ (slice newData pos (pos + len)), pos, len⟩]) (rehashed + 1)
  else (out, { prefixKept, tailReused := 0, rehashed, bytesScanned := pos - scanStart })
termination_by newData.length - pos
decreasing_by
  have hne : newData.drop pos ≠ [] := by
    rw [ne_eq, drop_eq_nil_iff]
    omega
  have := nextBoundary_pos g hne
  omega

def rechunkWithStats : List (Chunk H) × RechunkStats :=
  let out := kept old edit
  let pos := out.getLast?.elim 0 fun c => c.offset + c.len
  rescan g σ search old newData edit out.length pos pos out 0

def rechunk : List (Chunk H) := (rechunkWithStats g σ search old newData edit).1

end Rechunk

/-! ## What decides a cut -/

variable {g : Gear} {σ : Bytes → H}

theorem slice_eq_take_drop (data : Bytes) (start len : Nat) :
    slice data start (start + len) = (data.drop start).take len := by
  rw [slice, List.drop_take, Nat.add_sub_cancel_left]

theorem nextBoundary_congr {a b : Bytes} (ha : maxChunk ≤ a.length) (hb : maxChunk ≤ b.length)
    (h : a.take maxChunk = b.take maxChunk) : nextBoundary g a = nextBoundary g b := by
  have hmin : minChunk < maxChunk := by decide
  have hslice : slice a minChunk maxChunk = slice b minChunk maxChunk := by rw [slice, slice, h]
  rw [nextBoundary, nextBoundary, if_neg (by omega), if_neg (by omega), Nat.min_eq_left ha,
    Nat.min_eq_left hb]
  dsimp only
  rw [hslice]

theorem chunkFrom_shift {oldData newData : Bytes} {delta : Int} :
    ∀ {q p : Nat}, newData.drop p = oldData.drop q → (p : Int) = q + delta →
      chunkFrom g σ newData p = (chunkFrom g σ oldData q).map (Chunk.shift delta) := by
  intro q
  induction hk : oldData.length - q using Nat.strong_induction_on generalizing q with
  | _ k ih =>
    intro p hdrop hp
    have hlength : newData.length - p = oldData.length - q := by
      rw [← length_drop, hdrop, length_drop]
    by_cases hq : q < oldData.length
    · have hne : oldData.drop q ≠ [] := by
        rw [ne_eq, drop_eq_nil_iff]
        omega
      have hpos := nextBoundary_pos g hne
      have hrest : newData.drop (p + nextBoundary g (oldData.drop q)) =
          oldData.drop (q + nextBoundary g (oldData.drop q)) := by
        rw [← drop_drop, hdrop, drop_drop]
      have hnext := ih _ (by omega) rfl hrest (by omega)
      have hoffset : (q + delta).toNat = p := by omega
      rw [chunkFrom_of_lt g σ hq, chunkFrom_of_lt g σ (by omega), hdrop, slice_eq_take_drop,
        slice_eq_take_drop, hdrop, List.map_cons, hnext, Chunk.shift, hoffset]
    · rw [chunkFrom_of_le g σ (by omega), chunkFrom_of_le g σ (by omega), List.map_nil]

theorem drop_chunkFrom {data : Bytes} {i start : Nat} {c : Chunk H}
    (h : (chunkFrom g σ data start)[i]? = some c) :
    (chunkFrom g σ data start).drop i = chunkFrom g σ data c.offset := by
  induction i generalizing start with
  | zero =>
    by_cases hlt : start < data.length
    · rw [chunkFrom_of_lt g σ hlt, List.getElem?_cons_zero, Option.some.injEq] at h
      rw [List.drop_zero, ← h]
    · rw [chunkFrom_of_le g σ (by omega)] at h
      cases h
  | succ i ih =>
    by_cases hlt : start < data.length
    · rw [chunkFrom_of_lt g σ hlt, List.getElem?_cons_succ] at h
      rw [chunkFrom_of_lt g σ hlt, List.drop_succ_cons]
      exact ih h
    · rw [chunkFrom_of_le g σ (by omega)] at h
      cases h

/-! ## The rescan is exact -/

/-- Bytes replaced as an edit says. -/
structure Edit.Truthful (edit : Edit) (oldData newData : Bytes) : Prop where
  oldLen_eq : edit.oldLen = oldData.length
  replaced : ∃ inserted, newData = oldData.take edit.offset ++ inserted ++ oldData.drop edit.oldEnd

namespace Edit.Truthful

variable {edit : Edit} {oldData newData : Bytes}

theorem take_eq (h : edit.Truthful oldData newData) {n : Nat} (hn : n ≤ edit.offset) :
    newData.take n = oldData.take n := by
  obtain ⟨inserted, rfl⟩ := h.replaced
  have hoffset : edit.offset ≤ oldData.length := by
    have := edit.offset_le
    have := edit.oldEnd_le
    have := h.oldLen_eq
    omega
  rw [List.append_assoc, List.take_append_of_le_length (by rw [length_take]; omega), List.take_take,
    Nat.min_eq_left hn]

theorem le_length (h : edit.Truthful oldData newData) :
    edit.offset ≤ oldData.length ∧ edit.offset ≤ newData.length := by
  have hle : edit.offset ≤ oldData.length := by
    have := edit.offset_le
    have := edit.oldEnd_le
    have := h.oldLen_eq
    omega
  obtain ⟨inserted, rfl⟩ := h.replaced
  rw [List.append_assoc, length_append, length_take]
  omega

theorem drop_eq (h : edit.Truthful oldData newData) {p q : Nat} (hq : edit.oldEnd ≤ q)
    (hp : (p : Int) = q + edit.delta newData) : newData.drop p = oldData.drop q := by
  have hold := h.oldLen_eq
  have hend := edit.oldEnd_le
  obtain ⟨inserted, hnew⟩ := h.replaced
  have hlength := congrArg List.length hnew
  simp only [length_append, length_take, length_drop] at hlength
  rw [Edit.delta] at hp
  have hfront : (oldData.take edit.offset ++ inserted).length ≤ p := by
    rw [length_append, length_take]
    omega
  rw [hnew, List.drop_append, List.drop_eq_nil_of_le hfront, List.nil_append, drop_drop]
  congr 1
  rw [length_append, length_take] at hfront ⊢
  omega

end Edit.Truthful

section

variable {search : List (Chunk H) → Nat → Option Nat} {edit : Edit} {oldData newData : Bytes}

def Finds (search : List (Chunk H) → Nat → Option Nat) : Prop :=
  ∀ cs pos i, search cs pos = some i → ∃ c, cs[i]? = some c ∧ c.offset = pos

theorem resync_spec (hfinds : Finds search) (htrue : edit.Truthful oldData newData) {pos idx : Nat}
    (h : resync search (chunk g σ oldData) newData edit pos = some idx) :
    chunkFrom g σ newData pos =
    ((chunk g σ oldData).drop idx).map (Chunk.shift (edit.delta newData)) := by
  rw [resync] at h
  split_ifs at h with hle
  obtain ⟨c, hc, hoffset⟩ := hfinds _ _ _ h
  have hpos : (pos : Int) = c.offset + edit.delta newData := by omega
  rw [chunk, drop_chunkFrom hc]
  exact chunkFrom_shift (htrue.drop_eq (by omega) hpos) hpos

theorem rescan_spec (hfinds : Finds search) (htrue : edit.Truthful oldData newData)
    (prefixKept scanStart pos : Nat) (out : List (Chunk H)) (rehashed : Nat) :
    ∃ stats,
    rescan g σ search (chunk g σ oldData) newData edit prefixKept scanStart pos out rehashed =
        (out ++ chunkFrom g σ newData pos, stats) ∧ stats.prefixKept = prefixKept ∧
      stats.rehashed + stats.tailReused = rehashed + (chunkFrom g σ newData pos).length := by
  induction hk : newData.length - pos using Nat.strong_induction_on generalizing pos out
    rehashed with
  | _ k ih =>
    rw [rescan]
    split
    · rename_i hlt
      split
      · rename_i idx hidx
        rw [resync_spec hfinds htrue hidx, List.length_map, length_drop]
        exact ⟨_, rfl, rfl, rfl⟩
      · have hne : newData.drop pos ≠ [] := by
          rw [ne_eq, drop_eq_nil_iff]
          omega
        have hpos := nextBoundary_pos g hne
        obtain ⟨stats, hout, hprefix, hcount⟩ :=
          ih (newData.length - (pos + nextBoundary g (newData.drop pos)))
          (by omega) (pos + nextBoundary g (newData.drop pos))
            (out ++ [⟨σ (slice newData pos (pos + nextBoundary g (newData.drop pos))), pos,
            nextBoundary g (newData.drop pos)⟩]) (rehashed + 1) rfl
        rw [chunkFrom_of_lt g σ hlt, List.length_cons]
        refine ⟨stats, ?_, hprefix, by omega⟩
        rw [hout, List.append_assoc, List.singleton_append]
    · rw [chunkFrom_of_le g σ (by omega), List.append_nil]
      exact ⟨_, rfl, rfl, rfl⟩

/-- Where the chunks of a list end, one that is empty where it starts. -/
def endFrom (start : Nat) (cs : List (Chunk H)) : Nat :=
  cs.getLast?.elim start fun c => c.offset + c.len

theorem endFrom_cons (start : Nat) (c : Chunk H) (cs : List (Chunk H)) :
    endFrom start (c :: cs) = endFrom (c.offset + c.len) cs := by
  rw [endFrom, endFrom, List.getLast?_cons]
  cases cs.getLast? <;> rfl

theorem nextBoundary_before (htrue : edit.Truthful oldData newData) {start : Nat}
    (h : start + maxChunk ≤ edit.offset) :
    nextBoundary g (newData.drop start) = nextBoundary g (oldData.drop start) := by
  obtain ⟨hold, hnew⟩ := htrue.le_length
  refine nextBoundary_congr (by rw [length_drop]; omega) (by rw [length_drop]; omega) ?_
  rw [← slice_eq_take_drop, ← slice_eq_take_drop, slice, slice, htrue.take_eq h]

theorem chunkFrom_kept (htrue : edit.Truthful oldData newData) (start : Nat) :
    chunkFrom g σ newData start = kept (chunkFrom g σ oldData start) edit ++
      chunkFrom g σ newData (endFrom start (kept (chunkFrom g σ oldData start) edit)) := by
  induction hk : oldData.length - start using Nat.strong_induction_on generalizing start with
  | _ k ih =>
    by_cases hlt : start < oldData.length
    · rw [chunkFrom_of_lt g σ hlt, kept, List.takeWhile_cons]
      split
      · rename_i hbefore
        have hbefore : start + maxChunk ≤ edit.offset := of_decide_eq_true hbefore
        have hsame := nextBoundary_before (g := g) htrue hbefore
        obtain ⟨-, hnew⟩ := htrue.le_length
        obtain ⟨-, hmax, -⟩ := nextBoundary_bounds g (oldData.drop start)
        have hne : oldData.drop start ≠ [] := by
          rw [ne_eq, drop_eq_nil_iff]
          omega
        have hpos := nextBoundary_pos g hne
        have hslice : slice newData start (start + nextBoundary g (oldData.drop start)) =
            slice oldData start (start + nextBoundary g (oldData.drop start)) := by
          rw [slice, slice, htrue.take_eq (by omega)]
        rw [chunkFrom_of_lt g σ (by omega : start < newData.length), hsame, hslice, endFrom_cons,
          List.cons_append]
        congr 1
        exact ih _ (by omega) _ rfl
      · rfl
    · have hempty : chunkFrom g σ oldData start = [] := chunkFrom_of_le g σ (by omega)
      rw [hempty]
      rfl

/-- **Chunking again after an edit is chunking the new bytes**, chunk for chunk; and every
chunk of the result was kept, hashed again or reused. -/
theorem rechunk_eq_chunk (hfinds : Finds search) {offset oldEnd : Nat} {inserted : Bytes}
    (hparse : Edit.parse offset oldEnd oldData.length = .ok edit)
    (hnew : newData = oldData.take offset ++ inserted ++ oldData.drop oldEnd) :
    rechunk g σ search (chunk g σ oldData) newData edit = chunk g σ newData ∧
      (rechunkWithStats g σ search (chunk g σ oldData) newData edit).2.prefixKept +
          (rechunkWithStats g σ search (chunk g σ oldData) newData edit).2.rehashed +
          (rechunkWithStats g σ search (chunk g σ oldData) newData edit).2.tailReused =
        (rechunk g σ search (chunk g σ oldData) newData edit).length := by
  obtain ⟨rfl, rfl, hlen⟩ := Edit.parse_ok hparse
  have htrue : edit.Truthful oldData newData := ⟨hlen, inserted, hnew⟩
  have hwhole : chunk g σ newData = kept (chunk g σ oldData) edit ++
      chunkFrom g σ newData (endFrom 0 (kept (chunk g σ oldData) edit)) := chunkFrom_kept htrue 0
  obtain ⟨stats, hscan, hprefix, hcount⟩ :=
    rescan_spec hfinds htrue (kept (chunk g σ oldData) edit).length
    (endFrom 0 (kept (chunk g σ oldData) edit)) (endFrom 0 (kept (chunk g σ oldData) edit))
    (kept (chunk g σ oldData) edit) 0
  have hstats : rechunkWithStats g σ search (chunk g σ oldData) newData edit =
      (chunk g σ newData, stats) := by
    rw [hwhole]
    exact hscan
  rw [rechunk, hstats]
  refine ⟨rfl, ?_⟩
  rw [hwhole, length_append, hprefix, Nat.add_assoc, hcount, Nat.zero_add]

end

def searchOffset (cs : List (Chunk H)) (pos : Nat) : Option Nat := cs.findIdx? (·.offset = pos)

theorem finds_searchOffset : Finds (@searchOffset H) := by
  intro cs pos i h
  obtain ⟨hlt, hoffset, -⟩ := List.findIdx?_eq_some_iff_getElem.mp h
  exact ⟨cs[i], List.getElem?_eq_getElem hlt, of_decide_eq_true hoffset⟩

/-! Four chunks of the largest size, and one byte replaced in the second. -/

def fourChunks : Bytes := List.replicate (4 * maxChunk) 0

def fourEdited : Bytes := fourChunks.take (maxChunk + 5) ++ [9] ++ fourChunks.drop (maxChunk + 6)

def fourEdit : Edit := ⟨maxChunk + 5, maxChunk + 6, 4 * maxChunk, by decide, by decide⟩

theorem fourChunks_length : fourChunks.length = 4 * maxChunk := by
  rw [fourChunks, List.length_replicate]

theorem length_replaced {data : Bytes} {offset : Nat} (h : offset < data.length) (b : UInt8) :
    (data.take offset ++ [b] ++ data.drop (offset + 1)).length = data.length := by
  simp only [length_append, length_take, length_drop, List.length_singleton]
  omega

theorem fourEdited_length : fourEdited.length = 4 * maxChunk := by
  have : maxChunk + 5 < 4 * maxChunk := by decide
  exact (length_replaced (by rwa [fourChunks_length]) 9).trans fourChunks_length

theorem nextBoundary_largest {data : Bytes} {start : Nat} (h : start + maxChunk ≤ data.length) :
    nextBoundary silentGear (data.drop start) = maxChunk := by
  rw [nextBoundary_silentGear, length_drop]
  omega

theorem chunkFrom_largest {data : Bytes} {start : Nat} (h : start + maxChunk ≤ data.length) :
    chunkFrom silentGear List.length data start =
      ⟨maxChunk, start, maxChunk⟩ :: chunkFrom silentGear List.length data (start + maxChunk) := by
  have : 0 < maxChunk := by decide
  have hlen : (slice data start (start + maxChunk)).length = maxChunk := by
    rw [Tiling.slice_length]
    omega
  rw [chunkFrom_of_lt _ _ (by omega), nextBoundary_largest h, hlen]

theorem chunk_fourChunks : chunk silentGear List.length fourChunks =
    [⟨maxChunk, 0, maxChunk⟩, ⟨maxChunk, maxChunk, maxChunk⟩,
      ⟨maxChunk, maxChunk + maxChunk, maxChunk⟩,
      ⟨maxChunk, maxChunk + maxChunk + maxChunk, maxChunk⟩] := by
  have hlen := fourChunks_length
  rw [chunk, chunkFrom_largest (by omega), chunkFrom_largest (by omega),
    chunkFrom_largest (by omega),
    chunkFrom_largest (by omega), chunkFrom_of_le _ _ (by omega), Nat.zero_add]

theorem resync_fourEdited (old : List (Chunk Nat)) (pos : Nat) :
    resync searchOffset old fourEdited fourEdit pos =
      if maxChunk + 6 ≤ pos then searchOffset old pos else none := by
  have hdelta : fourEdit.delta fourEdited = 0 := by
    rw [Edit.delta, fourEdited_length]
    exact sub_self _
  rw [resync, hdelta, sub_zero, Int.toNat_natCast]
  exact if_congr Nat.cast_le rfl rfl

/-- The first chunk is kept, the second hashed again, and the last two are reused. -/
theorem rechunk_eq_chunk_replaced :
    (rechunkWithStats silentGear List.length searchOffset (chunk silentGear List.length fourChunks)
      fourEdited fourEdit).2 = ⟨1, 2, 1, maxChunk⟩ ∧
    rechunk silentGear List.length searchOffset (chunk silentGear List.length fourChunks)
      fourEdited fourEdit = chunk silentGear List.length fourEdited := by
  have hparse : Edit.parse (maxChunk + 5) (maxChunk + 6) fourChunks.length = .ok fourEdit := by
    rw [fourChunks_length]
    rfl
  refine ⟨?_, (rechunk_eq_chunk finds_searchOffset hparse rfl).1⟩
  have hkept : kept (chunk silentGear List.length fourChunks) fourEdit =
      [⟨maxChunk, 0, maxChunk⟩] := by
    rw [chunk_fourChunks]
    rfl
  have hsearch : searchOffset (chunk silentGear List.length fourChunks) (maxChunk + maxChunk) =
      some 2 := by
    rw [chunk_fourChunks]
    decide
  have hlen := fourEdited_length
  have hpos : 6 ≤ maxChunk := by decide
  rw [rechunkWithStats, hkept]
  show (rescan _ _ _ _ _ _ 1 (0 + maxChunk) (0 + maxChunk) _ 0).2 = _
  rw [Nat.zero_add, rescan, dif_pos (by omega), resync_fourEdited, if_neg (by omega)]
  dsimp only
  rw [nextBoundary_largest (by omega), rescan, dif_pos (by omega), resync_fourEdited,
    if_pos (by omega), hsearch, chunk_fourChunks]
  dsimp only
  rw [Nat.add_sub_cancel]
  rfl

end LeyLine.Cdc
