import LeyLine.Lib.LeftTree
import LeyLine.Tree

/-!
# The outboard hash tree

A buffer's BLAKE3 hash is the value of a left-complete tree over its 1 KiB chunks.
The outboard keeps the chaining values of the chunks and of every aligned full
subtree (`Outboard.levels`), so that an edit re-hashes the chunks it touched and
re-merges what is above them.

The compression functions are parameters (`Blake3`); `Blake3.hash` is the
specification, and `Outboard.Describes` says that the levels hold exactly the
values the specification has for a buffer. Building establishes it, a truthful
update keeps it, and where it holds `root` is the hash.
-/

namespace LeyLine

open LeftTree (leftSize mergeAt pairs tower)
open LeftTree (leftSize_lt leftSize_pos mergeAt_of_le mergeAt_of_lt pairs_get pairs_length
  tower_cons tower_nil)

/-! ## The specification -/

def chunkLen : Nat := 1024

/-- The largest power of two strictly below `n`. -/
def powerBelow (n : Nat) : Nat := 2 ^ Nat.log 2 (n - 1)

/-- What the hash function's own crate gives: compression, of a chunk at an index and of
two subtrees, below the root and at it; and the bytes of the left subtree of more than one
chunk, with the value documented for them. -/
structure Blake3 (CV Hash : Type) where
  chunk : Nat → Bytes → CV
  parent : CV → CV → CV
  rootChunk : Bytes → Hash
  rootParent : CV → CV → Hash
  leftSubtreeLen : Nat → Nat
  leftSubtreeLen_eq : ∀ n, chunkLen < n → leftSubtreeLen n = powerBelow n

def Blake3.ofCompression {CV Hash : Type} (chunk : Nat → Bytes → CV) (parent : CV → CV → CV)
    (rootChunk : Bytes → Hash) (rootParent : CV → CV → Hash) : Blake3 CV Hash :=
  ⟨chunk, parent, rootChunk, rootParent, powerBelow, fun _ _ => rfl⟩

def chunkAt (data : Bytes) (i : Nat) : Bytes := (data.drop (i * chunkLen)).take chunkLen

/-- How many chunks a buffer has; an empty one has none. -/
def chunkCount (n : Nat) : Nat := (n + (chunkLen - 1)) / chunkLen

namespace Blake3

variable {CV Hash : Type} (b : Blake3 CV Hash)

def leafCv (data : Bytes) (i : Nat) : CV := b.chunk i (chunkAt data i)

def subtree (data : Bytes) (start count : Nat) : CV :=
  LeftTree.node b.parent (b.leafCv data) start count

/-- The hash of a buffer. The last compression, of the only chunk or of the two
subtrees of the whole, carries the root flag. -/
def hash (data : Bytes) : Hash :=
  if chunkCount data.length ≤ 1 then b.rootChunk data
  else
    b.rootParent (b.subtree data 0 (leftSize (chunkCount data.length)))
      (b.subtree data (leftSize (chunkCount data.length))
        (chunkCount data.length - leftSize (chunkCount data.length)))

end Blake3

/-! ## The outboard -/

/-- `levels[0]` holds a chaining value per chunk, `levels[k][i]` that of the full
subtree over the chunks from `i * 2 ^ k` to `(i + 1) * 2 ^ k`. -/
structure Outboard (CV Hash : Type) where
  levels : List (List CV)
  len : Nat
  smallRoot : Option Hash

namespace Outboard

variable {CV Hash : Type} (b : Blake3 CV Hash)

section Levels

variable (merge : CV → CV → CV)

/-- (Re)derive every level above `prev` from the entry over `firstLeaf` on,
truncating each to its valid length. -/
def rebuildParentsFrom (firstLeaf : Nat) (prev : List CV) (above : List (List CV)) :
    List (List CV) :=
  if _h : prev.length / 2 = 0 then []
  else
    let lo := min (firstLeaf / 2) (prev.length / 2)
    let cur := (above.headD []).take lo ++
      (List.range' lo (prev.length / 2 - lo)).filterMap (mergeAt merge prev)
    cur :: rebuildParentsFrom (firstLeaf / 2) cur above.tail
termination_by prev.length
decreasing_by
  have := List.length_filterMap_le (mergeAt merge prev)
      (List.range' (min (firstLeaf / 2) (prev.length / 2))
      (prev.length / 2 - min (firstLeaf / 2) (prev.length / 2)))
  rw [List.length_range'] at this
  rw [List.length_append, List.length_take]
  omega

/-- One level, recomputed in place over the entries above `lo..=last`. -/
def refreshLevel (lo last : Nat) (prev cur : List CV) : List CV :=
  cur.mapIdx fun i cv =>
    if min lo cur.length ≤ i ∧ i < min (last + 1) cur.length then (mergeAt merge prev i).getD cv
    else cv

/-- Recompute the ancestors of the leaves `lo..=last` in place. -/
def propagate (lo last : Nat) (prev : List CV) : List (List CV) → List (List CV)
  | [] => []
  | cur :: above =>
    refreshLevel merge (lo / 2) (last / 2) prev cur ::
      propagate (lo / 2) (last / 2) (refreshLevel merge (lo / 2) (last / 2) prev cur) above

end Levels

variable (o : Outboard CV Hash)

def nChunks : Nat := (o.levels.headD []).length

def smallRootOf (n : Nat) (data : Bytes) : Option Hash := if n ≤ 1 then some (b.hash data) else none

/-- The chaining values of the chunks `first..stop`. -/
def leaves (data : Bytes) (first stop : Nat) : List CV :=
  (List.range' first (stop - first)).map (b.leafCv data)

def build (data : Bytes) : Outboard CV Hash :=
  let row := leaves b data 0 (chunkCount data.length)
  ⟨row :: rebuildParentsFrom b.parent 0 row [], data.length, smallRootOf b row.length data⟩

/-- The level-0 entries of the chunks `first..stop`, re-hashed in place. -/
def rehash (data : Bytes) (first stop : Nat) (row : List CV) : List CV :=
  row.mapIdx fun i cv => if first ≤ i ∧ i < stop then b.leafCv data i else cv

def lastChunkExclusive (n start stop : Nat) : Nat :=
  if stop ≤ start then start / chunkLen else min ((stop - 1) / chunkLen + 1) n

/-- Take the buffer to `data`, of which the range `start..stop` is dirty: the chunks
re-hashed, and the tree over the new buffer. A length change re-derives every
chunk from the start of the range on. -/
def update (data : Bytes) (start stop : Nat) : Except String (Nat × Outboard CV Hash) :=
  let first := start / chunkLen
  let n := chunkCount data.length
  let row := o.levels.headD []
  let above := o.levels.tail
  if ¬ (start ≤ stop ∧ stop ≤ data.length) then
    .error ("dirty range " ++ toString start ++ ".." ++ toString stop ++
      " does not lie within the " ++ toString data.length ++ "-byte buffer")
  else if data.length = o.len then
    let last := lastChunkExclusive n start stop
    let row' := rehash b data first last row
    let above' := if last ≤ first then above else propagate b.parent first (last - 1) row' above
    .ok (last - first, ⟨row' :: above', data.length, smallRootOf b row'.length data⟩)
  else
    let first := min first n
    let row' := row.take first ++ leaves b data first n
    .ok (n - first, ⟨row' :: rebuildParentsFrom b.parent first row' above, data.length,
      smallRootOf b row'.length data⟩)

/-- The chaining value of `count` chunks of `byteLen` bytes: a level entry when
they are an aligned full subtree, else the merge of its two halves. It stops
without an answer only when `fuel` runs out. -/
def cachedCv (levels : List (List CV)) : Nat → Nat → Nat → Nat → Option CV
  | 0, _, _, _ => none
  | fuel + 1, start, count, byteLen =>
    let hit : Option CV := if count = 2 ^ Nat.log 2 count ∧ start % count = 0 then
        levels[Nat.log 2 count]?.bind (·[start / 2 ^ Nat.log 2 count]?)
      else none
    match hit with
    | some cv => some cv
    | none => do
      let leftBytes := b.leftSubtreeLen byteLen
      let leftChunks := leftBytes / chunkLen
      let left ← cachedCv levels fuel start leftChunks leftBytes
      let right ← cachedCv levels fuel (start + leftChunks) (count - leftChunks)
          (byteLen - leftBytes)
      pure (b.parent left right)

def root : Option Hash :=
  match o.smallRoot with
  | some small => some small
  | none => do
    let leftBytes := b.leftSubtreeLen o.len
    let leftChunks := leftBytes / chunkLen
    let left ← cachedCv b o.levels o.nChunks 0 leftChunks leftBytes
    let right ← cachedCv b o.levels o.nChunks leftChunks (o.nChunks - leftChunks)
        (o.len - leftBytes)
    pure (b.rootParent left right)

/-! ## Levels that hold what they should -/

section Levels

variable {merge : CV → CV → CV} {row row' : List CV}

theorem tower_head (row : List CV) : (tower merge row).headD [] = pairs merge row := by
  by_cases h : row.length / 2 = 0
  · rw [tower_nil h]
    have hlen : (pairs merge row).length = 0 := by rw [pairs_length, h]
    exact (List.length_eq_zero_iff.mp hlen).symm
  · rw [tower_cons h]
    rfl

theorem tower_tail (row : List CV) : (tower merge row).tail = tower merge (pairs merge row) := by
  by_cases h : row.length / 2 = 0
  · rw [tower_nil h, tower_nil (by rw [pairs_length]; omega)]
    rfl
  · rw [tower_cons h]
    rfl

theorem mergeAt_congr {i : Nat} (h₀ : row'[2 * i]? = row[2 * i]?)
    (h₁ : row'[2 * i + 1]? = row[2 * i + 1]?) : mergeAt merge row' i = mergeAt merge row i := by
  rw [mergeAt, mergeAt, h₀, h₁]

theorem rebuiltLevel {first : Nat} (hle : first ≤ row.length)
    (hagree : ∀ i < first, row'[i]? = row[i]?) :
    (pairs merge row).take (min (first / 2) (row'.length / 2)) ++
        (List.range' (min (first / 2) (row'.length / 2))
          (row'.length / 2 - min (first / 2) (row'.length / 2))).filterMap (mergeAt merge row') =
      pairs merge row' := by
  have hsome : ∀ j, min (first / 2) (row'.length / 2) ≤ j → j < min (first / 2) (row'.length / 2) +
        (row'.length / 2 - min (first / 2) (row'.length / 2)) → mergeAt merge row' j ≠ none := by
    intro j _ hj
    rw [mergeAt_of_lt (by omega)]
    simp
  have hkept : ((pairs merge row).take (min (first / 2) (row'.length / 2))).length =
      min (first / 2) (row'.length / 2) := by
    rw [List.length_take, pairs_length]
    omega
  refine List.ext_getElem? fun i => ?_
  rw [pairs_get]
  by_cases hi : i < min (first / 2) (row'.length / 2)
  · rw [List.getElem?_append_left (by omega), List.getElem?_take, if_pos hi, pairs_get]
    exact (mergeAt_congr (hagree _ (by omega)) (hagree _ (by omega))).symm
  · rw [List.getElem?_append_right (by omega), hkept, LeftTree.filterMap_range' hsome]
    split
    · congr 1
      omega
    · rw [mergeAt_of_le (by omega)]

/-- Rebuilding from the first leaf that changed gives the levels of the new row,
whatever the row above that leaf was. -/
theorem rebuildParentsFrom_tower {first : Nat} (hle : first ≤ row.length)
    (hagree : ∀ i < first, row'[i]? = row[i]?) :
    rebuildParentsFrom merge first row' (tower merge row) = tower merge row' := by
  induction hn : row'.length using Nat.strong_induction_on generalizing row row' first with
  | _ n ih =>
    rw [rebuildParentsFrom]
    by_cases hzero : row'.length / 2 = 0
    · rw [dif_pos hzero, tower_nil hzero]
    · rw [dif_neg hzero, tower_cons hzero]
      dsimp only
      rw [tower_head, rebuiltLevel hle hagree, tower_tail]
      congr 1
      refine ih (pairs merge row').length ?_ ?_ ?_ rfl
      · rw [pairs_length]
        omega
      · rw [pairs_length]
        omega
      · intro i hi
        rw [pairs_get, pairs_get]
        exact mergeAt_congr (hagree _ (by omega)) (hagree _ (by omega))

theorem refreshLevel_pairs {lo last : Nat} (hlen : row'.length = row.length)
    (hagree : ∀ i, i < lo ∨ last < i → row'[i]? = row[i]?) :
    refreshLevel merge (lo / 2) (last / 2) row' (pairs merge row) = pairs merge row' := by
  refine List.ext_getElem? fun i => ?_
  rw [refreshLevel, List.getElem?_mapIdx, pairs_get, pairs_get, pairs_length]
  by_cases hi : i < row.length / 2
  · have hold : ∃ cv, mergeAt merge row i = some cv := ⟨_, mergeAt_of_lt (by omega)⟩
    have hnew : ∃ cv, mergeAt merge row' i = some cv := ⟨_, mergeAt_of_lt (by omega)⟩
    obtain ⟨cv, hcv⟩ := hold
    obtain ⟨cv', hcv'⟩ := hnew
    rw [hcv, hcv', Option.map_some]
    by_cases hin : min (lo / 2) (row.length / 2) ≤ i ∧ i < min (last / 2 + 1) (row.length / 2)
    · rw [if_pos hin]
      rfl
    · rw [if_neg hin, ← hcv, ← hcv']
      exact (mergeAt_congr (hagree _ (by omega)) (hagree _ (by omega))).symm
  · rw [mergeAt_of_le (by omega), mergeAt_of_le (by omega)]
    rfl

theorem propagate_tower {lo last : Nat} (hlen : row'.length = row.length)
    (hagree : ∀ i, i < lo ∨ last < i → row'[i]? = row[i]?) :
    propagate merge lo last row' (tower merge row) = tower merge row' := by
  induction hn : row.length using Nat.strong_induction_on generalizing row row' lo last with
  | _ n ih =>
    by_cases hzero : row.length / 2 = 0
    · rw [tower_nil hzero, tower_nil (by omega)]
      rfl
    · have hzero' : row'.length / 2 ≠ 0 := by omega
      rw [tower_cons hzero, tower_cons hzero', propagate, refreshLevel_pairs hlen hagree]
      congr 1
      refine ih (pairs merge row).length ?_ ?_ ?_ rfl
      · rw [pairs_length]
        omega
      · rw [pairs_length, pairs_length, hlen]
      · intro i hi
        rw [pairs_get, pairs_get]
        exact mergeAt_congr (hagree _ (by omega)) (hagree _ (by omega))

end Levels

/-! ## Chunks of equal ranges -/

section Chunks

variable {old data : Bytes}

theorem chunkAt_congr {i : Nat}
    (h : ∀ j, i * chunkLen ≤ j → j < (i + 1) * chunkLen → data[j]? = old[j]?) :
    chunkAt data i = chunkAt old i := by
  unfold chunkAt chunkLen at *
  refine List.ext_getElem? fun j => ?_
  rw [List.getElem?_take, List.getElem?_take, List.getElem?_drop, List.getElem?_drop]
  split
  · exact h _ (by omega) (by omega)
  · rfl

theorem leafCv_congr {i : Nat}
    (h : ∀ j, i * chunkLen ≤ j → j < (i + 1) * chunkLen → data[j]? = old[j]?) :
    b.leafCv data i = b.leafCv old i := by
  rw [Blake3.leafCv, Blake3.leafCv, chunkAt_congr h]

theorem leaves_get (first stop i : Nat) : (leaves b data first stop)[i]? =
      if i < stop - first then some (b.leafCv data (first + i)) else none := by
  rw [leaves, List.getElem?_map]
  split
  · rename_i h
    simp [h]
  · rename_i h
    rw [List.getElem?_eq_none (by simpa using h)]
    rfl

theorem leaves_length (first stop : Nat) : (leaves b data first stop).length = stop - first := by
  simp [leaves]

end Chunks

/-! ## The levels of a buffer -/

/-- The chaining values of a buffer's chunks. -/
abbrev rowOf (data : Bytes) : List CV := leaves b data 0 (chunkCount data.length)

theorem rowOf_get (data : Bytes) (i : Nat) :
    (rowOf b data)[i]? = if i < chunkCount data.length then some (b.leafCv data i) else none := by
  rw [leaves_get, Nat.zero_add, Nat.sub_zero]

/-- The outboard is the one of a buffer. -/
structure Describes (o : Outboard CV Hash) (data : Bytes) : Prop where
  levels : o.levels = rowOf b data :: tower b.parent (rowOf b data)
  len : o.len = data.length
  smallRoot : o.smallRoot = smallRootOf b (chunkCount data.length) data

theorem build_describes (data : Bytes) : Describes b (build b data) data := by
  refine ⟨?_, rfl, ?_⟩
  · have htower : tower b.parent ([] : List CV) = [] := tower_nil (by simp)
    show rowOf b data :: rebuildParentsFrom b.parent 0 (rowOf b data) [] = _
    rw [← htower, rebuildParentsFrom_tower (Nat.zero_le _) (by simp)]
  · show smallRootOf b (rowOf b data).length data = _
    rw [leaves_length, Nat.sub_zero]

/-! ## Truthful updates -/

/-- The range `start..stop` is where the two buffers differ: nothing before it, and
nothing after it when the lengths are equal. -/
structure Truthful (old data : Bytes) (start stop : Nat) : Prop where
  start_le : start ≤ old.length
  before : ∀ i < start, data[i]? = old[i]?
  after : data.length = old.length → ∀ i, stop ≤ i → data[i]? = old[i]?

variable {b} {old data : Bytes} {start stop : Nat}

variable {i : Nat}

theorem Truthful.leafCv_before (h : Truthful old data start stop)
    (hi : i < start / chunkLen) : b.leafCv data i = b.leafCv old i := by
  refine leafCv_congr b fun j _ hj => h.before j ?_
  unfold chunkLen at *
  omega

theorem Truthful.leafCv_after (h : Truthful old data start stop) (hlen : data.length = old.length)
    (hi : lastChunkExclusive (chunkCount data.length) start stop ≤ i)
    (hin : i < chunkCount data.length) : b.leafCv data i = b.leafCv old i := by
  refine leafCv_congr b fun j hj _ => ?_
  unfold lastChunkExclusive at hi
  unfold chunkLen at *
  by_cases hempty : stop ≤ start
  · -- nothing is dirty: every index is before or after the range
    by_cases hjs : j < start
    · exact h.before j hjs
    · exact h.after hlen j (by omega)
  · rw [if_neg hempty] at hi
    exact h.after hlen j (by omega)

theorem Truthful.rehash_rowOf (h : Truthful old data start stop) (hlen : data.length = old.length) :
    rehash b data (start / chunkLen) (lastChunkExclusive (chunkCount data.length) start stop)
      (rowOf b old) = rowOf b data := by
  refine List.ext_getElem? fun i => ?_
  rw [rehash, List.getElem?_mapIdx, rowOf_get, rowOf_get, ← hlen]
  by_cases hi : i < chunkCount data.length
  · rw [if_pos hi, if_pos hi, Option.map_some]
    split
    · rfl
    · by_cases hbefore : i < start / chunkLen
      · rw [h.leafCv_before hbefore]
      · rw [h.leafCv_after hlen (by omega) hi]
  · rw [if_neg hi, if_neg hi]
    rfl

theorem rehash_get_of_not {first last i : Nat} (h : ¬ (first ≤ i ∧ i < last)) (row : List CV) :
    (rehash b data first last row)[i]? = row[i]? := by
  rw [rehash, List.getElem?_mapIdx]
  simp only [if_neg h]
  exact Option.map_id_apply

theorem Truthful.grown_rowOf (h : Truthful old data start stop) {first : Nat}
    (hfirst : first ≤ start / chunkLen) (hn : first ≤ chunkCount data.length) :
    (rowOf b old).take first ++ leaves b data first (chunkCount data.length) = rowOf b data := by
  have hold : first ≤ chunkCount old.length := by
    have := h.start_le
    unfold chunkCount chunkLen at *
    omega
  have hkept : ((rowOf b old).take first).length = first := by
    rw [List.length_take, leaves_length]
    omega
  refine List.ext_getElem? fun i => ?_
  by_cases hi : i < first
  · rw [List.getElem?_append_left (by omega), List.getElem?_take, if_pos hi, rowOf_get, rowOf_get,
      if_pos (by omega), if_pos (by omega), h.leafCv_before (by omega)]
  · rw [List.getElem?_append_right (by omega), hkept, leaves_get, rowOf_get]
    by_cases hin : i < chunkCount data.length
    · rw [if_pos (by omega), if_pos hin, show first + (i - first) = i by omega]
    · rw [if_neg (by omega), if_neg hin]

theorem update_describes {o o' : Outboard CV Hash} {k : Nat} (ho : Describes b o old)
    (h : Truthful old data start stop) (hu : update b o data start stop = .ok (k, o')) :
    Describes b o' data := by
  have hrow : o.levels.headD [] = rowOf b old := by rw [ho.levels]; rfl
  have habove : o.levels.tail = tower b.parent (rowOf b old) := by rw [ho.levels]; rfl
  unfold update at hu
  dsimp only at hu
  rw [hrow, habove, ho.len] at hu
  split at hu
  · simp at hu
  · split at hu
    · rename_i hlen
      rw [h.rehash_rowOf hlen] at hu
      obtain ⟨-, rfl⟩ := Prod.mk.inj (Except.ok.inj hu)
      refine ⟨congrArg (rowOf b data :: ·) ?_, rfl, by rw [leaves_length, Nat.sub_zero]⟩
      split
      · -- no chunk is dirty, so the row is the old one
        have hsame : rowOf b data = rowOf b old := by
          refine List.ext_getElem? fun i => ?_
          rw [← h.rehash_rowOf hlen]
          exact rehash_get_of_not (by omega) _
        rw [hsame]
      · refine propagate_tower ?_ fun i hi => ?_
        · rw [leaves_length, leaves_length, hlen]
        · rw [← h.rehash_rowOf hlen]
          exact rehash_get_of_not (by omega) _
    · obtain ⟨-, rfl⟩ := Prod.mk.inj (Except.ok.inj hu)
      rw [h.grown_rowOf (Nat.min_le_left _ _) (Nat.min_le_right _ _)]
      refine ⟨congrArg (rowOf b data :: ·) ?_, rfl, by rw [leaves_length, Nat.sub_zero]⟩
      have hold : start / chunkLen ≤ chunkCount old.length := by
        have := h.start_le
        unfold chunkCount chunkLen at *
        omega
      refine rebuildParentsFrom_tower ?_ fun i hi => ?_
      · rw [leaves_length]
        omega
      · rw [rowOf_get, rowOf_get, if_pos (by omega), if_pos (by omega), h.leafCv_before (by omega)]

/-! ## The root -/

variable {n : Nat}

theorem leftSubtreeLen_mul (b : Blake3 CV Hash) (h : 2 ≤ chunkCount n) :
    b.leftSubtreeLen n = leftSize (chunkCount n) * chunkLen := by
  have hpred : chunkCount n - 1 = (n - 1) / 2 ^ 10 := by
    unfold chunkCount chunkLen at *
    omega
  have hlog : 10 ≤ Nat.log 2 (n - 1) := by
    refine Nat.le_log_of_pow_le (by omega) ?_
    omega
  have hlt : chunkLen < n := by
    unfold chunkCount chunkLen at *
    omega
  rw [b.leftSubtreeLen_eq n hlt, powerBelow, leftSize, hpred, Nat.log_div_base_pow,
    show chunkLen = 2 ^ 10 from rfl, ← pow_add, Nat.sub_add_cancel hlog]

theorem leftSubtreeLen_div (h : 2 ≤ chunkCount n) :
    b.leftSubtreeLen n / chunkLen = leftSize (chunkCount n) := by
  rw [leftSubtreeLen_mul b h, Nat.mul_div_cancel _ (by decide)]

theorem chunkCount_left (h : 2 ≤ chunkCount n) :
    chunkCount (b.leftSubtreeLen n) = leftSize (chunkCount n) := by
  rw [leftSubtreeLen_mul b h]
  unfold chunkCount chunkLen
  omega

theorem chunkCount_right (h : 2 ≤ chunkCount n) :
    chunkCount (n - b.leftSubtreeLen n) = chunkCount n - leftSize (chunkCount n) := by
  rw [leftSubtreeLen_mul b h]
  unfold chunkCount chunkLen at *
  omega

theorem levels_get (data : Bytes) (k i : Nat) :
    (rowOf b data :: tower b.parent (rowOf b data))[k]?.bind (·[i]?) =
      if (i + 1) * 2 ^ k ≤ chunkCount data.length then some (b.subtree data (i * 2 ^ k) (2 ^ k))
      else none :=
  LeftTree.tower_get (rowOf_get b data) k i

theorem cachedCv_eq {fuel first count byteLen : Nat} (hpos : 0 < count) (hfuel : count ≤ fuel)
    (hin : first + count ≤ chunkCount data.length) (hbytes : chunkCount byteLen = count) :
    cachedCv b (rowOf b data :: tower b.parent (rowOf b data)) fuel first count byteLen =
      some (b.subtree data first count) := by
  induction fuel generalizing first count byteLen with
  | zero => omega
  | succ fuel ih =>
    rw [cachedCv]
    dsimp only
    by_cases hpow : count = 2 ^ Nat.log 2 count ∧ first % count = 0
    · -- a full subtree, aligned: its entry is there
      rw [if_pos hpow, levels_get, ← hpow.1]
      have hdiv : first / count * count = first :=
        Nat.div_mul_cancel (Nat.dvd_of_mod_eq_zero hpow.2)
      have hnext : (first / count + 1) * count = first + count := by rw [Nat.add_mul, hdiv, one_mul]
      rw [hnext, if_pos hin, hdiv]
    · have htwo : 2 ≤ count := by
        by_contra hlt
        obtain rfl : count = 1 := by omega
        exact hpow ⟨by decide, Nat.mod_one _⟩
      have hlt := leftSize_lt htwo
      have hleft := leftSize_pos count
      subst hbytes
      rw [if_neg hpow]
      rw [leftSubtreeLen_div htwo, ih hleft (by omega) (by omega) (chunkCount_left htwo),
        ih (by omega) (by omega) (by omega) (chunkCount_right htwo)]
      exact congrArg some (LeftTree.node_split first htwo).symm

theorem Describes.nChunks {o : Outboard CV Hash} (h : Describes b o data) :
    o.nChunks = chunkCount data.length := by
  rw [Outboard.nChunks, h.levels]
  show (rowOf b data).length = _
  rw [leaves_length, Nat.sub_zero]

/-- **The root of a buffer's outboard is the buffer's hash.** -/
theorem Describes.root {o : Outboard CV Hash} (h : Describes b o data) :
    root b o = some (b.hash data) := by
  rw [Outboard.root, h.smallRoot, smallRootOf]
  by_cases hsmall : chunkCount data.length ≤ 1
  · rw [if_pos hsmall]
  · have htwo : 2 ≤ chunkCount data.length := by omega
    have hlt := leftSize_lt htwo
    have hleft := leftSize_pos (chunkCount data.length)
    rw [if_neg hsmall]
    dsimp only
    rw [h.nChunks, h.len, h.levels, leftSubtreeLen_div htwo,
      cachedCv_eq hleft hlt.le (by omega) (chunkCount_left htwo),
      cachedCv_eq (by omega) (by omega) (by omega) (chunkCount_right htwo), Blake3.hash,
      if_neg hsmall]
    rfl

/-! ## Runs of updates -/

/-- A new buffer, and the range said to be dirty in it. -/
structure Update where
  data : Bytes
  start : Nat
  stop : Nat

/-- The range lies within the buffer: what `update` checks. -/
def Update.InRange (u : Update) : Prop := u.start ≤ u.stop ∧ u.stop ≤ u.data.length

instance (u : Update) : Decidable u.InRange := inferInstanceAs (Decidable (_ ∧ _))

/-- The buffer a list of updates leaves; one that is refused leaves the buffer. -/
def current (data : Bytes) (us : List Update) : Bytes :=
  us.foldl (fun cur u => if u.InRange then u.data else cur) data

variable (b) in
def updateAll (us : List Update) : Outboard CV Hash :=
  us.foldl (fun o u => match update b o u.data u.start u.stop with
    | .ok (_, o') => o'
    | .error _ => o) o

def TruthfulRun : Bytes → List Update → Prop
  | _, [] => True
  | cur, u :: us =>
    Truthful cur u.data u.start u.stop ∧ TruthfulRun (if u.InRange then u.data else cur) us

theorem update_cases (u : Update) :
    (u.InRange ∧ ∃ k o', update b o u.data u.start u.stop = .ok (k, o')) ∨
      (¬ u.InRange ∧ ∃ e, update b o u.data u.start u.stop = .error e) := by
  unfold update
  by_cases h : u.InRange
  · have hin : ¬ ¬ (u.start ≤ u.stop ∧ u.stop ≤ u.data.length) := not_not.mpr h
    refine .inl ⟨h, ?_⟩
    rw [if_neg hin]
    split
    · exact ⟨_, _, rfl⟩
    · exact ⟨_, _, rfl⟩
  · have hout : ¬ (u.start ≤ u.stop ∧ u.stop ≤ u.data.length) := h
    refine .inr ⟨h, ?_⟩
    rw [if_pos hout]
    exact ⟨_, rfl⟩

theorem updateAll_describes {o : Outboard CV Hash} {us : List Update} (ho : Describes b o old)
    (hus : TruthfulRun old us) : Describes b (updateAll b o us) (current old us) := by
  induction us generalizing o old with
  | nil => exact ho
  | cons u us ih =>
    unfold updateAll current
    rw [List.foldl_cons, List.foldl_cons]
    rcases update_cases o u with ⟨hin, k, o', hu⟩ | ⟨hout, e, hu⟩
    · have hrun := hus.2
      rw [if_pos hin] at hrun ⊢
      rw [hu]
      exact ih (update_describes ho hus.1 hu) hrun
    · have hrun := hus.2
      rw [if_neg hout] at hrun ⊢
      rw [hu]
      exact ih ho hrun

/-! ## The span a flush derives -/

def commonLen (xs ys : Bytes) : Nat := ((xs.zip ys).takeWhile fun x => x.1 == x.2).length

/-- The range two buffers differ in; the common end is trimmed only when the lengths
match. -/
def dirtySpan (prev next : Bytes) : Nat × Nat :=
  let stem := commonLen prev next
  if prev.length ≠ next.length then (stem, next.length)
  else (stem, next.length - commonLen (prev.drop stem).reverse (next.drop stem).reverse)

theorem commonLen_le (xs ys : Bytes) : commonLen xs ys ≤ min xs.length ys.length := by
  refine (List.takeWhile_prefix _).length_le.trans ?_
  rw [List.length_zip]

theorem commonLen_get {xs ys : Bytes} (h : i < commonLen xs ys) : xs[i]? = ys[i]? := by
  induction xs generalizing ys i with
  | nil => simp [commonLen] at h
  | cons x xs ih =>
    cases ys with
    | nil => simp [commonLen] at h
    | cons y ys =>
      unfold commonLen at h
      rw [List.zip_cons_cons, List.takeWhile_cons] at h
      split at h
      · rename_i heq
        cases i with
        | zero => simpa using heq
        | succ i => exact ih (Nat.lt_of_succ_lt_succ h)
      · exact absurd h (Nat.not_lt_zero i)

/-- **The derived span is truthful**, and lies within the new buffer. -/
theorem dirtySpan_truthful (prev next : Bytes) :
    Truthful prev next (dirtySpan prev next).1 (dirtySpan prev next).2 ∧
      (dirtySpan prev next).1 ≤ (dirtySpan prev next).2 ∧
      (dirtySpan prev next).2 ≤ next.length := by
  have hstem := commonLen_le prev next
  have hbefore : ∀ i < commonLen prev next, next[i]? = prev[i]? :=
    fun i hi => (commonLen_get hi).symm
  unfold dirtySpan
  dsimp only
  split
  · rename_i hne
    exact ⟨⟨by omega, hbefore, fun heq => absurd heq.symm hne⟩, by omega, le_rfl⟩
  · have htail := commonLen_le (prev.drop (commonLen prev next)).reverse
      (next.drop (commonLen prev next)).reverse
    simp only [List.length_reverse, List.length_drop] at htail
    refine ⟨⟨by omega, hbefore, fun _ i hi => ?_⟩, by omega, by omega⟩
    by_cases hend : next.length ≤ i
    · rw [List.getElem?_eq_none hend, List.getElem?_eq_none (by omega)]
    · -- counted from the end, `i` is inside the common tail
      have hget : (prev.drop (commonLen prev next)).reverse[next.length - 1 - i]? =
          (next.drop (commonLen prev next)).reverse[next.length - 1 - i]? :=
        commonLen_get (by omega)
      rw [List.getElem?_reverse (by simp; omega), List.getElem?_reverse (by simp; omega)] at hget
      simp only [List.length_drop, List.getElem?_drop] at hget
      rw [show commonLen prev next +
        (prev.length - commonLen prev next - 1 - (next.length - 1 - i)) = i
        by omega, show commonLen prev next +
          (next.length - commonLen prev next - 1 - (next.length - 1 - i)) = i by omega] at hget
      exact hget.symm

/-! ## Incremental flushes -/

variable (b)

/-- What a flush keeps for the next: the bytes it published, and their tree. -/
abbrev FlipState (CV Hash : Type) := Option (Bytes × Outboard CV Hash)

/-- The tree of the flushed bytes, from the one of the flush before. -/
def advanceTree (state : FlipState CV Hash) (bytes : Bytes) : Outboard CV Hash :=
  match state with
  | some (prev, o) =>
    match update b o bytes (dirtySpan prev bytes).1 (dirtySpan prev bytes).2 with
    | .ok (_, o') => o'
    | .error _ => build b bytes
  | none => build b bytes

def advanceRootIncrementally (state : FlipState CV Hash) (bytes : Bytes) :
    Option Hash × FlipState CV Hash :=
  (root b (advanceTree b state bytes), some (bytes, advanceTree b state bytes))

def publish (state : FlipState CV Hash) : List Bytes → List (Option Hash)
  | [] => []
  | bytes :: rest =>
    (advanceRootIncrementally b state bytes).1 :: publish
      (advanceRootIncrementally b state bytes).2 rest

def FlipState.Describes (state : FlipState CV Hash) : Prop :=
  ∀ prev o, state = some (prev, o) → Outboard.Describes b o prev

variable {b}

theorem advanceTree_describes {state : FlipState CV Hash} (h : state.Describes b) (bytes : Bytes) :
    Describes b (advanceTree b state bytes) bytes := by
  unfold advanceTree
  match state with
  | none => exact build_describes b bytes
  | some (prev, o) =>
    dsimp only
    split
    · rename_i k o' hu
      exact update_describes (h prev o rfl) (dirtySpan_truthful prev bytes).1 hu
    · exact build_describes b bytes

theorem publish_eq {state : FlipState CV Hash} (h : state.Describes b) (flushed : List Bytes) :
    publish b state flushed = flushed.map fun bytes => some (b.hash bytes) := by
  induction flushed generalizing state with
  | nil => rfl
  | cons bytes rest ih =>
    have htree := advanceTree_describes h bytes
    rw [publish, List.map_cons]
    congr 1
    · exact htree.root
    · refine ih fun prev o heq => ?_
      cases heq
      exact htree

/-- **The incremental root is the hash.** After any run of truthful updates the root
is the hash of the buffer, the span derived from two buffers is truthful and in
range, and every flush publishes the hash of the bytes flushed. -/
theorem root_eq_hash (b : Blake3 CV Hash) :
    (∀ (initial : Bytes) (us : List Update), TruthfulRun initial us →
      root b (updateAll b (build b initial) us) = some (b.hash (current initial us))) ∧
    (∀ prev next : Bytes, Truthful prev next (dirtySpan prev next).1 (dirtySpan prev next).2 ∧
        (dirtySpan prev next).1 ≤ (dirtySpan prev next).2 ∧ (dirtySpan prev next).2 ≤ next.length) ∧
    ∀ flushed : List Bytes, publish b none flushed = flushed.map fun bytes => some (b.hash bytes) :=
  ⟨fun initial _ hus => (updateAll_describes (build_describes b initial) hus).root,
    dirtySpan_truthful, publish_eq fun _ _ h => absurd h (by simp)⟩

def countingBlake3 : Blake3 Nat Nat :=
  .ofCompression (fun _ c => c.length) (· + ·) List.length (· + ·)

/-- A buffer of one byte, grown to two chunks. -/
theorem root_eq_hash_grown : root countingBlake3
    (updateAll countingBlake3 (build countingBlake3 [1])
        [⟨1 :: List.replicate 1024 0, 1, 1025⟩]) =
      some (countingBlake3.hash (current [1] [⟨1 :: List.replicate 1024 0, 1, 1025⟩])) := by
  have htruthful : Truthful [1] (1 :: List.replicate 1024 0) 1 1025 := by
    refine ⟨le_rfl, fun i hi => ?_, fun h => ?_⟩
    · rw [Nat.lt_one_iff.mp hi, List.getElem?_cons_zero, List.getElem?_cons_zero]
    · rw [List.length_cons, List.length_replicate] at h
      simp at h
  exact (root_eq_hash countingBlake3).1 [1] [⟨1 :: List.replicate 1024 0, 1, 1025⟩] ⟨htruthful,
    trivial⟩

end Outboard

end LeyLine
