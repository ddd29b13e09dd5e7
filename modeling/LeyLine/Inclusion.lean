import LeyLine.Outboard

/-!
# Inclusion proofs

`prove` of the outboard collects, for a chunk, the chaining values of the subtrees beside
its path; `verify_chunk` folds a chunk's bytes through them and compares with the root. The
fold computes the hash of the buffer with that chunk replaced by the bytes given: it accepts
the chunk of the buffer, and where the hash has no collision nothing else.

A proof carries its own length and sides, and neither is compared with the index. What binds a
chunk to its place is its chaining value: where the compressions are `Separated`, a proof of
any shape that folds to the root starts at a leaf of the tree, and the leaf names its index.
-/

namespace LeyLine

open LeftTree (Sibling climb join leftSize leftSize_lt leftSize_pos node path path_one)

/-- The sibling subtree at one level, and whether it is the left input of the merge. -/
structure ProofStep (CV : Type) where
  sibling : CV
  siblingIsLeft : Bool

namespace Outboard

variable {CV Hash : Type} (b : Blake3 CV Hash)

/-! ## Collecting a proof -/

/-- The siblings from the top of a subtree down to a chunk of it, top first. It stops without
an answer only when `fuel` runs out. -/
def collectProof (o : Outboard CV Hash) : Nat → Nat → Nat → Nat → Nat → Option (List (ProofStep CV))
  | 0, _, _, _, _ => none
  | fuel + 1, start, count, byteLen, index =>
    if count = 1 then some []
    else
      let leftBytes := b.leftSubtreeLen byteLen
      let leftChunks := leftBytes / chunkLen
      if index < leftChunks then do
        let sibling ← cachedCv b o.levels o.nChunks (start + leftChunks) (count - leftChunks)
            (byteLen - leftBytes)
        let rest ← collectProof o fuel start leftChunks leftBytes index
        pure (⟨sibling, false⟩ :: rest)
      else do
        let sibling ← cachedCv b o.levels o.nChunks start leftChunks leftBytes
        let rest ← collectProof o fuel (start + leftChunks) (count - leftChunks)
            (byteLen - leftBytes)
          (index - leftChunks)
        pure (⟨sibling, true⟩ :: rest)

/-- The proof for a chunk, from its level up. An empty buffer has a chunk 0. -/
def prove (o : Outboard CV Hash) (index : Nat) : Except String (List (ProofStep CV)) :=
  if max o.nChunks 1 ≤ index then
    .error ("chunk index " ++ toString index ++ " out of range for " ++ toString o.nChunks ++
      " chunks")
  else if o.nChunks ≤ 1 then .ok []
  else .ok (((collectProof b o o.nChunks 0 o.nChunks o.len index).getD []).reverse)

end Outboard

/-! ## Checking a chunk -/

namespace Blake3

variable {CV Hash : Type} (b : Blake3 CV Hash)

/-- The loop of `verify_chunk`; the last merge carries the root flag. -/
def foldProof (cv : CV) : List (ProofStep CV) → Option Hash
  | [] => none
  | [step] =>
    some (if step.siblingIsLeft then b.rootParent step.sibling cv else b.rootParent cv step.sibling)
  | step :: next :: rest =>
    foldProof (if step.siblingIsLeft then b.parent step.sibling cv else b.parent cv step.sibling)
      (next :: rest)

def expectedLen (totalLen index : Nat) : Nat :=
  if index + 1 = max (chunkCount totalLen) 1 then totalLen - index * chunkLen else chunkLen

def verifyChunk [DecidableEq Hash] (root : Hash) (totalLen index : Nat) (chunk : Bytes)
    (proof : List (ProofStep CV)) :
    Except String Unit :=
  if max (chunkCount totalLen) 1 ≤ index then .error "chunk index out of range"
  else if chunk.length ≠ expectedLen totalLen index then
    .error ("chunk " ++ toString index ++ " must be " ++ toString (expectedLen totalLen index) ++
      " bytes for a " ++ toString totalLen ++ "-byte buffer, got " ++ toString chunk.length)
  else if max (chunkCount totalLen) 1 = 1 then
    if proof ≠ [] then .error "single-chunk tree takes no proof"
    else if b.hash chunk ≠ root then .error "chunk hash does not match the root"
    else .ok ()
  else
    match b.foldProof (b.chunk index chunk) proof with
    | none => .error "multi-chunk tree requires a proof"
    | some got => if got ≠ root then .error "proof does not fold to the root" else .ok ()

end Blake3

/-! ## A buffer with one chunk replaced -/

def replaceChunk (data : Bytes) (i : Nat) (chunk : Bytes) : Bytes :=
  data.take (i * chunkLen) ++ (chunk ++ data.drop (i * chunkLen + chunk.length))

section Replace

variable {data chunk : Bytes} {i : Nat}

/-- A chunk of the buffer's own length at its place. -/
structure Fits (data : Bytes) (i : Nat) (chunk : Bytes) : Prop where
  lt : i < chunkCount data.length
  length : chunk.length = (chunkAt data i).length

theorem chunkAt_length (data : Bytes) (i : Nat) :
    (chunkAt data i).length = min chunkLen (data.length - i * chunkLen) := by
  rw [chunkAt, List.length_take, List.length_drop]

theorem Fits.le (h : Fits data i chunk) : i * chunkLen + chunk.length ≤ data.length := by
  have hlt := h.lt
  have hlen := h.length
  rw [chunkAt_length] at hlen
  unfold chunkCount chunkLen at *
  omega

theorem Fits.replace_length (h : Fits data i chunk) :
    (replaceChunk data i chunk).length = data.length := by
  have hle := h.le
  rw [replaceChunk, List.length_append, List.length_append, List.length_take, List.length_drop]
  omega

theorem Fits.chunkAt_self (h : Fits data i chunk) :
    chunkAt (replaceChunk data i chunk) i = chunk := by
  have hle := h.le
  have hlen := h.length
  rw [chunkAt_length] at hlen
  have hstart : (data.take (i * chunkLen)).length = i * chunkLen := by
    rw [List.length_take]
    omega
  rw [chunkAt, replaceChunk, List.drop_left' hstart]
  by_cases hfull : chunk.length = chunkLen
  · rw [List.take_left' hfull]
  · -- a short chunk is the last: nothing follows it
    have hrest : data.drop (i * chunkLen + chunk.length) = [] := List.drop_eq_nil_of_le (by omega)
    rw [hrest, List.append_nil, List.take_of_length_le (by omega)]

theorem Fits.chunkAt_other (h : Fits data i chunk) {j : Nat} (hne : j ≠ i) :
    chunkAt (replaceChunk data i chunk) j = chunkAt data j := by
  have hle := h.le
  have hlen := h.length
  rw [chunkAt_length] at hlen
  have hstart : (data.take (i * chunkLen)).length = i * chunkLen := by
    rw [List.length_take]
    omega
  refine List.ext_getElem? fun k => ?_
  simp only [chunkAt, replaceChunk, List.getElem?_take, List.getElem?_drop, List.getElem?_append,
    hstart]
  by_cases hk : k < chunkLen
  · rw [if_pos hk, if_pos hk]
    rcases Nat.lt_or_gt_of_ne hne with hlt | hgt
    · have hbefore : j * chunkLen + k < i * chunkLen := by
        calc j * chunkLen + k < (j + 1) * chunkLen := by rw [Nat.add_mul]; omega
          _ ≤ i * chunkLen := Nat.mul_le_mul_right _ hlt
      rw [if_pos hbefore, if_pos hbefore]
    · have hafter : i * chunkLen + chunkLen ≤ j * chunkLen := by
        calc i * chunkLen + chunkLen = (i + 1) * chunkLen := by rw [Nat.add_mul]; omega
          _ ≤ j * chunkLen := Nat.mul_le_mul_right _ hgt
      have hplace : i * chunkLen + chunk.length + (j * chunkLen + k - i * chunkLen - chunk.length) =
          j * chunkLen + k := by
        omega
      rw [if_neg (by omega), if_neg (by omega), hplace]
  · rw [if_neg hk, if_neg hk]

theorem Fits.replace_chunkAt (h : Fits data i chunk) (heq : replaceChunk data i chunk = data) :
    chunk = chunkAt data i := by
  rw [← h.chunkAt_self, heq]

theorem replace_self (data : Bytes) (i : Nat) : replaceChunk data i (chunkAt data i) = data := by
  have hdrop : chunkAt data i ++ data.drop (i * chunkLen + (chunkAt data i).length) =
      data.drop (i * chunkLen) := by
    rw [← List.drop_drop, chunkAt_length]
    rcases Nat.le_total chunkLen (data.length - i * chunkLen) with hle | hle
    · rw [Nat.min_eq_left hle]
      exact List.take_append_drop _ _
    · have hwhole : chunkAt data i = data.drop (i * chunkLen) :=
        List.take_of_length_le (by rw [List.length_drop]; exact hle)
      have hrest : (data.drop (i * chunkLen)).drop (data.length - i * chunkLen) = [] :=
        List.drop_eq_nil_of_le (by rw [List.length_drop])
      rw [Nat.min_eq_right hle, hwhole, hrest, List.append_nil]
  rw [replaceChunk, hdrop, List.take_append_drop]

end Replace

/-! ## What a proof folds to -/

variable {CV Hash : Type} {b : Blake3 CV Hash} {data chunk : Bytes}

def ProofStep.ofSibling (step : Sibling CV) : ProofStep CV := ⟨step.1, step.2⟩

namespace Outboard

theorem collectProof_eq {o : Outboard CV Hash} (ho : Describes b o data)
    {fuel first count byteLen i : Nat}
    (hi : i < count) (hfuel : count ≤ fuel) (hin : first + count ≤ chunkCount data.length)
    (hbytes : chunkCount byteLen = count) : collectProof b o fuel first count byteLen i =
      some ((path b.parent (b.leafCv data) first count i).map ProofStep.ofSibling) := by
  induction fuel generalizing first count byteLen i with
  | zero => omega
  | succ fuel ih =>
    rw [collectProof]
    by_cases hone : count = 1
    · subst hone
      rw [if_pos rfl, path_one]
      rfl
    · have htwo : 2 ≤ count := by omega
      have hlt := leftSize_lt htwo
      have hleft := leftSize_pos count
      subst hbytes
      rw [if_neg hone]
      dsimp only
      rw [leftSubtreeLen_div htwo, ho.nChunks, ho.levels]
      by_cases hside : i < leftSize (chunkCount byteLen)
      · rw [if_pos hside, LeftTree.path_left htwo hside,
          cachedCv_eq (by omega) (by omega) (by omega) (chunkCount_right htwo),
          ih hside (by omega) (by omega) (chunkCount_left htwo)]
        rfl
      · rw [if_neg hside, LeftTree.path_right htwo hside,
          cachedCv_eq hleft (by omega) (by omega) (chunkCount_left htwo),
          ih (by omega) (by omega) (by omega) (chunkCount_right htwo)]
        rfl

theorem prove_eq {o : Outboard CV Hash} (ho : Describes b o data) {i : Nat}
    (hi : i < chunkCount data.length) :
    prove b o i =
      .ok ((path b.parent (b.leafCv data) 0 (chunkCount data.length) i).map
        ProofStep.ofSibling).reverse := by
  rw [prove, ho.nChunks, if_neg (by omega)]
  by_cases hone : chunkCount data.length ≤ 1
  · have hcount : chunkCount data.length = 1 := by omega
    rw [if_pos hone, hcount, path_one]
    rfl
  · rw [if_neg hone, ho.len, collectProof_eq ho hi le_rfl (by omega) rfl]
    rfl

end Outboard

namespace Blake3

theorem foldProof_concat (steps : List (Sibling CV)) (top : Sibling CV) (cv : CV) :
    b.foldProof cv ((steps.map ProofStep.ofSibling).reverse ++ [ProofStep.ofSibling top]) =
      some (join b.rootParent top (climb b.parent steps cv)) := by
  induction steps using List.reverseRecOn generalizing cv with
  | nil => rfl
  | append_singleton steps step ih =>
    have hstep : climb b.parent (steps ++ [step]) cv =
        climb b.parent steps (join b.parent step cv) := by
      rw [climb, climb, List.foldr_append]
      rfl
    rw [hstep, ← ih, List.map_append, List.reverse_append]
    rcases hrest : (steps.map ProofStep.ofSibling).reverse with _ | ⟨next, rest⟩
    · rfl
    · rfl

/-- **A proof folds to the hash of the buffer with the chunk replaced.** -/
theorem foldProof_eq {i : Nat} (h : Fits data i chunk) (htwo : 2 ≤ chunkCount data.length) :
    b.foldProof (b.chunk i chunk)
        ((path b.parent (b.leafCv data) 0 (chunkCount data.length) i).map
          ProofStep.ofSibling).reverse =
      some (b.hash (replaceChunk data i chunk)) := by
  have hself : b.leafCv (replaceChunk data i chunk) i =
      b.chunk i chunk := by rw [leafCv, h.chunkAt_self]
  have hother : ∀ j, j ≠ i → b.leafCv (replaceChunk data i chunk) j = b.leafCv data j := by
    intro j hj
    rw [leafCv, leafCv, h.chunkAt_other hj]
  obtain ⟨top, rest, hpath, htop⟩ := @LeftTree.join_climb_path CV b.parent _ _ _ _ htwo h.lt hother
  rw [hpath, List.map_cons, List.reverse_cons, foldProof_concat, ← hself, htop, hash,
    h.replace_length, if_neg (by omega)]
  rfl

variable [DecidableEq Hash] {root : Hash} {o : Outboard CV Hash} {i : Nat}

theorem expectedLen_eq (hi : i < chunkCount data.length) :
    expectedLen data.length i = (chunkAt data i).length := by
  rw [chunkAt_length, expectedLen]
  unfold chunkCount chunkLen at *
  split <;> omega

variable {proof : List (ProofStep CV)}

/-- **What a chunk has to be to verify with the buffer's own proof**: of the chunk's length, and
such that the buffer with it in place hashes to the root. -/
theorem verifyChunk_ok_iff (ho : Outboard.Describes b o data)
    (hproof : Outboard.prove b o i = .ok proof) (hi : i < chunkCount data.length) :
    b.verifyChunk root data.length i chunk proof = .ok () ↔
      chunk.length = (chunkAt data i).length ∧ b.hash (replaceChunk data i chunk) = root := by
  rw [Outboard.prove_eq ho hi] at hproof
  cases hproof
  rw [verifyChunk, if_neg (by omega), expectedLen_eq hi]
  by_cases hlen : chunk.length = (chunkAt data i).length
  · have hfits : Fits data i chunk := ⟨hi, hlen⟩
    rw [if_neg (not_not.mpr hlen)]
    by_cases hone : max (chunkCount data.length) 1 = 1
    · -- the only chunk: the buffer is the chunk
      obtain rfl : i = 0 := by omega
      have hwhole : replaceChunk data 0 chunk = chunk := by
        have hall : data.length ≤ 0 * chunkLen + chunk.length := by
          rw [hlen, chunkAt_length]
          unfold chunkCount chunkLen at *
          omega
        rw [replaceChunk, List.drop_eq_nil_of_le hall, List.append_nil, Nat.zero_mul]
        rfl
      have hcount : chunkCount data.length = 1 := by omega
      rw [if_pos hone, hcount, path_one, hwhole, List.map_nil, List.reverse_nil,
        if_neg (not_not.mpr rfl)]
      split
      · rename_i hne
        exact iff_of_false nofun fun h => hne h.2
      · rename_i heq
        exact iff_of_true rfl ⟨hlen, not_not.mp heq⟩
    · rw [if_neg hone, foldProof_eq hfits (by omega)]
      dsimp only
      split
      · rename_i hne
        exact iff_of_false nofun fun h => hne h.2
      · rename_i heq
        exact iff_of_true rfl ⟨hlen, not_not.mp heq⟩
  · rw [if_pos hlen]
    exact iff_of_false nofun fun h => hlen h.1

theorem verifyChunk_ok_iff_eq (hinj : Function.Injective b.hash) (ho : Outboard.Describes b o data)
    (hproof : Outboard.prove b o i = .ok proof) (hi : i < chunkCount data.length)
    (hroot : root = b.hash data) : b.verifyChunk root data.length i chunk proof = .ok () ↔
    chunk = chunkAt data i := by
  rw [verifyChunk_ok_iff ho hproof hi, hroot]
  constructor
  · rintro ⟨hlen, hhash⟩
    exact Fits.replace_chunkAt ⟨hi, hlen⟩ (hinj hhash)
  · rintro rfl
    exact ⟨rfl, congrArg b.hash (replace_self data i)⟩

/-! ## Any proof -/

/-- Each compression determines its inputs, and that of a chunk is none of two subtrees. -/
structure Separated (b : Blake3 CV Hash) : Prop where
  chunk : ∀ {i j : Nat} {x y : Bytes}, b.chunk i x = b.chunk j y → i = j ∧ x = y
  parent : ∀ {x y x' y' : CV}, b.parent x y = b.parent x' y' → x = x' ∧ y = y'
  chunk_ne_parent : ∀ (i : Nat) (bytes : Bytes) (x y : CV), b.chunk i bytes ≠ b.parent x y
  rootChunk : ∀ {x y : Bytes}, b.rootChunk x = b.rootChunk y → x = y
  rootParent : ∀ {x y x' y' : CV}, b.rootParent x y = b.rootParent x' y' → x = x' ∧ y = y'

omit [DecidableEq Hash] in
theorem exists_path_of_proof (h : proof ≠ []) : ∃ (top : Sibling CV) (steps : List (Sibling CV)),
      proof = (steps.map ProofStep.ofSibling).reverse ++ [ProofStep.ofSibling top] := by
  let siblings : List (Sibling CV) :=
    proof.dropLast.map fun step => (step.sibling, step.siblingIsLeft)
  refine ⟨((proof.getLast h).sibling, (proof.getLast h).siblingIsLeft), siblings.reverse, ?_⟩
  have hback : siblings.map ProofStep.ofSibling = proof.dropLast := by
    rw [List.map_map]
    exact List.map_id _
  rw [List.map_reverse, List.reverse_reverse, hback]
  exact (List.dropLast_append_getLast h).symm

omit [DecidableEq Hash] in
theorem Separated.eq_chunkAt (hsep : b.Separated) (htwo : 2 ≤ chunkCount data.length)
    (h : b.foldProof (b.chunk i chunk) proof = some (b.hash data)) : chunk = chunkAt data i := by
  have hne : proof ≠ [] := by
    rintro rfl
    simp [foldProof] at h
  obtain ⟨top, steps, rfl⟩ := exists_path_of_proof hne
  rw [foldProof_concat, hash, if_neg (by omega), Option.some.injEq, join] at h
  have hleft := leftSize_pos (chunkCount data.length)
  have hlt := leftSize_lt htwo
  -- the top merge names both subtrees, so the path goes on into one of them
  have hsub : ∃ start count, 0 < count ∧
      climb b.parent steps (b.chunk i chunk) = node b.parent (b.leafCv data) start count := by
    split at h
    · exact ⟨_, _, by omega, (hsep.rootParent h).2⟩
    · exact ⟨_, _, hleft, (hsep.rootParent h).1⟩
  obtain ⟨start, count, hpos, hclimb⟩ := hsub
  obtain ⟨j, -, -, hj⟩ := LeftTree.eq_leaf_of_climb hsep.parent
    (fun j x y => hsep.chunk_ne_parent j (chunkAt data j) x y)
    (hsep.chunk_ne_parent i chunk) hpos hclimb
  obtain ⟨rfl, hchunk⟩ := hsep.chunk hj
  exact hchunk

theorem verifyChunk_empty (b : Blake3 CV Hash) : b.verifyChunk (b.hash []) 0 0 [] [] = .ok () := by
  simp [verifyChunk, expectedLen, chunkCount, chunkLen]

theorem Separated.eq_of_verifyChunk (hsep : b.Separated)
    (h : b.verifyChunk (b.hash data) data.length i chunk proof = .ok ()) :
    i < max (chunkCount data.length) 1 ∧ chunk = chunkAt data i := by
  rw [verifyChunk] at h
  split_ifs at h with hrange hlen hone hproof hhash
  · -- the only chunk is the buffer
    have hi : i = 0 := by omega
    subst hi
    have hwhole : chunk.length = data.length := by
      rw [not_not] at hlen
      rw [hlen, expectedLen, if_pos (by omega)]
      omega
    have hcount : chunkCount data.length ≤ 1 := by omega
    rw [not_not, hash, hash, hwhole, if_pos hcount, if_pos hcount] at hhash
    refine ⟨by omega, ?_⟩
    rw [hsep.rootChunk hhash, chunkAt, Nat.zero_mul, List.drop_zero]
    refine (List.take_of_length_le ?_).symm
    unfold chunkCount chunkLen at *
    omega
  · refine ⟨by omega, ?_⟩
    cases hfold : b.foldProof (b.chunk i chunk) proof with
    | none =>
      rw [hfold] at h
      simp at h
    | some got =>
      rw [hfold] at h
      dsimp only at h
      split_ifs at h with hgot
      rw [not_not.mp hgot] at hfold
      exact hsep.eq_chunkAt (by omega) hfold

end Blake3

namespace Outboard

variable {CV Hash : Type} [DecidableEq Hash]

theorem Describes.proves {b : Blake3 CV Hash} {o : Outboard CV Hash} {data : Bytes}
    (ho : Describes b o data)
    {i : Nat} (hi : i < max (chunkCount data.length) 1) : ∃ proof, prove b o i = .ok proof ∧
      b.verifyChunk (b.hash data) data.length i (chunkAt data i) proof = .ok () := by
  by_cases hin : i < chunkCount data.length
  · refine ⟨_, prove_eq ho hin, ?_⟩
    exact (Blake3.verifyChunk_ok_iff ho (prove_eq ho hin) hin).mpr
      ⟨rfl, congrArg b.hash (replace_self data i)⟩
  · -- no chunk but the empty buffer's
    have hzero : chunkCount data.length = 0 := by omega
    obtain rfl : i = 0 := by omega
    obtain rfl : data = [] := by
      rw [← List.length_eq_zero_iff]
      unfold chunkCount chunkLen at hzero
      omega
    refine ⟨[], ?_, Blake3.verifyChunk_empty b⟩
    rw [prove, ho.nChunks, if_neg (by omega), if_pos (by omega)]

/-- **Chunk proofs are complete and sound.** Of the outboard of a buffer, built or brought there by
truthful updates: the proof it gives for a chunk is accepted with the chunk's bytes; and where the
compressions are separated, whatever bytes are accepted at an index, with a proof of any length and
any sides, are the buffer's chunk there. -/
theorem chunk_proofs_exact (b : Blake3 CV Hash) (initial : Bytes) (us : List Update)
    (hus : TruthfulRun initial us) :
    ∃ root, Outboard.root b (updateAll b (build b initial) us) = some root ∧
      (∀ i < max (chunkCount (current initial us).length) 1, ∃ proof,
        prove b (updateAll b (build b initial) us) i = .ok proof ∧
          b.verifyChunk root (current initial us).length i (chunkAt (current initial us) i) proof =
          .ok ()) ∧
      (b.Separated → ∀ (i : Nat) (bytes : Bytes) (proof : List (ProofStep CV)),
        b.verifyChunk root (current initial us).length i bytes proof = .ok () →
          i < max (chunkCount (current initial us).length) 1 ∧
          bytes = chunkAt (current initial us) i) := by
  have ho := updateAll_describes (build_describes b initial) hus
  exact ⟨b.hash (current initial us), ho.root, fun i hi => ho.proves hi, fun hsep i bytes proof =>
    hsep.eq_of_verifyChunk⟩

/-- Chaining values that are the expressions they stand for. -/
inductive FreeCv where
  | chunk (i : Nat) (bytes : Bytes)
  | parent (left right : FreeCv)
  deriving DecidableEq

inductive FreeHash where
  | chunk (bytes : Bytes)
  | parent (left right : FreeCv)
  deriving DecidableEq

def freeBlake3 : Blake3 FreeCv FreeHash := .ofCompression .chunk .parent .chunk .parent

theorem freeBlake3_separated : freeBlake3.Separated where
  chunk h := FreeCv.chunk.inj h
  parent h := FreeCv.parent.inj h
  chunk_ne_parent _ _ _ _ := nofun
  rootChunk h := FreeHash.chunk.inj h
  rootParent h := FreeHash.parent.inj h

/-- The short last chunk of a buffer of 1025 bytes. -/
theorem chunk_proofs_exact_two_chunks :
    ∃ root, Outboard.root freeBlake3 (build freeBlake3 (1 :: List.replicate 1024 2)) = some root ∧
      (∃ proof, freeBlake3.verifyChunk root 1025 1 [2] proof = .ok ()) ∧
      ∀ bytes proof, freeBlake3.verifyChunk root 1025 1 bytes proof = .ok () → bytes = [2] := by
  have hlast : chunkAt (current (1 :: List.replicate 1024 2) []) 1 = [2] := by decide +kernel
  have hlen : (current (1 :: List.replicate 1024 2) []).length = 1025 := by decide +kernel
  obtain ⟨root, hroot, hproof, honly⟩ :=
    chunk_proofs_exact freeBlake3 (1 :: List.replicate 1024 2) [] trivial
  rw [hlen] at hproof honly
  refine ⟨root, hroot, ?_, fun bytes proof h => ?_⟩
  · obtain ⟨proof, -, hok⟩ := hproof 1 (by decide)
    exact ⟨proof, hlast ▸ hok⟩
  · exact hlast ▸ (honly freeBlake3_separated 1 bytes proof h).2

end Outboard

end LeyLine
