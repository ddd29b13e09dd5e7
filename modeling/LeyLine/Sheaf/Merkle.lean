import LeyLine.Partition

/-!
# Merkle roots and inclusion proofs

`sheaf/src/merkle.rs`: leaves are hashed under a tag, and pairs of nodes under another, level
by level, an odd tail being promoted as it is. A proof lists the siblings of a leaf where
it has one. The verifier folds whatever it is given as a leaf, so the tags tell leaves
from inner nodes only where the leaf is known to be the hash of a leaf's content.
-/

namespace LeyLine.Merkle

variable (σ : Bytes → Digest)

def internalFrame (left right : Digest) : Bytes := 0x01 :: (left.bytes ++ right.bytes)

def combine (left right : Digest) : Digest := σ (internalFrame left right)

def leafFrame (data : Bytes) : Bytes := 0x00 :: data

def hashNode (data : Bytes) : Digest := σ (leafFrame data)

/-- The tag of the empty tree, and `empty`. -/
def emptyFrame : Bytes := [0x02, 0x65, 0x6d, 0x70, 0x74, 0x79]

def nextLevel : List Digest → List Digest
  | a :: b :: rest => combine σ a b :: nextLevel rest
  | level => level

def rootLoop : Nat → List Digest → List Digest
  | 0, level => level
  | n + 1, level => if 1 < level.length then rootLoop n (nextLevel σ level) else level

def computeMerkleRoot (leafHashes : List Digest) : Digest :=
  (rootLoop σ leafHashes.length leafHashes).head?.getD (σ emptyFrame)

/-- The sibling of a node of a level, with whether it is the left one. -/
def sibling (level : List Digest) (pos : Nat) : List (Digest × Bool) :=
  if pos % 2 = 0 then level[pos + 1]?.toList.map (·, false)
    else level[pos - 1]?.toList.map (·, true)

def proofLoop : Nat → List Digest → Nat → List (Digest × Bool)
  | 0, _, _ => []
  | n + 1, level, pos =>
    if 1 < level.length then sibling level pos ++ proofLoop n (nextLevel σ level) (pos / 2) else []

/-- The siblings of a leaf. An index out of range is an assertion's failure. -/
def merkleProof (leafHashes : List Digest) (index : Nat) : Option (List (Digest × Bool)) :=
  if index < leafHashes.length then some (proofLoop σ leafHashes.length leafHashes index) else none

def stepFrame (current : Digest) (s : Digest × Bool) : Bytes :=
  if s.2 then internalFrame s.1 current else internalFrame current s.1

def fold (leaf : Digest) (siblings : List (Digest × Bool)) : Digest :=
  siblings.foldl (fun current s => σ (stepFrame current s)) leaf

def verifyMerkleProof (leaf : Digest) (siblings : List (Digest × Bool)) (root : Digest) : Bool :=
  fold σ leaf siblings = root

/-! ## What is hashed -/

def pairFrames : List Digest → List Bytes
  | a :: b :: rest => internalFrame a b :: pairFrames rest
  | _ => []

def rootFrames : Nat → List Digest → List Bytes
  | 0, _ => []
  | n + 1, level => pairFrames level ++ rootFrames n (nextLevel σ level)

def hashed (D : List Bytes) (leaves : List Digest) : List Bytes :=
  emptyFrame :: D.map leafFrame ++ rootFrames σ leaves.length leaves

def proofFrames : Digest → List (Digest × Bool) → List Bytes
  | _, [] => []
  | leaf, s :: sibs => stepFrame leaf s :: proofFrames (σ (stepFrame leaf s)) sibs

variable {σ} {level leaves : List Digest} {leaf : Digest} {sibs : List (Digest × Bool)}

theorem fold_append (leaf : Digest) (sibs rest : List (Digest × Bool)) :
    fold σ leaf (sibs ++ rest) = fold σ (fold σ leaf sibs) rest := List.foldl_append

theorem proofFrames_append (leaf : Digest) (sibs rest : List (Digest × Bool)) :
    proofFrames σ leaf (sibs ++ rest) = proofFrames σ leaf sibs ++
    proofFrames σ (fold σ leaf sibs) rest := by
  induction sibs generalizing leaf with
  | nil => rfl
  | cons s sibs ih => exact congrArg (_ :: ·) (ih _)

theorem stepFrame_mem (leaf : Digest) (sibs : List (Digest × Bool)) (s : Digest × Bool) :
    stepFrame (fold σ leaf sibs) s ∈ proofFrames σ leaf (sibs ++ [s]) := by
  rw [proofFrames_append]
  exact List.mem_append_right _ (.head _)

theorem internalFrame_inj {a b c d : Digest} (h : internalFrame a b = internalFrame c d) :
    a = c ∧ b = d := by
  have hbytes := List.append_inj (List.tail_eq_of_cons_eq h) (a.length_eq.trans c.length_eq.symm)
  exact ⟨Digest.ext hbytes.1, Digest.ext hbytes.2⟩

theorem head?_stepFrame (current : Digest) (s : Digest × Bool) :
    (stepFrame current s).head? = some 0x01 := by
  unfold stepFrame
  split <;> rfl

/-! ## From a leaf to the root -/

theorem length_nextLevel (level : List Digest) :
    (nextLevel σ level).length = (level.length + 1) / 2 := by
  fun_induction nextLevel σ level with
  | case1 a b rest ih =>
    simp only [List.length_cons, ih]
    omega
  | case2 level h =>
    rcases level with _ | ⟨a, _ | ⟨b, rest⟩⟩
    · rfl
    · simp
    · exact (h a b rest rfl).elim

theorem sibling_cons_cons (a b : Digest) (pos : Nat) :
    sibling (a :: b :: level) (pos + 2) = sibling level pos := by
  rw [sibling, Nat.add_mod_right, sibling]
  split_ifs with heven
  · rfl
  · obtain ⟨q, rfl⟩ : ∃ q, pos = q + 1 := ⟨pos - 1, by omega⟩
    rfl

/-- A node folded with its sibling is the node above. -/
theorem fold_sibling {pos : Nat} (h : level[pos]? = some leaf) :
    (nextLevel σ level)[pos / 2]? = some (fold σ leaf (sibling level pos)) ∧
      proofFrames σ leaf (sibling level pos) ⊆ pairFrames level := by
  induction level using nextLevel.induct generalizing pos with
  | case1 a b rest ih =>
    match pos with
    | 0 =>
      cases h
      exact ⟨rfl, by simp [sibling, proofFrames, stepFrame, pairFrames]⟩
    | 1 =>
      cases h
      exact ⟨rfl, by simp [sibling, proofFrames, stepFrame, pairFrames]⟩
    | pos + 2 =>
      obtain ⟨hup, hframes⟩ := ih h
      rw [sibling_cons_cons, Nat.add_div_right _ Nat.two_pos]
      exact ⟨hup, List.subset_cons_of_subset _ hframes⟩
  | case2 level hshort =>
    rcases level with _ | ⟨a, _ | ⟨b, rest⟩⟩
    · cases h
    · obtain ⟨hlt, -⟩ := List.getElem?_eq_some_iff.mp h
      obtain rfl : pos = 0 := by simpa using hlt
      exact ⟨h, List.nil_subset _⟩
    · exact (hshort a b rest rfl).elim

theorem rootLoop_eq_fold {n pos : Nat} (hlen : level.length ≤ n + 1) (h : level[pos]? = some leaf) :
    (rootLoop σ n level)[0]? = some (fold σ leaf (proofLoop σ n level pos)) ∧
      proofFrames σ leaf (proofLoop σ n level pos) ⊆ rootFrames σ n level := by
  obtain ⟨hlt, -⟩ := List.getElem?_eq_some_iff.mp h
  induction n generalizing level pos leaf with
  | zero =>
    obtain rfl : pos = 0 := by omega
    exact ⟨h, List.nil_subset _⟩
  | succ n ih =>
    obtain ⟨hup, hframes⟩ := @fold_sibling σ _ _ _ h
    rw [rootLoop, proofLoop, rootFrames]
    split_ifs with hlong
    · obtain ⟨hroot, hrest⟩ :=
        ih (by rw [length_nextLevel]; omega) hup (by rw [length_nextLevel]; omega)
      rw [fold_append, proofFrames_append]
      exact ⟨hroot, List.append_subset.mpr ⟨List.subset_append_of_subset_left _ hframes,
        List.subset_append_of_subset_right _ hrest⟩⟩
    · obtain rfl : pos = 0 := by omega
      exact ⟨h, List.nil_subset _⟩

theorem root_eq_fold {i : Nat} (h : leaves[i]? = some leaf) :
    computeMerkleRoot σ leaves = fold σ leaf (proofLoop σ leaves.length leaves i) := by
  rw [computeMerkleRoot, List.head?_eq_getElem?, (rootLoop_eq_fold (Nat.le_succ _) h).1]
  rfl

/-! ## From the root to a leaf -/

/-- A node is promoted, or the hash of its two children. -/
theorem nextLevel_cases {p : Nat} {x : Digest} (h : (nextLevel σ level)[p]? = some x) :
    level[2 * p]? = some x ∧ level[2 * p + 1]? = none ∨ ∃ a b, level[2 * p]? = some a ∧
      level[2 * p + 1]? = some b ∧ internalFrame a b ∈ pairFrames level ∧
      σ (internalFrame a b) = x := by
  induction p generalizing level with
  | zero =>
    rcases level with _ | ⟨a, _ | ⟨b, rest⟩⟩
    · cases h
    · exact .inl ⟨h, rfl⟩
    · exact .inr ⟨a, b, rfl, rfl, .head _, Option.some.inj h⟩
  | succ p ih =>
    rcases level with _ | ⟨a, _ | ⟨b, rest⟩⟩
    · cases h
    · cases h
    · exact (ih h).imp_right fun ⟨c, d, hc, hd, hmem, hx⟩ => ⟨c, d, hc, hd, .tail _ hmem, hx⟩

section Injective

variable {S : Set Bytes} (hσ : Set.InjOn σ S)
include hσ

theorem eq_nil_of_fold {f : Bytes} (hf : f ∈ S) (htag : f.head? ≠ some 0x01)
    (hproof : ∀ f ∈ proofFrames σ leaf sibs, f ∈ S) (h : fold σ leaf sibs = σ f) : sibs = [] := by
  rcases sibs.eq_nil_or_concat' with rfl | ⟨before, s, rfl⟩
  · rfl
  · rw [fold_append] at h
    rw [← hσ (hproof _ (stepFrame_mem leaf before s)) hf h, head?_stepFrame] at htag
    exact (htag rfl).elim

variable {d : Bytes} (hd : leafFrame d ∈ S)
include hd

theorem exists_below {p : Nat} (hpairs : ∀ f ∈ pairFrames level, f ∈ S)
    (hproof : ∀ f ∈ proofFrames σ (hashNode σ d) sibs, f ∈ S)
    (h : (nextLevel σ level)[p]? = some (fold σ (hashNode σ d) sibs)) :
    ∃ q before, q / 2 = p ∧ sibs = before ++ sibling level q ∧
      level[q]? = some (fold σ (hashNode σ d) before) := by
  rcases nextLevel_cases h with ⟨ha, hb⟩ | ⟨a, b, ha, hb, hmem, heq⟩
  · exact ⟨2 * p, sibs, by omega, by simp [sibling, hb], ha⟩
  · rcases sibs.eq_nil_or_concat' with rfl | ⟨before, ⟨v, side⟩, rfl⟩
    · cases hσ (hpairs _ hmem) hd heq
    · rw [fold_append] at heq
      have hstep := hσ (hpairs _ hmem) (hproof _ (stepFrame_mem _ before (v, side))) heq
      cases side with
      | false =>
        obtain ⟨rfl, rfl⟩ := internalFrame_inj hstep
        exact ⟨2 * p, before, by omega, by simp [sibling, hb], ha⟩
      | true =>
        obtain ⟨rfl, rfl⟩ := internalFrame_inj hstep
        exact ⟨2 * p + 1, before, by omega, by simp [sibling, ha], hb⟩

/-- A proof that leads to the root passes a node of every level. -/
theorem exists_at_level {n p : Nat} (hroot : ∀ f ∈ rootFrames σ n level, f ∈ S)
    (hproof : ∀ f ∈ proofFrames σ (hashNode σ d) sibs, f ∈ S)
    (h : (rootLoop σ n level)[p]? = some (fold σ (hashNode σ d) sibs)) :
    ∃ q before, sibs = before ++ proofLoop σ n level q ∧
    level[q]? = some (fold σ (hashNode σ d) before) := by
  induction n generalizing level with
  | zero => exact ⟨p, sibs, (List.append_nil _).symm, h⟩
  | succ n ih =>
    rw [rootLoop] at h
    simp only [proofLoop]
    split_ifs at h ⊢ with hlong
    · obtain ⟨q, before, rfl, hq⟩ := ih (fun f hf => hroot f (List.mem_append_right _ hf)) h
      rw [proofFrames_append] at hproof
      obtain ⟨q', before', rfl, rfl, hq'⟩ := exists_below hσ hd
        (fun f hf => hroot f (List.mem_append_left _ hf))
        (fun f hf => hproof f (List.mem_append_left _ hf)) hq
      exact ⟨q', before', List.append_assoc _ _ _, hq'⟩
    · exact ⟨p, sibs, (List.append_nil _).symm, h⟩

omit hd in
theorem exists_leaf {D : List Bytes}
    (hS : ∀ f ∈ hashed σ D leaves ++ proofFrames σ leaf sibs, f ∈ S)
    (hD : ∀ x ∈ leaves, ∃ d ∈ D, x = hashNode σ d) (hleaf : ∃ d ∈ D, leaf = hashNode σ d)
    (h : fold σ leaf sibs = computeMerkleRoot σ leaves) :
    ∃ i, leaves[i]? = some leaf ∧ sibs = proofLoop σ leaves.length leaves i := by
  obtain ⟨d, hd, rfl⟩ := hleaf
  have hcontent : ∀ d ∈ D, leafFrame d ∈ S :=
    fun d hd => hS _ (by simp [hashed, List.mem_map_of_mem hd])
  have hroot : ∀ f ∈ rootFrames σ leaves.length leaves, f ∈ S :=
    fun f hf => hS f (by simp [hashed, hf])
  have hproof : ∀ f ∈ proofFrames σ (hashNode σ d) sibs, f ∈ S := fun f hf => hS f (by simp [hf])
  have hempty : emptyFrame ∈ S := hS _ (by simp [hashed])
  rcases leaves with _ | ⟨x, rest⟩
  · obtain rfl := eq_nil_of_fold hσ hempty (by decide) hproof h
    cases hσ (hcontent d hd) hempty h
  · have htop := (@rootLoop_eq_fold σ (x :: rest) x _ 0 (Nat.le_succ _) rfl).1
    rw [← root_eq_fold rfl, ← h] at htop
    obtain ⟨q, before, rfl, hq⟩ := exists_at_level hσ (hcontent d hd) hroot hproof htop
    -- a leaf's tag is not that of an inner node, so nothing is left to fold
    obtain ⟨d', hd', heq⟩ := hD _ (List.mem_of_getElem? hq)
    rw [proofFrames_append] at hproof
    obtain rfl := eq_nil_of_fold hσ (hcontent d' hd') (by simp [leafFrame])
      (fun f hf => hproof f (List.mem_append_left _ hf)) heq
    exact ⟨q, hq, rfl⟩

end Injective

/-! ## Places -/

theorem sides_sibling {p : Nat} (hp : p < level.length) : (sibling level p).map Prod.snd =
    if p % 2 = 0 then if p + 1 < level.length then [false] else [] else [true] := by
  unfold sibling
  split_ifs with heven hlast
  · simp [hlast]
  · simp [List.getElem?_eq_none (not_lt.mp hlast)]
  · simp [show p - 1 < level.length by omega]

theorem sides_of_length {level' : List Digest} (h : level.length = level'.length) {n p : Nat}
    (hp : p < level.length) :
    (proofLoop σ n level p).map Prod.snd = (proofLoop σ n level' p).map Prod.snd := by
  induction n generalizing level level' p with
  | zero => rfl
  | succ n ih =>
    simp only [proofLoop, ← h]
    split_ifs with hlong
    · have hnext : (nextLevel σ level).length = (nextLevel σ level').length := by
        rw [length_nextLevel, length_nextLevel, h]
      rw [List.map_append, List.map_append, sides_sibling hp, sides_sibling (h ▸ hp), h,
        ih hnext (by rw [length_nextLevel]; omega)]
    · rfl

/-- The sides tell a place from the others. Read from the root down, those of one place do
not start those of another. -/
theorem sides_inj (σ : Bytes → Digest) {n p q : Nat} (hlen : level.length ≤ n + 1)
    (hp : p < level.length) (hq : q < level.length)
    (h : (proofLoop σ n level p).map Prod.snd <:+ (proofLoop σ n level q).map Prod.snd) :
    p = q := by
  induction n generalizing level p q with
  | zero => omega
  | succ n ih =>
    simp only [proofLoop] at h
    split_ifs at h with hlong
    · rw [List.map_append, List.map_append] at h
      have hnext := @length_nextLevel σ level
      have hpair : p / 2 = q / 2 := by
        rcases List.suffix_or_suffix_of_suffix ((List.suffix_append _ _).trans h)
          (List.suffix_append _ _) with hle | hle
        · exact ih (by omega) (by omega) (by omega) hle
        · exact (ih (by omega) (by omega) (by omega) hle).symm
      obtain ⟨t, ht⟩ := h
      rw [hpair, ← List.append_assoc, List.append_left_inj, sides_sibling hp,
        sides_sibling hq] at ht
      split_ifs at ht with heven hlast heven' hlast' heven' hlast'
      all_goals first | omega | simpa using congrArg List.getLast? ht
    · omega

theorem merkleProof_eq_some_iff {i : Nat} : merkleProof σ leaves i = some sibs ↔
    i < leaves.length ∧ sibs = proofLoop σ leaves.length leaves i := by
  unfold merkleProof
  split_ifs with h <;> simp [h, eq_comm]

section Roots

variable {S : Set Bytes} {D : List Bytes} {leaves' : List Digest}

variable (hσ : Set.InjOn σ S) (hS : ∀ f ∈ hashed σ D leaves ++ hashed σ D leaves', f ∈ S)
  (hD : ∀ x ∈ leaves, ∃ d ∈ D, x = hashNode σ d) (hD' : ∀ x ∈ leaves', ∃ d ∈ D, x = hashNode σ d)
  (h : computeMerkleRoot σ leaves = computeMerkleRoot σ leaves')
include hσ hS hD hD' h

theorem exists_place {i : Nat} (hi : leaves[i]? = some leaf) : ∃ j, leaves'[j]? = some leaf ∧
    proofLoop σ leaves.length leaves i = proofLoop σ leaves'.length leaves' j := by
  refine exists_leaf hσ (fun f hf => hS f ?_) hD' (hD leaf (List.mem_of_getElem? hi))
    ((root_eq_fold hi).symm.trans h)
  rcases List.mem_append.mp hf with hf | hf
  · exact List.mem_append_right _ hf
  · exact List.mem_append_left _
      (List.mem_append_right _ ((rootLoop_eq_fold (Nat.le_succ _) hi).2 hf))

theorem length_le_of_root : leaves.length ≤ leaves'.length := by
  have hplace : ∀ i : Fin leaves.length, ∃ j : Fin leaves'.length,
      proofLoop σ leaves.length leaves i = proofLoop σ leaves'.length leaves' j := fun i => by
    obtain ⟨j, hj, hproof⟩ := exists_place hσ hS hD hD' h (List.getElem?_eq_getElem i.2)
    exact ⟨⟨j, (List.getElem?_eq_some_iff.mp hj).1⟩, hproof⟩
  choose place hproof using hplace
  refine Fin.le_of_injective place fun i j hij => Fin.ext (sides_inj σ (Nat.le_succ _) i.2 j.2 ?_)
  rw [hproof i, hproof j, hij]

omit hσ hS in
theorem leaves_eq_of_root (hσ : Set.InjOn σ {f | f ∈ hashed σ D leaves ++ hashed σ D leaves'}) :
    leaves = leaves' := by
  have hlen := (length_le_of_root hσ (fun _ hf => hf) hD hD' h).antisymm
    (length_le_of_root hσ (fun _ hf => List.mem_append.mpr (List.mem_append.mp hf).symm) hD' hD
    h.symm)
  refine List.ext_getElem hlen fun i hi hi' => ?_
  obtain ⟨j, hj, hproof⟩ := exists_place hσ (fun _ hf => hf) hD hD' h (List.getElem?_eq_getElem hi)
  obtain ⟨hlt, heq⟩ := List.getElem?_eq_some_iff.mp hj
  obtain rfl : j = i := by
    refine sides_inj σ (Nat.le_succ _) hlt hi' ?_
    rw [← hproof, sides_of_length hlen hi, hlen]
  exact heq.symm

end Roots

/-! ## Inclusion -/

/-- The leaf stands in the list where its proof is this one, and at no other place are the
sides these. -/
def Included (σ : Bytes → Digest) (leaves : List Digest) (leaf : Digest)
    (sibs : List (Digest × Bool)) : Prop :=
  ∃ i, leaves[i]? = some leaf ∧ merkleProof σ leaves i = some sibs ∧
    ∀ j t, merkleProof σ leaves j = some t → t.map Prod.snd = sibs.map Prod.snd → j = i

/-- **Inclusion.** The proof of every leaf is accepted. An accepted value is a leaf, at the
place the sides describe, exactly when it is the hash of a content. Lists with one root
are one list. -/
theorem inclusion_exact (σ : Bytes → Digest) (D : List Bytes) (leaves : List Digest)
    (hD : ∀ x ∈ leaves, ∃ d ∈ D, x = hashNode σ d) :
    (∀ i leaf, leaves[i]? = some leaf → ∃ sibs, merkleProof σ leaves i = some sibs ∧
      verifyMerkleProof σ leaf sibs (computeMerkleRoot σ leaves) = true) ∧
    (∀ leaf sibs, Set.InjOn σ {f | f ∈ hashed σ D leaves ++ proofFrames σ leaf sibs} →
      verifyMerkleProof σ leaf sibs (computeMerkleRoot σ leaves) = true →
      (Included σ leaves leaf sibs ↔ ∃ d ∈ D, leaf = hashNode σ d)) ∧
    ∀ leaves' : List Digest, (∀ x ∈ leaves', ∃ d ∈ D, x = hashNode σ d) →
      Set.InjOn σ {f | f ∈ hashed σ D leaves ++ hashed σ D leaves'} →
      computeMerkleRoot σ leaves = computeMerkleRoot σ leaves' → leaves = leaves' := by
  refine ⟨fun i leaf hi => ?_, fun leaf sibs hσ haccepted => ?_,
    fun leaves' hD' hσ hroot => leaves_eq_of_root hD hD' hroot hσ⟩
  · obtain ⟨hlt, -⟩ := List.getElem?_eq_some_iff.mp hi
    exact ⟨_, merkleProof_eq_some_iff.mpr ⟨hlt, rfl⟩, decide_eq_true (root_eq_fold hi).symm⟩
  · refine ⟨fun ⟨i, hi, _⟩ => hD leaf (List.mem_of_getElem? hi), fun hleaf => ?_⟩
    obtain ⟨i, hi, rfl⟩ := exists_leaf hσ (fun _ hf => hf) hD hleaf (of_decide_eq_true haccepted)
    obtain ⟨hlt, -⟩ := List.getElem?_eq_some_iff.mp hi
    refine ⟨i, hi, merkleProof_eq_some_iff.mpr ⟨hlt, rfl⟩, fun j t hj hsides => ?_⟩
    obtain ⟨hjlt, rfl⟩ := merkleProof_eq_some_iff.mp hj
    refine sides_inj σ (Nat.le_succ _) hjlt hlt ?_
    rw [hsides]

/-! ## One leaf, twice -/

open LeyLine.Partition.Decomposition (firstBytes)

def twin : Digest := hashNode firstBytes [0]

theorem inclusion_exact_twin : Included firstBytes [twin, twin] twin [(twin, false)] := by
  have hdistinct : ∀ f ∈ hashed firstBytes [[0]] [twin, twin] ++
      proofFrames firstBytes twin [(twin, false)],
      ∀ g ∈ hashed firstBytes [[0]] [twin, twin] ++ proofFrames firstBytes twin [(twin, false)],
        firstBytes f = firstBytes g → f = g := by decide +kernel
  exact ((inclusion_exact firstBytes [[0]] [twin, twin] (by simp [twin])).2.1 twin [(twin, false)]
    (fun f hf g hg => hdistinct f hf g hg) (by decide +kernel)).mpr ⟨[0], .head _, rfl⟩

/-- The root is accepted, with the proof of nothing. It is no leaf. -/
theorem root_accepted_as_leaf :
    Set.InjOn firstBytes {f | f ∈ hashed firstBytes [[0]] [twin, twin] ++
      proofFrames firstBytes (computeMerkleRoot firstBytes [twin, twin]) []} ∧
    verifyMerkleProof firstBytes (computeMerkleRoot firstBytes [twin, twin]) []
      (computeMerkleRoot firstBytes [twin, twin]) = true ∧
    computeMerkleRoot firstBytes [twin, twin] ∉ [twin, twin] := by
  have hdistinct : ∀ f ∈ hashed firstBytes [[0]] [twin, twin],
      ∀ g ∈ hashed firstBytes [[0]] [twin, twin],
      firstBytes f = firstBytes g → f = g := by decide +kernel
  refine ⟨fun f hf g hg => ?_, by decide +kernel, by decide +kernel⟩
  rw [proofFrames, List.append_nil] at hf hg
  exact hdistinct f hf g hg

end LeyLine.Merkle
