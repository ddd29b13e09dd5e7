import LeyLine.Lib.Framing
import LeyLine.Partition

/-!
# The encoder and its subtree cache

`hdc/src/encoder.rs` folds a tree into a hypervector, from the leaves up. The vector of a
subtree is cached under a hash of the codebook's tag and the subtree's content hash, and one
cache may serve several codebooks. The content hash fixes all that the encoding reads, so
a cache changes no answer. How a seed is expanded to a hypervector is a parameter.

The two counts in what is hashed have two bytes. A node of 65536 children or more writes
counts that are too small, and its content could be read as that of a narrower node whose
children's hashes look like kinds; such a node may fill the cache, but no such hash occurs.
-/

namespace LeyLine.Hdc

open Framing (SelfDelimiting counted leBytes)

inductive CanonicalKind
  | decl | expr | stmt | block | ref | lit | op
  deriving DecidableEq

def CanonicalKind.discriminant : CanonicalKind → UInt8
  | .decl => 0
  | .expr => 1
  | .stmt => 2
  | .block => 3
  | .ref => 4
  | .lit => 5
  | .op => 6

/-- Bit `i` is bit `i % 8` of byte `i / 8`. -/
abbrev Hypervector := Fin 8192 → Bool

def rotateLeft (hv : Hypervector) (n : Nat) : Hypervector := fun bit => hv (bit - Fin.ofNat 8192 n)

def bucketArity : Nat → UInt8
  | 0 => 0
  | 1 => 1
  | 2 => 2
  | 3 | 4 => 3
  | 5 | 6 | 7 => 4
  | _ => 5

/-- The kinds of the children, sorted, are a field in the source that `new` fills in. -/
inductive EncoderNode
  | mk (canonicalKind : CanonicalKind) (children : List EncoderNode) (leafContent : Option Bytes)

namespace EncoderNode

def canonicalKind : EncoderNode → CanonicalKind
  | mk kind _ _ => kind

def children : EncoderNode → List EncoderNode
  | mk _ children _ => children

end EncoderNode

def kindsSorted (children : List EncoderNode) : List CanonicalKind :=
  (children.map (·.canonicalKind)).mergeSort fun k l => k.discriminant ≤ l.discriminant

structure AstNodeFingerprint where
  canonicalKind : CanonicalKind
  arityBucket : UInt8
  childCanonicalKinds : List CanonicalKind

structure Codebook where
  baseVector : AstNodeFingerprint → Hypervector
  codebookTag : Bytes

section Encoding

variable (σ : Bytes → Digest) (bytesToHv : Bytes → Hypervector)

def strictMajority (stalks : List Hypervector) : Hypervector := fun bit =>
  stalks.length / 2 < stalks.countP (· bit)

def majorityBundleWithTiebreak (inputs : List Hypervector) : Hypervector :=
  if inputs = [] then fun _ => false
  else if inputs.length % 2 = 1 then strictMajority inputs
  else strictMajority (inputs ++ [bytesToHv (utf8 "hdc-bundle-tiebreak/0".toList)])

def leafContentHv (kind : CanonicalKind) (content : Bytes) : Hypervector :=
  let padded := content ++ List.replicate (3 - content.length) 0
  majorityBundleWithTiebreak bytesToHv ((List.range (padded.length - 2)).map fun i =>
    bytesToHv (utf8 "hdc-leaf-trigram/".toList ++ kind.discriminant :: (padded.drop i).take 3))

/-- What is hashed for a node, given the hashes of its children. -/
def contentFrame (kind : CanonicalKind) (children : List EncoderNode) (hashes : List Digest)
    (text : Bytes) : Bytes :=
  kind.discriminant :: bucketArity children.length ::
    (counted 2 (fun k => [k.discriminant]) (kindsSorted children) ++
      (counted 2 Digest.bytes hashes ++ (leBytes 4 text.length ++ text)))

mutual

def contentHash : EncoderNode → Digest
  | .mk kind children content =>
    σ (contentFrame kind children (contentHashes children) (content.getD []))

def contentHashes : List EncoderNode → List Digest
  | [] => []
  | child :: children => contentHash child :: contentHashes children

end

def keyFrame (node : EncoderNode) (tag : Bytes) : Bytes := tag ++ 0 :: (contentHash σ node).bytes

def cacheKey (node : EncoderNode) (tag : Bytes) : Digest := σ (keyFrame σ node tag)

abbrev SubtreeCache := Digest → Option Hypervector

def compose (b : Codebook) (kind : CanonicalKind) (children : List EncoderNode) (text : Bytes)
    (hvs : List Hypervector) :
    Hypervector :=
  if children.length = 0 ∧ text ≠ [] then leafContentHv bytesToHv kind text
  else majorityBundleWithTiebreak bytesToHv
    (b.baseVector ⟨kind, bucketArity children.length,
    kindsSorted children⟩ :: hvs.mapIdx fun i hv => rotateLeft hv i)

mutual

def encodeTree (b : Codebook) : EncoderNode → SubtreeCache → Hypervector × SubtreeCache
  | .mk kind children content, cache =>
    let key := cacheKey σ (.mk kind children content) b.codebookTag
    match cache key with
    | some cached => (cached, cache)
    | none =>
      let (hvs, cache) := encodeAll b children cache
      let hv := compose bytesToHv b kind children (content.getD []) hvs
      (hv, Function.update cache key (some hv))

def encodeAll (b : Codebook) : List EncoderNode → SubtreeCache → List Hypervector × SubtreeCache
  | [], cache => ([], cache)
  | child :: children, cache =>
    let (hv, cache) := encodeTree b child cache
    let (hvs, cache) := encodeAll b children cache
    (hv :: hvs, cache)

end

def filled (earlier : List (Codebook × EncoderNode)) : SubtreeCache :=
  earlier.foldl (fun cache e => (encodeTree σ bytesToHv e.1 e.2 cache).2) fun _ => none

/-! ## Encoding without a cache -/

mutual

def plain (b : Codebook) : EncoderNode → Hypervector
  | .mk kind children content =>
    compose bytesToHv b kind children (content.getD []) (plainAll b children)

def plainAll (b : Codebook) : List EncoderNode → List Hypervector
  | [] => []
  | child :: children => plain b child :: plainAll b children

end

def EncoderNode.frame : EncoderNode → Bytes
  | .mk kind children content =>
    contentFrame kind children (contentHashes σ children) (content.getD [])

end Encoding

variable {σ : Bytes → Digest} {bytesToHv : Bytes → Hypervector}

theorem EncoderNode.induct {P : EncoderNode → Prop}
    (h : ∀ kind children content, (∀ c ∈ children, P c) → P (.mk kind children content)) :
    ∀ n, P n := by
  refine @EncoderNode.rec P (fun l => ∀ c ∈ l, P c) h ?_ fun c l hc hl => ?_
  · exact fun c hc => absurd hc List.not_mem_nil
  · exact List.forall_mem_cons.mpr ⟨hc, hl⟩

theorem contentHash_eq (n : EncoderNode) : contentHash σ n = σ (n.frame σ) := by
  cases n
  rw [contentHash]
  rfl

theorem contentHashes_eq_map (children : List EncoderNode) :
    contentHashes σ children = children.map (contentHash σ) := by
  induction children with
  | nil => rfl
  | cons c children ih => rw [contentHashes, ih, List.map_cons]

theorem selfDelimiting_kind : SelfDelimiting (fun _ => True) fun k :
    CanonicalKind => [k.discriminant] := by
  refine .of_length 1 (fun _ _ => rfl) fun k l _ _ h => ?_
  cases k <;> cases l <;> first | rfl | cases h

theorem kindBytes_low {kinds : List CanonicalKind} {byte : UInt8}
    (h : byte ∈ kinds.flatMap fun k => [k.discriminant]) : ¬ 6 < byte := by
  obtain ⟨k, -, hk⟩ := List.mem_flatMap.mp h
  rw [List.mem_singleton.mp hk]
  cases k <;> decide

/-- A node of fewer than 65536 children, whose children's hashes do not look like kinds, shares its
frame with no node of other contents, however wide. -/
theorem contentFrame_inj {kind kind' : CanonicalKind} {children children' : List EncoderNode}
    {content content' : Option Bytes} (hn : children.length < 65536)
    (hhigh : ∀ c ∈ children, ∃ byte ∈ (contentHash σ c).bytes, 6 < byte)
    (h : (EncoderNode.mk kind children content).frame σ =
      (EncoderNode.mk kind' children' content').frame σ) :
    kind = kind' ∧ kindsSorted children = kindsSorted children' ∧
      contentHashes σ children = contentHashes σ children' ∧
      content.getD [] = content'.getD [] := by
  have hkinds (l : List EncoderNode) : (kindsSorted l).length = l.length := by simp [kindsSorted]
  have hhashes (l : List EncoderNode) : (contentHashes σ l).length =
      l.length := by simp [contentHashes_eq_map]
  obtain ⟨hkind, h⟩ := List.cons.inj h
  obtain ⟨hbucket, h⟩ := List.cons.inj h
  have hn' : children'.length < 65536 := by
    by_contra hwide
    -- a wide node is in the last bucket, so the other one has a child
    have hwide' : bucketArity children'.length = 5 := by
      unfold bucketArity
      split <;> first | omega | rfl
    cases children with
    | nil =>
      rw [hwide'] at hbucket
      cases hbucket
    | cons c children =>
      obtain ⟨byte, hbyte, hlt⟩ := hhigh c (.head _)
      unfold counted at h
      simp only [List.append_assoc] at h
      obtain ⟨hcount, h⟩ := List.append_inj h (by simp)
      have hmod := Framing.mod_eq_of_leBytes_eq hcount
      rw [contentHashes, List.flatMap_cons, List.append_assoc (contentHash σ c).bytes,
        ← List.append_assoc, ← List.append_assoc] at h
      -- the first hash lies within the kinds of the wide node
      have hstart := List.prefix_of_prefix_length_le ⟨_, h⟩ (List.prefix_append _ _) (by
        simp [hkinds, Digest.length_eq] at hn hmod ⊢
        omega)
      exact kindBytes_low (hstart.subset (List.mem_append_right _ hbyte)) hlt
  obtain ⟨hsorted, h⟩ := selfDelimiting_kind.counted 2 _ _ _ _ ⟨by rwa [hkinds], fun _ _ => trivial⟩
    ⟨by rwa [hkinds], fun _ _ => trivial⟩ h
  obtain ⟨hsame, h⟩ :=
    Digest.selfDelimiting.counted 2 _ _ _ _ ⟨by rwa [hhashes], fun _ _ => trivial⟩
    ⟨by rwa [hhashes], fun _ _ => trivial⟩ h
  obtain ⟨-, htext⟩ := List.append_inj h (by simp)
  exact ⟨selfDelimiting_kind.inj trivial trivial (congrArg ([·]) hkind), hsorted, hsame, htext⟩

/-! ## A cache of plain encodings -/

/-- Every node has fewer than 65536 children. -/
inductive EncoderNode.Narrow : EncoderNode → Prop
  | mk {kind children content} : children.length < 65536 → (∀ c ∈ children, Narrow c) →
      Narrow (.mk kind children content)

/-- Trees with their subtrees, and codebooks of distinct tags, where the hash does not collide and
gives no narrow tree bytes that could all be kinds. -/
structure Separated (σ : Bytes → Digest) (T : Set EncoderNode) (B : Set Codebook) : Prop where
  closed : ∀ n ∈ T, ∀ c ∈ n.children, c ∈ T
  tags : ∀ b ∈ B, ∀ b' ∈ B, b.codebookTag = b'.codebookTag → b = b'
  injOn : Set.InjOn σ {f | ∃ n ∈ T, f = n.frame σ ∨ ∃ b ∈ B, f = keyFrame σ n b.codebookTag}
  high : ∀ n ∈ T, n.Narrow → ∃ byte ∈ (contentHash σ n).bytes, 6 < byte

/-- What a cache holds for the narrow trees under these codebooks is their encoding. -/
def Sound (bytesToHv : Bytes → Hypervector) (σ : Bytes → Digest) (T : Set EncoderNode)
    (B : Set Codebook) (cache : SubtreeCache) : Prop :=
  ∀ b ∈ B, ∀ n ∈ T, n.Narrow → ∀ hv, cache (cacheKey σ n b.codebookTag) = some hv →
    hv = plain bytesToHv b n

/-- The vector is that of every narrow tree with the content hash of `m`. -/
def Encodes (bytesToHv : Bytes → Hypervector) (σ : Bytes → Digest) (T : Set EncoderNode)
    (b : Codebook) (m : EncoderNode) (hv : Hypervector) : Prop :=
  ∀ n ∈ T, n.Narrow → contentHash σ m = contentHash σ n → hv = plain bytesToHv b n

variable {T : Set EncoderNode} {B : Set Codebook} (h : Separated σ T B)
include h

/-- What is composed for a node is the encoding of any narrow tree of its content hash, if that is
so for its children. -/
theorem encodes_compose {b : Codebook} {kind : CanonicalKind} {children : List EncoderNode}
    {content : Option Bytes} (hm : .mk kind children content ∈ T) {hvs : List Hypervector}
    (hvs_eq : List.Forall₂ (Encodes bytesToHv σ T b) children hvs) : Encodes bytesToHv σ T b
      (.mk kind children content) (compose bytesToHv b kind children (content.getD []) hvs) := by
  rintro ⟨kind', children', content'⟩ hn ⟨hlt, hnarrow⟩ heq
  have hin : ∀ c ∈ children', c ∈ T := h.closed _ hn
  rw [contentHash_eq, contentHash_eq] at heq
  obtain ⟨rfl, hsorted, hhashes, htext⟩ :=
    contentFrame_inj hlt (fun c hc => h.high c (hin c hc) (hnarrow c hc))
    (h.injOn ⟨_, hm, .inl rfl⟩ ⟨_, hn, .inl rfl⟩ heq).symm
  rw [contentHashes_eq_map, contentHashes_eq_map] at hhashes
  have hlength : children.length =
      children'.length := by simpa using (congrArg List.length hhashes).symm
  have hall : hvs = plainAll bytesToHv b children' := by
    clear hm hn heq hsorted hlength hlt
    induction hvs_eq generalizing children' with
    | nil => rw [List.map_eq_nil_iff.mp hhashes, plainAll]
    | cons hc _ ih =>
      obtain ⟨c', rest, rfl, hc', hrest⟩ := List.map_eq_cons_iff.mp hhashes
      rw [List.forall_mem_cons] at hnarrow hin
      rw [plainAll, hc c' hin.1 hnarrow.1 hc'.symm, ih rest hnarrow.2 hin.2 hrest]
  rw [plain, compose, compose, hsorted, hlength, htext, hall]

variable {cache : SubtreeCache} {b : Codebook} (hb : b ∈ B)
include hb

theorem Sound.put (hs : Sound bytesToHv σ T B cache) {m : EncoderNode} (hm : m ∈ T)
    {hv : Hypervector} (henc : Encodes bytesToHv σ T b m hv) :
    Sound bytesToHv σ T B (Function.update cache (cacheKey σ m b.codebookTag) (some hv)) := by
  intro b' hb' n hn hnarrow hv' hget
  rw [Function.update_apply] at hget
  split_ifs at hget with hkey
  · have hframe := h.injOn ⟨n, hn, .inr ⟨b', hb', rfl⟩⟩ ⟨m, hm, .inr ⟨b, hb, rfl⟩⟩ hkey
    obtain ⟨htag, hhash⟩ := List.append_inj' hframe (by simp [Digest.length_eq])
    rw [← Option.some.inj hget, h.tags b' hb' b hb htag]
    exact henc n hn hnarrow (Digest.ext (List.tail_eq_of_cons_eq hhash)).symm
  · exact hs b' hb' n hn hnarrow hv' hget

theorem encodeTree_sound : ∀ m ∈ T, ∀ cache, Sound bytesToHv σ T B cache →
    Encodes bytesToHv σ T b m (encodeTree σ bytesToHv b m cache).1 ∧
      Sound bytesToHv σ T B (encodeTree σ bytesToHv b m cache).2 := by
  refine EncoderNode.induct fun kind children content ih hm cache hs => ?_
  have hall : List.Forall₂ (Encodes bytesToHv σ T b) children
      (encodeAll σ bytesToHv b children cache).1 ∧
      Sound bytesToHv σ T B (encodeAll σ bytesToHv b children cache).2 := by
    have hin : ∀ c ∈ children, c ∈ T := h.closed _ hm
    clear hm
    induction children generalizing cache with
    | nil => exact ⟨.nil, hs⟩
    | cons c children ihc =>
      rw [List.forall_mem_cons] at ih hin
      obtain ⟨hc, hs'⟩ := ih.1 hin.1 cache hs
      obtain ⟨hrest, hs''⟩ := ihc ih.2 _ hs' hin.2
      rw [encodeAll]
      exact ⟨.cons hc hrest, hs''⟩
  rw [encodeTree]
  cases hget : cache (cacheKey σ (.mk kind children content) b.codebookTag) with
  | some cached =>
    refine ⟨fun n hn hnarrow heq => hs b hb n hn hnarrow cached ?_, hs⟩
    rw [← hget, cacheKey, cacheKey, keyFrame, keyFrame, heq]
  | none =>
    have henc := encodes_compose h hm hall.1
    exact ⟨henc, hall.2.put h hb hm henc⟩

/-- **The cache is transparent.** Whatever was encoded before, of any width and with whichever
codebooks, a tree of fewer than 65536 children a node gets the vector an empty cache gives it. -/
theorem cache_transparent (earlier : List (Codebook × EncoderNode))
    (hearlier : ∀ e ∈ earlier, e.1 ∈ B ∧ e.2 ∈ T)
    (n : EncoderNode) (hn : n ∈ T) (hnarrow : n.Narrow) :
    (encodeTree σ bytesToHv b n (filled σ bytesToHv earlier)).1 =
      (encodeTree σ bytesToHv b n fun _ => none).1 := by
  have hempty : Sound bytesToHv σ T B fun _ => none := fun _ _ _ _ _ _ hget => nomatch hget
  have hfilled : Sound bytesToHv σ T B (filled σ bytesToHv earlier) := by
    unfold filled
    generalize (fun _ => none : SubtreeCache) = cache at hempty
    induction earlier generalizing cache with
    | nil => exact hempty
    | cons e earlier ih =>
      rw [List.forall_mem_cons] at hearlier
      exact ih hearlier.2 _ (encodeTree_sound h hearlier.1.1 e.2 hearlier.1.2 cache hempty).2
  have hplain : ∀ cache, Sound bytesToHv σ T B cache →
      (encodeTree σ bytesToHv b n cache).1 = plain bytesToHv b n := fun cache hs =>
    (encodeTree_sound h hb n hn cache hs).1 n hn hnarrow rfl
  rw [hplain _ hfilled, hplain _ hempty]

omit h hb

open LeyLine.Partition.Decomposition (firstBytes)

def darkBook : Codebook := ⟨fun _ _ => false, [104]⟩

def leaf : EncoderNode := .mk .ref [] (some [120])

def call : EncoderNode := .mk .expr [leaf, leaf] none

theorem call_narrow : call.Narrow :=
  .mk (by decide) fun c hc => by
    obtain rfl : c = leaf := by simpa using hc
    exact .mk (by decide) nofun

/-- A call of two equal leaves, where one such leaf was encoded before. -/
theorem cache_transparent_call : filled firstBytes (fun _ _ => true) [(darkBook, leaf)]
      (cacheKey firstBytes leaf [104]) ≠ none ∧
    (encodeTree firstBytes (fun _ _ => true) darkBook call
      (filled firstBytes (fun _ _ => true) [(darkBook, leaf)])).1 =
    (encodeTree firstBytes (fun _ _ => true) darkBook call fun _ => none).1 := by
  let frames : List Bytes :=
    [call.frame firstBytes, leaf.frame firstBytes, keyFrame firstBytes call [104],
    keyFrame firstBytes leaf [104]]
  have hnodup : (frames.map firstBytes).Nodup := by decide +kernel
  refine ⟨by simp [filled, leaf, encodeTree, darkBook],
    @cache_transparent firstBytes _ {call, leaf} {darkBook} ⟨?_, ?_, ?_, ?_⟩ darkBook rfl
      [(darkBook, leaf)] (by simp) call (.inl rfl) call_narrow⟩
  · rintro n (rfl | rfl) c hc
    · exact .inr (by simpa [call, EncoderNode.children] using hc)
    · cases hc
  · rintro b rfl b' rfl _
    rfl
  · have hframes : ∀ f, (∃ n ∈ ({call, leaf} : Set EncoderNode), f = n.frame firstBytes ∨
        ∃ b ∈ ({darkBook} : Set Codebook), f = keyFrame firstBytes n b.codebookTag) →
        f ∈ frames := by
      rintro f ⟨n, rfl | rfl, rfl | ⟨b, rfl, rfl⟩⟩ <;> simp [frames, darkBook]
    exact fun f hf g hg heq => List.inj_on_of_nodup_map hnodup (hframes f hf) (hframes g hg) heq
  · rintro n (rfl | rfl) -
    · have hsorted : kindsSorted [leaf, leaf] = [.ref, .ref] :=
        List.mergeSort_of_pairwise (by decide)
      refine ⟨120, ?_, by decide⟩
      rw [contentHash_eq, call, EncoderNode.frame, contentFrame, hsorted]
      decide +kernel
    · exact ⟨120, by decide +kernel, by decide⟩

end LeyLine.Hdc
