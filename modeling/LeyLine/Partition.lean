import LeyLine.Tree
import LeyLine.Lib.Framing
import LeyLine.Lib.Table

/-!
# The tagged fold over a partition

An address is the keyed hash of a declared decomposition: its domain, scheme and
parameters, and the entries. Every field of variable length carries its length,
so the hashed string determines the decomposition (`preimage_inj`): all of it for
an ordered domain, the entries up to their order for a set.

The hash is a parameter. `keyed` is BLAKE3 under the fold's context, `hash` plain
BLAKE3; both give 32 bytes.
-/

namespace LeyLine

/-- A 32-byte content address. -/
structure Digest where
  bytes : Bytes
  length_eq : bytes.length = 32
  deriving DecidableEq

theorem Digest.ext {x y : Digest} (h : x.bytes = y.bytes) : x = y := by
  cases x
  cases y
  simpa using h

theorem Digest.selfDelimiting : Framing.SelfDelimiting (fun _ => True) Digest.bytes :=
  .of_length 32 (fun d _ => d.length_eq) fun _ _ _ _ => Digest.ext

def utf8 (s : List Char) : Bytes := s.flatMap String.utf8EncodeChar

theorem utf8_inj {s s' : List Char} (h : utf8 s = utf8 s') : s = s' := by
  refine String.ofList_injective (String.toByteArray_inj.mp ?_)
  change s.utf8Encode = s'.utf8Encode
  rw [List.utf8Encode, List.utf8Encode]
  exact congrArg _ h

namespace Partition

/-- Which kind of decomposition the entries describe. -/
inductive Domain where
  | byteStream
  | chunkSet
  | rowSet
  deriving Repr, DecidableEq

def Domain.tag : Domain → UInt8
  | .byteStream => 1
  | .chunkSet => 2
  | .rowSet => 3

def Domain.isOrdered : Domain → Bool
  | .byteStream => true
  | _ => false

/-- One child of a fold: its address and its framing. -/
structure Entry where
  addr : Digest
  a : UInt64
  b : UInt64
  deriving DecidableEq

/-- The order set domains are canonicalised in: by `(addr, a, b)`. -/
def Entry.le (x y : Entry) : Bool :=
  ((compare x.addr.bytes y.addr.bytes).then
    ((compare x.a y.a).then (compare x.b y.b))).isLE

def Entry.encode (e : Entry) : Bytes :=
  e.addr.bytes ++ Framing.leBytes 8 e.a.toNat ++ Framing.leBytes 8 e.b.toNat

/-- A declared decomposition: what was cut, under what scheme. -/
structure PartitionSpec where
  domain : Domain
  scheme : List Char
  params : Bytes
  canonVersion : UInt32
  deriving DecidableEq

def PartitionSpec.folded (spec : PartitionSpec) (entries : List Entry) : List Entry :=
  if spec.domain.isOrdered then entries else entries.insertionSort (fun x y => x.le y)

def PartitionSpec.preimage (spec : PartitionSpec) (entries : List Entry) : Bytes :=
  [spec.domain.tag] ++ Framing.leBytes 4 spec.canonVersion.toNat ++
    Framing.sized 8 (utf8 spec.scheme) ++ Framing.sized 8 spec.params ++
    Framing.counted 8 Entry.encode (spec.folded entries)

def PartitionSpec.address (keyed : Bytes → Digest) (spec : PartitionSpec)
    (entries : List Entry) : Digest :=
  keyed (spec.preimage entries)

/-- The lengths of a decomposition fit the 64 bits they are written in. -/
structure PartitionSpec.Fits (spec : PartitionSpec) (entries : List Entry) : Prop where
  scheme : (utf8 spec.scheme).length < 256 ^ 8
  params : spec.params.length < 256 ^ 8
  entries : entries.length < 256 ^ 8

theorem Domain.tag_inj {d d' : Domain} (h : d.tag = d'.tag) : d = d' := by
  cases d <;> cases d' <;> first | rfl | cases h

theorem toNat_inj64 {x y : UInt64} (h : Framing.leBytes 8 x.toNat = Framing.leBytes 8 y.toNat) :
    x = y :=
  UInt64.toNat_inj.mp (Framing.leBytes_inj x.toNat_lt y.toNat_lt h)

theorem selfDelimiting_encode : Framing.SelfDelimiting (fun _ => True) Entry.encode := by
  refine .of_length 48 (fun e _ => ?_) fun e e' _ _ h => ?_
  · simp [Entry.encode, e.addr.length_eq]
  · rw [Entry.encode, Entry.encode, List.append_assoc, List.append_assoc] at h
    obtain ⟨haddr, h⟩ := List.append_inj h (e.addr.length_eq.trans e'.addr.length_eq.symm)
    obtain ⟨ha, hb⟩ := List.append_inj h (by simp)
    obtain ⟨addr, a, b⟩ := e
    obtain ⟨addr', a', b'⟩ := e'
    obtain rfl : addr = addr' := Digest.ext haddr
    obtain rfl : a = a' := toNat_inj64 ha
    obtain rfl : b = b' := toNat_inj64 hb
    rfl

theorem PartitionSpec.folded_perm (spec : PartitionSpec) (entries : List Entry) :
    (spec.folded entries).Perm entries := by
  rw [folded]
  split
  · exact List.Perm.refl _
  · exact List.perm_insertionSort _ _

/-- The comparison behind `Entry.le`. -/
def Entry.compareKey (x y : Entry) : Ordering :=
  (compare x.addr.bytes y.addr.bytes).then ((compare x.a y.a).then (compare x.b y.b))

instance : Std.TransCmp Entry.compareKey :=
  inferInstanceAs (Std.TransCmp (compareLex (compareOn fun e : Entry => e.addr.bytes)
    (compareLex (compareOn fun e : Entry => e.a) (compareOn fun e : Entry => e.b))))

instance : Std.LawfulEqCmp Entry.compareKey where
  compare_self := by simp [Entry.compareKey]
  eq_of_compare {x y} h := by
    simp only [Entry.compareKey, Ordering.then_eq_eq, Std.LawfulEqOrd.compare_eq_iff_eq] at h
    obtain ⟨addr, a, b⟩ := x
    obtain ⟨addr', a', b'⟩ := y
    obtain ⟨haddr, ha, hb⟩ := h
    obtain rfl : addr = addr' := Digest.ext haddr
    obtain rfl : a = a' := ha
    obtain rfl : b = b' := hb
    rfl

theorem PartitionSpec.preimage_congr {spec : PartitionSpec} (hset : spec.domain.isOrdered = false)
    {es es' : List Entry} (h : es.Perm es') : spec.preimage es = spec.preimage es' := by
  have hfolded : spec.folded es = spec.folded es' := by
    unfold folded
    rw [hset]
    exact @Table.insertionSort_congr _ Entry.compareKey _ _ _ _ h
  unfold preimage
  rw [hfolded]

/-- **The hashed string determines the decomposition.** -/
theorem PartitionSpec.preimage_inj {spec spec' : PartitionSpec} {es es' : List Entry}
    (hf : spec.Fits es) (hf' : spec'.Fits es') (h : spec.preimage es = spec'.preimage es') :
    spec = spec' ∧ spec.folded es = spec'.folded es' := by
  have hcount : ∀ (s : PartitionSpec) (l : List Entry), s.Fits l →
      (s.folded l).length < 256 ^ 8 := by
    intro s l hfits
    rw [(s.folded_perm l).length_eq]
    exact hfits.entries
  simp only [preimage, List.append_assoc] at h
  obtain ⟨htag, h⟩ := List.append_inj h rfl
  obtain ⟨hcanon, h⟩ := List.append_inj h (by simp)
  obtain ⟨hscheme, h⟩ := Framing.selfDelimiting_sized 8 _ _ _ _ hf.scheme hf'.scheme h
  obtain ⟨hparams, h⟩ := Framing.selfDelimiting_sized 8 _ _ _ _ hf.params hf'.params h
  have hentries := (selfDelimiting_encode.counted 8).inj
    ⟨hcount spec es hf, fun _ _ => trivial⟩ ⟨hcount spec' es' hf', fun _ _ => trivial⟩ h
  refine ⟨?_, hentries⟩
  obtain ⟨domain, scheme, params, canon⟩ := spec
  obtain ⟨domain', scheme', params', canon'⟩ := spec'
  obtain rfl : domain = domain' := Domain.tag_inj (List.cons.inj htag).1
  obtain rfl : scheme = scheme' := utf8_inj hscheme
  obtain rfl : params = params' := hparams
  obtain rfl : canon = canon' :=
    UInt32.toNat_inj.mp (Framing.leBytes_inj canon.toNat_lt canon'.toNat_lt hcanon)
  rfl

/-! ## The address -/

/-- A declared decomposition with its entries, as memory holds them: every length is a
`usize`. -/
structure Decomposition where
  spec : PartitionSpec
  entries : List Entry
  fits : spec.Fits entries

namespace Decomposition

def address (keyed : Bytes → Digest) (d : Decomposition) : Digest := d.spec.address keyed d.entries

def preimage (d : Decomposition) : Bytes := d.spec.preimage d.entries

/-- The same decomposition: for an ordered domain the same list of entries, for a set the same
multiset. -/
def Same (d d' : Decomposition) : Prop :=
  d.spec = d'.spec ∧ if d.spec.domain.isOrdered then d.entries = d'.entries
    else d.entries.Perm d'.entries

instance (d d' : Decomposition) : Decidable (d.Same d') := inferInstanceAs (Decidable (_ ∧ _))

theorem preimage_eq_iff {d d' : Decomposition} : d.preimage = d'.preimage ↔ d.Same d' := by
  obtain ⟨spec, es, hf⟩ := d
  obtain ⟨spec', es', hf'⟩ := d'
  constructor
  · intro h
    obtain ⟨rfl, hfolded⟩ := PartitionSpec.preimage_inj hf hf' h
    refine ⟨rfl, ?_⟩
    by_cases hord : spec.domain.isOrdered = true
    · rw [if_pos hord]
      rwa [PartitionSpec.folded, PartitionSpec.folded, if_pos hord, if_pos hord] at hfolded
    · rw [if_neg hord]
      exact (spec.folded_perm es).symm.trans (hfolded ▸ spec.folded_perm es')
  · rintro ⟨rfl, hsame⟩
    by_cases hord : spec.domain.isOrdered = true
    · rw [if_pos hord] at hsame
      exact congrArg spec.preimage hsame
    · rw [if_neg hord] at hsame
      exact PartitionSpec.preimage_congr (by simpa using hord) hsame

/-- **The tagged fold's address is canonical.** No two decompositions that differ in their domain,
scheme, parameters, version or entries have one preimage; and where the keyed hash does not
collide on the two preimages, the addresses are equal exactly where the decompositions are the
same. -/
theorem address_eq_iff (keyed : Bytes → Digest) (d d' : Decomposition) :
    (d.preimage = d'.preimage ↔ d.Same d') ∧ (Set.InjOn keyed {d.preimage, d'.preimage} →
        (d.address keyed = d'.address keyed ↔ d.Same d')) := by
  refine ⟨preimage_eq_iff, fun hinj => ?_⟩
  rw [← preimage_eq_iff]
  exact hinj.eq_iff (Set.mem_insert _ _) (Set.mem_insert_of_mem _ rfl)

def twoChildren (domain : Domain) : Decomposition where
  spec := ⟨domain, ['c'], [], 1⟩
  entries := [⟨⟨List.replicate 32 1, rfl⟩, 0, 0⟩, ⟨⟨List.replicate 32 0, rfl⟩, 0, 0⟩]
  fits := ⟨by simp [utf8, String.utf8EncodeChar], by simp, by simp⟩

def firstBytes (b : Bytes) : Digest := ⟨(b ++ List.replicate 32 0).take 32, by simp⟩

/-- The same children as byte ranges and as a set have two addresses. -/
theorem address_eq_iff_domains :
    (twoChildren .byteStream).address firstBytes ≠ (twoChildren .chunkSet).address firstBytes := by
  have hinj : Set.InjOn firstBytes
      {(twoChildren .byteStream).preimage, (twoChildren .chunkSet).preimage} :=
    Set.injOn_pair.mpr fun h => absurd h (by decide +kernel)
  intro h
  have hsame :=
    ((address_eq_iff firstBytes (twoChildren .byteStream) (twoChildren .chunkSet)).2 hinj).mp h
  exact absurd hsame.1 (by decide)

end Decomposition

end Partition

end LeyLine
