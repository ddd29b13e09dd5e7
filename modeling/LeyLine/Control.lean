import LeyLine.Partition
import LeyLine.Lib.Seqlock
import LeyLine.Lib.Steps

/-!
# The control block

One page of shared memory names the active arena: its path, its size and its
root, published under a sequence lock. A publisher holds the file lock while it
stores, byte by byte, and may die at any of them; the next one takes over the
odd counter it left. A reader that faces an odd counter tells a live publisher
from a dead one by the lock.

Every action below is one atomic access of the source, taken in any interleaving.
The counter is kept unbounded and compared as the 64 bits the source has.
-/

namespace LeyLine.Control

/-! ## The layout -/

def offArenaPath : Nat := 16
def arenaPathLen : Nat := 256
def offArenaSize : Nat := 272
def offCurrentRoot : Nat := 320
def currentRootLen : Nat := 32

def payloadLen : Nat := arenaPathLen + 8 + currentRootLen

/-- Where the `i`-th byte of a payload copy is read. -/
def payloadAddr (i : Nat) : Nat :=
  if i < arenaPathLen then offArenaPath + i
  else if i < arenaPathLen + 8 then offArenaSize + (i - arenaPathLen)
  else offCurrentRoot + (i - (arenaPathLen + 8))

/-- A consistent copy of the payload. -/
structure Snapshot where
  path : Bytes
  size : Bytes
  root : Bytes
  deriving DecidableEq

def Snapshot.ofBytes (b : Bytes) : Snapshot :=
  ⟨b.take arenaPathLen, (b.drop arenaPathLen).take 8, b.drop (arenaPathLen + 8)⟩

def zeroRoot : Bytes := List.replicate currentRootLen 0

def cString (b : Bytes) : Bytes := b.takeWhile (· ≠ 0)

/-! ## Publishers -/

/-- One call of a publisher. -/
structure Publish where
  path : Bytes
  size : UInt64
  root : Option Digest
  deriving DecidableEq

def setArena (path : Bytes) (size : UInt64) : Publish := ⟨path, size, none⟩

def setArenaWithRoot (path : Bytes) (size : UInt64) (root : Digest) : Publish :=
  ⟨path, size, some root⟩

/-- The stores that copy `src` to `off`. -/
def copyIn (off : Nat) : Bytes → List (Nat × UInt8)
  | [] => []
  | b :: src => (off, b) :: copyIn (off + 1) src

def sizeBytes (size : UInt64) : Bytes := Framing.leBytes 8 size.toNat

def writePathAndSize (path : Bytes) (size : UInt64) : List (Nat × UInt8) :=
  copyIn offArenaPath path ++ copyIn (offArenaPath + path.length) [0] ++
    copyIn offArenaSize (sizeBytes size)

def Publish.stores (p : Publish) : List (Nat × UInt8) :=
  writePathAndSize p.path p.size ++ p.root.elim [] fun r => copyIn offCurrentRoot r.bytes

/-- How far the lock holder is. -/
inductive Phase where
  | locked
  | storing (rest : List (Nat × UInt8))
  | ended
  deriving DecidableEq

structure Publisher where
  call : Publish
  phase : Phase
  deriving DecidableEq

/-! ## Readers -/

/-- Where a reader's snapshot is. `probing` and `holding` carry the odd counter
it loaded; the last two hold the publish lock shared. -/
inductive ReaderAt where
  | idle
  | copying (c : Seqlock.Copy UInt8)
  | probing (odd : Nat)
  | holding (odd : Nat)
  | copyingHeld (values : Bytes)

/-- A reader's handle: the last snapshot it accepted, and the one in progress. -/
structure Reader where
  last : Option Snapshot := none
  pc : ReaderAt := .idle

def Reader.holdsLock (r : Reader) : Bool :=
  match r.pc with
  | .holding _ => true
  | .copyingHeld _ => true
  | _ => false

inductive ReaderAction where
  | load
  | read
  | check
  | probe
  | probeFails
  | reload
  | readHeld
  | answer
  | close
  deriving Repr, DecidableEq

/-- The shared page, the lock holder and the readers. `calls`, `written` and
`answers` record the calls made, the roots stored in full and what readers
returned. -/
structure World where
  seq : Nat
  mem : Nat → UInt8
  publisher : Option Publisher
  readers : List Reader
  calls : List Publish
  written : List Digest
  answers : List Snapshot

def World.init : World := ⟨0, fun _ => 0, none, [], [], [], []⟩

variable (w : World)

def World.counter : Nat := w.seq % 2 ^ 64

/-- One access of a reader: the handle after it, and the snapshot it returns. -/
def readerStep (r : Reader) : ReaderAction → Option (Reader × Option Snapshot)
  | .load => match r.pc with
    | .idle =>
      if w.counter % 2 = 1 then some (⟨r.last, .probing w.counter⟩, none)
      else some (⟨r.last, .copying ⟨w.seq, []⟩⟩, none)
    | _ => none
  | .read => match r.pc with
    | .copying c =>
      if c.values.length < payloadLen then
        some (⟨r.last, .copying ⟨c.start, c.values ++ [w.mem (payloadAddr c.values.length)]⟩⟩, none)
      else none
    | _ => none
  | .check => match r.pc with
    | .copying c =>
      if c.values.length = payloadLen then
        if w.counter = c.start % 2 ^ 64 then
          some (⟨some (.ofBytes c.values), .idle⟩, some (.ofBytes c.values))
        else some (⟨r.last, .idle⟩, none)
      else none
    | _ => none
  | .probe => match r.pc with
    | .probing odd =>
      if w.publisher.isSome then some (⟨r.last, .idle⟩, none)
      else some (⟨r.last, .holding odd⟩, none)
    | _ => none
  | .probeFails => match r.pc with
    | .probing _ => some (⟨r.last, .idle⟩, none)
    | _ => none
  | .reload => match r.pc with
    | .holding odd =>
      if w.counter = odd then some (⟨r.last, .copyingHeld []⟩, none)
      else some (⟨r.last, .idle⟩, none)
    | _ => none
  | .readHeld => match r.pc with
    | .copyingHeld values =>
      if values.length < payloadLen then
        some (⟨r.last, .copyingHeld (values ++ [w.mem (payloadAddr values.length)])⟩, none)
      else none
    | _ => none
  | .answer => match r.pc with
    | .copyingHeld values =>
      if values.length = payloadLen then
        some (⟨r.last, .idle⟩, some (r.last.getD { Snapshot.ofBytes values with root := zeroRoot }))
      else none
    | _ => none
  | .close => some ({}, none)

/-! ## The system -/

inductive Action where
  | take (p : Publish)
  | seqBegin
  | store
  | seqEnd
  | unlock
  | die
  | openReader
  | reader (i : Nat) (a : ReaderAction)

def step : Action → Option World
  | .take p =>
    if w.publisher = none ∧ p.path.length < arenaPathLen ∧ w.readers.all (!·.holdsLock) then
      some { w with publisher := some ⟨p, .locked⟩, calls := p :: w.calls }
    else none
  | .seqBegin => match w.publisher with
    | some ⟨p, .locked⟩ =>
      -- a counter left odd by a dead publisher stays odd
      some { w with
        publisher := some ⟨p, .storing p.stores⟩
        seq := if w.counter % 2 = 1 then w.seq else w.seq + 1 }
    | _ => none
  | .store => match w.publisher with
    | some ⟨p, .storing ((a, b) :: rest)⟩ =>
      some { w with
        publisher := some ⟨p, .storing rest⟩
        mem := Function.update w.mem a b
        written := if rest = [] then p.root.toList ++ w.written else w.written }
    | _ => none
  | .seqEnd => match w.publisher with
    | some ⟨p, .storing []⟩ => some { w with publisher := some ⟨p, .ended⟩, seq := w.seq + 1 }
    | _ => none
  | .unlock => match w.publisher with
    | some ⟨_, .ended⟩ => some { w with publisher := none }
    | _ => none
  | .die => if w.publisher.isSome then some { w with publisher := none } else none
  | .openReader => some { w with readers := w.readers ++ [{}] }
  | .reader i a => do
    let r ← w.readers[i]?
    let (r', answered) ← readerStep w r a
    pure { w with readers := w.readers.set i r', answers := answered.toList ++ w.answers }

def World.root : Bytes :=
  (List.range currentRootLen).map fun i => w.mem (offCurrentRoot + i)

/-- A snapshot's root was stored in full by some call, and its path and size are
those of one call. -/
def World.Published (s : Snapshot) : Prop :=
  (∃ r ∈ w.written, s.root = r.bytes) ∧
    ∃ p ∈ w.calls, cString s.path = cString p.path ∧ s.size = sizeBytes p.size

def World.Safe : Prop := ∀ s ∈ w.answers, s.root ≠ zeroRoot → w.Published s

/-! ## When publication is safe -/

/-- The condition on a step. A call that leaves the root as it is makes the
counter even only over a root stored in full, or none; and a reader compares the
counter before it has gone once round. -/
def Clean : Action → Prop
  | .seqEnd => ∀ p, w.publisher = some p → p.call.root = none →
      w.root = zeroRoot ∨ ∃ r ∈ w.written, w.root = r.bytes
  | .reader i .check => ∀ r c, w.readers[i]? = some r → r.pc = .copying c → w.seq < c.start + 2 ^ 64
  | _ => True

variable {src : Bytes} {off : Nat}

theorem mem_copyIn {x : Nat × UInt8} :
    x ∈ copyIn off src ↔ ∃ i, src[i]? = some x.2 ∧ x.1 = off + i := by
  induction src generalizing off with
  | nil => simp [copyIn]
  | cons b src ih =>
    rw [copyIn, List.mem_cons, ih]
    constructor
    · rintro (rfl | ⟨i, hi, hx⟩)
      · exact ⟨0, rfl, rfl⟩
      · exact ⟨i + 1, hi, by omega⟩
    · rintro ⟨i, hi, hx⟩
      cases i with
      | zero => exact .inl (Prod.ext hx (Option.some.inj hi).symm)
      | succ i => exact .inr ⟨i, hi, by omega⟩

theorem copyIn_addr_lt {x : Nat × UInt8} (h : x ∈ copyIn off src) :
    off ≤ x.1 ∧ x.1 < off + src.length := by
  obtain ⟨i, hi, hx⟩ := mem_copyIn.mp h
  have := (List.getElem?_eq_some_iff.mp hi).1
  omega

theorem pairwise_copyIn (off : Nat) (src : Bytes) :
    (copyIn off src).Pairwise fun x y => x.1 ≠ y.1 := by
  induction src generalizing off with
  | nil => exact List.Pairwise.nil
  | cons b src ih =>
    refine List.pairwise_cons.mpr ⟨fun y hy => ?_, ih (off + 1)⟩
    have := copyIn_addr_lt hy
    omega

theorem Publish.pairwise_stores (p : Publish) (hp : p.path.length < arenaPathLen) :
    p.stores.Pairwise fun x y => x.1 ≠ y.1 := by
  have hsize : (sizeBytes p.size).length = 8 := Framing.length_leBytes 8 _
  have hpath : ∀ x ∈ copyIn offArenaPath p.path, x.1 < offArenaPath + p.path.length :=
    fun x hx => (copyIn_addr_lt hx).2
  have hnul : ∀ x ∈ copyIn (offArenaPath + p.path.length) [0],
      x.1 = offArenaPath + p.path.length := by
    intro x hx
    have := copyIn_addr_lt hx
    simp only [List.length_singleton] at this
    omega
  have hsz : ∀ x ∈ copyIn offArenaSize (sizeBytes p.size), offArenaSize ≤ x.1 ∧
      x.1 < offArenaSize + 8 := by
    intro x hx
    have := copyIn_addr_lt hx
    rwa [hsize] at this
  have hroot : ∀ x ∈ p.root.elim [] (fun r => copyIn offCurrentRoot r.bytes),
      offCurrentRoot ≤ x.1 := by
    intro x hx
    cases hr : p.root with
    | none => simp [hr] at hx
    | some r =>
      rw [hr] at hx
      exact (copyIn_addr_lt hx).1
  refine List.pairwise_append.mpr ⟨List.pairwise_append.mpr ⟨List.pairwise_append.mpr
    ⟨pairwise_copyIn _ _, pairwise_copyIn _ _, ?_⟩, pairwise_copyIn _ _, ?_⟩, ?_, ?_⟩
  · intro x hx y hy
    have := hpath x hx
    have := hnul y hy
    omega
  · intro x hx y hy
    have hy := hsz y hy
    simp only [arenaPathLen, offArenaPath, offArenaSize] at *
    rcases List.mem_append.mp hx with hx | hx
    · have := hpath x hx
      omega
    · have := hnul x hx
      omega
  · cases p.root with
    | none => exact List.Pairwise.nil
    | some r => exact pairwise_copyIn _ _
  · intro x hx y hy
    have hy := hroot y hy
    simp only [arenaPathLen, offArenaPath, offArenaSize, offCurrentRoot] at *
    rcases List.mem_append.mp hx with hx | hx
    · rcases List.mem_append.mp hx with hx | hx
      · have := hpath x hx
        omega
      · have := hnul x hx
        omega
    · have := hsz x hx
      omega

/-! ## The payload in memory -/

def payload (mem : Nat → UInt8) : Snapshot :=
  .ofBytes ((List.range payloadLen).map (mem ∘ payloadAddr))

theorem payload_path (mem : Nat → UInt8) :
    (payload mem).path = (List.range arenaPathLen).map fun i => mem (offArenaPath + i) := by
  rw [payload, Snapshot.ofBytes, ← List.map_take, List.take_range]
  refine List.map_congr_left fun i hi => ?_
  have hlt : i < arenaPathLen := by
    have := List.mem_range.mp hi
    exact Nat.lt_of_lt_of_le this (Nat.min_le_left _ _)
  rw [Function.comp_apply, payloadAddr, if_pos hlt]

theorem drop_payload (mem : Nat → UInt8) (k n : Nat) (hk : k + n ≤ payloadLen) :
    (((List.range payloadLen).map (mem ∘ payloadAddr)).drop k).take n =
      (List.range n).map fun i => mem (payloadAddr (k + i)) := by
  refine List.ext_getElem? fun i => ?_
  by_cases hi : i < n
  · rw [List.getElem?_take_of_lt hi, List.getElem?_drop, List.getElem?_map, List.getElem?_map,
      List.getElem?_range (by omega), List.getElem?_range hi]
    rfl
  · rw [List.getElem?_eq_none (by simp; omega), List.getElem?_eq_none (by simp; omega)]

theorem payload_root : (payload w.mem).root = w.root := by
  have hdrop := drop_payload w.mem (arenaPathLen + 8) currentRootLen (by decide)
  rw [List.take_of_length_le (by simp [payloadLen])] at hdrop
  rw [payload, Snapshot.ofBytes, hdrop, World.root]
  refine List.map_congr_left fun i hi => ?_
  rw [payloadAddr, if_neg (by omega), if_neg (by omega), Nat.add_sub_cancel_left]

theorem map_range_of_stored {mem : Nat → UInt8} (h : Seqlock.Stored mem (copyIn off src)) :
    ((List.range src.length).map fun i => mem (off + i)) = src := by
  refine List.ext_getElem? fun i => ?_
  by_cases hi : i < src.length
  · rw [List.getElem?_map, List.getElem?_range hi, List.getElem?_eq_getElem hi, Option.map_some]
    exact congrArg some (h (off + i, src[i]) (mem_copyIn.mpr ⟨i, List.getElem?_eq_getElem hi, rfl⟩))
  · rw [List.getElem?_eq_none (by simpa using hi), List.getElem?_eq_none (by simpa using hi)]

theorem cString_append_nul (r : Bytes) : ∀ l : Bytes, cString (l ++ 0 :: r) = cString l
  | [] => by simp [cString]
  | b :: l => by
    have ih := cString_append_nul r l
    by_cases hb : b = 0
    · simp [cString, hb]
    · simpa [cString, hb] using ih

theorem payload_of_stored {mem : Nat → UInt8} {path : Bytes} {size : UInt64}
    (hlen : path.length < arenaPathLen) (h : Seqlock.Stored mem (writePathAndSize path size)) :
    cString (payload mem).path = cString path ∧ (payload mem).size = sizeBytes size := by
  have hpath : Seqlock.Stored mem (copyIn offArenaPath (path ++ [0])) := by
    intro x hx
    obtain ⟨i, hi, hx⟩ := mem_copyIn.mp hx
    refine h x (List.mem_append_left _ ?_)
    rw [List.getElem?_append] at hi
    split at hi
    · exact List.mem_append_left _ (mem_copyIn.mpr ⟨i, hi, hx⟩)
    · exact List.mem_append_right _ (mem_copyIn.mpr ⟨i - path.length, hi, by omega⟩)
  have hsize : Seqlock.Stored mem (copyIn offArenaSize (sizeBytes size)) := fun x hx =>
    h x (List.mem_append_right _ hx)
  constructor
  · have hsplit : (payload mem).path = path ++
        0 :: ((payload mem).path.drop (path.length + 1)) := by
      have htake : (payload mem).path.take (path.length + 1) = path ++ [0] := by
        have hread := map_range_of_stored hpath
        rw [List.length_append, List.length_singleton] at hread
        rw [payload_path, ← List.map_take, List.take_range, Nat.min_eq_left (by omega), hread]
      conv_lhs => rw [← List.take_append_drop (path.length + 1) (payload mem).path, htake]
      rw [List.append_assoc]
      rfl
    rw [hsplit, cString_append_nul]
  · have := map_range_of_stored hsize
    rwa [sizeBytes, Framing.length_leBytes] at this

end LeyLine.Control
