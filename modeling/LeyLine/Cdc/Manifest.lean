import LeyLine.Lib.Request
import LeyLine.Lib.Steps
import LeyLine.Lib.Tiling
import LeyLine.Tree

/-!
# Content-defined chunks

A byte string is cut where a rolling hash of its content says so, between a least
and a greatest chunk size, and each chunk is stored under its address. A complete
manifest (`Manifest`) tiles the string; a range is read from the rows that meet it
(`SelectedRange`), trimmed at both ends.

Both row lists are parsed: the types carry what their parsers check. Reads are
requests over the list of addresses fetched so far.
-/

namespace LeyLine.Cdc

open Tiling (slice Tiles)
open Except (bind_eq_ok_iff require require_eq_ok_iff)

def minChunk : Nat := 8 * 1024

def maxChunk : Nat := 128 * 1024

/-- The largest `usize`, and the most bytes a slice has. -/
def usizeMax : Nat := 2 ^ 64 - 1

def isizeMax : Nat := 2 ^ 63 - 1

def saturatingAdd (a b : Nat) : Nat := min (a + b) usizeMax

/-- A fresh rolling hasher run over a buffer: how many bytes it took to match the
boundary mask, which are bytes of the buffer. -/
structure Gear where
  nextMatch : Bytes → Option Nat
  nextMatch_le : ∀ {buf : Bytes} {rel : Nat}, nextMatch buf = some rel → rel ≤ buf.length

structure Chunk (H : Type) where
  hash : H
  offset : Nat
  len : Nat
  deriving Repr, DecidableEq

variable {H : Type}

/-! ## Cutting -/

section Cut

variable (g : Gear) (σ : Bytes → H)

/-- The length of the chunk at the front of `data`. -/
def nextBoundary (data : Bytes) : Nat :=
  if data.length ≤ minChunk then data.length
  else
    let searchEnd := min maxChunk data.length
    match g.nextMatch (slice data minChunk searchEnd) with
    | some rel => minChunk + rel
    | none => searchEnd

theorem nextBoundary_pos {data : Bytes} (h : data ≠ []) : 0 < nextBoundary g data := by
  have hlen : 0 < data.length := List.length_pos_iff.mpr h
  unfold nextBoundary
  split
  · exact hlen
  · dsimp only
    unfold minChunk maxChunk at *
    split <;> omega

/-- The chunks of `data` from `start` on. -/
def chunkFrom (data : Bytes) (start : Nat) : List (Chunk H) :=
  if _h : start < data.length then
    let len := nextBoundary g (data.drop start)
    ⟨σ (slice data start (start + len)), start, len⟩ :: chunkFrom data (start + len)
  else []
termination_by data.length - start
decreasing_by
  have hne : data.drop start ≠ [] := by
    rw [ne_eq, List.drop_eq_nil_iff]
    omega
  have := nextBoundary_pos g hne
  omega

def chunk (data : Bytes) : List (Chunk H) := chunkFrom g σ data 0

end Cut

/-! ## Manifests -/

/-- Why a read or a write of chunks failed; `fault` is an index or an arithmetic
operation out of range. -/
inductive Error (H : Type) where
  | refused (message : String)
  | missing (hash : H)
  | wrongLength (hash : H)
  | fault
  deriving Repr, DecidableEq

/-- The rows of a complete manifest, checked one by one: where they end. -/
def tileEnd (stop : Nat) : List (Chunk H) → Except String Nat
  | [] => .ok stop
  | c :: cs => do
    require (c.len ≠ 0) "chunk spans must be non-empty"
    require (c.offset = stop) ("chunk at offset " ++ toString c.offset ++
      " does not meet previous end " ++ toString stop)
    require (c.offset + c.len ≤ usizeMax) "chunk span overflows"
    tileEnd (c.offset + c.len) cs

theorem tileEnd_eq_ok_iff {cs : List (Chunk H)} {a b : Nat} (ha : a ≤ usizeMax) :
    tileEnd a cs = .ok b ↔ Tiles Chunk.offset Chunk.len a b cs ∧ b ≤ usizeMax := by
  induction cs generalizing a with
  | nil =>
    simp only [tileEnd, Except.ok.injEq, Tiles]
    exact ⟨fun h => ⟨h, h ▸ ha⟩, And.left⟩
  | cons c cs ih =>
    rw [tileEnd, bind_eq_ok_iff]
    simp only [bind_eq_ok_iff, require_eq_ok_iff, decide_eq_true_eq, Tiles]
    constructor
    · rintro ⟨-, hne, -, rfl, -, hmax, h⟩
      obtain ⟨htiles, hb⟩ := (ih hmax).mp h
      exact ⟨⟨rfl, Nat.pos_of_ne_zero hne, htiles⟩, hb⟩
    · rintro ⟨⟨rfl, hpos, htiles⟩, hb⟩
      have hmax : c.offset + c.len ≤ usizeMax := htiles.le.trans hb
      exact ⟨(), hpos.ne', (), rfl, (), hmax, (ih hmax).mpr ⟨htiles, hb⟩⟩

/-- A complete manifest: rows that tile `[0, sourceLen)`. -/
structure Manifest (H : Type) where
  chunks : List (Chunk H)
  sourceLen : Nat
  tiles : Tiles Chunk.offset Chunk.len 0 sourceLen chunks
  sourceLen_le : sourceLen ≤ usizeMax

def Manifest.parse (chunks : List (Chunk H)) : Except String (Manifest H) :=
  match h : tileEnd 0 chunks with
  | .ok stop =>
    have hok := (tileEnd_eq_ok_iff (Nat.zero_le _)).mp h
    .ok ⟨chunks, stop, hok.1, hok.2⟩
  | .error e => .error e

/-! ## Selected rows -/

/-- The rows of a selection, checked one by one against each other and against the
interval wanted. -/
def checkRows (sourceLen start stop : Nat) : Option Nat → List (Chunk H) → Except String Unit
  | _, [] => .ok ()
  | previousEnd, c :: cs => do
    require (c.len ≠ 0) "chunk spans must be non-empty"
    require (c.offset + c.len ≤ usizeMax) "chunk span overflows"
    require (c.offset + c.len ≤ sourceLen) "chunk span exceeds source length"
    require (c.offset < stop ∧ start < c.offset + c.len)
      "selected manifest contains a non-overlapping chunk"
    require (previousEnd.all (c.offset = ·))
      "selected chunks have a gap, overlap, or reversed span"
    checkRows sourceLen start stop (some (c.offset + c.len)) cs

/-- What `SelectedRange.parse` checks. -/
def checkSelection (chunks : List (Chunk H)) (sourceLen start stop : Nat) :
    Except String Unit := do
  require (start ≤ stop) "requested interval is reversed"
  require (stop ≤ sourceLen) "requested interval exceeds source length"
  if start = stop then
    require chunks.isEmpty "empty requested interval must have no selected chunks"
  else
    match chunks with
    | [] => .error "selected chunks do not cover requested range"
    | c :: cs => do
      checkRows sourceLen start stop none (c :: cs)
      require (c.offset ≤ start ∧ start < c.offset + c.len)
        "selected chunks do not cover requested range start"
      require (((c :: cs).getLast (by simp)).offset < stop ∧
          stop ≤ ((c :: cs).getLast (by simp)).offset + ((c :: cs).getLast (by simp)).len)
        "selected chunks do not cover requested range end"

/-- Rows for one interval: none for an empty one, else rows without a gap, each
meeting the interval, that cover it and stay within the source. -/
structure Selects (chunks : List (Chunk H)) (sourceLen start stop : Nat) : Prop where
  start_le : start ≤ stop
  stop_le : stop ≤ sourceLen
  empty : start = stop → chunks = []
  covers : start < stop → ∃ a b, Tiles Chunk.offset Chunk.len a b chunks ∧ chunks ≠ [] ∧
    a ≤ start ∧ stop ≤ b ∧ b ≤ sourceLen ∧ b ≤ usizeMax ∧
    ∀ c ∈ chunks, c.offset < stop ∧ start < c.offset + c.len

def RowOk (sourceLen start stop : Nat) (c : Chunk H) : Prop :=
  0 < c.len ∧ c.offset + c.len ≤ usizeMax ∧ c.offset + c.len ≤ sourceLen ∧
    c.offset < stop ∧ start < c.offset + c.len

section Selects

variable {sourceLen start stop : Nat} {cs : List (Chunk H)}

theorem checkRows_cons_iff {previousEnd : Option Nat} {c : Chunk H} {u : Unit} :
    checkRows sourceLen start stop previousEnd (c :: cs) = .ok u ↔
      RowOk sourceLen start stop c ∧ previousEnd.all (c.offset = ·) = true ∧
        checkRows sourceLen start stop (some (c.offset + c.len)) cs = .ok u := by
  simp only [checkRows, RowOk, bind_eq_ok_iff, require_eq_ok_iff, decide_eq_true_eq]
  constructor
  · rintro ⟨-, hne, -, hmax, -, hle, -, hmeets, -, hprev, h⟩
    exact ⟨⟨Nat.pos_of_ne_zero hne, hmax, hle, hmeets⟩, hprev, h⟩
  · rintro ⟨⟨hpos, hmax, hle, hmeets⟩, hprev, h⟩
    exact ⟨(), hpos.ne', (), hmax, (), hle, (), hmeets, (), hprev, h⟩

theorem checkRows_some_iff {p : Nat} {u : Unit} (hp : p ≤ sourceLen) (hmax : p ≤ usizeMax) :
    checkRows sourceLen start stop (some p) cs = .ok u ↔
      (∃ b, Tiles Chunk.offset Chunk.len p b cs ∧ b ≤ sourceLen ∧ b ≤ usizeMax) ∧
        ∀ c ∈ cs, c.offset < stop ∧ start < c.offset + c.len := by
  induction cs generalizing p with
  | nil => simpa [checkRows] using ⟨p, rfl, hp, hmax⟩
  | cons c cs ih =>
    rw [checkRows_cons_iff, List.forall_mem_cons]
    simp only [Option.all_some, decide_eq_true_eq]
    constructor
    · rintro ⟨⟨hpos, hmax', hle, hmeets⟩, rfl, h⟩
      obtain ⟨⟨b, htiles, hb⟩, hrest⟩ := (ih hle hmax').mp h
      exact ⟨⟨b, ⟨rfl, hpos, htiles⟩, hb⟩, hmeets, hrest⟩
    · rintro ⟨⟨b, ⟨rfl, hpos, htiles⟩, hb, hb'⟩, hmeets, hrest⟩
      have hle := htiles.le
      refine ⟨⟨hpos, hle.trans hb', hle.trans hb, hmeets⟩, rfl, ?_⟩
      exact (ih (hle.trans hb) (hle.trans hb')).mpr ⟨⟨b, htiles, hb, hb'⟩, hrest⟩

theorem tiles_getLast {a b : Nat} (h : Tiles Chunk.offset Chunk.len a b cs) (hne : cs ≠ []) :
    (cs.getLast hne).offset + (cs.getLast hne).len = b := by
  induction cs generalizing a with
  | nil => exact absurd rfl hne
  | cons c cs ih =>
    cases cs with
    | nil =>
      obtain ⟨rfl, -, rfl⟩ := h
      rfl
    | cons d ds =>
      exact ih h.2.2 (by simp)

/-- **The rows a selection is parsed from** are exactly those it stands for. -/
theorem checkSelection_eq_ok_iff {u : Unit} :
    checkSelection cs sourceLen start stop = .ok u ↔ Selects cs sourceLen start stop := by
  unfold checkSelection
  simp only [bind_eq_ok_iff, require_eq_ok_iff, decide_eq_true_eq]
  by_cases heq : start = stop
  · rw [if_pos heq, require_eq_ok_iff]
    constructor
    · rintro ⟨-, hle, -, hsource, hempty⟩
      exact ⟨hle, hsource, fun _ => by simpa using hempty, fun hlt => by omega⟩
    · rintro ⟨hle, hsource, hempty, -⟩
      exact ⟨(), hle, (), hsource, by simp [hempty heq]⟩
  · rw [if_neg heq]
    cases cs with
    | nil =>
      simp only [reduceCtorEq, and_false, exists_const, false_iff]
      rintro ⟨hle, -, -, hcovers⟩
      obtain ⟨a, b, -, hne, -⟩ := hcovers (by omega)
      exact hne rfl
    | cons c cs =>
      simp only [bind_eq_ok_iff, require_eq_ok_iff, decide_eq_true_eq]
      constructor
      · rintro ⟨-, hle, -, hsource, _, hrows, -, hfirst, hlast⟩
        obtain ⟨⟨hpos, hmax, hend, hmeets⟩, -, hnext⟩ := checkRows_cons_iff.mp hrows
        obtain ⟨⟨b, htiles, hb, hb'⟩, hrest⟩ := (checkRows_some_iff hend hmax).mp hnext
        have hall : Tiles Chunk.offset Chunk.len c.offset b (c :: cs) := ⟨rfl, hpos, htiles⟩
        refine ⟨hle, hsource, fun h => absurd h heq,
          fun _ => ⟨c.offset, b, hall, by simp, hfirst.1, ?_,
          hb, hb', List.forall_mem_cons.mpr ⟨hmeets, hrest⟩⟩⟩
        rw [tiles_getLast hall] at hlast
        exact hlast.2
      · rintro ⟨hle, hsource, -, hcovers⟩
        obtain ⟨a, b, hall, -, ha, hstop, hb, hb', hmeets⟩ := hcovers (by omega)
        obtain ⟨hrow, hrest⟩ := List.forall_mem_cons.mp hmeets
        have hlastmem := hmeets _ (List.getLast_mem (by simp : c :: cs ≠ []))
        have hlast := tiles_getLast hall (by simp)
        obtain ⟨rfl, hpos, htiles⟩ := hall
        have hend := htiles.le
        refine ⟨(), hle, (), hsource, (), checkRows_cons_iff.mpr ⟨⟨hpos, hend.trans hb',
          hend.trans hb, hrow⟩, rfl, ?_⟩, (), ⟨ha, hrow.2⟩, hlastmem.1, hlast ▸ hstop⟩
        exact (checkRows_some_iff (hend.trans hb) (hend.trans hb')).mpr
          ⟨⟨b, htiles, hb, hb'⟩, hrest⟩

end Selects

/-- Rows selected for an interval; only `parse` makes one. -/
structure SelectedRange (H : Type) where
  chunks : List (Chunk H)
  start : Nat
  stop : Nat
  selects : ∃ sourceLen, Selects chunks sourceLen start stop

namespace SelectedRange

def parse (chunks : List (Chunk H)) (sourceLen start stop : Nat) :
    Except String (SelectedRange H) :=
  match h : checkSelection chunks sourceLen start stop with
  | .ok _ => .ok ⟨chunks, start, stop, sourceLen, checkSelection_eq_ok_iff.mp h⟩
  | .error e => .error e

def len (sel : SelectedRange H) : Nat := sel.stop - sel.start

end SelectedRange

end LeyLine.Cdc
