import LeyLine.Fs.ReaderPool

/-!
# A graph over a published arena

`HotSwapGraph` of `fs/src/graph.rs`, writable, over an arena that only it publishes to.
Each read and write first polls: it reads the root of the control block, then the root last
acknowledged, and where they differ loads the arena as a new graph and installs it. A flush
serialises the graph it finds installed, writes the bytes into the arena, publishes their
root and then acknowledges it. Graphs that were replaced stay: calls that took one keep
using it.

Loading the arena is one step here, and so is writing it. The root of an image is any
function of it. Beside each call stand the writes promised by the graphs when it began.
-/

namespace LeyLine.Fs

variable {W R : Type}

/-- The graphs installed so far with the one installed now, the lock over it, the root last
acknowledged, the control block's root and the arena's active buffer. -/
structure HotSwap (W R : Type) where
  graphs : List (Adapter W)
  inner : Nat
  swapping : Bool := false
  lastRoot : R
  currentRoot : R
  arena : Image W

namespace HotSwap

/-- What a step of a caller on a graph, or of loading one, meets. -/
structure Env where
  answer : Answer
  poolSize : Nat
  made : Nat

/-- Where a call stands. `running` and `flushing` are inside the graph they took. -/
inductive Task (W R : Type) where
  | call (op : Caller W)
  | polled (op : Caller W) (must : List W) (current : R)
  | same (op : Caller W) (must : List W)
  | changed (op : Caller W) (must : List W) (current : R)
  | built (op : Caller W) (must : List W) (current : R) (graph : Adapter W)
  | installed (op : Caller W) (must : List W) (current : R) (graph : Nat)
  | running (graph : Nat) (must : List W) (op : Caller W)
  | flush
  | flushing (graph : Nat) (must : List W) (op : Caller W)
  | serialized (must : List W) (image : Image W)
  | stored (must : List W) (image : Image W)
  | published (must : List W) (image : Image W)
  | flushed (must : List W) (image : Image W)
  | failed

def acked (s : HotSwap W R) : List W := s.graphs.flatMap fun g => g.acked.map Prod.fst

section
variable [DecidableEq R] (root : Image W → R)

/-- `build_adapter`: the arena must hash to the control block's root. -/
def buildAdapter (s : HotSwap W R) (env : Env) : Option (Adapter W) :=
  if env.answer ≠ .error ∧ root s.arena = s.currentRoot
    then some (Adapter.build env.poolSize env.made s.arena)
  else none

def within (s : HotSwap W R) (env : Env) (k : Nat) (op : Caller W) (back : Caller W → Task W R) :
    HotSwap W R × Task W R :=
  match s.graphs[k]? with
  | none => (s, .failed)
  | some g =>
    ({ s with graphs := s.graphs.set k (Adapter.advance env.answer g op).1 },
      back (Adapter.advance env.answer g op).2)

def changedGraph (s : HotSwap W R) (env : Env) (op : Caller W) (must : List W) (current : R) :
    Task W R :=
  match s.buildAdapter root env with
  | none => .failed
  | some g => .built op must current g

/-- One step. A caller that finds the lock over the graph held waits. -/
def advance (env : Env) (s : HotSwap W R) : Task W R → HotSwap W R × Task W R
  | .call op => (s, .polled op s.acked s.currentRoot)
  | .polled op must current =>
    (s, if current = s.lastRoot then .same op must else .changed op must current)
  | .same op must => (s, if s.swapping then .same op must else .running s.inner must op)
  | .changed op must current => (s, s.changedGraph root env op must current)
  | .built op must current g =>
    if s.swapping then (s, .built op must current g)
    else ({ s with graphs := s.graphs ++ [g], inner := s.graphs.length, swapping := true },
      .installed op must current s.graphs.length)
  | .installed op must current k =>
    ({ s with lastRoot := current, swapping := false }, .running k must op)
  | .running k must op => s.within env k op (.running k must)
  | .flush => (s, if s.swapping then .flush else .flushing s.inner s.acked .serialize)
  | .flushing k must op =>
    match op with
    | .answered _ image => (s, .serialized must image)
    | op => s.within env k op (.flushing k must)
  | .serialized must image =>
    if env.answer = .error then (s, .failed) else ({ s with arena := image }, .stored must image)
  | .stored must image =>
    if env.answer = .error then (s, .failed)
      else ({ s with currentRoot := root image }, .published must image)
  | .published must image => ({ s with lastRoot := root image }, .flushed must image)
  | t => (s, t)

end

/-- A read, a write or a flush. -/
inductive Call (W : Type) where
  | read
  | write (w : W)
  | flush

def program [DecidableEq R] (root : Image W → R) :
    Pool.Program (HotSwap W R) (Task W R) (Call W) Env where
  enter
    | .read => .call .read
    | .write w => .call (.write w)
    | .flush => .flush
  advance := advance root

abbrev World (W R : Type) := Pool (HotSwap W R) (Task W R)

def start (root : Image W → R) (poolSize made : Nat) : World W R :=
  ⟨⟨[Adapter.build poolSize made []], 0, false, root [], root [], []⟩, []⟩

end HotSwap

end LeyLine.Fs
