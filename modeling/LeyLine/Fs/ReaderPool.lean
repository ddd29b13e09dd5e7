import LeyLine.Lib.Pool

/-!
# The readers of a graph

`SqliteGraphAdapter` of `fs/src/graph.rs`: one database that writes change under a lock,
and a pool of read-only copies of it. A write that is done serialises the database, counts
the generation up, drains the pool and replaces the bytes new copies are made from. A read
takes the generation, then a copy of that generation from the pool or a new one, and puts
it back if the generation is still the same. Each section under a lock, each access to the
generation and each operation on the pool is one step.

A database image is known by the writes it has taken. Beside the state stand the writes a
returned call has promised, with the generation at which it returned, and with each read
those promised when it took the generation. A write that finds nothing to change returns
with the database as it is, without a refresh: it promises what the database holds.
-/

namespace LeyLine.Fs

variable {W : Type}

/-- The writes a database image has taken. -/
abbrev Image (W : Type) := List W

/-- The adapter. `locked` is the writer's lock while a refresh holds it, `refreshing` that the
refresh has counted the generation up and not yet replaced the bytes. -/
structure Adapter (W : Type) where
  database : Image W
  locked : Bool := false
  refreshing : Bool := false
  readers : List (Image W × Nat)
  poolSize : Nat
  readerBytes : Image W
  readerGen : Nat := 0
  acked : List (W × Nat) := []

/-- An adapter of a database: a pool of at least one, with the copies that could be made. -/
def Adapter.build (poolSize made : Nat) (database : Image W) : Adapter W :=
  { database
    poolSize := max poolSize 1
    readers := List.replicate (min made (max poolSize 1)) (database, 0)
    readerBytes := database }

inductive Op (W : Type) where
  | read
  | write (w : W)
  | serialize

/-- Where a caller stands. A read carries its generation, the writes it has to see and, from
the copy on, the image it answers from. -/
inductive Caller (W : Type) where
  | read
  | popping (gen : Nat) (must : List W)
  | making (gen : Nat) (must : List W)
  | reading (gen : Nat) (must : List W) (image : Image W)
  | current (gen : Nat) (must : List W) (image : Image W)
  | answered (must : List W) (image : Image W)
  | write (w : W)
  | applied (w : W)
  | serialized (w : W) (bytes : Image W)
  | bumped (w : W) (bytes : Image W)
  | drained (w : W) (bytes : Image W)
  | written (w : W)
  | serialize
  | failed
  deriving DecidableEq

/-- What the environment decides at a step: whether the statements or the copy succeed, and
whether a removal or a truncation finds nothing to change. -/
inductive Answer where
  | ok
  | unchanged
  | error
  deriving DecidableEq

namespace Adapter

variable (s : Adapter W)

def loadGen : Caller W := .popping s.readerGen (s.acked.map Prod.fst)

/-- One pop: a copy of this generation is taken, another one is dropped, and with none left
one is to be made. -/
def pop (gen : Nat) (must : List W) : Adapter W × Caller W :=
  match s.readers with
  | [] => (s, .making gen must)
  | (image, g) :: readers =>
    ({ s with readers }, if g = gen then .reading gen must image else .popping gen must)

def push (image : Image W) (gen : Nat) : Adapter W :=
  if s.readers.length < s.poolSize then { s with readers := s.readers ++ [(image, gen)] } else s

def apply (w : W) : Answer → Adapter W × Caller W
  | .ok => ({ s with database := s.database ++ [w] }, .applied w)
  | .unchanged => ({ s with acked := s.acked ++ s.database.map (·, s.readerGen) }, .written w)
  | .error => (s, .failed)

/-- `refresh_readers` from the lock to the serialised bytes. -/
def beginRefresh (w : W) : Answer → Adapter W × Caller W
  | .error => (s, .failed)
  | _ => ({ s with locked := true }, .serialized w s.database)

def bump : Adapter W :=
  { s with readerGen := (s.readerGen + 1) % 2 ^ 64, refreshing := true }

def drain (w : W) (bytes : Image W) : Adapter W × Caller W :=
  match s.readers with
  | [] => (s, .drained w bytes)
  | _ :: readers => ({ s with readers }, .bumped w bytes)

/-- The bytes are replaced, the lock is released and the write returns. -/
def finishRefresh (w : W) (bytes : Image W) : Adapter W :=
  { s with
    readerBytes := bytes
    locked := false
    refreshing := false
    acked := s.acked ++ [(w, s.readerGen)] }

def make (gen : Nat) (must : List W) : Answer → Caller W
  | .error => .failed
  | _ => .reading gen must s.readerBytes

/-- `serialize`, from which a flush takes its bytes. -/
def image : Answer → Caller W
  | .error => .failed
  | _ => .answered (s.acked.map Prod.fst) s.database

def advance (answer : Answer) (s : Adapter W) : Caller W → Adapter W × Caller W
  | .read => (s, s.loadGen)
  | .popping gen must => s.pop gen must
  | .making gen must => (s, s.make gen must answer)
  | .reading gen must image =>
    (s, if gen = s.readerGen then .current gen must image else .answered must image)
  | .current gen must image => (s.push image gen, .answered must image)
  | .write w => if s.locked then (s, .write w) else s.apply w answer
  | .applied w => if s.locked then (s, .applied w) else s.beginRefresh w answer
  | .serialized w bytes => (s.bump, .bumped w bytes)
  | .bumped w bytes => s.drain w bytes
  | .drained w bytes => (s.finishRefresh w bytes, .written w)
  | .serialize => (s, if s.locked then .serialize else s.image answer)
  | t => (s, t)

def program : Pool.Program (Adapter W) (Caller W) (Op W) Answer where
  enter
    | .read => .read
    | .write w => .write w
    | .serialize => .serialize
  advance := advance

abbrev World (W : Type) := Pool (Adapter W) (Caller W)

def start (poolSize made : Nat) : World W := ⟨Adapter.build poolSize made [], []⟩

end Adapter

end LeyLine.Fs
