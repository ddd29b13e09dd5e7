import LeyLine.Lib.Pool
import LeyLine.Tree

/-!
# The resolve cache

`sign/src/host/keystore.rs`: callers that ask for one secret at a time share one read of
it. Under the lock of the map a caller finds a value that is fresh enough, or a read in
flight to wait on, or becomes the leader of a read of its own, announced by a channel in
the map. The leader publishes what it read in its channel; where nothing is to be kept it
then takes the secret's entry out of the map again. The oldest entries go when there are
too many. A caller can be dropped where it awaits: a follower waiting, a leader reading.

Time to live, the limit and the reads' results are parameters. The moments at which a read
and a caller's wait began and ended are kept beside the state, for what is said of them.
-/

namespace LeyLine.Sign.Keystore

variable {Spec E : Type} [DecidableEq Spec]

/-- What a read returns. -/
abbrev Outcome (E : Type) := Except E Bytes

/-- A channel of one read: what was published in it and when, and whether its sender is
still there. -/
structure Channel (Spec E : Type) where
  spec : Spec
  value : Option (Outcome E × Nat) := none
  sender : Bool := true
  opened : Nat
  publishedAt : Nat := 0
  deriving DecidableEq

/-- The map from specs to channels and the order of their insertion, with the channels,
the clock and the moment. -/
structure Cache (Spec E : Type) where
  cells : Spec → Option Nat := fun _ => none
  order : List Spec := []
  channels : List (Channel Spec E) := []
  clock : Nat := 0
  moment : Nat := 0

structure Config (Spec E : Type) where
  ttl : Spec → Nat
  maxCacheEntries : Nat
  internal : E

/-! ## The map -/

def evict (cap : Nat) : List Spec → (Spec → Option Nat) → List Spec × (Spec → Option Nat)
  | [], cells => ([], cells)
  | spec :: order, cells =>
    if cap < (spec :: order).length then evict cap order (Function.update cells spec none)
    else (spec :: order, cells)

namespace Cache

def insertLeader (cfg : Config Spec E) (s : Cache Spec E) (spec : Spec) : Cache Spec E × Nat :=
  let cell := s.channels.length
  let kept :=
    evict cfg.maxCacheEntries (s.order ++ [spec]) (Function.update s.cells spec (some cell))
  ({ s with
      order := kept.1, cells := kept.2, channels := s.channels ++ [{ spec, opened := s.moment }] },
    cell)

def remove (s : Cache Spec E) (spec : Spec) : Cache Spec E :=
  { s with cells := Function.update s.cells spec none, order := s.order.filter (· ≠ spec) }

/-- What a caller finds in the map. -/
inductive Lookup (E : Type) where
  | cacheHit (cell : Nat) (result : Outcome E)
  | follower (cell : Nat)
  | stale
  | absent

def lookup (cfg : Config Spec E) (s : Cache Spec E) (spec : Spec) : Lookup E :=
  match s.cells spec with
  | none => .absent
  | some cell =>
    match s.channels[cell]? with
    | none => .absent
    | some channel =>
      match channel.value with
      | some (result, fetchedAt) => if s.clock - fetchedAt < cfg.ttl spec then .cacheHit cell result
          else .stale
      | none => .follower cell

/-- What each answer says of the map. -/
inductive Found (cfg : Config Spec E) (s : Cache Spec E) (spec : Spec) : Lookup E → Prop
  | cacheHit {cell : Nat} {channel : Channel Spec E} {result : Outcome E} {fetchedAt : Nat}
      (hcell : s.cells spec = some cell) (hchannel : s.channels[cell]? = some channel)
      (hvalue : channel.value = some (result, fetchedAt))
        (hfresh : s.clock - fetchedAt < cfg.ttl spec) :
      Found cfg s spec (.cacheHit cell result)
  | follower {cell : Nat} {channel : Channel Spec E} (hcell : s.cells spec = some cell)
      (hchannel : s.channels[cell]? = some channel)
      (hvalue : channel.value = none) : Found cfg s spec (.follower cell)
  | stale {cell : Nat} {channel : Channel Spec E} {value : Outcome E × Nat}
      (hcell : s.cells spec = some cell)
      (hchannel : s.channels[cell]? = some channel)
      (hvalue : channel.value = some value) : Found cfg s spec .stale
  | absent (hnone : ∀ cell, s.cells spec = some cell →
      s.channels[cell]? = none) : Found cfg s spec .absent

omit [DecidableEq Spec] in
theorem found_lookup (cfg : Config Spec E) (s : Cache Spec E) (spec : Spec) :
    Found cfg s spec (s.lookup cfg spec) := by
  unfold lookup
  split
  · rename_i hcell
    exact .absent fun cell h => absurd (hcell.symm.trans h) (Option.some_ne_none cell).symm
  · rename_i cell hcell
    split
    · rename_i hchannel
      refine .absent fun cell' h => ?_
      rw [← Option.mem_unique hcell h, hchannel]
    · rename_i channel hchannel
      split
      · rename_i result fetchedAt hvalue
        split_ifs with hfresh
        · exact .cacheHit hcell hchannel hvalue hfresh
        · exact .stale hcell hchannel hvalue
      · rename_i hvalue
        exact .follower hcell hchannel hvalue

/-- The leader's `send`. -/
def publish (s : Cache Spec E) (cell : Nat) (result : Outcome E) : Cache Spec E :=
  { s with channels := s.channels.modify cell fun channel =>
      { channel with value := some (result, s.clock), publishedAt := s.moment } }

def dropSender (s : Cache Spec E) (cell : Nat) : Cache Spec E :=
  { s with channels := s.channels.modify cell fun channel => { channel with sender := false } }

end Cache

/-! ## Callers -/

/-- Where a returned result came from. -/
inductive Source where
  | led (cell : Nat)
  | hit (cell : Nat) (clock : Nat)
  | followed (cell : Nat) (since till : Nat)
  | abandoned (cell : Nat)
  deriving DecidableEq

inductive Caller (Spec E : Type) where
  | start (spec : Spec)
  | following (spec : Spec) (cell since : Nat)
  | working (spec : Spec) (cell : Nat)
  | cleaning (spec : Spec) (cell : Nat) (result : Outcome E)
  | returned (spec : Spec) (result : Outcome E) (source : Source)
  | dropped
  deriving DecidableEq

/-- What happens to a caller: it goes on, its read returning this if it is reading, or it
is dropped. -/
inductive Event (E : Type) where
  | go (result : Outcome E)
  | cancel

/-- Time passes before every step. -/
structure Answer (E : Type) where
  elapsed : Nat
  event : Event E

def Cache.tick (s : Cache Spec E) (elapsed : Nat) : Cache Spec E :=
  { s with clock := s.clock + elapsed, moment := s.moment + 1 }

variable (cfg : Config Spec E)

def begin (s : Cache Spec E) (spec : Spec) : Cache Spec E × Caller Spec E :=
  match s.lookup cfg spec with
  | .cacheHit cell result => (s, .returned spec result (.hit cell s.clock))
  | .follower cell => (s, .following spec cell s.moment)
  | .stale =>
    let led := (s.remove spec).insertLeader cfg spec
    (led.1, .working spec led.2)
  | .absent =>
    let led := s.insertLeader cfg spec
    (led.1, .working spec led.2)

/-- A follower returns what was published; with the sender gone before that, an error. -/
def await (s : Cache Spec E) (spec : Spec) (cell since : Nat) : Caller Spec E :=
  match s.channels[cell]? with
  | none => .following spec cell since
  | some channel =>
    match channel.value with
    | some (result, _) => .returned spec result (.followed cell since s.moment)
    | none =>
      if channel.sender then .following spec cell since
      else .returned spec (.error cfg.internal) (.abandoned cell)

/-- The read returned: publish, and where nothing is kept go on to clean up. -/
def finish (s : Cache Spec E) (spec : Spec) (cell : Nat) (result : Outcome E) :
    Cache Spec E × Caller Spec E :=
  if cfg.ttl spec = 0 then (s.publish cell result, .cleaning spec cell result)
  else ((s.publish cell result).dropSender cell, .returned spec result (.led cell))

def go (result : Outcome E) (s : Cache Spec E) :
    Caller Spec E → Cache Spec E × Caller Spec E
  | .start spec => begin cfg s spec
  | .following spec cell since => (s, await cfg s spec cell since)
  | .working spec cell => finish cfg s spec cell result
  | .cleaning spec cell result =>
    ((s.remove spec).dropSender cell, .returned spec result (.led cell))
  | t => (s, t)

/-- A caller is dropped where it awaits; a leader's channel then has no sender. -/
def cancel (s : Cache Spec E) : Caller Spec E → Cache Spec E × Caller Spec E
  | .start _ => (s, .dropped)
  | .following _ _ _ => (s, .dropped)
  | .working _ cell => (s.dropSender cell, .dropped)
  | t => (s, t)

def advance (answer : Answer E) (s : Cache Spec E) (t : Caller Spec E) :
    Cache Spec E × Caller Spec E :=
  match answer.event with
  | .go result => go cfg result (s.tick answer.elapsed) t
  | .cancel => cancel (s.tick answer.elapsed) t

/-- `resolve_with`, by any number of callers. -/
def resolve : Pool.Program (Cache Spec E) (Caller Spec E) Spec (Answer E) where
  enter := .start
  advance := advance cfg

abbrev World (Spec E : Type) := Pool (Cache Spec E) (Caller Spec E)

abbrev Action (Spec E : Type) := Pool.Action Spec (Answer E)

def init : World Spec E := ⟨{}, []⟩

end LeyLine.Sign.Keystore
