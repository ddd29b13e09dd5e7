import LeyLine.Lib.Pool

/-!
# The event bus

`cli-lib/src/daemon/events.rs`: an event gets its sequence number, is appended to a
bounded log and is sent to the subscribers it matches, each under its own lock; a
subscription reads the log for its replay and registers, under two locks. In-process
emitters put events into a bounded queue that one dispatch loop empties; external clients
run the same steps themselves.

What a subscriber's channel answers to `try_send` is the environment's. Three things are
kept beside the router's own state, for what is said about it: every event logged, every
event dispatched, and what each subscriber was sent.
-/

namespace LeyLine.Daemon

abbrev Text := List Char

/-! ## Topics -/

inductive PatternSegment where
  | literal (s : Text)
  | star
  | doubleStar
  deriving DecidableEq, Repr

structure TopicPattern where
  segments : List PatternSegment
  raw : Text
  deriving DecidableEq, Repr

def TopicPattern.parse (pattern : Text) : TopicPattern where
  segments := (pattern.splitOn '.').map fun s =>
    if s = ['*', '*'] then .doubleStar else if s = ['*'] then .star else .literal s
  raw := pattern

/-- `**` before the rest of a pattern: the rest matches here, or after more segments. -/
def matchDoubleStar (rest : List Text → Bool) : List Text → Bool
  | [] => rest []
  | t :: topic => rest (t :: topic) || matchDoubleStar rest topic

def matchSegments : List PatternSegment → List Text → Bool
  | [], [] => true
  | [], _ :: _ => false
  | .doubleStar :: pattern, topic => matchDoubleStar (matchSegments pattern) topic
  | .star :: pattern, _ :: topic => matchSegments pattern topic
  | .literal p :: pattern, t :: topic => p = t && matchSegments pattern topic
  | _ :: _, [] => false

def TopicPattern.matches (p : TopicPattern) (topic : Text) : Bool :=
  matchSegments p.segments (topic.splitOn '.')

/-! ## Events and subscribers -/

variable {Data : Type}

structure RawEvent (Data : Type) where
  topic : Text
  source : Text
  data : Data

structure Event (Data : Type) where
  seq : Nat
  topic : Text
  source : Text
  data : Data
  deriving DecidableEq

inductive OverflowPolicy where
  | dropOldest
  | disconnect
  deriving DecidableEq, Repr

/-- A subscriber. `since`, `replay` and `gap` are what its subscription asked for and
was answered, `sent` what its channel took, and `missed` says that it refused something. -/
structure Subscriber (Data : Type) where
  id : Nat
  identity : Option Text
  patterns : List TopicPattern
  overflow : OverflowPolicy
  since : Nat
  replay : List (Event Data) := []
  gap : Bool := false
  sent : List (Event Data) := []
  missed : Bool := false

variable (sub : Subscriber Data)

/-- An event that matches a pattern and is not the subscriber's own. -/
def Subscriber.matches (e : Event Data) : Bool :=
  !sub.identity.any (· = e.source) && sub.patterns.any (·.matches e.topic)

def Subscriber.received : List (Event Data) := sub.replay ++ sub.sent

structure EventLog (Data : Type) where
  events : List (Event Data)
  capacity : Nat

def EventLog.push (log : EventLog Data) (e : Event Data) : EventLog Data :=
  { log with events :=
      (if log.capacity ≤ log.events.length then log.events.tail else log.events) ++ [e] }

def EventLog.firstSeq (log : EventLog Data) : Nat := log.events.head?.elim 0 (·.seq)

/-- The events above a cursor that pass a predicate, and whether some were dropped from
the log before. -/
def EventLog.sinceMatching (log : EventLog Data) (since : Nat) (predicate : Event Data → Bool) :
    List (Event Data) × Bool :=
  (log.events.filter fun e => since < e.seq && predicate e, 0 < since && since < log.firstSeq)

/-! ## The router -/

structure Router (Data : Type) where
  seq : Nat := 0
  nextSubId : Nat := 1
  subscribers : List (Subscriber Data) := []
  log : EventLog Data
  queue : List (RawEvent Data) := []
  queueBuffer : Nat
  logged : List (Event Data) := []
  dispatched : List (Event Data) := []

def Router.new (logCapacity queueBuffer : Nat) : Router Data where
  log := ⟨[], logCapacity⟩
  queueBuffer := queueBuffer

/-- What a channel answers to `try_send`. -/
inductive SendResult where
  | ok
  | full
  | closed
  deriving DecidableEq, Repr

def Subscriber.offer (e : Event Data) (answer : Nat → SendResult) : Subscriber Data :=
  if sub.matches e then
    match answer sub.id with
    | .ok => { sub with sent := sub.sent ++ [e] }
    | _ => { sub with missed := true }
  else sub

/-- The subscriber is to be removed after this dispatch. -/
def Subscriber.dead (e : Event Data) (answer : Nat → SendResult) : Bool :=
  sub.matches e &&
    (answer sub.id = .closed || (answer sub.id = .full && sub.overflow = .disconnect))

def Router.append (r : Router Data) (e : Event Data) : Router Data :=
  { r with log := r.log.push e, logged := r.logged ++ [e] }

def Router.dispatch (r : Router Data) (e : Event Data) (answer : Nat → SendResult) : Router Data :=
  { r with
    subscribers := r.subscribers.map (·.offer e answer)
    dispatched := r.dispatched ++ [e] }

def Subscriber.readLog (log : EventLog Data) : Subscriber Data :=
  { sub with
    replay := (log.sinceMatching sub.since sub.matches).1
    gap := (log.sinceMatching sub.since sub.matches).2 }

/-- Where an emit came from: a client's call returns its sequence number, the dispatch loop
goes back to the queue. -/
inductive Origin where
  | client
  | loop

/-- A task between two locked steps. -/
inductive Task (Data : Type) where
  | idle
  | enqueue (raw : RawEvent Data)
  | assign (origin : Origin) (raw : RawEvent Data)
  | append (origin : Origin) (e : Event Data)
  | dispatch (origin : Origin) (e : Event Data)
  | prune (origin : Origin) (dead : List Nat) (seq : Nat)
  | subscribe (topics : List Text) (identity : Option Text) (since : Nat)
      (overflow : OverflowPolicy)
  | readLog (sub : Subscriber Data)
  | register (sub : Subscriber Data)
  | returned (seq : Nat)
  | subscribed (id : Nat) (replay : List (Event Data)) (gap : Bool)
  | done

def Origin.finish (seq : Nat) : Origin → Task Data
  | .client => .returned seq
  | .loop => .idle

/-- One locked step. The code dispatches under a read lock, which two emits may hold at once
and then send to the subscribers in any order. Here a dispatch is one step, so a run of this
model is one in which no two dispatches overlap. -/
def advance (answer : Nat → SendResult) (r : Router Data) : Task Data → Router Data × Task Data
  | .idle =>
    match r.queue with
    | [] => (r, .idle)
    | raw :: queue => ({ r with queue := queue }, .assign .loop raw)
  | .enqueue raw =>
    (if r.queue.length < r.queueBuffer then { r with queue := r.queue ++ [raw] } else r, .done)
  | .assign origin raw =>
    ({ r with seq := r.seq + 1 }, .append origin ⟨r.seq + 1, raw.topic, raw.source, raw.data⟩)
  | .append origin e => (r.append e, .dispatch origin e)
  | .dispatch origin e =>
    (r.dispatch e answer,
      .prune origin ((r.subscribers.filter (·.dead e answer)).map (·.id)) e.seq)
  | .prune origin dead seq =>
    (if dead = [] then r else { r with subscribers := r.subscribers.filter (!dead.contains ·.id) },
      origin.finish seq)
  | .subscribe topics identity since overflow =>
    ({ r with nextSubId := r.nextSubId + 1 },
      .readLog {
        id := r.nextSubId, identity := identity, patterns := topics.map TopicPattern.parse
        overflow := overflow, since := since })
  | .readLog sub => (r, .register (sub.readLog r.log))
  | .register sub =>
    ({ r with subscribers := r.subscribers ++ [sub] }, .subscribed sub.id sub.replay sub.gap)
  | t => (r, t)

inductive Call (Data : Type) where
  | emit (raw : RawEvent Data)
  | emitExternal (raw : RawEvent Data)
  | subscribe (topics : List Text) (identity : Option Text) (since : Nat)
      (overflow : OverflowPolicy)

def Call.enter : Call Data → Task Data
  | .emit raw => .enqueue raw
  | .emitExternal raw => .assign .client raw
  | .subscribe topics identity since overflow => .subscribe topics identity since overflow

def program : Pool.Program (Router Data) (Task Data) (Call Data) (Nat → SendResult) :=
  ⟨Call.enter, advance⟩

abbrev Bus (Data : Type) := Pool (Router Data) (Task Data)

abbrev BusAction (Data : Type) := Pool.Action (Call Data) (Nat → SendResult)

def Bus.new (logCapacity queueBuffer : Nat) : Bus Data :=
  ⟨Router.new logCapacity queueBuffer, [.idle]⟩

def busRun (logCapacity queueBuffer : Nat) (actions : List (BusAction Data)) :
    Bus Data := Pool.run program (Bus.new logCapacity queueBuffer) actions

end LeyLine.Daemon
