import LeyLine.Share.Frame

/-!
# A remote share

`RemoteFs` and `serve` of `runtime/src/backends/libkrun/share/mod.rs`, with the stream
between them. The device calls `RemoteFs`, one call at a time under its lock; each call
writes a request and reads a reply. The daemon reads a request, asks its service and
writes the reply, until the stream fails. Between any two of their reads and writes the
other may take any number of steps; a read gives any piece of what was sent and not yet
received, and any read or write may fail.
-/

namespace LeyLine.Share

open Framing

/-! ## The parties -/

variable (capnp : Capnp)

/-- The bytes of a request for the stream, or why there are none: a message too large to
build is a panic (`none`), a frame too large to send an error. -/
def writeRequest (r : Request) : Option (Except Fault Bytes) :=
  (requestHeader capnp r).map fun header => writeFrame (header, r.payload)

def writeReply (r : Reply) : Option (Except Fault Bytes) :=
  (replyHeader capnp r).map fun header => writeFrame (header, r.payload)

/-- Where a call of `RemoteFs` stands; `failed` is the stream it no longer has. -/
inductive Client where
  | connected
  | writing (r : Request) (rest : Bytes)
  | reading (r : Request) (frame : ReadFrame)
  | failed
  deriving DecidableEq

/-- Where `serve` stands; a panic stops it without a result. -/
inductive Server where
  | reading (frame : ReadFrame)
  | writing (rest : Bytes)
  | stopped (result : Option (Except Fault Unit))

/-- Both parties and the stream between them, with the calls made, the answers returned
and the requests the service was asked with the replies it gave. -/
structure State where
  client : Client := .connected
  server : Server := .reading .start
  up : Pipe UInt8 := .empty
  down : Pipe UInt8 := .empty
  calls : List Request := []
  answers : List (Request × Reply) := []
  served : List (Request × Reply) := []

def eio : Reply := .error linuxEio

namespace State

def answer (s : State) (r : Request) (reply : Reply) (client : Client) : State :=
  { s with client, answers := s.answers ++ [(r, reply)] }

/-- The exchange failed: the stream is dropped and the call returns `EIO`. -/
def fail (s : State) (r : Request) : State := s.answer r eio .failed

def clientWrote (s : State) (r : Request) (piece rest : Bytes) : State :=
  { s with
    client := if rest.isEmpty then .reading r .start else .writing r rest
    up := s.up.push piece }

def clientRead (s : State) (r : Request) : Except Fault (ReadFrame ⊕ Frame) → State
  | .error _ => s.fail r
  | .ok (.inl frame) => { s with client := .reading r frame }
  | .ok (.inr f) =>
    match reply capnp f.1 f.2 with
    | .ok reply => s.answer r reply .connected
    | .error _ => s.fail r

def serverWrote (s : State) (piece rest : Bytes) : State :=
  { s with
    server := if rest.isEmpty then .reading .start else .writing rest
    down := s.down.push piece }

def serve (s : State) (r : Request) (reply : Reply) : State :=
  { s with
    server := match writeReply capnp reply with
      | some (.ok bytes) => .writing bytes
      | some (.error e) => .stopped (some (.error e))
      | none => .stopped none
    served := s.served ++ [(r, reply)] }

def serverRead (s : State) (reply : Reply) : Except Fault (ReadFrame ⊕ Frame) → State
  | .error e => { s with server := .stopped (some (.error e)) }
  | .ok (.inl frame) => { s with server := .reading frame }
  | .ok (.inr f) =>
    match request capnp f.1 f.2 with
    | .ok r => s.serve capnp r reply
    | .error e => { s with server := .stopped (some (.error e)) }

end State

/-! ## The system -/

/-- One step of either party. The service is any: it gives whatever reply it likes. -/
inductive Step (capnp : Capnp) : State → State → Prop
  | call {s : State} {r : Request} {bytes : Bytes} (hclient : s.client = .connected)
      (hwrite : writeRequest capnp r = some (.ok bytes)) :
      Step capnp s { s with client := .writing r bytes, calls := s.calls ++ [r] }
  | callRefused {s : State} {r : Request} {e : Fault} (hclient : s.client = .connected)
      (hwrite : writeRequest capnp r = some (.error e)) :
      Step capnp s (State.fail { s with calls := s.calls ++ [r] } r)
  | callFailed {s : State} {r : Request} (hclient : s.client = .failed) :
      Step capnp s (State.fail { s with calls := s.calls ++ [r] } r)
  | clientWrites {s : State} {r : Request} {piece rest : Bytes}
      (hclient : s.client = .writing r (piece ++ rest)) :
      Step capnp s (s.clientWrote r piece rest)
  | clientWriteFails {s : State} {r : Request} {rest : Bytes}
      (hclient : s.client = .writing r rest) :
      Step capnp s (s.fail r)
  | clientReads {s : State} {r : Request} {frame : ReadFrame} {piece : Bytes}
      (hclient : s.client = .reading r frame) (hne : piece ≠ [])
      (hpiece : piece.length ≤ frame.wants) (hdown : s.down.received ++ piece <+: s.down.sent) :
      Step capnp s (State.clientRead capnp { s with down := s.down.pull piece hdown } r
        (frame.read piece))
  | clientReadFails {s : State} {r : Request} {frame : ReadFrame}
      (hclient : s.client = .reading r frame) :
      Step capnp s (s.fail r)
  | serverReads {s : State} {frame : ReadFrame} {piece : Bytes} (reply : Reply)
      (hserver : s.server = .reading frame) (hne : piece ≠ [])
      (hpiece : piece.length ≤ frame.wants) (hup : s.up.received ++ piece <+: s.up.sent) :
      Step capnp s (State.serverRead capnp { s with up := s.up.pull piece hup } reply
        (frame.read piece))
  | serverEof {s : State} {frame : ReadFrame} (hserver : s.server = .reading frame) :
      Step capnp s { s with server := .stopped (some (frame.eof.map fun _ => ())) }
  | serverReadFails {s : State} {frame : ReadFrame} (e : Fault)
      (hserver : s.server = .reading frame) :
      Step capnp s { s with server := .stopped (some (.error e)) }
  | serverWrites {s : State} {piece rest : Bytes} (hserver : s.server = .writing (piece ++ rest)) :
      Step capnp s (s.serverWrote piece rest)
  | serverWriteFails {s : State} {rest : Bytes} (e : Fault) (hserver : s.server = .writing rest) :
      Step capnp s { s with server := .stopped (some (.error e)) }

/-- What the parties can come to over a new stream. -/
def Reachable (s : State) : Prop := Relation.ReflTransGen (Step capnp) {} s

end LeyLine.Share
