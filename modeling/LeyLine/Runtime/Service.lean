import LeyLine.Lib.Pool
import LeyLine.Lib.Steps
import LeyLine.Lib.Table
import LeyLine.Tree

/-!
# The execution service

`runtime/src/service.rs`: one lifecycle for every transport. A call takes the state lock
for short accesses and calls the backend without it, so each locked access and each
backend call is one step of its caller, and the calls interleave between them. The backend
is any: what it answers comes with the step. Two things are kept beside the service's own
state: which backend starts succeeded, and under which authorization.
-/

namespace LeyLine.Runtime

open Except (require)

abbrev Text := List Char

inductive ErrorCode where
  | invalidSpec
  | invalidGrant
  | unauthenticated
  | unauthorized
  | identityPolicyMismatch
  | unsupportedBackend
  | notProvisioned
  | resourceConflict
  | resourceExhausted
  | backendFailed
  | cancelled
  | internal
  deriving DecidableEq, Repr

structure ExecutionError where
  code : ErrorCode
  retryable : Bool
  detail : String
  deriving DecidableEq, Repr

namespace ExecutionError

variable (detail : String)

def invalid : ExecutionError := ⟨.invalidSpec, false, detail⟩
def unsupported : ExecutionError := ⟨.unsupportedBackend, false, detail⟩
def identityMismatch : ExecutionError := ⟨.identityPolicyMismatch, false, detail⟩
def notProvisioned : ExecutionError := ⟨.notProvisioned, true, detail⟩
def backend : ExecutionError := ⟨.backendFailed, false, detail⟩
def internal : ExecutionError := ⟨.internal, false, detail⟩
def conflict (retryable : Bool) (detail : String) : ExecutionError :=
  ⟨.resourceConflict, retryable, detail⟩

end ExecutionError

/-! ## Data -/

inductive BackendClass where
  | native
  | microVm
  deriving DecidableEq, Repr

inductive RunState where
  | accepted
  | provisioning
  | ready
  | running
  | succeeded
  | failed
  | cancelled
  | cleaning
  | cleaned
  deriving DecidableEq, Repr

def RunState.active : RunState → Bool
  | .accepted | .provisioning | .ready | .running => true
  | _ => false

def RunState.terminal : RunState → Bool
  | .cancelled | .succeeded | .failed => true
  | _ => false

structure RunRecord where
  runId : Text
  replayKey : Text
  state : RunState
  backendId : Text
  deriving DecidableEq, Repr

structure RunEventRecord where
  sequence : Nat
  state : RunState
  timestampMs : Nat
  detailDigest : Option Text
  deriving DecidableEq, Repr

inductive WorkspaceOperation where
  | read
  | list
  | query
  | mutate
  | commit
  deriving DecidableEq, Repr

structure WorkspaceGrant where
  name : Text
  graphRoot : Text
  expectedGeneration : Nat
  operations : List WorkspaceOperation
  deriving DecidableEq, Repr

/-- What a resolver hands the backend. `resources` is what only the backend and
`validate` look at: the root filesystem, the command and the limits. -/
structure ExecutionRequest (Resources : Type) where
  runId : Text
  replayKey : Text
  allowedEgress : List Text
  confinementDigest : Text
  workspaces : List WorkspaceGrant
  resources : Resources

/-- What authorization returns, as far as the service looks at it. -/
structure AuthorizedExecution where
  runId : Text
  replayKey : Text
  specDigest : Text
  grantDigest : Text
  confinementDigest : Text
  backend : BackendClass
  allowedEgress : List Text
  inputRoots : List Text
  workspaces : List WorkspaceGrant
  deriving DecidableEq, Repr

structure ReceiptContext where
  runSpecDigest : Text
  runGrantDigest : Text
  confinementDigest : Text
  backendClass : BackendClass
  inputRoots : List Text
  deriving DecidableEq, Repr

def AuthorizedExecution.receiptContext (a : AuthorizedExecution) : ReceiptContext :=
  ⟨a.specDigest, a.grantDigest, a.confinementDigest, a.backend, a.inputRoots⟩

structure WorkerChannel where
  workspace : Text
  graphRoot : Text
  deriving DecidableEq, Repr

structure BackendRun where
  backendId : Text
  channels : List WorkerChannel
  deriving DecidableEq, Repr

inductive BackendRunStatus where
  | succeeded
  | failed (error : ExecutionError)
  deriving DecidableEq, Repr

structure BackendCapabilities where
  backendId : Text
  backendClass : BackendClass
  deriving DecidableEq, Repr

structure RunInspection where
  runId : Text
  state : RunState
  events : List RunEventRecord
  deriving DecidableEq, Repr

structure RunReceiptData where
  runId : Text
  terminalState : RunState
  eventLogRoot : Text
  backendId : Text
  channels : List WorkerChannel
  context : ReceiptContext
  startedAtUnixMs : Nat
  completedAtUnixMs : Nat
  deriving DecidableEq, Repr

structure ServiceState where
  runs : Std.ExtTreeMap Text RunRecord := ∅
  replay : Std.ExtTreeMap Text Text := ∅
  starting : Std.ExtTreeMap Text Text := ∅
  events : Std.ExtTreeMap Text (List RunEventRecord) := ∅
  receipts : Std.ExtTreeMap Text ReceiptContext := ∅
  channels : Std.ExtTreeMap Text (List WorkerChannel) := ∅
  provisioned : Bool := false
  provisionedBackend : Option Text := none

/-! ## Locked accesses -/

variable {Resources : Type}

/-- What the reservation of a start answers. -/
inductive Reserved where
  | replayed (record : RunRecord)
  | refused (error : ExecutionError)
  | reserved

variable (req : ExecutionRequest Resources)

/-- A replay key that already started answers with its run; otherwise both identities
must be free, and are reserved. -/
def reserve (s : ServiceState) : Reserved × ServiceState :=
  match s.replay[req.replayKey]? with
  | some runId =>
    match s.runs[runId]? with
    | some record => (.replayed record, s)
    | none => (.refused (.internal "replay index references a missing run"), s)
  | none =>
    if s.starting.toList.any fun x => x.2 = req.replayKey then
      (.refused (.conflict true ("replay key is already starting: " ++
        String.ofList req.replayKey)), s)
    else if s.runs[req.runId]?.isSome then
      (.refused (.conflict false ("run_id already exists: " ++ String.ofList req.runId)), s)
    else if s.starting[req.runId]?.isSome then
      (.refused (.conflict true ("run_id is already starting: " ++ String.ofList req.runId)), s)
    else (.reserved, { s with starting := s.starting.insert req.runId req.replayKey })

def abandon (s : ServiceState) : ServiceState :=
  { s with starting := s.starting.erase req.runId }

def event (sequence : Nat) (state : RunState) (now : Nat) : RunEventRecord :=
  ⟨sequence, state, now, none⟩

def startedRecord (started : BackendRun) : RunRecord :=
  ⟨req.runId, req.replayKey, .running, started.backendId⟩

/-- A start that succeeded becomes a run, with its first four events. -/
def settle (started : BackendRun) (now : Nat → Nat) (s : ServiceState) : ServiceState :=
  { s with
    starting := s.starting.erase req.runId
    replay := s.replay.insert req.replayKey req.runId
    channels := s.channels.insert req.runId started.channels
    runs := s.runs.insert req.runId (startedRecord req started)
    events := s.events.insert req.runId
      [event 1 .accepted (now 0), event 2 .provisioning (now 1), event 3 .ready (now 2),
        event 4 .running (now 3)] }

variable (runId : Text)

def fileReceipt (context : ReceiptContext) (s : ServiceState) : ServiceState :=
  { s with receipts := s.receipts.insert runId context }

def isActive (s : ServiceState) : Bool := s.runs[runId]?.any (·.state.active)

def eventsOf (s : ServiceState) : List RunEventRecord := s.events[runId]?.getD []

def mark (record : RunRecord) (state : RunState)
    (appended : Nat → List RunEventRecord) (s : ServiceState) : ServiceState :=
  { s with
    runs := s.runs.insert runId { record with state := state }
    events := s.events.insert runId (eventsOf runId s ++ appended ((eventsOf runId s).length + 1)) }

/-- The terminal state of a completion, with the digest of a failure's detail. -/
def BackendRunStatus.terminal (detail : ExecutionError → Text) :
    BackendRunStatus → RunState × Option Text
  | .succeeded => (.succeeded, none)
  | .failed error => (.failed, some (detail error))

/-- Record a completion, unless the run left the active states meanwhile. -/
def recordCompletion (terminal : RunState × Option Text) (now : Nat) (s : ServiceState) :
    Except ExecutionError ServiceState :=
  match s.runs[runId]? with
  | none => .error (.internal "run disappeared during completion refresh")
  | some record =>
    .ok (if record.state.active then
      mark runId record terminal.1 (fun n => [⟨n, terminal.1, now, terminal.2⟩]) s else s)

def lookup (s : ServiceState) : Except ExecutionError RunRecord :=
  s.runs[runId]?.elim (.error (.invalid "run_id not found")) .ok

def markCancelled (now : Nat) (s : ServiceState) : Except ExecutionError RunRecord × ServiceState :=
  match s.runs[runId]? with
  | none => (.error (.internal "run disappeared during cancellation"), s)
  | some record =>
    (.ok { record with state := .cancelled },
      mark runId record .cancelled (fun n => [event n .cancelled now]) s)

def markCleaned (now : Nat → Nat) (s : ServiceState) :
    Except ExecutionError RunRecord × ServiceState :=
  match s.runs[runId]? with
  | none => (.error (.internal "run disappeared during cleanup"), s)
  | some record =>
    (.ok { record with state := .cleaned },
      mark runId record .cleaned
        (fun n => [event n .cleaning (now 0), event (n + 1) .cleaned (now 1)]) s)

def inspection (afterSequence : Nat) (s : ServiceState) :
    Except ExecutionError RunInspection := do
  let record ← lookup runId s
  pure ⟨record.runId, record.state, (eventsOf runId s).filter (afterSequence < ·.sequence)⟩

def receiptData (eventLogRoot : List RunEventRecord → Except ExecutionError Text) (runId : Text)
    (s : ServiceState) : Except ExecutionError RunReceiptData := do
  let record ← lookup runId s
  require record.state.terminal
    (ExecutionError.invalid "run is not terminal; cancel or await completion before collect")
  let root ← eventLogRoot (eventsOf runId s)
  let context ← s.receipts[runId]?.elim
    (.error (ExecutionError.invalid "run has no schema receipt context")) .ok
  let channels ← s.channels[runId]?.elim
    (.error (ExecutionError.internal "run has no recorded worker channels")) .ok
  let startedAt := (eventsOf runId s).head?.elim 0 (·.timestampMs)
  pure {
    runId := record.runId
    terminalState := record.state
    eventLogRoot := root
    backendId := record.backendId
    channels := channels
    context := context
    startedAtUnixMs := startedAt
    completedAtUnixMs := (eventsOf runId s).getLast?.elim startedAt (·.timestampMs) }

/-! ## Calls -/

/-- What a call does once it has refreshed its run. -/
inductive Op where
  | status
  | inspect (afterSequence : Nat)
  | cancel
  | collect
  | cleanup

inductive Reply where
  | record (r : RunRecord)
  | status (r : Option RunRecord)
  | inspection (r : RunInspection)
  | receipt (r : RunReceiptData)
  | capabilities (c : BackendCapabilities)
  deriving DecidableEq, Repr

/-- A caller between two steps. -/
inductive Caller (Resources : Type) where
  /-- An authorized start, with what authorization says of its spec and grant. -/
  | authorized (answer : Except ExecutionError AuthorizedExecution)
      (resolve : AuthorizedExecution → Except ExecutionError (ExecutionRequest Resources))
  | enter (req : ExecutionRequest Resources) (auth : Option AuthorizedExecution)
  | reserving (req : ExecutionRequest Resources) (auth : Option AuthorizedExecution)
  /-- The backend is starting the run. -/
  | starting (req : ExecutionRequest Resources) (auth : Option AuthorizedExecution)
  | settling (req : ExecutionRequest Resources) (auth : Option AuthorizedExecution)
      (started : Except ExecutionError BackendRun)
  | filing (record : RunRecord) (auth : AuthorizedExecution)
  | refresh (op : Op) (runId : Text)
  | polling (op : Op) (runId : Text)
  /-- The backend reported a completion to this caller's poll. -/
  | completing (op : Op) (runId : Text) (status : BackendRunStatus)
  | proceed (op : Op) (runId : Text)
  | cancelling (runId : Text)
  | cancelled (runId : Text)
  | cleaning (runId : Text)
  | cleaned (runId : Text)
  | provisioning (backendClass : BackendClass) (idempotencyKey : Text)
  | provisioned (capabilities : BackendCapabilities)
  | returned (reply : Except ExecutionError Reply)

def Caller.reply : Caller Resources → Option (Except ExecutionError Reply)
  | .returned reply => some reply
  | _ => none

inductive Call (Resources : Type) where
  | start (req : ExecutionRequest Resources)
  | startAuthorized (answer : Except ExecutionError AuthorizedExecution)
      (resolve : AuthorizedExecution → Except ExecutionError (ExecutionRequest Resources))
  | onRun (op : Op) (runId : Text)
  | provision (backendClass : BackendClass) (idempotencyKey : Text)

def Call.enter : Call Resources → Caller Resources
  | .start req => .enter req none
  | .startAuthorized answer resolve => .authorized answer resolve
  | .onRun op runId => .refresh op runId
  | .provision backendClass key => .provisioning backendClass key

/-- What the backend, the clock and the check of the limits against the backend's
capabilities answer in one step. -/
structure Answer where
  limits : Except ExecutionError Unit
  provision : Except ExecutionError BackendCapabilities
  start : Except ExecutionError BackendRun
  poll : Except ExecutionError (Option BackendRunStatus)
  cancel : Except ExecutionError Bool
  now : Nat → Nat

/-- The rest of the crate: what else a request must satisfy, and the digests of events. -/
structure Env (Resources : Type) where
  validateResources : Resources → Except ExecutionError Unit
  detailDigest : ExecutionError → Text
  eventLogRoot : List RunEventRecord → Except ExecutionError Text

/-- The service's state, and the backend starts that succeeded with the authorization each
was made under. -/
structure Shared (Resources : Type) where
  service : ServiceState := {}
  started : List (ExecutionRequest Resources × Option AuthorizedExecution) := []

variable (env : Env Resources)

def validate (req : ExecutionRequest Resources) : Except ExecutionError Unit := do
  require (req.runId ≠ []) (ExecutionError.invalid "run_id must not be empty")
  require (req.replayKey ≠ []) (ExecutionError.invalid "replay_key must not be empty")
  env.validateResources req.resources
  require (req.allowedEgress = []) (ExecutionError.unsupported
    "the configured execution backend does not yet support egress grants")

def checkResolved (auth : AuthorizedExecution) (req : ExecutionRequest Resources) :
    Except ExecutionError Unit := do
  require (req.runId = auth.runId) (ExecutionError.identityMismatch
    "resolver returned a run_id different from the authorized identity")
  require (req.replayKey = auth.replayKey) (ExecutionError.identityMismatch
    "resolver returned a replay key different from the authorized grant")
  require (req.allowedEgress = auth.allowedEgress) (ExecutionError.identityMismatch
    "resolver changed the grant's allowed egress")
  require (req.confinementDigest = auth.confinementDigest) (ExecutionError.identityMismatch
    "resolver changed the grant's confinement digest")
  require (req.workspaces = auth.workspaces) (ExecutionError.identityMismatch
    "resolver changed the grant's workspaces")

def resolveAuthorized (answer : Except ExecutionError AuthorizedExecution)
    (resolve : AuthorizedExecution → Except ExecutionError (ExecutionRequest Resources)) :
    Except ExecutionError (ExecutionRequest Resources × AuthorizedExecution) := do
  let auth ← answer
  let req ← resolve auth
  checkResolved auth req
  pure (req, auth)

/-- A start returned a record: an authorized one files its context under it. -/
def startReturns (record : RunRecord) : Option AuthorizedExecution → Caller Resources
  | some auth => .filing record auth
  | none => .returned (.ok (.record record))

def proceed (runId : Text) (s : ServiceState) : Op → Caller Resources
  | .status => .returned (.ok (.status s.runs[runId]?))
  | .inspect afterSequence => .returned ((inspection runId afterSequence s).map .inspection)
  | .collect => .returned ((receiptData env.eventLogRoot runId s).map .receipt)
  | .cancel =>
    match lookup runId s with
    | .error e => .returned (.error e)
    | .ok record =>
      if record.state.terminal then .returned (.ok (.record record)) else .cancelling runId
  | .cleanup =>
    match lookup runId s with
    | .error e => .returned (.error e)
    | .ok record =>
      if record.state = .cleaned then .returned (.ok (.record record)) else .cleaning runId

/-- One step of a caller: a locked access or a backend call, with the caller's own work
around it. -/
def advance (a : Answer) (s : Shared Resources) :
    Caller Resources → Shared Resources × Caller Resources
  | .authorized answer resolve =>
    if s.service.provisioned then
      match resolveAuthorized answer resolve with
      | .ok (req, auth) => (s, .enter req (some auth))
      | .error e => (s, .returned (.error e))
    else (s, .returned (.error (.notProvisioned
      "execution backend must be explicitly provisioned before start")))
  | .enter req auth =>
    match validate env req, a.limits with
    | .ok _, .ok _ => (s, .reserving req auth)
    | .error e, _ => (s, .returned (.error e))
    | _, .error e => (s, .returned (.error e))
  | .reserving req auth =>
    match reserve req s.service with
    | (.replayed record, service) => ({ s with service := service }, startReturns record auth)
    | (.refused e, service) => ({ s with service := service }, .returned (.error e))
    | (.reserved, service) => ({ s with service := service }, .starting req auth)
  | .starting req auth =>
    match a.start with
    | .ok started =>
      ({ s with started := s.started ++ [(req, auth)] }, .settling req auth (.ok started))
    | .error e => (s, .settling req auth (.error e))
  | .settling req auth (.ok started) =>
    ({ s with service := settle req started a.now s.service },
      startReturns (startedRecord req started) auth)
  | .settling req _ (.error e) =>
    ({ s with service := abandon req s.service }, .returned (.error e))
  | .filing record auth =>
    ({ s with service := fileReceipt record.runId auth.receiptContext s.service },
      .returned (.ok (.record record)))
  | .refresh op runId =>
    (s, if isActive runId s.service then .polling op runId else .proceed op runId)
  | .polling op runId =>
    match a.poll with
    | .error e => (s, .returned (.error e))
    | .ok none => (s, .proceed op runId)
    | .ok (some status) => (s, .completing op runId status)
  | .completing op runId status =>
    match recordCompletion runId (status.terminal env.detailDigest) (a.now 0) s.service with
    | .error e => (s, .returned (.error e))
    | .ok service => ({ s with service := service }, .proceed op runId)
  | .proceed op runId => (s, proceed env runId s.service op)
  | .cancelling runId =>
    match a.cancel with
    | .error e => (s, .returned (.error e))
    | .ok false => (s, .returned (.error (.backend "backend no longer owns the active run")))
    | .ok true => (s, .cancelled runId)
  | .cancelled runId =>
    ({ s with service := (markCancelled runId (a.now 0) s.service).2 },
      .returned ((markCancelled runId (a.now 0) s.service).1.map .record))
  | .cleaning runId =>
    match a.cancel with
    | .error e => (s, .returned (.error e))
    | .ok _ => (s, .cleaned runId)
  | .cleaned runId =>
    ({ s with service := (markCleaned runId a.now s.service).2 },
      .returned ((markCleaned runId a.now s.service).1.map .record))
  | .provisioning backendClass key =>
    if key = [] then
      (s, .returned (.error (.invalid "provision idempotency key must not be empty")))
    else
      match a.provision with
      | .error e => (s, .returned (.error e))
      | .ok capabilities =>
        if capabilities.backendClass = backendClass then (s, .provisioned capabilities)
        else (s, .returned (.error (.unsupported "requested backend class is unavailable")))
  | .provisioned capabilities =>
    ({ s with service := { s.service with
        provisioned := true, provisionedBackend := some capabilities.backendId } },
      .returned (.ok (.capabilities capabilities)))
  | .returned reply => (s, .returned reply)

def program : Pool.Program (Shared Resources) (Caller Resources) (Call Resources) Answer :=
  ⟨Call.enter, advance env⟩

abbrev Service (Resources : Type) := Pool (Shared Resources) (Caller Resources)

def Service.new : Service Resources := ⟨{}, []⟩

def served (actions : List (Pool.Action (Call Resources) Answer)) :
    Service Resources := Pool.run (program env) Service.new actions

end LeyLine.Runtime
