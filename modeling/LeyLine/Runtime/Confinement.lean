import LeyLine.Lib.Json
import LeyLine.Lib.OrderedInsert
import LeyLine.Lib.Steps

/-!
# Confinement documents

`runtime/src/confinement.rs`: a `cloister/confinement/v1` document is read into a
manifest through the same fallible builders a program would use, and the manifest is
written back as canonical JSON, whose hash is the document's digest. The JSON library
reads a text into a tree and prints a value; the hash is BLAKE3.
-/

namespace LeyLine.Confinement

open Assoc (get)

def schemaVersion : String := "cloister/confinement/v1"

/-! ## Grants -/

/-- A path the workload may read, or read and write. -/
inductive FsGrant where
  | readOnly (path : String)
  | readWrite (path : String)
  deriving DecidableEq

def FsGrant.path : FsGrant → String
  | .readOnly path | .readWrite path => path

inductive UnixSocketGrant where
  | connect (path : String)
  | bind (path : String)
  | connectBind (path : String)
  deriving DecidableEq

def UnixSocketGrant.path : UnixSocketGrant → String
  | .connect path | .bind path | .connectBind path => path

def defaultBindAddress : String := "127.0.0.1"

/-- A port the workload may bind, above the privileged ones. -/
structure PortGrant where
  bind : UInt16
  address : Option String
  floor : 1024 ≤ bind.toNat

def PortGrant.effectiveAddress (g : PortGrant) : String := g.address.getD defaultBindAddress

/-- The order of the list, which is also what makes two grants one socket. -/
def PortGrant.canonicalOrder (g : PortGrant) : ℕ ×ₗ String :=
  toLex (g.bind.toNat, g.effectiveAddress)

/-! ## What a grant must look like -/

def schemes : List String :=
  ["keychain://", "secret-tool://", "keyring://", "file://", "op://", "apple-password://"]

def sourceOk (uri : String) : Bool :=
  schemes.any fun scheme =>
    scheme.toList.isPrefixOf uri.toList && decide (scheme.toList.length < uri.toList.length)

def absolute (path : String) : Bool := path.toList.head? == some '/'

def traverses (path : String) : Bool := (path.toList.splitOn '/').any (· == ['.', '.'])

def labelOk (label : List Char) : Bool :=
  !label.isEmpty && label.head? != some '-' && label.getLast? != some '-' &&
    label.all fun c => c.isAlphanum || c == '-'

def hostLabels : List Char → List Char
  | '*' :: '.' :: labels => labels
  | labels => labels

def hostOk (host : String) : Bool :=
  !(hostLabels host.toList).isEmpty && ((hostLabels host.toList).splitOn '.').all labelOk

/-! ## The manifest -/

/-- Why a document is refused. -/
inductive Refusal where
  | invalidJson (e : String)
  | notAnObject
  | unknownDimension (key : String)
  | otherVersion (version : String)
  | noVersion
  | credentialNotString
  | credentialScheme (uri : String)
  | fsAllow
  | fsObjectPath
  | fsMode (got : Option String)
  | fsEntry (got : Json)
  | fsNotAbsolute (path : String)
  | fsTraverses (path : String)
  | unixAllow
  | unixObjectPath
  | unixMode (got : Option String)
  | unixEntry (got : Json)
  | unixNotAbsolute (path : String)
  | unixTraverses (path : String)
  | emptyNetwork
  | hostsNotArray
  | hostNotString
  | hostMalformed (host : String)
  | emptyList (clause : String)
  | connectNotInteger
  | connectTooLarge (port : UInt64)
  | connectZero
  | connectTwice (port : UInt16)
  | portNotObject
  | portNoBind
  | bindTooLarge (bind : UInt64)
  | bindPrivileged (bind : UInt16)
  | bindTwice (bind : UInt16) (address : String) (held new : Option String)

/-- What a manifest declares. -/
structure Clauses where
  credentialSource : Option String := none
  fsAllow : List FsGrant := []
  allowHosts : List String := []
  ports : List PortGrant := []
  unixSockets : List UnixSocketGrant := []
  connectLocal : List UInt16 := []

/-- A manifest: every clause went through its check, and the two lists of ports are in
their canonical order. -/
structure ConfinementManifest extends Clauses where
  source_ok : ∀ uri ∈ credentialSource, sourceOk uri = true
  fs_ok : ∀ g ∈ fsAllow, absolute g.path = true ∧ traverses g.path = false
  hosts_ok : ∀ host ∈ allowHosts, hostOk host = true
  ports_ordered : OrderedInsert.Ordered PortGrant.canonicalOrder ports
  sockets_ok : ∀ g ∈ unixSockets, absolute g.path = true ∧ traverses g.path = false
  connect_ordered : OrderedInsert.Ordered UInt16.toNat connectLocal
  connect_pos : ∀ port ∈ connectLocal, port ≠ 0

namespace ConfinementManifest

def new : ConfinementManifest where
  source_ok := by simp
  fs_ok := by simp
  hosts_ok := by simp
  ports_ordered := .nil
  sockets_ok := by simp
  connect_ordered := .nil
  connect_pos := by simp

variable (m : ConfinementManifest)

def withCredentialSource (uri : String) : Except Refusal ConfinementManifest :=
  if h : sourceOk uri then
    .ok { m with
      credentialSource := some uri
      source_ok := fun _ hu => Option.some.inj hu ▸ h }
  else .error (.credentialScheme uri)

def withFsGrant (grant : FsGrant) : Except Refusal ConfinementManifest :=
  if habs : absolute grant.path = false then .error (.fsNotAbsolute grant.path)
  else if htrav : traverses grant.path then .error (.fsTraverses grant.path)
  else .ok { m with
    fsAllow := m.fsAllow ++ [grant]
    fs_ok := by
      rw [List.forall_mem_append, List.forall_mem_singleton]
      exact ⟨m.fs_ok, by simpa using habs, by simpa using htrav⟩ }

def withAllowedHost (host : String) : Except Refusal ConfinementManifest :=
  if h : hostOk host then
    .ok { m with
      allowHosts := m.allowHosts ++ [host]
      hosts_ok := by
        rw [List.forall_mem_append, List.forall_mem_singleton]
        exact ⟨m.hosts_ok, h⟩ }
  else .error (.hostMalformed host)

def withUnixSocket (grant : UnixSocketGrant) : Except Refusal ConfinementManifest :=
  if habs : absolute grant.path = false then .error (.unixNotAbsolute grant.path)
  else if htrav : traverses grant.path then .error (.unixTraverses grant.path)
  else .ok { m with
    unixSockets := m.unixSockets ++ [grant]
    sockets_ok := by
      rw [List.forall_mem_append, List.forall_mem_singleton]
      exact ⟨m.sockets_ok, by simpa using habs, by simpa using htrav⟩ }

/-- A port joins the list in its place; a socket that is granted already is refused. -/
def withPortBind (bind : UInt16) (address : Option String) : Except Refusal ConfinementManifest :=
  if hfloor : bind.toNat < 1024 then .error (.bindPrivileged bind)
  else
    let grant : PortGrant := ⟨bind, address, not_lt.mp hfloor⟩
    match h : OrderedInsert.insertNew PortGrant.canonicalOrder grant m.ports with
    | .error held => .error (.bindTwice bind grant.effectiveAddress held.address grant.address)
    | .ok ports => .ok { m with
        ports
        ports_ordered := OrderedInsert.ordered_of_insertNew m.ports_ordered h }

def withConnectLocal (port : UInt16) : Except Refusal ConfinementManifest :=
  if hzero : port = 0 then .error .connectZero
  else
    match h : OrderedInsert.insertNew UInt16.toNat port m.connectLocal with
    | .error _ => .error (.connectTwice port)
    | .ok connectLocal => .ok { m with
        connectLocal
        connect_ordered := OrderedInsert.ordered_of_insertNew m.connect_ordered h
        connect_pos := fun p hp => by
          rcases List.mem_cons.mp ((OrderedInsert.perm_of_insertNew h).mem_iff.mp hp) with rfl | hp
          · exact hzero
          · exact m.connect_pos p hp }

end ConfinementManifest

/-! ## Canonical form -/

def FsGrant.canonicalValue : FsGrant → Json
  | .readOnly path => .string path
  | .readWrite path => .object [("mode", .string "rw"), ("path", .string path)]

def UnixSocketGrant.canonicalValue : UnixSocketGrant → Json
  | .connect path => .string path
  | .bind path => .object [("mode", .string "bind"), ("path", .string path)]
  | .connectBind path => .object [("mode", .string "connect-bind"), ("path", .string path)]

def portNumber (port : UInt16) : Json := .number (.posInt port.toUInt64)

def PortGrant.canonicalValue (g : PortGrant) : Json :=
  .object (Json.present [("address", g.address.map .string), ("bind", some (portNumber g.bind))])

def scalarOrList : List Json → Json
  | [x] => x
  | xs => .array xs

def unlessEmpty {α : Type} (l : List α) (value : Json) : Option Json :=
  if l.isEmpty then none else some value

/-- The `allow` block of a list of grants. -/
def allowBlock {α : Type} (emit : α → Json) (grants : List α) : Option Json :=
  unlessEmpty grants (.object [("allow", .array (grants.map emit))])

def Clauses.networkMembers (c : Clauses) : List (String × Option Json) := [
  ("allowHosts", unlessEmpty c.allowHosts (.array (c.allowHosts.map .string))),
  ("connectLocal", unlessEmpty c.connectLocal (scalarOrList (c.connectLocal.map portNumber)))]

def Clauses.network (c : Clauses) : Option Json :=
  if c.allowHosts.isEmpty && c.connectLocal.isEmpty then none
  else some (.object (Json.present c.networkMembers))

def Clauses.members (c : Clauses) : List (String × Option Json) := [
  ("credentialSource", c.credentialSource.map .string),
  ("fs", allowBlock FsGrant.canonicalValue c.fsAllow),
  ("network", c.network),
  ("port", unlessEmpty c.ports (scalarOrList (c.ports.map PortGrant.canonicalValue))),
  ("unixSocket", allowBlock UnixSocketGrant.canonicalValue c.unixSockets),
  ("version", some (.string schemaVersion))]

def ConfinementManifest.canonicalValue (m : ConfinementManifest) : Json :=
  .object (Json.present m.toClauses.members)

/-! ## Reading a document -/

def oneOrMany (clause : String) : Json → Except Refusal (List Json)
  | .array [] => .error (.emptyList clause)
  | .array items => .ok items
  | x => .ok [x]

/-- The `allow` array of a block. -/
def allowOf (block : Json) (e : Refusal) : Except Refusal (List Json) :=
  ((block.get "allow").bind Json.asArray).elim (.error e) .ok

def fsGrantOf : Json → Except Refusal FsGrant
  | .string path => .ok (.readOnly path)
  | .object members =>
    match (get members "path").bind Json.asStr with
    | none => .error .fsObjectPath
    | some path =>
      let mode := (get members "mode").bind Json.asStr
      if mode = some "rw" then .ok (.readWrite path) else .error (.fsMode mode)
  | other => .error (.fsEntry other)

def unixGrantOf : Json → Except Refusal UnixSocketGrant
  | .string path => .ok (.connect path)
  | .object members =>
    match (get members "path").bind Json.asStr with
    | none => .error .unixObjectPath
    | some path =>
      let mode := (get members "mode").bind Json.asStr
      if mode = some "bind" then .ok (.bind path)
      else if mode = some "connect-bind" then .ok (.connectBind path)
      else .error (.unixMode mode)
  | other => .error (.unixEntry other)

/-- `u16::try_from`. -/
def toU16 (n : UInt64) : Option UInt16 := if n.toNat < 65536 then some n.toUInt16 else none

def hostOf (x : Json) : Except Refusal String := x.asStr.elim (.error .hostNotString) .ok

def connectOf (x : Json) : Except Refusal UInt16 :=
  match x.asU64 with
  | none => .error .connectNotInteger
  | some n => (toU16 n).elim (.error (.connectTooLarge n)) .ok

/-- A port and its address. An address that is not a string reads as none. -/
def portOf (x : Json) : Except Refusal (UInt16 × Option String) :=
  if x.asObject.isNone then .error .portNotObject
  else
    match (x.get "bind").bind Json.asU64 with
    | none => .error .portNoBind
    | some n => (toU16 n).elim (.error (.bindTooLarge n)) fun bind =>
      .ok (bind, (x.get "address").bind Json.asStr)

namespace ConfinementManifest

variable (m : ConfinementManifest)

def readCredentialSource : Option Json → Except Refusal ConfinementManifest
  | none => .ok m
  | some source => source.asStr.elim (.error .credentialNotString) m.withCredentialSource

def readFs : Option Json → Except Refusal ConfinementManifest
  | none => .ok m
  | some fs => do
    let allow ← allowOf fs .fsAllow
    allow.foldlM (fun m entry => fsGrantOf entry >>= m.withFsGrant) m

def readUnixSocket : Option Json → Except Refusal ConfinementManifest
  | none => .ok m
  | some block => do
    let allow ← allowOf block .unixAllow
    allow.foldlM (fun m entry => unixGrantOf entry >>= m.withUnixSocket) m

def readAllowHosts : Option Json → Except Refusal ConfinementManifest
  | none => .ok m
  | some hosts => do
    let hosts ← hosts.asArray.elim (.error .hostsNotArray) .ok
    hosts.foldlM (fun m host => hostOf host >>= m.withAllowedHost) m

def readConnectLocal : Option Json → Except Refusal ConfinementManifest
  | none => .ok m
  | some ports => do
    let ports ← oneOrMany "§3 network.connectLocal" ports
    ports.foldlM (fun m port => connectOf port >>= m.withConnectLocal) m

def readNetwork : Option Json → Except Refusal ConfinementManifest
  | none => .ok m
  | some network => do
    .require ((network.get "allowHosts").isSome || (network.get "connectLocal").isSome)
      .emptyNetwork
    let m ← m.readAllowHosts (network.get "allowHosts")
    m.readConnectLocal (network.get "connectLocal")

def readPort : Option Json → Except Refusal ConfinementManifest
  | none => .ok m
  | some ports => do
    let ports ← oneOrMany "§4 port" ports
    ports.foldlM (fun m port => portOf port >>= fun p => m.withPortBind p.1 p.2) m

end ConfinementManifest

def dimensions : List String :=
  ["version", "credentialSource", "fs", "network", "port", "unixSocket"]

def checkKeys (members : List (String × Json)) : Except Refusal Unit :=
  (members.map Prod.fst).forM fun key => .require (dimensions.contains key) (.unknownDimension key)

def checkVersion (members : List (String × Json)) : Except Refusal Unit :=
  match (get members "version").bind Json.asStr with
  | none => .error .noVersion
  | some version => .require (version == schemaVersion) (.otherVersion version)

def parseValue (value : Json) : Except Refusal ConfinementManifest := do
  let members ← value.asObject.elim (.error .notAnObject) .ok
  checkKeys members
  checkVersion members
  let m ← ConfinementManifest.new.readCredentialSource (get members "credentialSource")
  let m ← m.readFs (get members "fs")
  let m ← m.readUnixSocket (get members "unixSocket")
  let m ← m.readNetwork (get members "network")
  m.readPort (get members "port")

/-- The JSON library: the tree of a text, and the text of a value. -/
structure SerdeJson (Text : Type) where
  tree : Text → Except String Json
  toStringPretty : Json → Text

def ConfinementManifest.parse {Text : Type} (serde : SerdeJson Text) (document : Text) :
    Except Refusal ConfinementManifest := do
  let tree ← (serde.tree document).mapError .invalidJson
  parseValue tree.collapse

/-- `blake3` is the hash of a text, in the form the wire uses. -/
def ConfinementManifest.confinementDigest {Text Hash : Type} (serde : SerdeJson Text)
    (blake3 : Text → Hash) (m : ConfinementManifest) : Hash :=
  blake3 (serde.toStringPretty m.canonicalValue)

end LeyLine.Confinement
