import LeyLine.Runtime.Declared

/-!
# Manifests are read back

Every manifest, however it was built, is read back from its canonical value: a clause is a
loop of the builder calls that made it, and the two lists of ports are emitted in the order
they are kept in, so that each port joins at the end. So canonical values, and digests,
tell manifests apart; and since the lists of ports are kept in order, the order of the calls
that granted them leaves no trace.
-/

namespace LeyLine.Confinement

open ConfinementManifest OrderedInsert

theorem insertNew_last {α β : Type} [LinearOrder β] {key : α → β} {x : α} {l : List α}
    (h : ∀ y ∈ l, key y < key x) :
    insertNew key x l = .ok (l ++ [x]) := by
  induction l with
  | nil => rfl
  | cons y l ih =>
    obtain ⟨hy, hl⟩ := List.forall_mem_cons.mp h
    rw [insertNew, if_pos hy, ih hl]
    rfl

theorem manifest_ext {m m' : ConfinementManifest} (h : m.toClauses = m'.toClauses) : m = m' := by
  cases m
  cases m'
  cases h
  rfl

/-! ## Clauses -/

section Clause

variable {m : ConfinementManifest}

theorem reads_back {α : Type}
    {read : ConfinementManifest → Option Json → Except Refusal ConfinementManifest}
    {f : ConfinementManifest → Json → Except Refusal ConfinementManifest} {emit : α → Json}
    {value : Json}
    {all : List α} (put : Clauses → List α → Clauses) (hm : m.toClauses = put m.toClauses [])
    (hnone : read m none = .ok m)
    (hsome : all ≠ [] → read m (some value) = (all.map emit).foldlM f m)
    (hstep : ∀ done a rest m₁, all = done ++ a :: rest → m₁.toClauses = put m.toClauses done →
      ∃ m', f m₁ (emit a) = .ok m' ∧ m'.toClauses = put m.toClauses (done ++ [a])) :
    ∃ m', read m (unlessEmpty all value) = .ok m' ∧ m'.toClauses = put m.toClauses all := by
  have hloop : ∀ rest done m₁, all = done ++ rest → m₁.toClauses = put m.toClauses done →
      ∃ m', (rest.map emit).foldlM f m₁ = .ok m' ∧ m'.toClauses = put m.toClauses all := by
    intro rest
    induction rest with
    | nil =>
      intro done m₁ hall hm
      exact ⟨m₁, rfl, by rw [hm, hall, List.append_nil]⟩
    | cons a rest ih =>
      intro done m₁ hall hm
      obtain ⟨m₁, h₁, hm₁⟩ := hstep done a rest m₁ hall hm
      obtain ⟨m', h', hm'⟩ := ih (done ++ [a]) m₁ (by simp [hall]) hm₁
      exact ⟨m', Except.bind_eq_ok_iff.mpr ⟨m₁, h₁, h'⟩, hm'⟩
  by_cases hall : all = []
  · subst hall
    exact ⟨m, hnone, hm⟩
  · rw [unlessEmpty, if_neg (by simp [hall]), hsome hall]
    exact hloop all [] m rfl hm

theorem fsGrantOf_canonicalValue (g : FsGrant) : fsGrantOf g.canonicalValue = .ok g := by
  cases g <;> rfl

theorem unixGrantOf_canonicalValue (g : UnixSocketGrant) :
    unixGrantOf g.canonicalValue = .ok g := by
  cases g <;> rfl

theorem toU16_toUInt64 (port : UInt16) : toU16 port.toUInt64 = some port := by
  rw [toU16, if_pos (by simpa using port.toNat_lt), UInt16.toUInt16_toUInt64]

theorem connectOf_portNumber (port : UInt16) : connectOf (portNumber port) = .ok port := by
  change (toU16 port.toUInt64).elim _ _ = _
  rw [toU16_toUInt64]
  rfl

theorem portOf_canonicalValue (g : PortGrant) :
    portOf g.canonicalValue = .ok (g.bind, g.address) := by
  obtain ⟨bind, address, hfloor⟩ := g
  cases address with
  | none | some s =>
    change (toU16 bind.toUInt64).elim _ _ = _
    rw [toU16_toUInt64]
    rfl

theorem oneOrMany_scalarOrList {clause : String} {xs : List Json} (hne : xs ≠ [])
    (harray : ∀ x ∈ xs, x.asArray = none) : oneOrMany clause (scalarOrList xs) = .ok xs := by
  match xs with
  | [x] => cases x with
    | array l => cases harray _ List.mem_cons_self
    | null | bool _ | number _ | string _ | object _ => rfl
  | _ :: _ :: _ => rfl

/-! ## What the builders accept -/

theorem withCredentialSource_accepts {uri : String} (h : sourceOk uri = true) :
    ∃ m', m.withCredentialSource uri = .ok m' := by
  rw [withCredentialSource, dif_pos h]
  exact ⟨_, rfl⟩

theorem withFsGrant_accepts {g : FsGrant} (h : absolute g.path = true ∧ traverses g.path = false) :
    ∃ m', m.withFsGrant g = .ok m' := by
  rw [withFsGrant, dif_neg (by simp [h.1]), dif_neg (by simp [h.2])]
  exact ⟨_, rfl⟩

theorem withUnixSocket_accepts {g : UnixSocketGrant}
    (h : absolute g.path = true ∧ traverses g.path = false) :
    ∃ m', m.withUnixSocket g = .ok m' := by
  rw [withUnixSocket, dif_neg (by simp [h.1]), dif_neg (by simp [h.2])]
  exact ⟨_, rfl⟩

theorem withAllowedHost_accepts {host : String} (h : hostOk host = true) :
    ∃ m', m.withAllowedHost host = .ok m' := by
  rw [withAllowedHost, dif_pos h]
  exact ⟨_, rfl⟩

theorem withPortBind_last {g : PortGrant}
    (h : ∀ held ∈ m.ports, held.canonicalOrder < g.canonicalOrder) :
    ∃ m', m.withPortBind g.bind g.address = .ok m' ∧
      m'.toClauses = { m.toClauses with ports := m.ports ++ [g] } := by
  have hlast := insertNew_last h
  rw [withPortBind, dif_neg (not_lt.mpr g.floor)]
  dsimp only
  split
  · rename_i held heq
    cases hlast.symm.trans heq
  · rename_i ports heq
    cases hlast.symm.trans heq
    exact ⟨_, rfl, rfl⟩

theorem withConnectLocal_last {port : UInt16} (hne : port ≠ 0)
    (h : ∀ held ∈ m.connectLocal, held.toNat < port.toNat) :
    ∃ m', m.withConnectLocal port = .ok m' ∧
      m'.toClauses = { m.toClauses with connectLocal := m.connectLocal ++ [port] } := by
  have hlast := insertNew_last h
  rw [withConnectLocal, dif_neg hne]
  split
  · rename_i held heq
    cases hlast.symm.trans heq
  · rename_i ports heq
    cases hlast.symm.trans heq
    exact ⟨_, rfl, rfl⟩

end Clause

/-! ## Documents -/

section Document

variable {m : ConfinementManifest}

theorem readFs_back {grants : List FsGrant}
    (hok : ∀ g ∈ grants, absolute g.path = true ∧ traverses g.path = false)
    (hm : m.fsAllow = []) : ∃ m', m.readFs (allowBlock FsGrant.canonicalValue grants) = .ok m' ∧
      m'.toClauses = { m.toClauses with fsAllow := grants } := by
  refine reads_back (fun c l => { c with fsAllow := l })
    (by rw [← hm]) rfl (fun _ => rfl) fun done g rest m hall hm => ?_
  obtain ⟨m', h⟩ := withFsGrant_accepts (m := m) (hok g (by simp [hall]))
  exact ⟨m', by rw [fsGrantOf_canonicalValue]; exact h, by rw [withFsGrant_ok h, hm]⟩

theorem readUnixSocket_back {grants : List UnixSocketGrant}
    (hok : ∀ g ∈ grants, absolute g.path = true ∧ traverses g.path = false)
    (hm : m.unixSockets = []) :
    ∃ m', m.readUnixSocket (allowBlock UnixSocketGrant.canonicalValue grants) = .ok m' ∧
      m'.toClauses = { m.toClauses with unixSockets := grants } := by
  refine reads_back (fun c l => { c with unixSockets := l }) (by rw [← hm]) rfl (fun _ => rfl)
    fun done g rest m hall hm => ?_
  obtain ⟨m', h⟩ := withUnixSocket_accepts (m := m) (hok g (by simp [hall]))
  exact ⟨m', by rw [unixGrantOf_canonicalValue]; exact h, by rw [withUnixSocket_ok h, hm]⟩

theorem readAllowHosts_back {hosts : List String} (hok : ∀ host ∈ hosts, hostOk host = true)
    (hm : m.allowHosts = []) :
    ∃ m', m.readAllowHosts (unlessEmpty hosts (.array (hosts.map .string))) = .ok m' ∧
      m'.toClauses = { m.toClauses with allowHosts := hosts } := by
  refine reads_back (fun c l => { c with allowHosts := l }) (by rw [← hm]) rfl (fun _ => rfl)
    fun done host rest m hall hm => ?_
  obtain ⟨m', h⟩ := withAllowedHost_accepts (m := m) (hok host (by simp [hall]))
  exact ⟨m', h, by rw [withAllowedHost_ok h, hm]⟩

theorem readConnectLocal_back {ports : List UInt16} (hpos : ∀ port ∈ ports, port ≠ 0)
    (hordered : Ordered UInt16.toNat ports) (hm : m.connectLocal = []) :
    ∃ m', m.readConnectLocal (unlessEmpty ports (scalarOrList (ports.map portNumber))) = .ok m' ∧
      m'.toClauses = { m.toClauses with connectLocal := ports } := by
  have hread (hne : ports ≠ []) : m.readConnectLocal (some (scalarOrList (ports.map portNumber))) =
      (ports.map portNumber).foldlM (fun m port => connectOf port >>= m.withConnectLocal) m := by
    rw [readConnectLocal,
      oneOrMany_scalarOrList (by simpa using hne) (by simp [portNumber, Json.asArray])]
    rfl
  refine reads_back (fun c l => { c with connectLocal := l })
    (by rw [← hm]) rfl hread fun done port rest m hall hm => ?_
  rw [hall, Ordered, List.pairwise_append] at hordered
  obtain ⟨m', h, hm'⟩ := withConnectLocal_last (m := m) (hpos port (by simp [hall]))
    fun held hheld => hordered.2.2 held (by rw [hm] at hheld; exact hheld) port List.mem_cons_self
  exact ⟨m', by rw [connectOf_portNumber]; exact h, by rw [hm', hm]⟩

theorem readPort_back {ports : List PortGrant} (hordered : Ordered PortGrant.canonicalOrder ports)
    (hm : m.ports = []) :
    ∃ m', m.readPort (unlessEmpty ports (scalarOrList (ports.map PortGrant.canonicalValue))) =
    .ok m' ∧
      m'.toClauses = { m.toClauses with ports := ports } := by
  have hread (hne : ports ≠
      []) : m.readPort (some (scalarOrList (ports.map PortGrant.canonicalValue))) =
      (ports.map PortGrant.canonicalValue).foldlM (fun m port => portOf port >>= fun p =>
      m.withPortBind p.1 p.2) m := by
    rw [readPort,
      oneOrMany_scalarOrList (by simpa using hne)
      (by simp [PortGrant.canonicalValue, Json.asArray])]
    rfl
  refine reads_back (fun c l => { c with ports := l })
    (by rw [← hm]) rfl hread fun done g rest m hall hm => ?_
  rw [hall, Ordered, List.pairwise_append] at hordered
  obtain ⟨m', h, hm'⟩ := withPortBind_last (m := m) fun held hheld =>
    hordered.2.2 held (by rw [hm] at hheld; exact hheld) g List.mem_cons_self
  exact ⟨m', by rw [portOf_canonicalValue]; exact h, by rw [hm', hm]⟩

theorem readNetwork_back (m₀ : ConfinementManifest) (hhosts : m.allowHosts = [])
    (hconnect : m.connectLocal = []) :
    ∃ m', m.readNetwork m₀.network = .ok m' ∧
      m'.toClauses =
        { m.toClauses with allowHosts := m₀.allowHosts, connectLocal := m₀.connectLocal } := by
  obtain ⟨m₁, h₁, hm₁⟩ := readAllowHosts_back m₀.hosts_ok hhosts
  obtain ⟨m₂, h₂, hm₂⟩ :=
    readConnectLocal_back m₀.connect_pos m₀.connect_ordered (by rw [hm₁]; exact hconnect)
  refine ⟨m₂, ?_, by rw [hm₂, hm₁]⟩
  have hget {key : String} {o : Option Json} (h : (key, o) ∈ m₀.networkMembers) :
      Assoc.get (Json.present m₀.networkMembers) key = o :=
    Json.get_present (by simp [Clauses.networkMembers]) h
  rw [Clauses.network]
  split_ifs with hempty
  · simp only [Bool.and_eq_true, List.isEmpty_iff] at hempty
    rw [hempty.1] at h₁
    rw [hempty.2] at h₂
    cases h₁
    exact h₂
  · simp only [readNetwork, Json.get, hget List.mem_cons_self, hget (.tail _ List.mem_cons_self)]
    refine Except.bind_eq_ok_iff.mpr ⟨(), Except.require_eq_ok_iff.mpr ?_,
      Except.bind_eq_ok_iff.mpr ⟨m₁, h₁, h₂⟩⟩
    by_cases hhosts : m₀.allowHosts = []
    · simp_all [unlessEmpty]
    · simp [unlessEmpty, hhosts]

theorem parseValue_canonicalValue (m : ConfinementManifest) :
    parseValue m.canonicalValue = .ok m := by
  have hread {α : Type} {f : Option Json → α} {key : String} {o : Option Json} {r : α} (h : f o = r)
      (hm : (key, o) ∈ m.members) : f (Assoc.get (Json.present m.members) key) = r := by
    rw [Json.get_present (by simp [Clauses.members]) hm, h]
  have hkeys : checkKeys (Json.present m.members) = .ok () := by
    rw [checkKeys, Except.forM_eq_ok_iff]
    intro key hkey
    obtain ⟨x, hx, rfl⟩ := List.mem_map.mp hkey
    have hx := List.mem_map_of_mem (f := Prod.fst) (Json.mem_present.mp hx)
    simp only [Clauses.members, List.map_cons, List.map_nil, List.mem_cons, List.not_mem_nil,
      or_false] at hx
    rcases hx with hx | hx | hx | hx | hx | hx <;> simp [hx, Except.require, dimensions]
  have hversion : checkVersion (Json.present m.members) = .ok () := by
    rw [checkVersion, Json.get_present (by simp [Clauses.members])
      (show ("version", some (.string schemaVersion)) ∈ _ by simp [Clauses.members])]
    rfl
  obtain ⟨m₁, h₁, hm₁⟩ : ∃ m₁, new.readCredentialSource (m.credentialSource.map .string) = .ok m₁ ∧
      m₁.toClauses = { credentialSource := m.credentialSource } := by
    cases hsource : m.credentialSource with
    | none => exact ⟨new, rfl, rfl⟩
    | some uri =>
      obtain ⟨m', h⟩ := withCredentialSource_accepts (m := new) (m.source_ok uri hsource)
      exact ⟨m', h, withCredentialSource_ok h⟩
  obtain ⟨m₂, h₂, hm₂⟩ := readFs_back m.fs_ok (by rw [hm₁])
  rw [hm₁] at hm₂
  obtain ⟨m₃, h₃, hm₃⟩ := readUnixSocket_back m.sockets_ok (by rw [hm₂])
  rw [hm₂] at hm₃
  obtain ⟨m₄, h₄, hm₄⟩ := readNetwork_back m (by rw [hm₃]) (by rw [hm₃])
  rw [hm₃] at hm₄
  obtain ⟨m₅, h₅, hm₅⟩ := readPort_back m.ports_ordered (by rw [hm₄])
  rw [hm₄] at hm₅
  obtain rfl : m₅ = m := manifest_ext hm₅
  simp only [parseValue, Except.bind_eq_ok_iff]
  exact ⟨_, rfl, (), hkeys, (), hversion, m₁, hread h₁ (by simp [Clauses.members]),
    m₂, hread h₂ (by simp [Clauses.members]), m₃, hread h₃ (by simp [Clauses.members]),
    m₄, hread h₄ (by simp [Clauses.members]), hread h₅ (by simp [Clauses.members])⟩

end Document

/-! ## Calls -/

/-- A call of a builder. -/
inductive Call where
  | credentialSource (uri : String)
  | fsGrant (grant : FsGrant)
  | allowedHost (host : String)
  | portBind (bind : UInt16) (address : Option String)
  | unixSocket (grant : UnixSocketGrant)
  | connectLocal (port : UInt16)
  deriving DecidableEq

namespace Call

def apply (m : ConfinementManifest) : Call → Except Refusal ConfinementManifest
  | .credentialSource uri => m.withCredentialSource uri
  | .fsGrant grant => m.withFsGrant grant
  | .allowedHost host => m.withAllowedHost host
  | .portBind bind address => m.withPortBind bind address
  | .unixSocket grant => m.withUnixSocket grant
  | .connectLocal port => m.withConnectLocal port

def port? : Call → Option (UInt16 × Option String)
  | .portBind bind address => some (bind, address)
  | _ => none

def connect? : Call → Option UInt16
  | .connectLocal port => some port
  | _ => none

def placed (call : Call) : Bool := call.port?.isNone && call.connect?.isNone

end Call

def build (calls : List Call) : Except Refusal ConfinementManifest := calls.foldlM Call.apply new

def PortGrant.declared (g : PortGrant) : UInt16 × Option String := (g.bind, g.address)

theorem declared_injective : Function.Injective PortGrant.declared := by
  rintro ⟨bind, address, _⟩ ⟨bind', address', _⟩ h
  cases h
  rfl

def Clauses.placed (c : Clauses) : Clauses := { c with ports := [], connectLocal := [] }

def Clauses.set (c : Clauses) : Call → Clauses
  | .credentialSource uri => { c with credentialSource := some uri }
  | .fsGrant grant => { c with fsAllow := c.fsAllow ++ [grant] }
  | .allowedHost host => { c with allowHosts := c.allowHosts ++ [host] }
  | .unixSocket grant => { c with unixSockets := c.unixSockets ++ [grant] }
  | _ => c

/-- What a run of calls leaves: the ports that were granted, in some order, and the rest in the
order of the calls. -/
theorem foldlM_apply {calls : List Call} {m m' : ConfinementManifest}
    (h : calls.foldlM Call.apply m = .ok m') :
    (m'.ports.map PortGrant.declared).Perm (calls.filterMap Call.port? ++
      m.ports.map PortGrant.declared) ∧
      m'.connectLocal.Perm (calls.filterMap Call.connect? ++ m.connectLocal) ∧
      m'.placed = (calls.filter Call.placed).foldl Clauses.set m.placed := by
  induction calls generalizing m with
  | nil =>
    cases h
    exact ⟨.rfl, .rfl, rfl⟩
  | cons call calls ih =>
    obtain ⟨m₁, h₁, h⟩ := Except.bind_eq_ok_iff.mp h
    obtain ⟨hports, hconnect, hplaced⟩ := ih h
    cases call with
    | credentialSource uri =>
      rw [withCredentialSource_ok h₁] at hports hconnect hplaced
      exact ⟨hports, hconnect, hplaced⟩
    | fsGrant grant =>
      rw [withFsGrant_ok h₁] at hports hconnect hplaced
      exact ⟨hports, hconnect, hplaced⟩
    | allowedHost host =>
      rw [withAllowedHost_ok h₁] at hports hconnect hplaced
      exact ⟨hports, hconnect, hplaced⟩
    | unixSocket grant =>
      rw [withUnixSocket_ok h₁] at hports hconnect hplaced
      exact ⟨hports, hconnect, hplaced⟩
    | portBind bind address =>
      obtain ⟨ports, ⟨g, ⟨rfl, rfl⟩, hperm⟩, hm₁⟩ := withPortBind_ok (p := (bind, address)) h₁
      rw [hm₁] at hports hconnect hplaced
      refine ⟨hports.trans ?_, hconnect, hplaced⟩
      exact ((hperm.map _).append_left _).trans List.perm_middle
    | connectLocal port =>
      obtain ⟨ports, ⟨_, rfl, hperm⟩, hm₁⟩ := withConnectLocal_ok h₁
      rw [hm₁] at hports hconnect hplaced
      exact ⟨hports, hconnect.trans ((hperm.append_left _).trans List.perm_middle), hplaced⟩

theorem ordered_unique {α β : Type} [LinearOrder β] {key : α → β} {l l' : List α}
    (h : Ordered key l) (h' : Ordered key l') (hperm : l.Perm l') : l = l' :=
  hperm.eq_of_pairwise (fun _ _ _ _ hlt hlt' => absurd hlt' hlt.asymm) h h'

theorem build_perm {calls calls' : List Call} {m m' : ConfinementManifest}
    (hperm : calls.Perm calls')
    (hplaced : calls.filter Call.placed = calls'.filter Call.placed) (h : build calls = .ok m)
    (h' : build calls' = .ok m') : m = m' := by
  obtain ⟨hports, hconnect, hrest⟩ := foldlM_apply h
  obtain ⟨hports', hconnect', hrest'⟩ := foldlM_apply h'
  have hp : m.ports = m'.ports := by
    refine ordered_unique m.ports_ordered m'.ports_ordered
      ((List.map_perm_map_iff declared_injective).mp ?_)
    exact hports.trans (((hperm.filterMap _).append_right _).trans hports'.symm)
  have hc : m.connectLocal = m'.connectLocal := by
    refine ordered_unique m.connect_ordered m'.connect_ordered ?_
    exact hconnect.trans (((hperm.filterMap _).append_right _).trans hconnect'.symm)
  rw [hplaced, ← hrest'] at hrest
  refine manifest_ext ?_
  change { m.placed with ports := m.ports, connectLocal := m.connectLocal } = m'.toClauses
  rw [hrest, hp, hc]
  rfl

/-- **Manifests are read back.** A manifest that was built is what its canonical JSON parses to,
the order in which ports were granted does not reach the JSON, and manifests with one digest
are one manifest. -/
theorem manifests_read_back {Text Hash : Type} {serde : SerdeJson Text} {blake3 : Text → Hash}
    (hserde : ∀ m : ConfinementManifest, serde.tree (serde.toStringPretty m.canonicalValue) =
      .ok m.canonicalValue)
    (hblake3 : Function.Injective blake3) :
    (∀ calls m, build calls = .ok m → parse serde (serde.toStringPretty m.canonicalValue) = .ok m) ∧
    (∀ calls calls' m m', calls.Perm calls' → calls.filter Call.placed = calls'.filter Call.placed →
      build calls = .ok m → build calls' = .ok m' → m.canonicalValue = m'.canonicalValue) ∧
    ∀ calls calls' m m', build calls = .ok m → build calls' = .ok m' →
      m.confinementDigest serde blake3 = m'.confinementDigest serde blake3 → m = m' := by
  refine ⟨fun calls m _ => ?_, fun calls calls' m m' hperm hplaced h h' => ?_,
    fun calls calls' m m' _ _ h => ?_⟩
  · rw [parse, hserde]
    change parseValue m.canonicalValue.collapse = _
    rw [Json.collapse_of_distinct (distinct_canonicalValue m), parseValue_canonicalValue]
  · rw [build_perm hperm hplaced h h']
  · have hvalue := congrArg parseValue (canonicalValue_of_digest hserde hblake3 h)
    rw [parseValue_canonicalValue, parseValue_canonicalValue] at hvalue
    exact Except.ok.inj hvalue

/-! Two ports to connect to, one to listen on, a path and a host, declared in two orders. -/

def declaring : List Call :=
  [.connectLocal 80, .fsGrant (.readWrite "/work"), .connectLocal 22, .portBind 8443 none,
    .allowedHost "example.org"]

def declaringAgain : List Call :=
  [.fsGrant (.readWrite "/work"), .portBind 8443 none, .connectLocal 22, .allowedHost "example.org",
    .connectLocal 80]

theorem manifests_read_back_two : ∃ m m', build declaring = .ok m ∧ build declaringAgain = .ok m' ∧
    m.canonicalValue = m'.canonicalValue ∧
    parse treeSerde (treeSerde.toStringPretty m.canonicalValue) = .ok m := by
  obtain ⟨hread, hsame, -⟩ :=
    @manifests_read_back _ _ treeSerde _ (fun _ => rfl) Function.injective_id
  obtain ⟨m, hm⟩ := exists_of_isOk (show (build declaring).isOk = true by decide +kernel)
  obtain ⟨m', hm'⟩ := exists_of_isOk (show (build declaringAgain).isOk = true by decide +kernel)
  exact ⟨m, m', hm, hm', hsame _ _ _ _ (by decide) (by decide) hm hm', hread _ _ hm⟩

end LeyLine.Confinement
