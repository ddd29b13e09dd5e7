import LeyLine.Runtime.Confinement

/-!
# What a confinement document declares

The digest of a document is taken over the manifest it was read into. The manifest,
written back, is the document again (`SameDocument`) exactly when the document repeats no
key, has no key below its first level that nothing reads, no empty list and no address
that is not a string (`Plain`). Of two such documents with one digest, both declare the
same.
-/

namespace LeyLine.Confinement

open Json
open ConfinementManifest (parse withAllowedHost withConnectLocal withCredentialSource withFsGrant
  withPortBind withUnixSocket)
open Except (bind_eq_ok_iff elim_eq_ok_iff)
open List (append_nil forall_mem_cons forall_mem_singleton mem_map nil_append not_mem_nil)
open Option (bind_eq_some_iff not_mem_none rel_some_some)

/-! ## The same document -/

/-- The same `network` block, up to the order of the ports. -/
def SameNetwork (x y : Json) : Prop :=
  ∃ xs ys, x = .object xs ∧ y = .object ys ∧
    Assoc.Related (fun key => if key = "connectLocal" then SameList else Same) xs ys

def SameClause (key : String) : Json → Json → Prop :=
  if key = "port" then SameList else if key = "network" then SameNetwork else Same

/-- The same document up to the order of keys, the order of ports and the spelling of a
list of one. -/
def SameDocument (x y : Json) : Prop :=
  ∃ xs ys, x = .object xs ∧ y = .object ys ∧ Assoc.Related SameClause xs ys

/-! ## Documents that are read whole -/

def OnlyKeys (keys : List String) (x : Json) : Prop :=
  ∀ members, x = .object members → ∀ key ∈ members.map Prod.fst, key ∈ keys

def PlainGrant (x : Json) : Prop := OnlyKeys ["mode", "path"] x

def PlainAllow (block : Json) : Prop :=
  OnlyKeys ["allow"] block ∧
    ∀ allow, block.get "allow" = some (.array allow) → allow ≠ [] ∧ ∀ x ∈ allow, PlainGrant x

def PlainNetwork (network : Json) : Prop :=
  OnlyKeys ["allowHosts", "connectLocal"] network ∧ network.get "allowHosts" ≠ some (.array [])

def PlainPort (x : Json) : Prop :=
  OnlyKeys ["address", "bind"] x ∧ ∀ address ∈ x.get "address", ∃ s, address = .string s

/-- Every member of the document is read. -/
structure Plain (x : Json) : Prop where
  distinct : x.Distinct
  fs : ∀ block ∈ x.get "fs", PlainAllow block
  unixSocket : ∀ block ∈ x.get "unixSocket", PlainAllow block
  network : ∀ network ∈ x.get "network", PlainNetwork network
  port : ∀ ports ∈ x.get "port", ∀ port ∈ ports.asList, PlainPort port

/-! ## What the builders do -/

section Builders

variable {m m' : ConfinementManifest}

theorem withCredentialSource_ok {uri : String} (h : m.withCredentialSource uri = .ok m') :
    m'.toClauses = { m.toClauses with credentialSource := some uri } := by
  rw [withCredentialSource] at h
  split_ifs at h
  rw [← Except.ok.inj h]

theorem withFsGrant_ok {g : FsGrant} (h : m.withFsGrant g = .ok m') :
    m'.toClauses = { m.toClauses with fsAllow := m.fsAllow ++ [g] } := by
  rw [withFsGrant] at h
  split_ifs at h
  rw [← Except.ok.inj h]

theorem withAllowedHost_ok {host : String} (h : m.withAllowedHost host = .ok m') :
    m'.toClauses = { m.toClauses with allowHosts := m.allowHosts ++ [host] } := by
  rw [withAllowedHost] at h
  split_ifs at h
  rw [← Except.ok.inj h]

theorem withUnixSocket_ok {g : UnixSocketGrant} (h : m.withUnixSocket g = .ok m') :
    m'.toClauses = { m.toClauses with unixSockets := m.unixSockets ++ [g] } := by
  rw [withUnixSocket] at h
  split_ifs at h
  rw [← Except.ok.inj h]

/-- A list with one more element, wherever it stands, for what was read. -/
def Joins {γ δ : Type} (Q : γ → δ → Prop) (l : List δ) (x : γ) (l' : List δ) : Prop :=
  ∃ g, Q x g ∧ l'.Perm (g :: l)

def Grants (p : UInt16 × Option String) (g : PortGrant) : Prop := g.bind = p.1 ∧ g.address = p.2

theorem withPortBind_ok {p : UInt16 × Option String} (h : m.withPortBind p.1 p.2 = .ok m') :
    ∃ ports, Joins Grants m.ports p ports ∧ m'.toClauses = { m.toClauses with ports := ports } := by
  rw [withPortBind] at h
  split_ifs at h with hfloor
  dsimp only at h
  split at h
  · cases h
  · rename_i ports hports
    exact ⟨ports, ⟨_, ⟨rfl, rfl⟩, OrderedInsert.perm_of_insertNew hports⟩,
      by rw [← Except.ok.inj h]⟩

theorem withConnectLocal_ok {port : UInt16} (h : m.withConnectLocal port = .ok m') :
    ∃ ports, Joins Eq m.connectLocal port ports ∧
      m'.toClauses = { m.toClauses with connectLocal := ports } := by
  rw [withConnectLocal] at h
  split_ifs at h
  split at h
  · cases h
  · rename_i ports hports
    exact ⟨ports, ⟨_, rfl, OrderedInsert.perm_of_insertNew hports⟩, by rw [← Except.ok.inj h]⟩

end Builders

/-! ## What the loops do -/

variable {γ δ : Type}

theorem foldlM_clause {add : ConfinementManifest → γ → Except Refusal ConfinementManifest}
    (clause : Clauses → List δ) (put : Clauses → List δ → Clauses) (P : List δ → γ → List δ → Prop)
    (hclause : ∀ c l, clause (put c l) = l) (hput : ∀ c l l', put (put c l) l' = put c l')
    (hself : ∀ c, put c (clause c) = c)
    (hadd : ∀ {m g m'}, add m g = .ok m' → ∃ l, P (clause m.toClauses) g l ∧
      m'.toClauses = put m.toClauses l) :
    ∀ {gs : List γ} {m m' : ConfinementManifest}, gs.foldlM add m = .ok m' →
      ∃ l, Steps P (clause m.toClauses) gs l ∧ m'.toClauses = put m.toClauses l
  | [], m, m', h => by
    cases h
    exact ⟨_, .nil _, (hself _).symm⟩
  | g :: gs, m, m', h => by
    obtain ⟨m₁, hg, h⟩ := bind_eq_ok_iff.mp h
    obtain ⟨l₁, hP, hm₁⟩ := hadd hg
    obtain ⟨l, hsteps, hm'⟩ := foldlM_clause clause put P hclause hput hself hadd h
    rw [hm₁, hclause] at hsteps
    rw [hm₁, hput] at hm'
    exact ⟨l, .cons hP hsteps, hm'⟩

variable {l' : List δ}

theorem steps_append {l gs : List δ} (h : Steps (fun l g l' => l' = l ++ [g]) l gs l') :
    l' = l ++ gs := by
  induction h with
  | nil σ => exact (append_nil σ).symm
  | cons hx _ ih => rw [ih, hx, List.append_assoc, List.singleton_append]

theorem steps_perm {Q : γ → δ → Prop} {l : List δ} {xs : List γ}
    (h : Steps (Joins Q) l xs l') : ∃ gs, List.Forall₂ Q xs gs ∧ l'.Perm (gs ++ l) := by
  induction h with
  | nil σ => exact ⟨[], .nil, .rfl⟩
  | cons hx _ ih =>
    obtain ⟨g, hQ, hperm⟩ := hx
    obtain ⟨gs, hgs, hperm'⟩ := ih
    refine ⟨g :: gs, .cons hQ hgs, hperm'.trans ?_⟩
    exact (hperm.append_left gs).trans List.perm_middle

variable {α β : Type} {P : α → β → Prop} {ys : List β}

theorem forall₂_comp {Q : β → γ → Prop} {xs : List α} {zs : List γ} (h : List.Forall₂ P xs ys)
    (h' : List.Forall₂ Q ys zs) : List.Forall₂ (fun x z => ∃ y, P x y ∧ Q y z) xs zs := by
  induction h generalizing zs with
  | nil =>
    cases h'
    exact .nil
  | cons hP _ ih =>
    cases h' with
    | cons hQ hrest => exact .cons ⟨_, hP, hQ⟩ (ih hrest)

/-! ## What reading a dimension gives -/

/-- The grants of an `allow` block; no block grants nothing. -/
def AllowRead {α : Type} (grantOf : Json → Except Refusal α) (grants : List α) : Option Json → Prop
  | none => grants = []
  | some block => ∃ allow, block.get "allow" = some (.array allow) ∧
      List.Forall₂ (fun x g => grantOf x = .ok g) allow grants

def ListRead {α β : Type} (read : Json → Except Refusal α) (Q : α → β → Prop) (held : List β) :
    Option Json → Prop
  | none => held = []
  | some x => x ≠ .array [] ∧ ∃ grants, held.Perm grants ∧
      List.Forall₂ (fun y g => ∃ a, read y = .ok a ∧ Q a g) x.asList grants

section Reads

variable {m m' : ConfinementManifest}

theorem allowOf_ok {block : Json} {e : Refusal} {allow : List Json}
    (h : allowOf block e = .ok allow) :
    block.get "allow" = some (.array allow) := by
  obtain ⟨x, hx, harray⟩ := bind_eq_some_iff.mp (elim_eq_ok_iff.mp h)
  rw [hx, asArray_eq_some_iff.mp harray]

theorem oneOrMany_ok {clause : String} {x : Json} {items : List Json}
    (h : oneOrMany clause x = .ok items) :
    x ≠ .array [] ∧ items = x.asList := by
  cases x with
  | array l =>
    cases l with
    | nil => cases h
    | cons y ys => exact ⟨by simp, (Except.ok.inj h).symm⟩
  | null | bool _ | number _ | string _ | object _ => exact ⟨by simp, (Except.ok.inj h).symm⟩

variable {o : Option Json}

theorem readCredentialSource_ok (h : m.readCredentialSource o = .ok m')
    (hm : m.credentialSource = none) :
    ∃ source, m'.toClauses = { m.toClauses with credentialSource := source } ∧
      o = source.map string := by
  cases o with
  | none =>
    cases h
    refine ⟨none, ?_, rfl⟩
    rw [← hm]
  | some x =>
    cases x with
    | string s => exact ⟨some s, withCredentialSource_ok h, rfl⟩
    | null | bool _ | number _ | array _ | object _ => cases h

theorem readFs_ok (h : m.readFs o = .ok m') (hm : m.fsAllow = []) :
    ∃ grants, m'.toClauses = { m.toClauses with fsAllow := grants } ∧
    AllowRead fsGrantOf grants o := by
  cases o with
  | none =>
    cases h
    exact ⟨m.fsAllow, rfl, hm⟩
  | some block =>
    obtain ⟨allow, hallow, h⟩ := bind_eq_ok_iff.mp h
    obtain ⟨grants, hgrants, h⟩ := Steps.foldlM_bind h
    obtain ⟨l, hl, hm'⟩ :=
      foldlM_clause Clauses.fsAllow (fun c l => { c with fsAllow := l })
        (fun l g l' => l' = l ++ [g])
      (fun _ _ => rfl) (fun _ _ _ => rfl) (fun _ => rfl) (fun h => ⟨_, rfl, withFsGrant_ok h⟩) h
    obtain rfl : l = grants := by
      rw [steps_append hl, hm, nil_append]
    exact ⟨l, hm', allow, allowOf_ok hallow, hgrants⟩

theorem readUnixSocket_ok (h : m.readUnixSocket o = .ok m') (hm : m.unixSockets = []) :
    ∃ grants, m'.toClauses = { m.toClauses with unixSockets := grants } ∧
    AllowRead unixGrantOf grants o := by
  cases o with
  | none =>
    cases h
    exact ⟨m.unixSockets, rfl, hm⟩
  | some block =>
    obtain ⟨allow, hallow, h⟩ := bind_eq_ok_iff.mp h
    obtain ⟨grants, hgrants, h⟩ := Steps.foldlM_bind h
    obtain ⟨l, hl, hm'⟩ :=
      foldlM_clause Clauses.unixSockets (fun c l => { c with unixSockets := l })
        (fun l g l' => l' = l ++ [g])
      (fun _ _ => rfl) (fun _ _ _ => rfl) (fun _ => rfl) (fun h => ⟨_, rfl, withUnixSocket_ok h⟩) h
    obtain rfl : l = grants := by
      rw [steps_append hl, hm, nil_append]
    exact ⟨l, hm', allow, allowOf_ok hallow, hgrants⟩

def HostsRead (hosts : List String) : Option Json → Prop
  | none => hosts = []
  | some x => x = .array (hosts.map .string)

theorem hostOf_ok {x : Json} {host : String} (h : hostOf x = .ok host) : x = .string host :=
  asStr_eq_some_iff.mp (elim_eq_ok_iff.mp h)

theorem readAllowHosts_ok (h : m.readAllowHosts o = .ok m') (hm : m.allowHosts = []) :
    ∃ hosts, m'.toClauses = { m.toClauses with allowHosts := hosts } ∧ HostsRead hosts o := by
  cases o with
  | none =>
    cases h
    exact ⟨m.allowHosts, rfl, hm⟩
  | some x =>
    obtain ⟨items, hitems, h⟩ := bind_eq_ok_iff.mp h
    obtain ⟨hosts, hhosts, h⟩ := Steps.foldlM_bind h
    obtain ⟨l, hl, hm'⟩ :=
      foldlM_clause Clauses.allowHosts (fun c l => { c with allowHosts := l })
        (fun l g l' => l' = l ++ [g])
      (fun _ _ => rfl) (fun _ _ _ => rfl) (fun _ => rfl) (fun h => ⟨_, rfl, withAllowedHost_ok h⟩) h
    obtain rfl : l = hosts := by
      rw [steps_append hl, hm, nil_append]
    have hstrings : items = l.map string := by
      rw [← List.forall₂_eq_eq_eq, List.forall₂_map_right_iff]
      exact hhosts.imp fun _ _ => hostOf_ok
    refine ⟨l, hm', ?_⟩
    rw [HostsRead, asArray_eq_some_iff.mp (elim_eq_ok_iff.mp hitems), hstrings]

theorem readConnectLocal_ok (h : m.readConnectLocal o = .ok m') (hm : m.connectLocal = []) :
    ∃ ports, m'.toClauses = { m.toClauses with connectLocal := ports } ∧
      ListRead connectOf (· = ·) ports o := by
  cases o with
  | none =>
    cases h
    exact ⟨m.connectLocal, rfl, hm⟩
  | some x =>
    obtain ⟨items, hitems, h⟩ := bind_eq_ok_iff.mp h
    obtain ⟨ports, hports, h⟩ := Steps.foldlM_bind h
    obtain ⟨l, hl, hm'⟩ :=
      foldlM_clause Clauses.connectLocal (fun c l => { c with connectLocal := l }) (Joins Eq)
      (fun _ _ => rfl) (fun _ _ _ => rfl) (fun _ => rfl) withConnectLocal_ok h
    obtain ⟨grants, hgrants, hperm⟩ := steps_perm hl
    obtain ⟨hne, rfl⟩ := oneOrMany_ok hitems
    rw [hm, append_nil] at hperm
    exact ⟨l, hm', hne, grants, hperm, forall₂_comp hports hgrants⟩

theorem readPort_ok (h : m.readPort o = .ok m') (hm : m.ports = []) :
    ∃ ports, m'.toClauses = { m.toClauses with ports := ports } ∧
    ListRead portOf Grants ports o := by
  cases o with
  | none =>
    cases h
    exact ⟨m.ports, rfl, hm⟩
  | some x =>
    obtain ⟨items, hitems, h⟩ := bind_eq_ok_iff.mp h
    obtain ⟨ports, hports, h⟩ := Steps.foldlM_bind h
    obtain ⟨l, hl, hm'⟩ :=
      foldlM_clause Clauses.ports (fun c l => { c with ports := l }) (Joins Grants)
      (fun _ _ => rfl) (fun _ _ _ => rfl) (fun _ => rfl) withPortBind_ok h
    obtain ⟨grants, hgrants, hperm⟩ := steps_perm hl
    obtain ⟨hne, rfl⟩ := oneOrMany_ok hitems
    rw [hm, append_nil] at hperm
    exact ⟨l, hm', hne, grants, hperm, forall₂_comp hports hgrants⟩

end Reads

/-- The two clauses of a `network` block, one of which is there. -/
def NetworkRead (c : Clauses) : Option Json → Prop
  | none => c.allowHosts = [] ∧ c.connectLocal = []
  | some network => ∃ members, network = .object members ∧
      ((Assoc.get members "allowHosts").isSome ∨ (Assoc.get members "connectLocal").isSome) ∧
      HostsRead c.allowHosts (Assoc.get members "allowHosts") ∧
      ListRead connectOf Eq c.connectLocal (Assoc.get members "connectLocal")

variable {m : ConfinementManifest} {o : Option Json}

theorem readNetwork_ok {m m' : ConfinementManifest} (h : m.readNetwork o = .ok m')
    (hhosts : m.allowHosts = []) (hconnect : m.connectLocal = []) :
    ∃ hosts ports, m'.toClauses = { m.toClauses with allowHosts := hosts, connectLocal := ports } ∧
      NetworkRead m'.toClauses o := by
  cases o with
  | none =>
    cases h
    exact ⟨m.allowHosts, m.connectLocal, rfl, hhosts, hconnect⟩
  | some network =>
    obtain ⟨_, hsome, h⟩ := bind_eq_ok_iff.mp h
    obtain ⟨m₁, h₁, h⟩ := bind_eq_ok_iff.mp h
    rw [Except.require_eq_ok_iff] at hsome
    obtain ⟨members, rfl⟩ : ∃ members, network = .object members := by
      cases network with
      | object members => exact ⟨members, rfl⟩
      | null | bool _ | number _ | string _ | array _ => cases hsome
    obtain ⟨hosts, hm₁, hreadHosts⟩ := readAllowHosts_ok h₁ hhosts
    obtain ⟨ports, hm', hreadPorts⟩ := readConnectLocal_ok h (by rw [hm₁]; exact hconnect)
    rw [hm₁] at hm'
    refine ⟨hosts, ports, hm', members, rfl, Bool.or_eq_true _ _ ▸ hsome, ?_, ?_⟩
    · rw [hm']
      exact hreadHosts
    · rw [hm']
      exact hreadPorts

/-- What an accepted document says of its manifest's clauses. -/
structure Parsed (members : List (String × Json)) (c : Clauses) : Prop where
  keys : ∀ key ∈ members.map Prod.fst, key ∈ dimensions
  version : Assoc.get members "version" = some (.string schemaVersion)
  source : Assoc.get members "credentialSource" = c.credentialSource.map Json.string
  fs : AllowRead fsGrantOf c.fsAllow (Assoc.get members "fs")
  unixSocket : AllowRead unixGrantOf c.unixSockets (Assoc.get members "unixSocket")
  network : NetworkRead c (Assoc.get members "network")
  port : ListRead portOf Grants c.ports (Assoc.get members "port")

variable {members : List (String × Json)}

theorem checkKeys_ok (h : checkKeys members = .ok ()) :
    ∀ key ∈ members.map Prod.fst, key ∈ dimensions := by
  intro key hkey
  have hrequire := Except.forM_eq_ok_iff.mp h key hkey
  exact List.contains_iff_mem.mp (Except.require_eq_ok_iff.mp hrequire)

theorem checkVersion_ok (h : checkVersion members = .ok ()) :
    Assoc.get members "version" = some (.string schemaVersion) := by
  rw [checkVersion] at h
  split at h
  · cases h
  · rename_i version hversion
    obtain ⟨x, hx, hstr⟩ := bind_eq_some_iff.mp hversion
    rw [hx, asStr_eq_some_iff.mp hstr, eq_of_beq (Except.require_eq_ok_iff.mp h)]

theorem parseValue_ok {v : Json} (h : parseValue v = .ok m) :
    ∃ members, v = .object members ∧ Parsed members m.toClauses := by
  simp only [parseValue, bind_eq_ok_iff, elim_eq_ok_iff, asObject_eq_some_iff] at h
  obtain ⟨members, rfl, _, hkeys, _, hversion, m₁, h₁, m₂, h₂, m₃, h₃, m₄, h₄, h₅⟩ := h
  obtain ⟨source, hm₁, hsource⟩ := readCredentialSource_ok h₁ rfl
  obtain ⟨fs, hm₂, hfs⟩ := readFs_ok h₂ (by rw [hm₁]; rfl)
  obtain ⟨sockets, hm₃, hsockets⟩ := readUnixSocket_ok h₃ (by rw [hm₂, hm₁]; rfl)
  obtain ⟨hosts, connect, hm₄, hnetwork⟩ :=
    readNetwork_ok h₄ (by rw [hm₃, hm₂, hm₁]; rfl) (by rw [hm₃, hm₂, hm₁]; rfl)
  obtain ⟨ports, hm, hports⟩ := readPort_ok h₅ (by rw [hm₄, hm₃, hm₂, hm₁]; rfl)
  refine ⟨members, rfl, checkKeys_ok hkeys, checkVersion_ok hversion, ?_, ?_, ?_, ?_, ?_⟩
  · rw [hm, hm₄, hm₃, hm₂, hm₁]
    exact hsource
  · rw [hm, hm₄, hm₃, hm₂]
    exact hfs
  · rw [hm, hm₄, hm₃]
    exact hsockets
  · rw [hm]
    exact hnetwork
  · rw [hm]
    exact hports

/-! ## Blocks and grants -/

theorem onlyKeys_object {keys : List String} :
    OnlyKeys keys (.object members) ↔ ∀ key ∈ members.map Prod.fst, key ∈ keys :=
  ⟨fun h => h members rfl, fun h _ heq => object.inj heq ▸ h⟩

variable {x : Json}

theorem same_present_iff (hx : x.Distinct) {members : List (String × Option Json)}
    (h : (members.map Prod.fst).Nodup) : Same x (.object (present members)) ↔
      x.asObject.isSome ∧ OnlyKeys (members.map Prod.fst) x ∧
        ∀ m ∈ members, Option.Rel Same (x.get m.1) m.2 := by
  rw [same_object_right_iff]
  constructor
  · rintro ⟨xs, rfl, hrel⟩
    obtain ⟨hkeys, hvalues⟩ := (related_present_iff h (distinct_object_iff.mp hx).1).mp hrel
    exact ⟨rfl, onlyKeys_object.mpr hkeys, hvalues⟩
  · rintro ⟨hobject, hkeys, hvalues⟩
    obtain ⟨xs, hxs⟩ := Option.isSome_iff_exists.mp hobject
    obtain rfl := asObject_eq_some_iff.mp hxs
    exact ⟨xs, rfl, (related_present_iff h (distinct_object_iff.mp hx).1).mpr
      ⟨onlyKeys_object.mp hkeys, hvalues⟩⟩

theorem same_mode_iff (hx : x.Distinct) {mode path : String}
    (hmode : x.get "mode" = some (.string mode)) (hpath : x.get "path" = some (.string path)) :
    Same x (.object [("mode", .string mode), ("path", .string path)]) ↔ PlainGrant x := by
  have hobject : x.asObject.isSome := by
    obtain ⟨members, rfl, -⟩ := get_eq_some_iff.mp hmode
    rfl
  have hvalues : ∀ m ∈ [("mode", some (string mode)), ("path", some (string path))],
      Option.Rel Same (x.get m.1) m.2 := by
    rw [forall_mem_cons, forall_mem_singleton, hmode, hpath]
    exact ⟨.some (.string mode), .some (.string path)⟩
  change
    Same x (.object (present [("mode", some (.string mode)), ("path", some (.string path))])) ↔ _
  rw [same_present_iff hx (by simp)]
  exact ⟨fun h => h.2.1, fun h => ⟨hobject, h, hvalues⟩⟩

theorem onlyKeys_string (keys : List String) (s : String) : OnlyKeys keys (.string s) := by
  rintro members ⟨⟩

theorem get_str {key s : String} (h : (Assoc.get members key).bind asStr = some s) :
    get (.object members) key = some (.string s) := by
  obtain ⟨x, hx, hs⟩ := bind_eq_some_iff.mp h
  rw [Json.get, hx, Json.asStr_eq_some_iff.mp hs]

theorem fsGrant_same_iff {g : FsGrant} (h : fsGrantOf x = .ok g) (hx : x.Distinct) :
    Same x g.canonicalValue ↔ PlainGrant x := by
  cases x with
  | string path =>
    cases h
    exact ⟨fun _ => onlyKeys_string _ path, fun _ => .string path⟩
  | object members =>
    rw [fsGrantOf] at h
    split at h
    · cases h
    · rename_i path hpath
      dsimp only at h
      split_ifs at h with hmode
      cases h
      exact same_mode_iff hx (get_str hmode) (get_str hpath)
  | null | bool _ | number _ | array _ => cases h

theorem unixGrant_same_iff {g : UnixSocketGrant} (h : unixGrantOf x = .ok g) (hx : x.Distinct) :
    Same x g.canonicalValue ↔ PlainGrant x := by
  cases x with
  | string path =>
    cases h
    exact ⟨fun _ => onlyKeys_string _ path, fun _ => .string path⟩
  | object members =>
    rw [unixGrantOf] at h
    split at h
    · cases h
    · rename_i path hpath
      dsimp only at h
      split_ifs at h with hbind hboth
      · cases h
        exact same_mode_iff hx (get_str hbind) (get_str hpath)
      · cases h
        exact same_mode_iff hx (get_str hboth) (get_str hpath)
  | null | bool _ | number _ | array _ => cases h

theorem forall₂_iff_forall {R : α → β → Prop} {Q : α → Prop} {xs : List α}
    (h : List.Forall₂ P xs ys) (hiff : ∀ x ∈ xs, ∀ y, P x y → (R x y ↔ Q x)) :
    List.Forall₂ R xs ys ↔ ∀ x ∈ xs, Q x := by
  induction h with
  | nil => simp
  | cons hP _ ih =>
    rw [forall_mem_cons] at hiff
    rw [List.forall₂_cons, forall_mem_cons, hiff.1 _ hP, ih hiff.2]

variable {emit : α → Json}

/-- An `allow` block is written back as it is when it has no other key, no empty list and
only grants without other keys. -/
theorem allowBlock_rel_iff {grantOf : Json → Except Refusal α}
    (hgrant : ∀ {x g}, grantOf x = .ok g → x.Distinct → (Same x (emit g) ↔ PlainGrant x))
    {grants : List α} (hread : AllowRead grantOf grants o)
    (hdistinct : ∀ block ∈ o, block.Distinct) :
    Option.Rel Same o (allowBlock emit grants) ↔ ∀ block ∈ o, PlainAllow block := by
  cases o with
  | none =>
    obtain rfl : grants = [] := hread
    exact ⟨fun _ block hblock => (not_mem_none block hblock).elim, fun _ => .none⟩
  | some block =>
    obtain ⟨allow, hallow, hgrants⟩ := hread
    have hblock := hdistinct block rfl
    have hall : ∀ x ∈ allow, x.Distinct := by
      obtain ⟨members, rfl, hget⟩ := get_eq_some_iff.mp hallow
      have hvalues := (distinct_object_iff.mp hblock)
      exact distinct_array_iff.mp (hvalues.2 _ ((Assoc.get_eq_some_iff hvalues.1).mp hget))
    have hobject : block.asObject.isSome := by
      obtain ⟨members, rfl, -⟩ := get_eq_some_iff.mp hallow
      rfl
    have hsame : List.Forall₂ Same allow (grants.map emit) ↔ ∀ x ∈ allow, PlainGrant x := by
      rw [List.forall₂_map_right_iff]
      exact forall₂_iff_forall hgrants fun x hx g hg => hgrant hg (hall x hx)
    have hplain : (∀ block' ∈ some block, PlainAllow block') ↔
        OnlyKeys ["allow"] block ∧ allow ≠ [] ∧ ∀ x ∈ allow, PlainGrant x := by
      simp [PlainAllow, hallow]
    rw [hplain, ← hsame]
    cases grants with
    | nil =>
      obtain rfl := List.forall₂_nil_right_iff.mp hgrants
      exact ⟨fun h => (by cases h), fun h => absurd rfl h.2.1⟩
    | cons g grants =>
      have hne : allow ≠ [] := by
        rintro rfl
        cases hgrants
      change Option.Rel Same (some block)
        (some (.object (present [("allow", some (.array ((g :: grants).map emit)))]))) ↔ _
      rw [rel_some_some, same_present_iff hblock (by simp), forall_mem_singleton, hallow,
        rel_some_some, same_array_right_iff]
      constructor
      · rintro ⟨-, hkeys, xs, hxs, hrel⟩
        obtain rfl := array.inj hxs
        exact ⟨hkeys, hne, hrel⟩
      · rintro ⟨hkeys, -, hrel⟩
        exact ⟨hobject, hkeys, allow, rfl, hrel⟩

/-! ## Lists of ports -/

variable {xs : List Json}

theorem asList_scalarOrList (h : ∀ x ∈ xs, x.asArray = none) : (scalarOrList xs).asList = xs := by
  match xs, h with
  | [], _ => rfl
  | [x], h =>
    cases x with
    | array items => cases h _ (List.mem_singleton.mpr rfl)
    | null | bool _ | number _ | string _ | object _ => rfl
  | x :: y :: rest, _ => rfl

theorem distinct_asList (h : x.Distinct) : ∀ y ∈ x.asList, y.Distinct := by
  cases x with
  | array items => exact distinct_array_iff.mp h
  | null | bool _ | number _ | string _ | object _ => exact forall_mem_singleton.mpr h

theorem list_rel_iff {read : Json → Except Refusal α} {Q : α → β → Prop} (emit : β → Json)
    (Whole : Json → Prop) (harray : ∀ g, (emit g).asArray = none)
    (hto : ∀ {y g}, y.Distinct → Same y (emit g) → Whole y)
    (hfrom : ∀ {y a g}, read y = .ok a → Q a g → y.Distinct → Whole y → Same y (emit g))
    {held : List β} (hread : ListRead read Q held o) (hdistinct : ∀ x ∈ o, x.Distinct) :
    Option.Rel SameList o (unlessEmpty held (scalarOrList (held.map emit))) ↔
      ∀ x ∈ o, ∀ y ∈ x.asList, Whole y := by
  cases o with
  | none =>
    obtain rfl : held = [] := hread
    exact ⟨fun _ x hx => (not_mem_none x hx).elim, fun _ => .none⟩
  | some x =>
    obtain ⟨hne, grants, hperm, hgrants⟩ := hread
    have hitems := distinct_asList (hdistinct x rfl)
    have hheld : held.isEmpty = false := by
      rw [List.isEmpty_eq_false_iff]
      rintro rfl
      rw [List.nil_perm.mp hperm] at hgrants
      have hnil := List.forall₂_nil_right_iff.mp hgrants
      cases x with
      | array items => exact hne (congrArg array hnil)
      | null | bool _ | number _ | string _ | object _ => cases hnil
    have hlist : (scalarOrList (held.map emit)).asList = held.map emit := by
      refine asList_scalarOrList fun y hy => ?_
      obtain ⟨g, -, rfl⟩ := mem_map.mp hy
      exact harray g
    rw [unlessEmpty, hheld, if_neg Bool.false_ne_true, rel_some_some, SameList, hlist]
    constructor
    · rintro ⟨l, hl, hsame⟩ _ ⟨⟩ y hy
      obtain ⟨z, hz, hyz⟩ := Assoc.forall₂_mem_left hsame hy
      obtain ⟨g, -, rfl⟩ := mem_map.mp (hl.mem_iff.mpr hz)
      exact hto (hitems y hy) hyz
    · intro hwhole
      refine ⟨grants.map emit, hperm.map emit, List.forall₂_map_right_iff.mpr ?_⟩
      refine (forall₂_iff_forall hgrants fun y hy g hg => ?_).mpr fun _ _ => trivial
      obtain ⟨a, ha, hQ⟩ := hg
      exact iff_of_true (hfrom ha hQ (hitems y hy) (hwhole x rfl y hy)) trivial

variable {port : UInt16}

theorem portNumber_toU16 {n : UInt64} (h : toU16 n = some port) :
    portNumber port = .number (.posInt n) := by
  rw [toU16] at h
  split_ifs at h with hlt
  cases h
  rw [portNumber]
  congr 2
  apply UInt64.toNat_inj.mp
  exact Nat.mod_eq_of_lt hlt

theorem connectOf_ok (h : connectOf x = .ok port) : x = portNumber port := by
  rw [connectOf] at h
  split at h
  · cases h
  · rename_i n hn
    rw [portNumber_toU16 (elim_eq_ok_iff.mp h)]
    exact asU64_eq_some_iff.mp hn

theorem connect_rel {ports : List UInt16} (hread : ListRead connectOf Eq ports o)
    (hdistinct : ∀ x ∈ o, x.Distinct) :
    Option.Rel SameList o (unlessEmpty ports (scalarOrList (ports.map portNumber))) := by
  refine (list_rel_iff portNumber (fun _ => True) (fun _ => rfl) (fun _ _ => trivial) ?_ hread
    hdistinct).mpr
    fun _ _ _ _ => trivial
  rintro y a _ ha rfl - -
  rw [connectOf_ok ha]
  exact .number _

variable {p : UInt16 × Option String}

theorem portOf_ok (h : portOf x = .ok p) :
    x.asObject.isSome ∧ x.get "bind" = some (portNumber p.1) ∧
    p.2 = (x.get "address").bind asStr := by
  rw [portOf] at h
  split_ifs at h with hobject
  split at h
  · cases h
  · rename_i n hn
    obtain ⟨y, hy, hnumber⟩ := bind_eq_some_iff.mp hn
    cases hport : toU16 n with
    | none =>
      rw [hport] at h
      cases h
    | some port =>
      rw [hport] at h
      cases h
      refine ⟨?_, ?_, rfl⟩
      · exact Option.isSome_iff_ne_none.mpr (by simpa using hobject)
      · rw [hy, asU64_eq_some_iff.mp hnumber, ← portNumber_toU16 hport]

variable {g : PortGrant}

theorem plainPort_of_same (hx : x.Distinct) (h : Same x g.canonicalValue) : PlainPort x := by
  obtain ⟨-, hkeys, hvalues⟩ := (same_present_iff hx (by simp)).mp h
  refine ⟨hkeys, fun address haddress => ?_⟩
  have hrel := (forall_mem_cons.mp hvalues).1
  rw [Option.mem_def.mp haddress] at hrel
  cases hg : g.address with
  | none =>
    rw [hg] at hrel
    cases hrel
  | some s =>
    rw [hg] at hrel
    exact ⟨s, same_string_iff.mp (rel_some_some.mp hrel)⟩

theorem same_of_plainPort (h : portOf x = .ok p)
    (hg : Grants p g) (hx : x.Distinct) (hplain : PlainPort x) : Same x g.canonicalValue := by
  obtain ⟨hobject, hbind, haddress⟩ := portOf_ok h
  refine (same_present_iff hx (by simp)).mpr ⟨hobject, hplain.1, ?_⟩
  rw [forall_mem_cons, forall_mem_singleton, hg.1, hg.2, haddress, hbind]
  refine ⟨?_, .some (.number _)⟩
  cases hget : x.get "address" with
  | none => exact .none
  | some address =>
    obtain ⟨s, rfl⟩ := hplain.2 address hget
    exact .some (.string s)

theorem port_rel_iff {ports : List PortGrant} (hread : ListRead portOf Grants ports o)
    (hdistinct : ∀ x ∈ o, x.Distinct) :
    Option.Rel SameList o (unlessEmpty ports (scalarOrList (ports.map PortGrant.canonicalValue))) ↔
      ∀ x ∈ o, ∀ y ∈ x.asList, PlainPort y :=
  list_rel_iff PortGrant.canonicalValue PlainPort (fun _ => rfl) plainPort_of_same
    same_of_plainPort hread hdistinct

/-! ## The network block -/

theorem hosts_rel_iff {hosts : List String} (hread : HostsRead hosts o) :
    Option.Rel Same o (unlessEmpty hosts (.array (hosts.map .string))) ↔ o ≠ some (.array []) := by
  cases o with
  | none =>
    obtain rfl : hosts = [] := hread
    exact ⟨fun _ => by simp, fun _ => .none⟩
  | some x =>
    obtain rfl : x = .array (hosts.map .string) := hread
    cases hosts with
    | nil => exact ⟨fun h => (by cases h), fun h => absurd rfl h⟩
    | cons host hosts =>
      refine iff_of_true (.some (.array (List.forall₂_same.mpr fun y hy => ?_))) (by simp)
      obtain ⟨s, -, rfl⟩ := mem_map.mp hy
      exact .string s

theorem network_rel_iff {c : Clauses} (hread : NetworkRead c o) (hdistinct : ∀ x ∈ o, x.Distinct) :
    Option.Rel SameNetwork o c.network ↔ ∀ network ∈ o, PlainNetwork network := by
  cases o with
  | none =>
    have hnone : c.network = none := by rw [Clauses.network, hread.1, hread.2]; rfl
    rw [hnone]
    exact ⟨fun _ x hx => (not_mem_none x hx).elim, fun _ => .none⟩
  | some network =>
    obtain ⟨xs, rfl, hsome, hhosts, hconnect⟩ := hread
    obtain ⟨hkeys, hvalues⟩ := distinct_object_iff.mp (hdistinct _ rfl)
    have hconnectRel := connect_rel hconnect fun x hx =>
      hvalues _ ((Assoc.get_eq_some_iff hkeys).mp hx)
    have hplain : (∀ network ∈ some (object xs), PlainNetwork network) ↔
        (∀ key ∈ xs.map Prod.fst, key ∈ c.networkMembers.map Prod.fst) ∧
          Assoc.get xs "allowHosts" ≠ some (.array []) := by
      simp only [Option.mem_some_iff, forall_eq', PlainNetwork, onlyKeys_object]
      rfl
    rw [hplain, Clauses.network]
    split_ifs with hempty
    · -- a block that grants nothing has an empty list of hosts
      refine ⟨fun h => (by cases h), fun h => ?_⟩
      obtain ⟨hnoHosts, hnoPorts⟩ : c.allowHosts = [] ∧ c.connectLocal = [] := by simpa using hempty
      rw [hnoHosts] at hhosts
      rw [hnoPorts] at hconnectRel
      rcases hsome with hsome | hsome
      · obtain ⟨x, hx⟩ := Option.isSome_iff_exists.mp hsome
        rw [hx] at hhosts
        exact absurd (hx.trans (congrArg some hhosts)) h.2
      · obtain ⟨x, hx⟩ := Option.isSome_iff_exists.mp hsome
        rw [hx] at hconnectRel
        cases hconnectRel
    · have hrel : SameNetwork (.object xs) (.object (present c.networkMembers)) ↔
          Assoc.Related (fun key => if key = "connectLocal" then SameList else Same) xs
            (present c.networkMembers) := by
        constructor
        · rintro ⟨_, _, ⟨⟩, ⟨⟩, h⟩
          exact h
        · exact fun h => ⟨_, _, rfl, rfl, h⟩
      rw [rel_some_some, hrel, related_present_iff (by simp [Clauses.networkMembers]) hkeys]
      refine and_congr_right fun _ => ?_
      rw [Clauses.networkMembers, forall_mem_cons, forall_mem_singleton]
      dsimp only
      rw [if_neg (by decide), if_pos rfl, hosts_rel_iff hhosts]
      exact ⟨fun h => h.1, fun h => ⟨h, hconnectRel⟩⟩

/-! ## The document -/

/-- A document without repeated keys is written back as it is exactly when every member
of it is read. -/
theorem sameDocument_iff (h : parseValue x = .ok m) (hx : x.Distinct) :
    SameDocument x m.canonicalValue ↔ Plain x := by
  obtain ⟨members, rfl, hparsed⟩ := parseValue_ok h
  obtain ⟨hkeys, hvalues⟩ := distinct_object_iff.mp hx
  have hdistinct : ∀ key, ∀ v ∈ Assoc.get members key, v.Distinct := fun key v hv =>
    hvalues _ ((Assoc.get_eq_some_iff hkeys).mp hv)
  have hrel : SameDocument (.object members) m.canonicalValue ↔
      Assoc.Related SameClause members (present m.toClauses.members) := by
    constructor
    · rintro ⟨_, _, ⟨⟩, ⟨⟩, h⟩
      exact h
    · exact fun h => ⟨_, _, rfl, rfl, h⟩
  have hsource : Option.Rel Same (Assoc.get members "credentialSource")
      (m.credentialSource.map string) := by
    rw [hparsed.source]
    cases m.credentialSource with
    | none => exact .none
    | some s => exact .some (.string s)
  have hversion : Option.Rel Same (Assoc.get members "version") (some (.string schemaVersion)) := by
    rw [hparsed.version]
    exact .some (.string _)
  have hknown : ∀ key ∈ members.map Prod.fst, key ∈ m.toClauses.members.map Prod.fst := by
    intro key hkey
    have hdim := hparsed.keys key hkey
    simp only [dimensions, List.mem_cons, not_mem_nil, or_false] at hdim
    simp only [Clauses.members, List.map_cons, List.map_nil, List.mem_cons, not_mem_nil, or_false]
    tauto
  rw [hrel, related_present_iff (by simp [Clauses.members]) hkeys]
  simp only [Clauses.members, forall_mem_cons, not_mem_nil, false_imp_iff, implies_true, and_true]
  rw [show SameClause "credentialSource" = Same from rfl, show SameClause "fs" = Same from rfl,
    show SameClause "network" = SameNetwork from rfl, show SameClause "port" = SameList from rfl,
    show SameClause "unixSocket" = Same from rfl, show SameClause "version" = Same from rfl,
    allowBlock_rel_iff fsGrant_same_iff hparsed.fs (hdistinct "fs"),
    network_rel_iff hparsed.network (hdistinct "network"),
    port_rel_iff hparsed.port (hdistinct "port"),
    allowBlock_rel_iff unixGrant_same_iff hparsed.unixSocket (hdistinct "unixSocket")]
  constructor
  · rintro ⟨-, -, hfs, hnetwork, hport, hsockets, -⟩
    exact ⟨hx, hfs, hsockets, hnetwork, hport⟩
  · rintro ⟨-, hfs, hsockets, hnetwork, hport⟩
    exact ⟨hknown, hsource, hfs, hnetwork, hport, hsockets, hversion⟩

/-! ## Repeated keys -/

variable {y : Json}

theorem sameList_distinct {x : Json} (h : SameList x y) (hy : y.Distinct) : x.Distinct := by
  obtain ⟨l, hperm, hsame⟩ := h
  have hitems : ∀ z ∈ x.asList, z.Distinct := by
    intro z hz
    obtain ⟨w, hw, hzw⟩ := Assoc.forall₂_mem_left hsame hz
    exact hzw.distinct (distinct_asList hy w (hperm.mem_iff.mpr hw))
  cases x with
  | array items => exact .array hitems
  | null | bool _ | number _ | string _ | object _ => exact hitems _ (List.mem_singleton.mpr rfl)

theorem related_distinct {R : String → Json → Json → Prop}
    (hR : ∀ {key x y}, R key x y → y.Distinct → x.Distinct) {xs ys : List (String × Json)}
    (h : Assoc.Related R xs ys) (hys : (object ys).Distinct) : (object xs).Distinct := by
  obtain ⟨hkeys, hvalues⟩ := distinct_object_iff.mp hys
  refine .object (h.nodup hkeys) fun m hm => ?_
  obtain ⟨w, hw, hmw⟩ := h.mem hm
  exact hR hmw (hvalues _ hw)

theorem sameNetwork_distinct {x : Json} (h : SameNetwork x y) (hy : y.Distinct) : x.Distinct := by
  obtain ⟨xs, ys, rfl, rfl, hrel⟩ := h
  refine related_distinct (fun {key x y} hxy hy => ?_) hrel hy
  split_ifs at hxy
  · exact sameList_distinct hxy hy
  · exact hxy.distinct hy

theorem sameDocument_distinct {x : Json} (h : SameDocument x y) (hy : y.Distinct) : x.Distinct := by
  obtain ⟨xs, ys, rfl, rfl, hrel⟩ := h
  refine related_distinct (fun {key x y} hxy hy => ?_) hrel hy
  unfold SameClause at hxy
  split_ifs at hxy
  · exact sameList_distinct hxy hy
  · exact sameNetwork_distinct hxy hy
  · exact hxy.distinct hy

theorem distinct_present {members : List (String × Option Json)}
    (hkeys : (members.map Prod.fst).Nodup)
    (h : ∀ m ∈ members, ∀ v ∈ m.2, v.Distinct) : (object (present members)).Distinct :=
  .object (nodup_present hkeys) fun _ hm => h _ (mem_present.mp hm) _ rfl

theorem distinct_unlessEmpty {l : List α} {value : Json} (h : value.Distinct) :
    ∀ v ∈ unlessEmpty l value, v.Distinct := by
  intro v hv
  rw [unlessEmpty] at hv
  split_ifs at hv
  · cases hv
  · exact Option.some.inj hv ▸ h

theorem distinct_map (h : ∀ a, (emit a).Distinct) (l : List α) : ∀ x ∈ l.map emit, x.Distinct := by
  intro x hx
  obtain ⟨a, -, rfl⟩ := mem_map.mp hx
  exact h a

theorem distinct_scalarOrList (h : ∀ x ∈ xs, x.Distinct) : (scalarOrList xs).Distinct := by
  match xs, h with
  | [], h => exact .array h
  | [x], h => exact h x (List.mem_singleton.mpr rfl)
  | x :: y :: rest, h => exact .array h

theorem distinct_mode (mode path : String) :
    (object [("mode", .string mode), ("path", .string path)]).Distinct :=
  .object (by simp) (by simp [Json.Distinct.string])

theorem distinct_allowBlock (h : ∀ a, (emit a).Distinct) (grants : List α) :
    ∀ v ∈ allowBlock emit grants, v.Distinct :=
  distinct_unlessEmpty
    (.object (by simp) (forall_mem_singleton.mpr (.array (distinct_map h grants))))

theorem distinct_canonicalValue (m : ConfinementManifest) : m.canonicalValue.Distinct := by
  have hstring : ∀ o : Option String, ∀ v ∈ o.map string, v.Distinct := by
    rintro (_ | s) v hv
    · cases hv
    · exact Option.some.inj hv ▸ .string s
  have hfs : ∀ g : FsGrant, g.canonicalValue.Distinct := by
    rintro (path | path)
    · exact .string path
    · exact distinct_mode _ _
  have hsocket : ∀ g : UnixSocketGrant, g.canonicalValue.Distinct := by
    rintro (path | path | path)
    · exact .string path
    · exact distinct_mode _ _
    · exact distinct_mode _ _
  have hport : ∀ g : PortGrant, g.canonicalValue.Distinct := by
    intro g
    refine distinct_present (by simp) ?_
    rw [forall_mem_cons, forall_mem_singleton]
    exact ⟨hstring g.address, fun v hv => Option.some.inj hv ▸ .number _⟩
  have hnetwork : ∀ v ∈ m.network, v.Distinct := by
    intro v hv
    rw [Clauses.network] at hv
    split_ifs at hv
    · cases hv
    · refine Option.some.inj hv ▸ distinct_present (by simp [Clauses.networkMembers]) ?_
      rw [Clauses.networkMembers, forall_mem_cons, forall_mem_singleton]
      exact ⟨distinct_unlessEmpty (.array (distinct_map .string _)),
        distinct_unlessEmpty (distinct_scalarOrList (distinct_map (fun _ => .number _) _))⟩
  refine distinct_present (by simp [Clauses.members]) ?_
  simp only [Clauses.members, forall_mem_cons, not_mem_nil, false_imp_iff, implies_true, and_true]
  exact ⟨hstring _, distinct_allowBlock hfs _, hnetwork,
    distinct_unlessEmpty (distinct_scalarOrList (distinct_map hport _)),
    distinct_allowBlock hsocket _, fun v hv => Option.some.inj hv ▸ .string _⟩

/-! ## Digests -/

/-- What an accepted document is written back as. A document that repeats a key is never
written back as it was. -/
theorem sameDocument_iff_plain (h : parseValue x.collapse = .ok m) :
    SameDocument x m.canonicalValue ↔ Plain x := by
  by_cases hx : x.Distinct
  · rw [collapse_of_distinct hx] at h
    exact sameDocument_iff h hx
  · exact ⟨fun hsame => absurd (sameDocument_distinct hsame (distinct_canonicalValue m)) hx,
      fun hplain => absurd hplain.distinct hx⟩

section Digest

variable {Text Hash : Type} {serde : SerdeJson Text} {blake3 : Text → Hash}

theorem parse_ok {document : Text} {x : Json} (hx : serde.tree document = .ok x)
    (h : parse serde document = .ok m) : parseValue x.collapse = .ok m := by
  simp only [parse, bind_eq_ok_iff, Except.mapError_eq_ok_iff] at h
  obtain ⟨x', hx', h⟩ := h
  cases hx.symm.trans hx'
  exact h

theorem canonicalValue_of_digest
    (hserde : ∀ m : ConfinementManifest, serde.tree (serde.toStringPretty m.canonicalValue) =
      .ok m.canonicalValue)
    (hblake3 : Function.Injective blake3) {m m' : ConfinementManifest}
    (h : m.confinementDigest serde blake3 = m'.confinementDigest serde blake3) :
    m.canonicalValue = m'.canonicalValue := by
  have htext := congrArg serde.tree (hblake3 h)
  rw [hserde, hserde] at htext
  exact Except.ok.inj htext

/-- An accepted document is written back as the same document exactly when every member
of it is read; and two such documents with one digest declare the same clauses. -/
theorem confinement_declared
    (hserde : ∀ m : ConfinementManifest, serde.tree (serde.toStringPretty m.canonicalValue) =
      .ok m.canonicalValue)
    (hblake3 : Function.Injective blake3) :
    (∀ document x m, serde.tree document = .ok x → parse serde document = .ok m →
        (SameDocument x m.canonicalValue ↔ Plain x)) ∧
      ∀ document document' x x' m m', serde.tree document = .ok x → serde.tree document' = .ok x' →
        parse serde document = .ok m → parse serde document' = .ok m' →
        Plain x → Plain x' → m.confinementDigest serde blake3 = m'.confinementDigest serde blake3 →
        ∃ v, SameDocument x v ∧ SameDocument x' v := by
  have hiff : ∀ {document x m}, serde.tree document = .ok x →
      parse serde document = .ok m → (SameDocument x m.canonicalValue ↔ Plain x) :=
    fun hx h => sameDocument_iff_plain (parse_ok hx h)
  refine ⟨fun _ _ _ => hiff,
    fun document document' x x' m m' hx hx' h h' hplain hplain' hdigest => ?_⟩
  refine ⟨m.canonicalValue, (hiff hx h).mpr hplain, ?_⟩
  rw [canonicalValue_of_digest hserde hblake3 hdigest]
  exact (hiff hx' h').mpr hplain'

end Digest

/-! ## Members that are dropped -/

def treeSerde : SerdeJson Json := ⟨.ok, id⟩

def versioned (members : List (String × Json)) : Json :=
  .object (("version", .string schemaVersion) :: members)

def numberOf (n : UInt64) : Json := .number (.posInt n)

/-- A second key beside `allow`. -/
def denying : Json :=
  versioned [("fs",
    .object [("allow", .array [.string "/srv/"]), ("deny", .array [.string "/srv/keys"])])]

def allowingNothing : Json := versioned [("fs", .object [("allow", .array [])])]

def misaddressed : Json :=
  versioned [("port", .object [("bind", numberOf 8080), ("address", .array [])])]

def repeating : Json :=
  versioned [("port", .object [("bind", numberOf 8080)]),
    ("port", .object [("bind", numberOf 9090)])]

theorem exists_of_isOk {ε α : Type} {r : Except ε α} (h : r.isOk = true) : ∃ a, r = .ok a := by
  cases r with
  | error e => cases h
  | ok a => exact ⟨a, rfl⟩

/-- The document parses, and its canonical value is not the same document. -/
def Drops (x : Json) : Prop :=
  ∃ m, parse treeSerde x = .ok m ∧ ¬ SameDocument x m.canonicalValue

theorem dropped (hok : (parseValue x.collapse).isOk = true) (hnot : ¬ Plain x) : Drops x := by
  obtain ⟨m, h⟩ := exists_of_isOk hok
  exact ⟨m, h, fun hsame => hnot ((sameDocument_iff_plain h).mp hsame)⟩

theorem members_dropped : Drops denying ∧ Drops allowingNothing ∧ Drops misaddressed ∧
    Drops repeating := by
  refine ⟨dropped (by decide +kernel) fun h => ?_, dropped (by decide +kernel) fun h => ?_,
    dropped (by decide +kernel) fun h => ?_, dropped (by decide +kernel) fun h => ?_⟩
  · have hkey := (h.fs _ rfl).1 _ rfl "deny" (by simp)
    simp at hkey
  · exact ((h.fs _ rfl).2 [] rfl).1 rfl
  · obtain ⟨s, hs⟩ := (h.port _ rfl _ List.mem_cons_self).2 _ rfl
    cases hs
  · have hnodup := (Json.distinct_object_iff.mp h.distinct).1
    simp at hnodup

def listening : Json :=
  versioned [("port",
    .array [.object [("bind", numberOf 9090)], .object [("bind", numberOf 8080)]])]

theorem listening_plain : Plain listening where
  distinct := by
    simp [listening, versioned, distinct_object_iff, distinct_array_iff, Json.Distinct.string,
      Json.Distinct.number, numberOf]
  fs := by
    rintro block ⟨⟩
  unixSocket := by
    rintro block ⟨⟩
  network := by
    rintro network ⟨⟩
  port := by
    rintro ports ⟨⟩ port hport
    rcases List.mem_pair.mp hport with rfl | rfl
    all_goals exact ⟨onlyKeys_object.mpr (by simp), by rintro address ⟨⟩⟩

theorem confinement_declared_listening :
    ∃ m, parse treeSerde listening = .ok m ∧ SameDocument listening m.canonicalValue := by
  have hok : (parseValue listening.collapse).isOk = true := by decide +kernel
  obtain ⟨m, h⟩ := exists_of_isOk hok
  exact ⟨m, h,
    ((@confinement_declared Json Json treeSerde id (fun _ => rfl) Function.injective_id).1
    listening listening m rfl h).mpr listening_plain⟩

end LeyLine.Confinement
