import LeyLine.Share.Messages

/-!
# The header codec of a share

`runtime/src/backends/libkrun/share/codec.rs`: a request or a reply is written as one
Cap'n Proto message, its bytes kept out as the frame's payload, and read back from one.
The Cap'n Proto library is a parameter. Of it a reader asks that a message it reads from
what was written is the one written; every request and every reply then survives
(`request_header`, `reply_header`), and whatever the bytes, one is accepted only if it
fills its header and carries a payload only where its kind has one (`request_accepts`,
`reply_accepts`).
-/

namespace LeyLine.Share

open Except (bind_eq_ok_iff)

/-! ## The library -/

inductive Fault where
  | invalidData (message : String)
  | unexpectedEof
  | io
  deriving DecidableEq, Repr

/-- Messages with a root of type `R`: writing one may panic on its size, reading one
returns what follows it. A pointer that does not resolve fails the reading. -/
structure MessageLib (R : Type) where
  write : R → Option Bytes
  read : Bytes → Except String (R × Bytes)

/-- What is read from a written message is what was written. The reader may refuse it, as
it does beyond its traversal limit. -/
def MessageLib.ReadsBack {R : Type} (lib : MessageLib R) : Prop :=
  ∀ root bytes, lib.write root = some bytes → ∀ found rest, lib.read bytes = .ok (found, rest) →
    found = root

structure Capnp where
  request : MessageLib Wire.Request
  reply : MessageLib Wire.Reply
  notInSchema : UInt16 → String

structure Capnp.ReadsBack (capnp : Capnp) : Prop where
  request : capnp.request.ReadsBack
  reply : capnp.reply.ReadsBack

def invalid (error : String) : Fault := .invalidData s!"share frame header: {error}"

def read {R T : Type} (lib : MessageLib R) (bytes : Bytes) (decode : R → Except String T) :
    Except Fault T := do
  let (message, rest) ← (lib.read bytes).mapError invalid
  let left := rest.length
  .require rest.isEmpty (invalid s!"{left} bytes follow the header's message")
  (decode message).mapError invalid

def noPayload (payload : Bytes) (kind : String) : Except Fault Unit :=
  let size := payload.length
  .require payload.isEmpty (invalid s!"a {kind} carries no payload; the frame has {size} bytes")

/-! ## Times, optionals, attributes -/

def setTime (t : Duration) : Wire.Time := { secs := t.secs, nanos := t.nanos }

def time (input : Wire.Time) : Except String Duration :=
  let nanos := input.nanos
  if h : input.nanos < 1000000000
    then .ok { secs := input.secs, nanos := input.nanos, nanos_lt := h }
  else .error s!"a time's nanosecond count is {nanos}, not under one second"

def setU64 : Option UInt64 → Wire.OptionalU64
  | some value => { set := true, value }
  | none => {}

def optU64 (input : Wire.OptionalU64) : Option UInt64 :=
  if input.set then some input.value else none

def setU32 : Option UInt32 → Wire.OptionalU32
  | some value => { set := true, value }
  | none => {}

def optU32 (input : Wire.OptionalU32) : Option UInt32 :=
  if input.set then some input.value else none

def setAttr (a : Attr) : Wire.Attr :=
  { inode := a.inode, mode := a.mode, nlink := a.nlink, size := a.size, blocks := a.blocks,
    blksize := a.blksize,
    atime := setTime a.atime, mtime := setTime a.mtime, ctime := setTime a.ctime }

def attr (input : Wire.Attr) : Except String Attr := do
  let atime ← time input.atime
  let mtime ← time input.mtime
  let ctime ← time input.ctime
  .ok { inode := input.inode, mode := input.mode, nlink := input.nlink, size := input.size,
        blocks := input.blocks, blksize := input.blksize, atime, mtime, ctime }

def setEntry (e : Entry) : Wire.Entry :=
  { inode := e.inode, attr := setAttr e.attr, entryTtl := setTime e.entryTtl,
    attrTtl := setTime e.attrTtl }

def entry (input : Wire.Entry) : Except String Entry := do
  let a ← attr input.attr
  let entryTtl ← time input.entryTtl
  let attrTtl ← time input.attrTtl
  .ok { inode := input.inode, attr := a, entryTtl, attrTtl }

def setDirEntry (e : DirEntry) : Wire.DirEntry :=
  { inode := e.inode, offset := e.offset, kind := e.kind, name := e.name }

def dirEntry (input : Wire.DirEntry) : DirEntry :=
  { inode := input.inode, offset := input.offset, kind := input.kind, name := input.name }

@[simp] theorem time_setTime (t : Duration) : time (setTime t) = .ok t := by
  rw [time, setTime, dif_pos t.nanos_lt]

@[simp] theorem optU64_setU64 (o : Option UInt64) : optU64 (setU64 o) = o := by
  cases o <;> rfl

@[simp] theorem optU32_setU32 (o : Option UInt32) : optU32 (setU32 o) = o := by
  cases o <;> rfl

@[simp] theorem attr_setAttr (a : Attr) : attr (setAttr a) = .ok a := by
  simp only [attr, setAttr, time_setTime, bind, Except.bind]

@[simp] theorem entry_setEntry (e : Entry) : entry (setEntry e) = .ok e := by
  simp only [entry, setEntry, attr_setAttr, time_setTime, bind, Except.bind]

/-! ## Requests -/

/-- What `request_header` sets. -/
def requestMessage : Request → Wire.Request
  | .init => .init
  | .lookup parent name => .lookup { parent, name }
  | .getattr inode handle => .getattr { inode, handle := setU64 handle }
  | .setattr inode handle size mode uid gid =>
    .setattr { inode, handle := setU64 handle, size := setU64 size, mode := setU32 mode,
               uid := setU32 uid, gid := setU32 gid }
  | .mkdir parent name => .mkdir { parent, name }
  | .unlink parent name => .unlink { parent, name }
  | .rmdir parent name => .rmdir { parent, name }
  | .rename olddir oldname newdir newname flags =>
    .rename { olddir, oldname, newdir, newname, flags }
  | .open inode flags => .open { inode, flags }
  | .create parent name flags => .create { parent, name, flags }
  | .read handle offset size => .read { handle, offset, size }
  | .write handle offset _ => .write { handle, offset }
  | .flush handle => .flush handle
  | .fsync handle => .fsync handle
  | .release handle => .release handle
  | .opendir inode => .opendir inode
  | .readdir inode offset => .readdir { inode, offset }
  | .readdirplus inode offset => .readdirplus { inode, offset }
  | .symlink parent name target => .symlink { parent, name, target }
  | .readlink inode => .readlink inode

variable (capnp : Capnp)

def requestHeader (r : Request) : Option Bytes := capnp.request.write (requestMessage r)

/-- What `request` reads from the message; the bytes of a write come later. -/
def requestOf : Wire.Request → Except String Request
  | .init => .ok .init
  | .lookup r => .ok (.lookup r.parent r.name)
  | .getattr r => .ok (.getattr r.inode (optU64 r.handle))
  | .setattr r =>
    .ok (.setattr r.inode (optU64 r.handle) (optU64 r.size) (optU32 r.mode) (optU32 r.uid)
      (optU32 r.gid))
  | .mkdir r => .ok (.mkdir r.parent r.name)
  | .unlink r => .ok (.unlink r.parent r.name)
  | .rmdir r => .ok (.rmdir r.parent r.name)
  | .rename r => .ok (.rename r.olddir r.oldname r.newdir r.newname r.flags)
  | .open r => .ok (.open r.inode r.flags)
  | .create r => .ok (.create r.parent r.name r.flags)
  | .read r => .ok (.read r.handle r.offset r.size)
  | .write r => .ok (.write r.handle r.offset [])
  | .flush handle => .ok (.flush handle)
  | .fsync handle => .ok (.fsync handle)
  | .release handle => .ok (.release handle)
  | .opendir inode => .ok (.opendir inode)
  | .readdir r => .ok (.readdir r.inode r.offset)
  | .readdirplus r => .ok (.readdirplus r.inode r.offset)
  | .symlink r => .ok (.symlink r.parent r.name r.target)
  | .readlink inode => .ok (.readlink inode)
  | .unknown tag => .error (capnp.notInSchema tag)

def withPayload (payload : Bytes) : Request → Except Fault Request
  | .write handle offset _ => .ok (.write handle offset payload)
  | other => do
    noPayload payload "request other than WRITE"
    .ok other

def request (bytes payload : Bytes) : Except Fault Request := do
  let r ← read capnp.request bytes (requestOf capnp)
  withPayload payload r

/-- The bytes `write_request` puts beside the header. -/
def Request.payload : Request → Bytes
  | .write _ _ data => data
  | _ => []

/-! ## Replies -/

/-- A listing's length as a Cap'n Proto list length, or a panic. -/
def listLen {α : Type} (entries : List α) : Option (List α) :=
  if entries.length < 2 ^ 32 then some entries else none

theorem listLen_eq_some {α : Type} {entries l : List α} (h : listLen entries = some l) :
    entries = l :=
  Option.some.inj (Option.ite_none_right_eq_some.mp h).2

/-- What `reply_header` sets. -/
def replyMessage : Reply → Option Wire.Reply
  | .error errno => some (.error errno)
  | .init want => some (.init want)
  | .entry e => some (.entry (setEntry e))
  | .attr a ttl => some (.attr { attr := setAttr a, ttl := setTime ttl })
  | .opened handle flags => some (.opened { handle, flags })
  | .created e handle flags => some (.created { entry := setEntry e, handle, flags })
  | .data _ => some .data
  | .written size => some (.written size)
  | .done => some .done
  | .dir entries => (listLen entries).map fun entries => .dir (entries.map setDirEntry)
  | .dirPlus entries =>
    (listLen entries).map fun entries =>
      .dirPlus (entries.map fun e => { dir := setDirEntry e.1, entry := setEntry e.2 })

def replyHeader (r : Reply) : Option Bytes := (replyMessage r).bind capnp.reply.write

def dirPlusEntry (input : Wire.DirPlusEntry) : Except String (DirEntry × Entry) := do
  let e ← entry input.entry
  .ok (dirEntry input.dir, e)

/-- What `reply` reads from the message; the bytes of a read come later. -/
def replyOf : Wire.Reply → Except String Reply
  | .error errno => .ok (.error errno)
  | .init want => .ok (.init want)
  | .entry r => do
    let e ← entry r
    .ok (.entry e)
  | .attr r => do
    let a ← attr r.attr
    let ttl ← time r.ttl
    .ok (.attr a ttl)
  | .opened r => .ok (.opened r.handle r.flags)
  | .created r => do
    let e ← entry r.entry
    .ok (.created e r.handle r.flags)
  | .data => .ok (.data [])
  | .written size => .ok (.written size)
  | .done => .ok .done
  | .dir r => .ok (.dir (r.map dirEntry))
  | .dirPlus r => do
    let entries ← r.mapM dirPlusEntry
    .ok (.dirPlus entries)
  | .unknown tag => .error (capnp.notInSchema tag)

def withData (payload : Bytes) : Reply → Except Fault Reply
  | .data _ => .ok (.data payload)
  | other => do
    noPayload payload "reply other than DATA"
    .ok other

def reply (bytes payload : Bytes) : Except Fault Reply := do
  let r ← read capnp.reply bytes (replyOf capnp)
  withData payload r

/-- The bytes `write_reply` puts beside the header. -/
def Reply.payload : Reply → Bytes
  | .data bytes => bytes
  | _ => []

/-! ## What survives -/

section

variable {capnp : Capnp}

variable {bytes : Bytes}

theorem read_ok {R T : Type} {lib : MessageLib R} {decode : R → Except String T} {t : T}
    (h : read lib bytes decode = .ok t) :
    ∃ root, lib.read bytes = .ok (root, []) ∧ decode root = .ok t := by
  simp only [read, bind_eq_ok_iff, Except.mapError_eq_ok_iff, Except.require_eq_ok_iff] at h
  obtain ⟨⟨root, rest⟩, hread, _, hempty, hdecode⟩ := h
  obtain rfl := List.isEmpty_iff.mp hempty
  exact ⟨root, hread, hdecode⟩

theorem withPayload_requestOf {r r' : Request} (h : requestOf capnp (requestMessage r) = .ok r') :
    withPayload r.payload r' = .ok r := by
  cases r with
  | getattr inode handle | setattr inode handle size mode uid gid =>
    simp only [requestOf, requestMessage, optU64_setU64, optU32_setU32, Except.ok.injEq] at h
    subst h
    rfl
  | _ =>
    cases h
    rfl

theorem replyOf_replyMessage {r : Reply} {m : Wire.Reply} (hm : replyMessage r = some m)
    {r' : Reply} (h : replyOf capnp m = .ok r') : withData r.payload r' = .ok r := by
  cases r with
  | entry | attr | created =>
    cases hm
    simp only [replyOf, entry_setEntry, attr_setAttr, time_setTime, bind, Except.bind,
      Except.ok.injEq] at h
    subst h
    rfl
  | dir entries =>
    obtain ⟨_, hentries, rfl⟩ := Option.map_eq_some_iff.mp hm
    obtain rfl := listLen_eq_some hentries
    simp only [replyOf, List.map_map, Except.ok.injEq] at h
    have hmap : entries.map (dirEntry ∘ setDirEntry) = entries := List.map_id entries
    rw [← h, hmap]
    rfl
  | dirPlus entries =>
    obtain ⟨_, hentries, rfl⟩ := Option.map_eq_some_iff.mp hm
    obtain rfl := listLen_eq_some hentries
    obtain ⟨found, hfound, h⟩ := bind_eq_ok_iff.mp h
    have hsame : List.Forall₂ Eq entries found := by
      rw [Except.mapM_eq_ok_iff, List.forall₂_map_left_iff] at hfound
      refine hfound.imp fun e e' he => ?_
      simpa only [dirPlusEntry, entry_setEntry, dirEntry, setDirEntry, bind, Except.bind,
        Except.ok.injEq] using he
    rw [List.forall₂_eq_eq_eq] at hsame
    rw [← Except.ok.inj h, ← hsame]
    rfl
  | _ =>
    cases hm
    cases h
    rfl

theorem request_header (hcapnp : capnp.ReadsBack) {r r' : Request}
    (hheader : requestHeader capnp r = some bytes) (h : request capnp bytes r.payload = .ok r') :
    r' = r := by
  obtain ⟨found, hread, hpayload⟩ := bind_eq_ok_iff.mp h
  obtain ⟨root, hroot, hof⟩ := read_ok hread
  obtain rfl := hcapnp.request _ _ hheader _ _ hroot
  rw [withPayload_requestOf hof] at hpayload
  exact (Except.ok.inj hpayload).symm

theorem reply_header (hcapnp : capnp.ReadsBack) {r r' : Reply}
    (hheader : replyHeader capnp r = some bytes) (h : reply capnp bytes r.payload = .ok r') :
    r' = r := by
  obtain ⟨m, hm, hwrite⟩ := Option.bind_eq_some_iff.mp hheader
  obtain ⟨found, hread, hpayload⟩ := bind_eq_ok_iff.mp h
  obtain ⟨root, hroot, hof⟩ := read_ok hread
  obtain rfl := hcapnp.reply _ _ hwrite _ _ hroot
  rw [replyOf_replyMessage hm hof] at hpayload
  exact (Except.ok.inj hpayload).symm

/-! ## What is accepted -/

variable {payload : Bytes}

theorem noPayload_ok {kind : String} {u : Unit} (h : noPayload payload kind = .ok u) :
    payload = [] :=
  List.isEmpty_iff.mp (Except.require_eq_ok_iff.mp h)

theorem request_accepts {r : Request} (h : request capnp bytes payload = .ok r) :
    (∃ root, capnp.request.read bytes = .ok (root, [])) ∧ r.payload = payload := by
  obtain ⟨found, hread, hpayload⟩ := bind_eq_ok_iff.mp h
  obtain ⟨root, hroot, -⟩ := read_ok hread
  refine ⟨⟨root, hroot⟩, ?_⟩
  cases found with
  | write handle offset data =>
    cases hpayload
    rfl
  | _ =>
    obtain ⟨_, hnone, hsame⟩ := bind_eq_ok_iff.mp hpayload
    cases hsame
    exact (noPayload_ok hnone).symm

theorem reply_accepts {r : Reply} (h : reply capnp bytes payload = .ok r) :
    (∃ root, capnp.reply.read bytes = .ok (root, [])) ∧ r.payload = payload := by
  obtain ⟨found, hread, hpayload⟩ := bind_eq_ok_iff.mp h
  obtain ⟨root, hroot, -⟩ := read_ok hread
  refine ⟨⟨root, hroot⟩, ?_⟩
  cases found with
  | data bytes =>
    cases hpayload
    rfl
  | _ =>
    obtain ⟨_, hnone, hsame⟩ := bind_eq_ok_iff.mp hpayload
    cases hsame
    exact (noPayload_ok hnone).symm

end

end LeyLine.Share
