import LeyLine.Lib.Framing

/-!
# Messages over a byte stream

A stream delivers, in order and in pieces of any size, the beginning of what was sent into
it, and may stop delivering at any point. When what is sent is a sequence of messages,
each written as a self-delimiting string, a receiver that has cut what it received into
such strings has the first messages of the sequence (`Written.next`): pieces and failures
can make it miss messages at the end, never in between, and never read one that was not
sent.
-/

namespace Framing

variable {β M : Type*}

/-- Self-delimiting strings one after another are told apart: they begin another such
sequence only if they are its first strings. -/
theorem SelfDelimiting.isPrefix_of_flatten {F : List β → Prop} (hF : SelfDelimiting F id)
    (hne : ∀ x, F x → x ≠ []) :
    ∀ {l l' : List (List β)}, (∀ x ∈ l, F x) → (∀ x ∈ l', F x) → l.flatten <+: l'.flatten → l <+: l'
  | [], _, _, _, _ => List.nil_prefix
  | x :: l, [], hl, _, h => by
    rw [List.flatten_nil, List.prefix_nil, List.flatten_cons, List.append_eq_nil_iff] at h
    exact absurd h.1 (hne x (hl x List.mem_cons_self))
  | x :: l, y :: l', hl, hl', h => by
    obtain ⟨rest, hrest⟩ := h
    rw [List.flatten_cons, List.flatten_cons, List.append_assoc] at hrest
    rw [List.forall_mem_cons] at hl hl'
    obtain ⟨rfl, htail⟩ := hF x y _ _ hl.1 hl'.1 hrest
    exact List.cons_prefix_cons.mpr ⟨rfl, hF.isPrefix_of_flatten hne hl.2 hl'.2 ⟨rest, htail⟩⟩

/-- One direction of a stream: what was sent, and the part of it received so far. -/
structure Pipe (β : Type*) where
  sent : List β
  received : List β
  delivered : received <+: sent

namespace Pipe

def empty : Pipe β := ⟨[], [], List.nil_prefix⟩

def push (p : Pipe β) (piece : List β) : Pipe β :=
  ⟨p.sent ++ piece, p.received, p.delivered.trans (List.prefix_append _ _)⟩

def pull (p : Pipe β) (piece : List β) (h : p.received ++ piece <+: p.sent) : Pipe β :=
  ⟨p.sent, p.received ++ piece, h⟩

end Pipe

def Written (W : M → List β → Prop) (ms : List M) (bytes : List β) : Prop :=
  ∃ parts, List.Forall₂ W ms parts ∧ parts.flatten = bytes

namespace Written

variable {W : M → List β → Prop}

theorem nil : Written W [] [] := ⟨[], .nil, rfl⟩

theorem concat {ms : List M} {bytes : List β} (h : Written W ms bytes) {m : M} {b : List β}
    (hm : W m b) :
    Written W (ms ++ [m]) (bytes ++ b) := by
  obtain ⟨parts, hparts, rfl⟩ := h
  refine ⟨parts ++ [b], List.rel_append hparts (.cons hm .nil), ?_⟩
  rw [List.flatten_append, List.flatten_singleton]

theorem forall_mem {ms : List M} {parts : List (List β)} (h : List.Forall₂ W ms parts)
    {F : List β → Prop} (hW : ∀ m b, W m b → F b) : ∀ x ∈ parts, F x := by
  induction h with
  | nil => exact fun x hx => absurd hx List.not_mem_nil
  | cons hm _ ih => exact List.forall_mem_cons.mpr ⟨hW _ _ hm, ih⟩

/-- A receiver that has the messages `ms` and reads one more string has the next message
that was sent. -/
theorem next {F : List β → Prop} (hF : SelfDelimiting F id) (hne : ∀ x, F x → x ≠ [])
    (hW : ∀ m b, W m b → F b)
    {ms sent all : List M} {bytes sentBytes frame : List β} (hms : Written W ms bytes)
    (hsent : Written W sent sentBytes) (hall : ms <+: all) (hsentAll : sent <+: all)
    (hframe : F frame) (h : bytes ++ frame <+: sentBytes) : ∃ m, W m frame ∧ ms ++ [m] <+: all := by
  obtain ⟨parts, hparts, rfl⟩ := hms
  obtain ⟨sentParts, hsentParts, rfl⟩ := hsent
  have hflat : (parts ++ [frame]).flatten <+: sentParts.flatten := by
    rwa [List.flatten_append, List.flatten_singleton]
  have hframes : ∀ x ∈ parts ++ [frame], F x :=
    List.forall_mem_append.mpr ⟨forall_mem hparts hW, List.forall_mem_singleton.mpr hframe⟩
  obtain ⟨later, rfl⟩ := hF.isPrefix_of_flatten hne hframes (forall_mem hsentParts hW) hflat
  rw [List.append_assoc, List.singleton_append] at hsentParts
  -- what was sent splits where the receiver stands
  have hfirst := List.forall₂_take_append _ _ _ hsentParts
  have hlast := List.forall₂_drop_append _ _ _ hsentParts
  obtain ⟨m, rest, hm, -, hdrop⟩ := List.forall₂_cons_right_iff.mp hlast
  have hlength : ms.length = (sent.take parts.length).length :=
    hparts.length_eq.trans hfirst.length_eq.symm
  have hfirstAll : sent.take parts.length <+: all := (List.take_prefix _ _).trans hsentAll
  have hms : ms = sent.take parts.length :=
    (List.prefix_of_prefix_length_le hall hfirstAll hlength.le).eq_of_length hlength
  refine ⟨m, hm, List.IsPrefix.trans ⟨rest, ?_⟩ hsentAll⟩
  rw [hms, List.append_assoc, List.singleton_append, ← hdrop, List.take_append_drop]

end Written

end Framing
