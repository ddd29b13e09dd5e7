import LeyLine.Daemon.Events

/-!
# The gap a replay reports

The log keeps the newest events it was given, at least one. Whether a replay has a gap is
read off the number of the oldest event kept, so the flag is also set for a cursor just
before that event, which misses nothing.
-/

namespace LeyLine.Daemon

variable {Data : Type}

def EventLog.ofEvents (capacity : Nat) (events : List (Event Data)) : EventLog Data :=
  events.foldl EventLog.push ⟨[], capacity⟩

def Consecutive (first : Nat) (events : List (Event Data)) : Prop :=
  events.map (·.seq) = List.range' first events.length

instance (first : Nat) (events : List (Event Data)) : Decidable (Consecutive first events) :=
  inferInstanceAs (Decidable (_ = _))

/-- How many events a log has dropped. One of capacity zero keeps an event all the same. -/
def dropCount (capacity : Nat) (events : List (Event Data)) : Nat := events.length - max capacity 1

def dropped (capacity : Nat) (events : List (Event Data)) : List (Event Data) :=
  events.take (dropCount capacity events)

def retained (capacity : Nat) (events : List (Event Data)) : List (Event Data) :=
  events.drop (dropCount capacity events)

theorem ofEvents_eq (capacity : Nat) (events : List (Event Data)) :
    EventLog.ofEvents capacity events = ⟨retained capacity events, capacity⟩ := by
  induction events using List.reverseRecOn with
  | nil => rw [retained, List.drop_nil]; rfl
  | append_singleton events e ih =>
    rw [EventLog.ofEvents, List.foldl_append, ← EventLog.ofEvents, ih, List.foldl_cons,
      List.foldl_nil, EventLog.push]
    simp only [retained, dropCount, List.length_drop, List.length_append, List.length_singleton]
    rw [List.drop_append_of_le_length (by omega)]
    -- a full log loses its oldest event, and a new one has none to lose
    split_ifs with hfull
    · rcases eq_or_ne events [] with rfl | hne
      · simp
      · have hlen := List.length_pos_of_ne_nil hne
        rw [List.tail_drop, show events.length + 1 - max capacity 1 =
          events.length - max capacity 1 + 1 by omega]
    · rw [show events.length + 1 - max capacity 1 = events.length - max capacity 1 by omega]

theorem Consecutive.getElem {first i : Nat} {events : List (Event Data)}
    (h : Consecutive first events) (hi : i < events.length) : events[i].seq = first + i := by
  have hseq : (events.map (·.seq))[i]? = (List.range' first events.length)[i]? := by rw [h]
  rw [List.getElem?_map, List.getElem?_eq_getElem hi, List.getElem?_range' hi] at hseq
  simpa using hseq

variable {capacity since : Nat} {events : List (Event Data)}

theorem firstSeq_ofEvents {first : Nat} (h : Consecutive first events) (hne : events ≠ []) :
    (EventLog.ofEvents capacity events).firstSeq = first + dropCount capacity events := by
  have hlt : dropCount capacity events < events.length := by
    have := List.length_pos_of_ne_nil hne
    rw [dropCount]
    omega
  rw [ofEvents_eq, EventLog.firstSeq, retained, List.head?_drop, List.getElem?_eq_getElem hlt]
  exact h.getElem hlt

theorem dropped_above_iff {first : Nat} (h : Consecutive first events) :
    (∃ e ∈ dropped capacity events, since < e.seq) ↔
      0 < dropCount capacity events ∧ since + 1 < first + dropCount capacity events := by
  have hle : dropCount capacity events ≤ events.length := Nat.sub_le _ _
  constructor
  · rintro ⟨e, he, hlt⟩
    obtain ⟨i, hi, rfl⟩ := List.mem_iff_getElem.mp he
    rw [dropped, List.length_take] at hi
    simp only [dropped, List.getElem_take, h.getElem] at hlt
    omega
  · rintro ⟨hpos, hlt⟩
    -- the newest of those dropped
    have hlast : dropCount capacity events - 1 < (dropped capacity events).length := by
      rw [dropped, List.length_take]
      omega
    refine ⟨_, List.getElem_mem hlast, ?_⟩
    simp only [dropped, List.getElem_take, h.getElem]
    omega

/-- **A replay from a positive cursor** returns the events kept that it asks for. Its flag
says whether one above the cursor was dropped, unless the cursor stands just before
the oldest event kept, or before a log that has dropped nothing. -/
theorem gap_exact_iff (capacity first : Nat) (events : List (Event Data))
    (h : Consecutive first events) (hpos : 0 < since) (predicate : Event Data → Bool) :
    ((EventLog.ofEvents capacity events).sinceMatching since predicate).1 =
        (retained capacity events).filter (fun e => since < e.seq && predicate e) ∧
      ((((EventLog.ofEvents capacity events).sinceMatching since predicate).2 = true ↔
          ∃ e ∈ dropped capacity events, since < e.seq) ↔
        ¬ (since < (EventLog.ofEvents capacity events).firstSeq ∧
          (dropCount capacity events = 0 ∨
          since + 1 = (EventLog.ofEvents capacity events).firstSeq))) := by
  refine ⟨by rw [EventLog.sinceMatching, ofEvents_eq], ?_⟩
  rw [dropped_above_iff h, EventLog.sinceMatching]
  simp only [Bool.and_eq_true, decide_eq_true_eq, hpos, true_and]
  rcases eq_or_ne events [] with rfl | hne
  · simp [EventLog.ofEvents, EventLog.firstSeq, dropCount]
  · rw [firstSeq_ofEvents h hne]
    omega

def plainEvent (seq : Nat) : Event Unit := ⟨seq, [], [], ()⟩

theorem gap_exact_iff_three :
    (∃ e ∈ dropped 2 [plainEvent 1, plainEvent 2, plainEvent 3, plainEvent 4], 1 < e.seq) ∧
    ((EventLog.ofEvents 2 [plainEvent 1, plainEvent 2, plainEvent 3, plainEvent 4]).sinceMatching 1
      fun _ => true).2 = true :=
  ⟨by decide,
    ((gap_exact_iff 2 1 [plainEvent 1, plainEvent 2, plainEvent 3, plainEvent 4] rfl (by decide)
    fun _ => true).2.mpr (by decide)).mpr (by decide)⟩

/-- Everything after event 1 is still there, and a replay from it reports a gap. -/
theorem gap_reported_for_nothing : Consecutive 1 [plainEvent 1, plainEvent 2, plainEvent 3] ∧
    ((EventLog.ofEvents 2 [plainEvent 1, plainEvent 2, plainEvent 3]).sinceMatching 1
      fun _ => true) = ([plainEvent 2, plainEvent 3], true) ∧
    ¬ ∃ e ∈ dropped 2 [plainEvent 1, plainEvent 2, plainEvent 3], 1 < e.seq := by
  decide

end LeyLine.Daemon
