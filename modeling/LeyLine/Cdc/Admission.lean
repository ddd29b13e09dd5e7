import LeyLine.Cdc.Read

/-!
# Selections over any store

`SelectedRange.parse` admits exactly the rows of `Selects`; `read_range_into` trusts what was
admitted and subtracts and indexes without a check. Here the store is any store, that may
fail, hold nothing or answer other bytes: the read never leaves its ranges, and what it
writes is the interval of the bytes the store's own answers spell out.
-/

namespace LeyLine.Cdc

open Tiling (slice Tiles)

variable {H : Type}

section Any

variable {B : BlobStore H} {s : B.State}

def Answered (B : BlobStore H) (s : B.State) (c : Chunk H) : Prop :=
  ∃ bytes, B.get s c.hash = .ok (some bytes) ∧ bytes.length = c.len

theorem readChunk_any {sel : SelectedRange H} {c : Chunk H} (fetched : List H)
    (hmax : c.offset + c.len ≤ usizeMax) (hle : sel.start ≤ sel.stop)
    (hmeets : c.offset < sel.stop ∧ sel.start < c.offset + c.len) :
    Req.Ends (readChunk B s sel c) fetched fun r _ =>
      r ≠ .error .fault ∧ ∀ bytes, r = .ok bytes → Answered B s c := by
  refine Req.Ends.bind (R := fun r _ => (∀ bytes, r = .ok bytes →
    B.get s c.hash = .ok (some bytes)) ∧ r ≠ .error .fault) ?_ ?_ fun bytes w hbytes => ?_
  · rw [Req.Ends, fetch]
    cases hget : B.get s c.hash with
    | error e => simp
    | ok o => cases o <;> simp
  · intro e w he
    exact ⟨fun h => he.2 (by rw [Except.error.inj h]), by simp⟩
  · refine Req.Ends.require (by simp) fun hlen => ?_
    have hcut : cut bytes (sel.start - c.offset)
        (min sel.stop (saturatingAdd c.offset c.len)) c.offset ≠
        none := by
      rw [saturatingAdd_of_le hmax, cut, if_pos (by omega)]
      simp
    obtain ⟨part, hpart⟩ := Option.ne_none_iff_exists'.mp hcut
    rw [hpart]
    exact ⟨by simp [Req.ofOption], fun _ _ => ⟨bytes, hbytes.1 bytes rfl, hlen⟩⟩

theorem readChunks_any {sel : SelectedRange H} (hle : sel.start ≤ sel.stop) (cs : List (Chunk H))
    (fetched : List H) (hrows : ∀ c ∈ cs, c.offset + c.len ≤ usizeMax ∧
      c.offset < sel.stop ∧ sel.start < c.offset + c.len) :
    Req.Ends (readChunks B s sel cs) fetched fun r _ =>
      r ≠ .error .fault ∧ ∀ bytes, r = .ok bytes → ∀ c ∈ cs, Answered B s c := by
  induction cs generalizing fetched with
  | nil => exact ⟨by simp [readChunks], by simp⟩
  | cons c cs ih =>
    obtain ⟨hc, hrows⟩ := List.forall_mem_cons.mp hrows
    refine Req.Ends.bind (readChunk_any fetched hc.1 hle hc.2)
      (fun e w he => ⟨?_, by simp⟩) fun _ w hfirst => ?_
    · exact fun h => he.1 (by rw [Except.error.inj h])
    · refine Req.Ends.bind (ih w hrows) (fun e w he => ⟨?_, by simp⟩) fun _ w hrest => ?_
      · exact fun h => he.1 (by rw [Except.error.inj h])
      · exact ⟨by simp, fun _ _ => List.forall_mem_cons.mpr ⟨hfirst.2 _ rfl, hrest.2 _ rfl⟩⟩

theorem exists_stored {cs : List (Chunk H)} {a b : Nat}
    (htiles : Tiles Chunk.offset Chunk.len a b cs)
    (hanswered : ∀ c ∈ cs, Answered B s c) (front : Bytes) (hfront : front.length = a) :
    ∃ data, front <+: data ∧ data.length = b ∧ Stored B s data cs := by
  induction cs generalizing a front with
  | nil => exact ⟨front, List.prefix_rfl, hfront.trans htiles, by simp [Stored]⟩
  | cons c cs ih =>
    obtain ⟨⟨bytes, hget, hlen⟩, hanswered⟩ := List.forall_mem_cons.mp hanswered
    obtain ⟨hoff, -, htiles⟩ := htiles
    obtain ⟨data, ⟨rest, hdata⟩, hb, hstored⟩ :=
      ih htiles hanswered (front ++ bytes) (by simp [hfront, hlen])
    refine ⟨data, ⟨bytes ++ rest, by rw [← hdata, List.append_assoc]⟩, hb,
      List.forall_mem_cons.mpr ⟨?_, hstored⟩⟩
    have hslice : slice data c.offset (c.offset + c.len) = bytes := by
      rw [slice, ← hdata, hoff, ← hfront, ← hlen, ← List.length_append, List.take_left,
        List.drop_left]
    rw [hget, hslice]

end Any

theorem readRangeInto_any {B : BlobStore H} {s : B.State} {sel : SelectedRange H} {out : Bytes}
    {fetched : List H} (hrows : Req.Ends (readChunks B s sel sel.chunks) fetched fun r _ =>
      r ≠ .error .fault ∧ ∀ bytes, r = .ok bytes → ∀ c ∈ sel.chunks, Answered B s c) :
    Req.Ends (readRangeInto B s sel) (fetched, out) fun r w => r ≠ .error .fault ∧
      (∀ n, r = .ok n → sel.len ≤ out.length ∧ ∀ c ∈ sel.chunks, Answered B s c) ∧
      ∀ e, r = .error e → w.2 = out := by
  refine Req.Ends.check (fun _ => ⟨by simp, by simp, fun _ _ => rfl⟩) fun hout => ?_
  refine Req.Ends.bind (R := fun r w => (r ≠ .error .fault ∧ ∀ bytes, r = .ok bytes →
    ∀ c ∈ sel.chunks, Answered B s c) ∧ w.2 = out) (Req.Ends.onFst ⟨hrows, rfl⟩) ?_ ?_
  · rintro e w ⟨he, hw⟩
    exact ⟨fun h => he.1 (by rw [Except.error.inj h]), by simp, fun _ _ => hw⟩
  · rintro result w ⟨hread, hw⟩
    refine Req.Ends.require (fun _ => ⟨by simp, by simp, fun _ _ => hw⟩) fun _ => ?_
    exact Req.Ends.update ⟨by simp, fun _ _ => ⟨hout, hread.2 _ rfl⟩, by simp⟩

/-- **Admission and reading of selections.** `parse` accepts exactly the rows of `Selects`. Over any
store a read of an accepted selection never faults; one that goes through writes, over the
front of the buffer, exactly the interval of bytes the store's answers spell out; one that
does not leaves the buffer as it was. -/
theorem selection_read (H : Type) : (∀ (cs : List (Chunk H)) (sourceLen start stop : Nat),
      (∃ sel, SelectedRange.parse cs sourceLen start stop = .ok sel) ↔
      Selects cs sourceLen start stop) ∧
    ∀ (sel : SelectedRange H) (B : BlobStore H) (s : B.State) (out : Bytes) (fetched : List H),
      sel.start ≤ sel.stop ∧ (readRangeInto B s sel (fetched, out)).1 ≠ .error .fault ∧
      (∀ n, (readRangeInto B s sel (fetched, out)).1 = .ok n →
        n = sel.len ∧ n ≤ out.length ∧ ∃ data, Stored B s data sel.chunks ∧ sel.stop ≤ data.length ∧
          (readRangeInto B s sel (fetched, out)).2.2 = slice data sel.start sel.stop ++
          out.drop n) ∧
      ∀ e, (readRangeInto B s sel (fetched, out)).1 = .error e →
        (readRangeInto B s sel (fetched, out)).2.2 = out := by
  refine ⟨fun cs sourceLen start stop => ⟨?_, fun h => ⟨_, parse_of_selects h⟩⟩,
    fun sel B s out fetched => ?_⟩
  · rintro ⟨sel, hsel⟩
    unfold SelectedRange.parse at hsel
    split at hsel
    · rename_i u hu
      exact checkSelection_eq_ok_iff.mp hu
    · simp at hsel
  obtain ⟨sourceLen, hsel⟩ := sel.selects
  have hrows : ∀ c ∈ sel.chunks, c.offset + c.len ≤ usizeMax ∧ c.offset < sel.stop ∧
      sel.start < c.offset + c.len := by
    intro c hc
    rcases hsel.start_le.eq_or_lt with heq | hlt
    · rw [hsel.empty heq] at hc
      simp at hc
    · obtain ⟨a, b, htiles, -, -, -, -, hmax, hmeets⟩ := hsel.covers hlt
      exact ⟨(htiles.mem hc).2.2.trans hmax, hmeets c hc⟩
  obtain ⟨hfault, hok, herror⟩ : (readRangeInto B s sel (fetched, out)).1 ≠ .error .fault ∧ _ :=
    readRangeInto_any (readChunks_any hsel.start_le sel.chunks fetched hrows)
  refine ⟨hsel.start_le, hfault, fun n hread => ?_, herror⟩
  obtain ⟨hout, hanswered⟩ := hok _ hread
  obtain ⟨data, hstored, hdata⟩ : ∃ data, Stored B s data sel.chunks ∧
      Selects sel.chunks data.length sel.start sel.stop := by
    rcases hsel.start_le.eq_or_lt with heq | hlt
    · refine ⟨List.replicate sel.stop 0, by simp [Stored, hsel.empty heq], hsel.start_le, by simp,
        hsel.empty, ?_⟩
      exact fun hlt => absurd heq hlt.ne
    · obtain ⟨a, b, htiles, hne, ha, hstop, -, hmax, hmeets⟩ := hsel.covers hlt
      obtain ⟨data, -, rfl, hstored⟩ :=
        exists_stored htiles hanswered (List.replicate a 0) (by simp)
      exact ⟨data, hstored, hsel.start_le, hstop, hsel.empty,
        fun _ => ⟨a, _, htiles, hne, ha, hstop, le_rfl, hmax, hmeets⟩⟩
  rw [readRangeInto_ok hdata hstored hout] at hread ⊢
  cases hread
  exact ⟨rfl, hout, data, hstored, hdata.stop_le, rfl⟩

def oneByte : SelectedRange Bytes :=
  ⟨[⟨[1], 0, 1⟩], 0, 1, 1, (checkSelection_eq_ok_iff (u := ())).mp rfl⟩

/-- Nothing is appended: the byte read takes the place of the buffer's first. -/
theorem read_overwrites :
    readRangeInto echoStore () oneByte ([], [9]) = (.ok 1, [[1]], [1]) ∧
    ([1] : Bytes) ≠ [9] ++ [1] :=
  ⟨rfl, by decide⟩

end LeyLine.Cdc
