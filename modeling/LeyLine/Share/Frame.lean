import LeyLine.Lib.Pipe
import LeyLine.Share.Codec

/-!
# The frames of a share

`write_frame` and `read_frame` of `runtime/src/backends/libkrun/share/mod.rs`. A frame is
two little-endian lengths, a header and a payload. The reader asks the stream for what a
part still lacks and takes whatever piece it gets, so it is a machine that waits in one of
three places; a read the system interrupted is asked for again and leaves it where it was.
-/

namespace LeyLine.Share

open Framing

/-! ## Writing -/

/-- A header and a payload. -/
abbrev Frame := Bytes × Bytes

def frameLen (len : Nat) : Except Fault Nat :=
  if len ≤ maxFrame then .ok len
  else .error (.invalidData s!"share frame part of {len} bytes exceeds {maxFrame}")

def encodeFrame (f : Frame) : Bytes :=
  leBytes 4 f.1.length ++ (leBytes 4 f.2.length ++ (f.1 ++ f.2))

/-- The bytes `write_frame` gives to the stream. -/
def writeFrame (f : Frame) : Except Fault Bytes := do
  let _ ← frameLen f.1.length
  let _ ← frameLen f.2.length
  .ok (encodeFrame f)

def Frame.Small (f : Frame) : Prop := f.1.length ≤ maxFrame ∧ f.2.length ≤ maxFrame

theorem frameLen_ok {len n : Nat} (h : frameLen len = .ok n) : len ≤ maxFrame ∧ n = len := by
  rw [frameLen] at h
  split_ifs at h with hle
  exact ⟨hle, (Except.ok.inj h).symm⟩

variable {bytes : Bytes}

theorem writeFrame_ok {f : Frame} (h : writeFrame f = .ok bytes) :
    f.Small ∧ bytes = encodeFrame f := by
  simp only [writeFrame, Except.bind_eq_ok_iff] at h
  obtain ⟨_, hheader, _, hpayload, hbytes⟩ := h
  exact ⟨⟨(frameLen_ok hheader).1, (frameLen_ok hpayload).1⟩, (Except.ok.inj hbytes).symm⟩

theorem selfDelimiting_encodeFrame : SelfDelimiting Frame.Small encodeFrame := by
  rintro ⟨header, payload⟩ ⟨header', payload'⟩ r r' ⟨hh, hp⟩ ⟨hh', hp'⟩ h
  have hmax : maxFrame < 256 ^ 4 := by decide
  simp only [encodeFrame, List.append_assoc] at h hh hp hh' hp'
  obtain ⟨hheader, h⟩ := selfDelimiting_leBytes 4 _ _ _ _ (hh.trans_lt hmax) (hh'.trans_lt hmax) h
  obtain ⟨hpayload, h⟩ := selfDelimiting_leBytes 4 _ _ _ _ (hp.trans_lt hmax) (hp'.trans_lt hmax) h
  obtain ⟨rfl, hrest⟩ := List.append_inj h hheader
  obtain ⟨rfl, rfl⟩ := List.append_inj hrest hpayload
  exact ⟨rfl, rfl⟩

def IsFrame (bytes : Bytes) : Prop := ∃ f : Frame, f.Small ∧ bytes = encodeFrame f

theorem selfDelimiting_isFrame : SelfDelimiting IsFrame id := by
  rintro _ _ r r' ⟨f, hf, rfl⟩ ⟨g, hg, rfl⟩ h
  obtain ⟨rfl, hrest⟩ := selfDelimiting_encodeFrame f g r r' hf hg h
  exact ⟨rfl, hrest⟩

theorem IsFrame.ne_nil (h : IsFrame bytes) : bytes ≠ [] := by
  obtain ⟨f, -, rfl⟩ := h
  exact List.cons_ne_nil _ _

/-! ## Reading -/

/-- Where `read_frame` waits for bytes: in the lengths, in the header or in the payload,
with what it has of that part. -/
inductive ReadFrame where
  | lengths (filled : Bytes)
  | header (headerLen payloadLen : Nat) (filled : Bytes)
  | payload (head : Bytes) (payloadLen : Nat) (filled : Bytes)
  deriving DecidableEq

namespace ReadFrame

def start : ReadFrame := .lengths []

def wants : ReadFrame → Nat
  | .lengths filled => 8 - filled.length
  | .header headerLen _ filled => headerLen - filled.length
  | .payload _ payloadLen filled => payloadLen - filled.length

def allocated : ReadFrame → Nat × Nat
  | .lengths _ => (0, 0)
  | .header headerLen _ _ => (headerLen, 0)
  | .payload head payloadLen _ => (head.length, payloadLen)

/-- `read_exact` of the payload: nothing is read once it is full. -/
def readPayload (head : Bytes) (payloadLen : Nat) (filled : Bytes) : ReadFrame ⊕ Frame :=
  if filled.length < payloadLen then .inl (.payload head payloadLen filled) else .inr (head, filled)

def readHeader (headerLen payloadLen : Nat) (filled : Bytes) : ReadFrame ⊕ Frame :=
  if filled.length < headerLen then .inl (.header headerLen payloadLen filled)
  else readPayload filled payloadLen []

def readLengths (filled : Bytes) : Except Fault (ReadFrame ⊕ Frame) :=
  if filled.length < 8 then .ok (.inl (.lengths filled))
  else do
    let headerLen ← frameLen (leNat (filled.take 4))
    let payloadLen ← frameLen (leNat (filled.drop 4))
    .ok (readHeader headerLen payloadLen [])

def read (r : ReadFrame) (piece : Bytes) : Except Fault (ReadFrame ⊕ Frame) :=
  match r with
  | .lengths filled => readLengths (filled ++ piece)
  | .header headerLen payloadLen filled => .ok (readHeader headerLen payloadLen (filled ++ piece))
  | .payload head payloadLen filled => .ok (readPayload head payloadLen (filled ++ piece))

/-- The stream ended: cleanly, if no byte of a frame was read. -/
def eof : ReadFrame → Except Fault (Option Frame)
  | .lengths [] => .ok none
  | _ => .error .unexpectedEof

/-! ## What a reader has read -/

/-- The reader stands in a frame of which it has read these bytes. -/
inductive Holds : ReadFrame → Bytes → Prop
  | lengths {filled : Bytes} (hlength : filled.length < 8) : Holds (.lengths filled) filled
  | header {headerLen payloadLen : Nat} {filled : Bytes} (hheader : headerLen ≤ maxFrame)
      (hpayload : payloadLen ≤ maxFrame) (hlength : filled.length < headerLen) :
      Holds (.header headerLen payloadLen filled)
        (leBytes 4 headerLen ++ (leBytes 4 payloadLen ++ filled))
  | payload {head : Bytes} {payloadLen : Nat} {filled : Bytes} (hheader : head.length ≤ maxFrame)
      (hpayload : payloadLen ≤ maxFrame) (hlength : filled.length < payloadLen) :
      Holds (.payload head payloadLen filled)
        (leBytes 4 head.length ++ (leBytes 4 payloadLen ++ (head ++ filled)))

/-- What became of the bytes: the reader stands further in the frame, or they are one. -/
def Reads (bytes : Bytes) : ReadFrame ⊕ Frame → Prop
  | .inl r => r.Holds bytes
  | .inr f => f.Small ∧ bytes = encodeFrame f

theorem holds_start : start.Holds [] := .lengths (by decide)

theorem reads_readPayload {head filled : Bytes} {payloadLen : Nat}
    (hheader : head.length ≤ maxFrame)
    (hpayload : payloadLen ≤ maxFrame) (hle : filled.length ≤ payloadLen) :
    Reads (leBytes 4 head.length ++ (leBytes 4 payloadLen ++ (head ++ filled)))
    (readPayload head payloadLen filled) := by
  rw [readPayload]
  split_ifs with hlt
  · exact .payload hheader hpayload hlt
  · obtain rfl : payloadLen = filled.length := by omega
    exact ⟨⟨hheader, hpayload⟩, rfl⟩

theorem reads_readHeader {headerLen payloadLen : Nat} {filled : Bytes}
    (hheader : headerLen ≤ maxFrame)
    (hpayload : payloadLen ≤ maxFrame) (hle : filled.length ≤ headerLen) :
    Reads (leBytes 4 headerLen ++ (leBytes 4 payloadLen ++ filled))
    (readHeader headerLen payloadLen filled) := by
  rw [readHeader]
  split_ifs with hlt
  · exact .header hheader hpayload hlt
  · obtain rfl : headerLen = filled.length := by omega
    have hreads := @reads_readPayload filled [] payloadLen hheader hpayload (Nat.zero_le _)
    rwa [List.append_nil] at hreads

theorem reads_readLengths {filled : Bytes} (hle : filled.length ≤ 8) {outcome : ReadFrame ⊕ Frame}
    (h : readLengths filled = .ok outcome) : Reads filled outcome := by
  rw [readLengths] at h
  split_ifs at h with hlt
  · cases h
    exact .lengths hlt
  · simp only [Except.bind_eq_ok_iff] at h
    obtain ⟨headerLen, hheader, payloadLen, hpayload, hok⟩ := h
    obtain ⟨hheaderLe, rfl⟩ := frameLen_ok hheader
    obtain ⟨hpayloadLe, rfl⟩ := frameLen_ok hpayload
    cases hok
    have hreads := @reads_readHeader _ _ [] hheaderLe hpayloadLe (Nat.zero_le _)
    -- the lengths are the eight bytes they were read from
    have htake : (filled.take 4).length = 4 := by rw [List.length_take]; omega
    have hdrop : (filled.drop 4).length = 4 := by rw [List.length_drop]; omega
    have hlow := leBytes_leNat (filled.take 4)
    have hhigh := leBytes_leNat (filled.drop 4)
    rw [htake] at hlow
    rw [hdrop] at hhigh
    rwa [hlow, hhigh, List.append_nil, List.take_append_drop] at hreads

theorem Holds.read {r : ReadFrame} {bytes piece : Bytes} (h : r.Holds bytes)
    (hpiece : piece.length ≤ r.wants) {outcome : ReadFrame ⊕ Frame}
    (hread : r.read piece = .ok outcome) : Reads (bytes ++ piece) outcome := by
  cases h with
  | lengths hlength =>
    refine reads_readLengths ?_ hread
    rw [wants] at hpiece
    rw [List.length_append]
    omega
  | header hheader hpayload hlength =>
    cases hread
    rw [wants] at hpiece
    rw [List.append_assoc, List.append_assoc]
    exact reads_readHeader hheader hpayload (by rw [List.length_append]; omega)
  | payload hheader hpayload hlength =>
    cases hread
    rw [wants] at hpiece
    rw [List.append_assoc, List.append_assoc, List.append_assoc]
    exact reads_readPayload hheader hpayload (by rw [List.length_append]; omega)

theorem Holds.allocated_le {r : ReadFrame} (h : r.Holds bytes) :
    r.allocated.1 ≤ maxFrame ∧ r.allocated.2 ≤ maxFrame := by
  cases h with
  | lengths => exact ⟨Nat.zero_le _, Nat.zero_le _⟩
  | header hheader => exact ⟨hheader, Nat.zero_le _⟩
  | payload hheader hpayload => exact ⟨hheader, hpayload⟩

end ReadFrame

end LeyLine.Share
