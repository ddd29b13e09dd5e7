import LeyLine.Tree

/-!
# The arena file

`ArenaHeader` of `ll-core/core/src/layout.rs`: a header page, and behind it two buffers of
half the rest each, of which the header names the active one and how much of it is data.
-/

namespace LeyLine

structure ArenaHeader where
  magic : UInt32
  version : UInt8
  activeBuffer : UInt8
  sequence : UInt64
  dataSize : UInt64
  deriving DecidableEq

inductive ArenaHeaderError where
  | badMagic (magic : UInt32)
  | versionMismatch (file expected : UInt8)
  | badActiveBuffer (buffer : UInt8)
  | truncatedFile (fileSize : Nat)
  deriving DecidableEq

namespace ArenaHeader

def arenaMagic : UInt32 := 0x4C455930

def arenaVersion : UInt8 := 2

def headerSize : Nat := 4096

def bufferSize (fileSize : Nat) : Nat := (fileSize - headerSize) / 2

def validateHeader (header : ArenaHeader) (fileSize : Nat) : Except ArenaHeaderError Nat :=
  if header.magic ≠ arenaMagic then .error (.badMagic header.magic)
  else if header.version ≠ arenaVersion then .error (.versionMismatch header.version arenaVersion)
  else if 1 < header.activeBuffer then .error (.badActiveBuffer header.activeBuffer)
  else if fileSize < headerSize then .error (.truncatedFile fileSize)
  else .ok (headerSize + header.activeBuffer.toNat * bufferSize fileSize)

theorem validateHeader_le {header : ArenaHeader} {fileSize offset : Nat}
    (h : header.validateHeader fileSize = .ok offset) :
    offset + bufferSize fileSize ≤ fileSize := by
  rw [validateHeader] at h
  split_ifs at h with hmagic hversion hbuffer hsize
  cases h
  have hle : header.activeBuffer.toNat ≤ 1 := by
    have hnot := UInt8.lt_iff_toNat_lt.not.mp hbuffer
    simpa using hnot
  have hmul : header.activeBuffer.toNat * bufferSize fileSize ≤ 1 * bufferSize fileSize :=
    Nat.mul_le_mul_right _ hle
  unfold bufferSize at *
  omega

end ArenaHeader

end LeyLine
