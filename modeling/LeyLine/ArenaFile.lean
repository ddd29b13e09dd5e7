import LeyLine.Arena
import LeyLine.Lib.Framing

/-!
# Opening an arena file at a size

`create_arena` of `ll-core/core/src/layout.rs` sets the length of the file it opens, whether
the file is new or an arena already. The offset of the second buffer follows from the length,
so a change of length moves what an unchanged header points at: `createArena_keeps_iff` says
at which sizes the active image survives.

What the operating system may refuse is a parameter: a length the file cannot have, which
leaves the file as it was, and a mapping that cannot be made.
-/

namespace LeyLine

open ArenaHeader

/-! ## The header in the file -/

namespace ArenaHeader

/-- `size_of::<ArenaHeader>()`. -/
def encodedSize : Nat := 24

/-- The header's bytes, with two bytes of padding after the buffer index. -/
def encode (h : ArenaHeader) : Bytes :=
  Framing.leBytes 4 h.magic.toNat ++ [h.version, h.activeBuffer, 0, 0] ++
    Framing.leBytes 8 h.sequence.toNat ++ Framing.leBytes 8 h.dataSize.toNat

/-- A `width`-byte field at an offset. -/
def field (file : Bytes) (offset width : Nat) : Nat := Framing.leNat ((file.drop offset).take width)

def decode (file : Bytes) : Option ArenaHeader :=
  if file.length < encodedSize then none
  else some ⟨.ofNat (field file 0 4), .ofNat (field file 4 1), .ofNat (field file 5 1),
    .ofNat (field file 8 8), .ofNat (field file 16 8)⟩

end ArenaHeader

/-- The bytes a header's active buffer and data size designate; none where the header does not
validate or the buffer is too small for the data. -/
def activeImage (file : Bytes) : Option Bytes :=
  (ArenaHeader.decode file).bind fun header =>
    match header.validateHeader file.length with
    | .error _ => none
    | .ok offset =>
      if header.dataSize.toNat ≤ bufferSize file.length then
        some ((file.drop offset).take header.dataSize.toNat)
      else none

/-! ## `create_arena` -/

/-- What the operating system allows of a length. -/
structure ArenaOs where
  sizable : Nat → Bool
  mappable : Nat → Bool

inductive ArenaFault where
  | setLen
  | mmap
  /-- A slice of the map past its end. -/
  | panic
  deriving DecidableEq

/-- A file cut off at a length, or grown with zeros. -/
def setLen (file : Bytes) (size : Nat) : Bytes :=
  file.take size ++ List.replicate (size - file.length) 0

def freshHeader : ArenaHeader := ⟨ArenaHeader.arenaMagic, ArenaHeader.arenaVersion, 0, 0, 0⟩

def createArena (os : ArenaOs) (file : Bytes) (arenaSize : Nat) : Bytes × Except ArenaFault Unit :=
  if os.sizable arenaSize = false then (file, .error .setLen)
  else
    let file := setLen file arenaSize
    if os.mappable arenaSize = false then (file, .error .mmap)
    else if file.length < 4 then (file, .error .panic)
    else if ArenaHeader.field file 0 4 ≠ 0 then (file, .ok ())
    else if file.length < ArenaHeader.encodedSize then (file, .error .panic)
    else (freshHeader.encode ++ file.drop ArenaHeader.encodedSize, .ok ())

def KeepsImage (os : ArenaOs) (file : Bytes) (arenaSize : Nat) : Prop :=
  activeImage (createArena os file arenaSize).1 = activeImage file ∨
    (∃ fault, (createArena os file arenaSize).2 = .error fault) ∧
    (createArena os file arenaSize).1 = file

def bytesAt (file : Bytes) (offset n : Nat) : Bytes :=
  (List.range n).map fun i => file[offset + i]?.getD 0

/-! ## Resizing -/

section Resize

variable {os : ArenaOs} {file img : Bytes} {size : Nat} {header : ArenaHeader}

theorem setLen_length (file : Bytes) (size : Nat) : (setLen file size).length = size := by
  rw [setLen, List.length_append, List.length_take, List.length_replicate]
  omega

theorem setLen_self (file : Bytes) : setLen file file.length = file := by
  simp [setLen]

theorem setLen_get (file : Bytes) {i : Nat} (hi : i < size) :
    (setLen file size)[i]? = some (file[i]?.getD 0) := by
  rw [setLen, List.getElem?_append, List.length_take]
  split
  · rw [List.getElem?_take, if_pos hi, List.getElem?_eq_getElem (by omega), Option.getD_some]
  · rw [List.getElem?_replicate, if_pos (by omega), List.getElem?_eq_none (by omega),
      Option.getD_none]

theorem setLen_range {offset n : Nat} (h : offset + n ≤ size) :
    ((setLen file size).drop offset).take n = bytesAt file offset n := by
  refine List.ext_getElem? fun i => ?_
  rw [List.getElem?_take, List.getElem?_drop, bytesAt, List.getElem?_map]
  by_cases hi : i < n
  · rw [if_pos hi, setLen_get file (by omega), List.getElem?_range hi, Option.map_some]
  · rw [if_neg hi, List.getElem?_eq_none (by rw [List.length_range]; omega), Option.map_none]

theorem bytesAt_eq {offset n : Nat} (h : offset + n ≤ file.length) :
    bytesAt file offset n = (file.drop offset).take n := by
  rw [← setLen_range h, setLen_self]

theorem field_setLen {offset width : Nat} (h : offset + width ≤ size)
    (hfile : offset + width ≤ file.length) :
    field (setLen file size) offset width = field file offset width := by
  rw [field, setLen_range h, bytesAt_eq hfile, field]

theorem decode_setLen (h : encodedSize ≤ size) (hfile : encodedSize ≤ file.length) :
    decode (setLen file size) = decode file := by
  have hfield : ∀ offset width, offset + width ≤ encodedSize →
      field (setLen file size) offset width = field file offset width :=
    fun offset width hle => field_setLen (by omega) (by omega)
  rw [decode, decode, setLen_length, if_neg (by omega), if_neg (by omega),
    hfield 0 4 (by decide), hfield 4 1 (by decide), hfield 5 1 (by decide), hfield 8 8 (by decide),
    hfield 16 8 (by decide)]

/-! ## Which sizes keep the image -/

/-- A header this version wrote. -/
structure ArenaHeader.Valid (header : ArenaHeader) : Prop where
  magic : header.magic = ArenaHeader.arenaMagic
  version : header.version = ArenaHeader.arenaVersion
  buffer : header.activeBuffer = 0 ∨ header.activeBuffer = 1

theorem validateHeader_ok_iff {offset : Nat} : header.validateHeader size = .ok offset ↔
    header.Valid ∧ headerSize ≤ size ∧
    offset = headerSize + header.activeBuffer.toNat * bufferSize size := by
  have hbuffer : ¬ 1 < header.activeBuffer ↔ header.activeBuffer = 0 ∨ header.activeBuffer = 1 := by
    rw [UInt8.lt_iff_toNat_lt, ← UInt8.toNat_inj, ← UInt8.toNat_inj]
    simp only [UInt8.reduceToNat]
    omega
  rw [validateHeader]
  constructor
  · intro h
    split_ifs at h with hmagic hversion hbad hsize
    exact ⟨⟨not_not.mp hmagic, not_not.mp hversion, hbuffer.mp hbad⟩, by omega,
      (Except.ok.inj h).symm⟩
  · rintro ⟨hvalid, hsize, rfl⟩
    rw [if_neg (not_not.mpr hvalid.magic), if_neg (not_not.mpr hvalid.version),
      if_neg (hbuffer.mpr hvalid.buffer), if_neg (by omega)]

theorem activeImage_eq_some_iff : activeImage file = some img ↔
    ∃ header, decode file = some header ∧ header.Valid ∧ headerSize ≤ file.length ∧
      header.dataSize.toNat ≤ bufferSize file.length ∧
      img = (file.drop (headerSize + header.activeBuffer.toNat * bufferSize file.length)).take
        header.dataSize.toNat := by
  rw [activeImage, Option.bind_eq_some_iff]
  refine exists_congr fun header => and_congr_right fun _ => ?_
  constructor
  · intro h
    split at h
    · simp at h
    · rename_i offset hoffset
      obtain ⟨hvalid, hsize, rfl⟩ := validateHeader_ok_iff.mp hoffset
      split_ifs at h with hroom
      exact ⟨hvalid, hsize, hroom, (Option.some.inj h).symm⟩
  · rintro ⟨hvalid, hsize, hroom, rfl⟩
    rw [validateHeader_ok_iff.mpr ⟨hvalid, hsize, rfl⟩]
    exact if_pos hroom

/-- A size at which the active image stays where the header finds it: the header page fits, half
of the rest holds the data, and the active buffer is the first, or the halves are as large as
they were, or the file happens to hold the same bytes where the second one comes to lie. -/
structure ArenaHeader.StaysAt (header : ArenaHeader) (file : Bytes) (size : Nat) : Prop where
  page : headerSize ≤ size
  room : header.dataSize.toNat ≤ bufferSize size
  place : header.activeBuffer = 0 ∨ bufferSize size = bufferSize file.length ∨
    bytesAt file (headerSize + bufferSize size) header.dataSize.toNat =
      bytesAt file (headerSize + bufferSize file.length) header.dataSize.toNat

theorem activeImage_setLen_iff (himg : activeImage file = some img)
    (hheader : decode file = some header) :
    activeImage (setLen file size) = some img ↔ header.StaysAt file size := by
  obtain ⟨header', hdecode, hvalid, hpage, hroom, rfl⟩ := activeImage_eq_some_iff.mp himg
  obtain rfl : header' = header := Option.mem_unique hdecode hheader
  have hrange : ∀ n, header'.activeBuffer.toNat ≤ 1 → headerSize ≤ n →
      header'.dataSize.toNat ≤ bufferSize n →
      headerSize + header'.activeBuffer.toNat * bufferSize n + header'.dataSize.toNat ≤ n := by
    intro n hle hn hdata
    have hmul := Nat.mul_le_mul_right (bufferSize n) hle
    unfold bufferSize at *
    omega
  have hle : header'.activeBuffer.toNat ≤ 1 := by
    rcases hvalid.buffer with h | h
    · simp [h]
    · simp [h]
  have hold := bytesAt_eq (hrange file.length hle hpage hroom)
  constructor
  · intro h
    obtain ⟨header'', hdecode', -, hpage', hroom', himg'⟩ := activeImage_eq_some_iff.mp h
    rw [setLen_length] at hpage' hroom' himg'
    have hsmall : encodedSize ≤ headerSize := by decide
    obtain rfl : header'' = header' := by
      rw [decode_setLen (by omega) (by omega), hdecode] at hdecode'
      exact (Option.some.inj hdecode').symm
    refine ⟨hpage', hroom', ?_⟩
    rcases hvalid.buffer with hzero | hone
    · exact .inl hzero
    · rw [setLen_range (hrange size hle hpage' hroom'), ← hold, hone] at himg'
      simp only [UInt8.reduceToNat, Nat.one_mul] at himg'
      exact .inr (.inr himg'.symm)
  · intro h
    have hsmall : encodedSize ≤ headerSize := by decide
    have hpage' := h.page
    refine activeImage_eq_some_iff.mpr ⟨header', ?_, hvalid, ?_, ?_, ?_⟩
    · rw [decode_setLen (by omega) (by omega), hdecode]
    · rwa [setLen_length]
    · rw [setLen_length]
      exact h.room
    · rw [setLen_length, setLen_range (hrange size hle h.page h.room), ← hold]
      rcases h.place with hzero | hsame | hbytes
      · simp [hzero]
      · rw [hsame]
      · rcases hvalid.buffer with hzero | hone
        · simp [hzero]
        · simpa [hone] using hbytes.symm

theorem field_magic_ne (hheader : decode file = some header) (hvalid : header.Valid) :
    field file 0 4 ≠ 0 := by
  intro hzero
  rw [decode] at hheader
  split at hheader
  · simp at hheader
  · cases hheader
    have hmagic := hvalid.magic
    simp only [hzero] at hmagic
    cases hmagic

theorem createArena_file (himg : activeImage file = some img) (hos : os.sizable size = true) :
    (createArena os file size).1 = setLen file size := by
  obtain ⟨header, hdecode, hvalid, hpage, -, -⟩ := activeImage_eq_some_iff.mp himg
  rw [createArena, if_neg (by simp [hos])]
  dsimp only
  split
  · rfl
  · split
    · rfl
    · rename_i hshort
      rw [setLen_length] at hshort
      have hmagic : field (setLen file size) 0 4 ≠ 0 := by
        have hfour : 4 ≤ headerSize := by decide
        rw [field_setLen (by omega) (by omega)]
        exact field_magic_ne hdecode hvalid
      rw [if_pos hmagic]

/-- **Which sizes keep the image.** Reopened at a size, an arena keeps its active image, or the
call refuses and leaves the file alone, exactly where the size is one the file cannot have or
the image stays where the header finds it. -/
theorem createArena_keeps_iff (os : ArenaOs) (file img : Bytes) (size : Nat) (header : ArenaHeader)
    (himg : activeImage file = some img) (hheader : ArenaHeader.decode file = some header) :
    KeepsImage os file size ↔ os.sizable size = false ∨ header.StaysAt file size := by
  by_cases hos : os.sizable size = true
  · have hfile := createArena_file himg hos
    rw [KeepsImage, hfile, himg, activeImage_setLen_iff himg hheader]
    constructor
    · rintro (hstays | ⟨-, hsame⟩)
      · exact .inr hstays
      · -- a file of the same length is the file
        have hstays :=
          (activeImage_setLen_iff himg hheader).mp ((congrArg activeImage hsame).trans himg)
        exact .inr hstays
    · rintro (hno | hstays)
      · cases hos.symm.trans hno
      · exact .inl hstays
  · have hno : os.sizable size = false := by simpa using hos
    have hrefused : createArena os file size =
        (file, .error .setLen) := by rw [createArena, if_pos hno]
    refine iff_of_true (.inr ?_) (.inl hno)
    rw [hrefused]
    exact ⟨⟨_, rfl⟩, rfl⟩

def anyLength : ArenaOs := ⟨fun _ => true, fun _ => true⟩

/-- An arena with two-byte buffers whose second one holds the image. -/
def secondBuffer : Bytes :=
  ArenaHeader.encode ⟨ArenaHeader.arenaMagic, ArenaHeader.arenaVersion, 1, 1, 2⟩ ++
    List.replicate 4072 0 ++ [0, 0] ++ [7, 8]

/-- Reopened at its own size, it keeps its image. -/
theorem createArena_keeps_same_size : KeepsImage anyLength secondBuffer 4100 :=
  (createArena_keeps_iff anyLength secondBuffer [7, 8] 4100
    ⟨ArenaHeader.arenaMagic, ArenaHeader.arenaVersion, 1, 1, 2⟩ (by decide +kernel)
    (by decide +kernel)).mpr
    (.inr ⟨by decide, by decide, .inr (.inl (by decide +kernel))⟩)

/-- Grown by four bytes, the header finds zeros where the image was; cut to the header page, it
finds no image. Neither is refused. -/
theorem createArena_loses_image : activeImage secondBuffer = some [7, 8] ∧
      activeImage (createArena anyLength secondBuffer 4104).1 = some [0, 0] ∧
      activeImage (createArena anyLength secondBuffer 4096).1 = none ∧
      (createArena anyLength secondBuffer 4104).2 = .ok () ∧
      (createArena anyLength secondBuffer 4096).2 = .ok () ∧
      ¬ KeepsImage anyLength secondBuffer 4104 ∧ ¬ KeepsImage anyLength secondBuffer 4096 := by
  have himg : activeImage secondBuffer = some [7, 8] := by decide +kernel
  have hgrown : activeImage (createArena anyLength secondBuffer 4104).1 =
      some [0, 0] := by decide +kernel
  have hcut : activeImage (createArena anyLength secondBuffer 4096).1 = none := by decide +kernel
  have hgrownOk : (createArena anyLength secondBuffer 4104).2 = .ok () := by decide +kernel
  have hcutOk : (createArena anyLength secondBuffer 4096).2 = .ok () := by decide +kernel
  refine ⟨himg, hgrown, hcut, hgrownOk, hcutOk, ?_, ?_⟩
  · rintro (h | ⟨⟨fault, h⟩, -⟩)
    · rw [hgrown, himg] at h
      exact absurd h (by decide)
    · rw [hgrownOk] at h
      exact absurd h (by simp)
  · rintro (h | ⟨⟨fault, h⟩, -⟩)
    · rw [hcut, himg] at h
      exact absurd h (by decide)
    · rw [hcutOk] at h
      exact absurd h (by simp)

end Resize

end LeyLine
