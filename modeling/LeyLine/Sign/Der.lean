import LeyLine.Lib.Steps
import LeyLine.Tree

/-!
# DER by hand

The helpers of `sign/src/cms.rs` that write and read tag-length-value elements. What the
writer writes the reader reads back (`parseTlv_encodeTlv`), as long as a length fits
three bytes; what the reader reads starts the string it was given
(`parseTlv_eq_append`), but need not be written as the writer would have.
-/

namespace LeyLine.Sign.Der

open List (cons_append cons_ne_nil length_append length_cons)

/-! ## Writing -/

/-- A length, in one to four bytes. The last form keeps only the low three. -/
def encodeDerLength (len : Nat) : Bytes :=
  if len < 0x80 then [.ofNat len]
  else if len < 0x100 then [0x81, .ofNat len]
  else if len < 0x10000 then [0x82, .ofNat (len / 2 ^ 8), .ofNat len]
  else [0x83, .ofNat (len / 2 ^ 16), .ofNat (len / 2 ^ 8), .ofNat len]

def encodeTlv (tag : UInt8) (content : Bytes) : Bytes :=
  tag :: encodeDerLength content.length ++ content

def encodeOid (oid : Bytes) : Bytes := encodeTlv 0x06 oid

def encodeOctetString (data : Bytes) : Bytes := encodeTlv 0x04 data

def encodeInteger (value : Bytes) : Bytes :=
  match value with
  | [] => encodeTlv 0x02 []
  | b :: _ => if 0x80 ≤ b then encodeTlv 0x02 (0 :: value) else encodeTlv 0x02 value

def encodeSequence (contents : Bytes) : Bytes := encodeTlv 0x30 contents

def encodeSet (contents : Bytes) : Bytes := encodeTlv 0x31 contents

/-! ## Reading -/

def bigEndian (bytes : Bytes) : Nat := bytes.foldl (fun n b => n * 256 + b.toNat) 0

def parseDerLength : Bytes → Except String (Nat × Nat)
  | [] => .error "empty length"
  | first :: rest =>
    if first < 0x80 then .ok (first.toNat, 1)
    else
      let numBytes := first.toNat % 128
      if numBytes = 0 ∨ numBytes > 3 ∨ rest.length < numBytes then .error "invalid DER length"
      else .ok (bigEndian (rest.take numBytes), 1 + numBytes)

def parseTlv : Bytes → Except String (UInt8 × Bytes × Bytes)
  | [] => .error "empty TLV"
  | [_] => .error "truncated TLV"
  | tag :: rest => do
    let (len, headerSize) ← parseDerLength rest
    let need := 1 + headerSize + len
    let have_ := rest.length + 1
    if have_ < need then .error s!"TLV truncated: need {need} bytes, have {have_}"
    else .ok (tag, (rest.drop headerSize).take len, rest.drop (headerSize + len))

/-- The elements one after another; `fuel` is at least their number. -/
def iterTlvFuel : Nat → Bytes → Except String (List (UInt8 × Bytes))
  | _, [] => .ok []
  | 0, _ :: _ => .error "out of fuel"
  | fuel + 1, data@(_ :: _) => do
    let (tag, content, rest) ← parseTlv data
    let elements ← iterTlvFuel fuel rest
    .ok ((tag, content) :: elements)

/-- Every element takes a byte, so there are no more of them than bytes. -/
def iterTlv (data : Bytes) : Except String (List (UInt8 × Bytes)) := iterTlvFuel data.length data

/-! ## What is read -/

variable {data : Bytes}

theorem parseDerLength_pos {len headerSize : Nat}
    (h : parseDerLength data = .ok (len, headerSize)) :
    0 < headerSize := by
  cases data with
  | nil => cases h
  | cons first rest =>
    rw [parseDerLength] at h
    dsimp only at h
    split_ifs at h
    · obtain ⟨-, rfl⟩ := Prod.mk.inj (Except.ok.inj h)
      exact Nat.one_pos
    · obtain ⟨-, rfl⟩ := Prod.mk.inj (Except.ok.inj h)
      exact Nat.lt_add_right _ Nat.one_pos

variable {content rest : Bytes} {tag : UInt8}

theorem parseTlv_ok (h : parseTlv data = .ok (tag, content, rest)) :
    ∃ tail len headerSize, data = tag :: tail ∧ parseDerLength tail = .ok (len, headerSize) ∧
      headerSize + len ≤ tail.length ∧ content = (tail.drop headerSize).take len ∧
      rest = tail.drop (headerSize + len) := by
  match data, h with
  | tag' :: b :: tail, h =>
    rw [parseTlv] at h
    · obtain ⟨⟨len, headerSize⟩, hlen, h⟩ := Except.bind_eq_ok_iff.mp h
      dsimp only at h
      split_ifs at h with hshort
      obtain ⟨rfl, hrest⟩ := Prod.mk.inj (Except.ok.inj h)
      cases hrest
      exact ⟨b :: tail, len, headerSize, rfl, hlen, by omega, rfl, rfl⟩
    · exact fun h => absurd h (cons_ne_nil b tail)

theorem parseTlv_eq_append (h : parseTlv data = .ok (tag, content, rest)) :
    ∃ header, data = tag :: header ++ content ++ rest ∧ header ≠ [] := by
  obtain ⟨tail, len, headerSize, rfl, hlen, hle, rfl, rfl⟩ := parseTlv_ok h
  refine ⟨tail.take headerSize, ?_, ?_⟩
  · simp only [cons_append, List.append_assoc, ← List.drop_drop, List.take_append_drop]
  · intro hnil
    have hpos := parseDerLength_pos hlen
    have := congrArg List.length hnil
    rw [List.length_take, List.length_nil] at this
    omega

theorem parseTlv_lt (h : parseTlv data = .ok (tag, content, rest)) : rest.length < data.length := by
  obtain ⟨header, rfl, -⟩ := parseTlv_eq_append h
  simp only [cons_append, length_cons, length_append]
  omega

theorem parseDerLength_congr {data data' : Bytes} {len headerSize : Nat}
    (h : parseDerLength data = .ok (len, headerSize))
    (htake : data'.take headerSize = data.take headerSize)
    (hle : headerSize ≤ data'.length) : parseDerLength data' = .ok (len, headerSize) := by
  have hpos := parseDerLength_pos h
  cases data with
  | nil => cases h
  | cons first rest =>
    obtain ⟨k, rfl⟩ : ∃ k, headerSize = k + 1 := ⟨headerSize - 1, by omega⟩
    cases data' with
    | nil => simp at hle
    | cons first' rest' =>
      rw [List.take_succ_cons, List.take_succ_cons, List.cons.injEq] at htake
      obtain ⟨rfl, htake⟩ := htake
      rw [length_cons, Nat.add_le_add_iff_right] at hle
      rw [parseDerLength] at h ⊢
      dsimp only at h ⊢
      split_ifs at h with hshort hbad
      · rw [if_pos hshort]
        exact h
      · obtain ⟨hlen, hsize⟩ := Prod.mk.inj (Except.ok.inj h)
        obtain rfl : first'.toNat % 128 = k := by omega
        have hbad' : ¬ (first'.toNat % 128 = 0 ∨ first'.toNat % 128 > 3 ∨
            rest'.length < first'.toNat % 128) := by omega
        rw [if_neg hshort, if_neg hbad', htake]
        exact h

theorem parseTlv_alone (h : parseTlv data = .ok (tag, content, rest)) (tag' : UInt8) :
    ∃ tail, data = tag :: tail ++ rest ∧ parseTlv (tag' :: tail) = .ok (tag', content, []) := by
  obtain ⟨tail, len, headerSize, rfl, hlen, hle, rfl, rfl⟩ := parseTlv_ok h
  have hpos := parseDerLength_pos hlen
  refine ⟨tail.take (headerSize + len), by rw [cons_append, List.take_append_drop], ?_⟩
  have htake : (tail.take (headerSize + len)).length = headerSize + len := by
    rw [List.length_take, Nat.min_eq_left hle]
  have hlen' : parseDerLength (tail.take (headerSize + len)) = .ok (len, headerSize) := by
    refine parseDerLength_congr hlen ?_ (by omega)
    rw [List.take_take, Nat.min_eq_left (Nat.le_add_right _ _)]
  have hcons : ∃ b bs, tail.take (headerSize + len) = b :: bs :=
    List.exists_cons_of_length_pos (by omega)
  obtain ⟨b, bs, hbs⟩ := hcons
  rw [hbs] at hlen' htake ⊢
  rw [parseTlv]
  · simp only [hlen', bind, Except.bind]
    rw [if_neg (by omega)]
    congr 3
    · rw [← hbs, List.drop_take, Nat.add_sub_cancel_left, List.take_take, Nat.min_self]
    · exact List.drop_eq_nil_of_le (by omega)
  · exact fun h => absurd h (cons_ne_nil b bs)

theorem parseTlv_append (h : parseTlv data = .ok (tag, content, [])) (rest : Bytes) :
    parseTlv (data ++ rest) = .ok (tag, content, rest) := by
  obtain ⟨tail, len, headerSize, rfl, hlen, hle, hcontent, hnil⟩ := parseTlv_ok h
  have hpos := parseDerLength_pos hlen
  have hlength : tail.length ≤ headerSize + len := List.drop_eq_nil_iff.mp hnil.symm
  have hlen' : parseDerLength (tail ++ rest) = .ok (len, headerSize) :=
    parseDerLength_congr hlen (by rw [List.take_append_of_le_length (by omega)])
      (by rw [length_append]; omega)
  obtain ⟨b, bs, rfl⟩ := List.exists_cons_of_length_pos (l := tail) (by omega)
  rw [cons_append, cons_append] at *
  rw [parseTlv]
  · rw [hlen']
    simp only [bind, Except.bind]
    rw [if_neg (by simp only [length_cons, length_append] at *; omega), hcontent]
    congr 3
    · rw [← cons_append, List.drop_append_of_le_length (by omega), List.take_append_of_le_length
        (by rw [List.length_drop]; omega)]
    · rw [← cons_append, List.drop_append, List.drop_eq_nil_of_le (by omega), List.nil_append]
      rw [show headerSize + len - (b :: bs).length = 0 by omega, List.drop_zero]
  · exact fun h => absurd h (cons_ne_nil _ _)

/-! ## Reading what was written -/

theorem encodeDerLength_ne_nil (n : Nat) : encodeDerLength n ≠ [] := by
  rw [encodeDerLength]
  split_ifs <;> exact cons_ne_nil _ _

theorem parseDerLength_encode {n : Nat} (h : n < 2 ^ 24) (rest : Bytes) :
    parseDerLength (encodeDerLength n ++ rest) = .ok (n, (encodeDerLength n).length) := by
  rw [encodeDerLength]
  split_ifs with h1 h2 h3
  · have hn : (UInt8.ofNat n).toNat = n := by
      rw [UInt8.toNat_ofNat']
      omega
    have hlt : UInt8.ofNat n < 0x80 := by
      rw [UInt8.lt_iff_toNat_lt, hn]
      exact h1
    simp [parseDerLength, hlt, hn]
  · simp [parseDerLength, bigEndian]
    omega
  · simp [parseDerLength, bigEndian]
    omega
  · simp [parseDerLength, bigEndian]
    rw [if_neg (by omega)]
    congr 2
    omega

theorem parseTlv_encodeTlv (tag : UInt8) (h : content.length < 2 ^ 24) (rest : Bytes) :
    parseTlv (encodeTlv tag content ++ rest) = .ok (tag, content, rest) := by
  have hlen := parseDerLength_encode h (content ++ rest)
  obtain ⟨b, bs, hbs⟩ := List.exists_cons_of_ne_nil (encodeDerLength_ne_nil content.length)
  have heq : encodeTlv tag content ++ rest =
      tag :: (encodeDerLength content.length ++ (content ++ rest)) := by
    rw [encodeTlv, cons_append, cons_append, List.append_assoc]
  rw [heq, parseTlv]
  · rw [hlen]
    simp only [bind, Except.bind]
    rw [if_neg (by simp only [length_append]; omega)]
    simp
  · rw [hbs]
    exact fun h => absurd h (cons_ne_nil _ _)

theorem iterTlvFuel_congr : ∀ {fuel fuel' : Nat}
    {data : Bytes}, data.length ≤ fuel → data.length ≤ fuel' →
    iterTlvFuel fuel data = iterTlvFuel fuel' data
  | 0, _, [], _, _ => by simp [iterTlvFuel]
  | _ + 1, _, [], _, _ => by simp [iterTlvFuel]
  | fuel + 1, fuel' + 1, b :: bs, h, h' => by
    rw [iterTlvFuel, iterTlvFuel]
    cases hparse : parseTlv (b :: bs) with
    | error e => rfl
    | ok parsed =>
      obtain ⟨tag, content, rest⟩ := parsed
      have hlt := parseTlv_lt hparse
      have hrest : iterTlvFuel fuel rest = iterTlvFuel fuel' rest :=
        iterTlvFuel_congr (by omega) (by omega)
      simp only [bind, Except.bind]
      rw [hrest]

theorem iterTlv_of_parseTlv (h : parseTlv data = .ok (tag, content, rest)) :
    iterTlv data = (iterTlv rest).map ((tag, content) :: ·) := by
  have hlt := parseTlv_lt h
  obtain ⟨b, bs, rfl⟩ := List.exists_cons_of_length_pos (l := data) (by omega)
  rw [length_cons] at hlt
  have hfuel : iterTlvFuel bs.length rest = iterTlv rest := iterTlvFuel_congr (by omega) (le_refl _)
  rw [iterTlv, length_cons, iterTlvFuel, h]
  simp only [bind, Except.bind]
  rw [hfuel]
  cases iterTlv rest <;> rfl

theorem iterTlv_encodeTlv (tag : UInt8) (h : content.length < 2 ^ 24) (rest : Bytes) :
    iterTlv (encodeTlv tag content ++ rest) = (iterTlv rest).map ((tag, content) :: ·) :=
  iterTlv_of_parseTlv (parseTlv_encodeTlv tag h rest)

theorem iterTlv_encodeTlv_last (tag : UInt8) (h : content.length < 2 ^ 24) :
    iterTlv (encodeTlv tag content) = .ok [(tag, content)] := by
  have heq := iterTlv_encodeTlv tag h []
  rwa [List.append_nil] at heq

theorem length_le_encodeTlv (tag : UInt8) (content : Bytes) :
    content.length ≤ (encodeTlv tag content).length := by
  rw [encodeTlv, length_append]
  omega

theorem length_encodeTlv_le (tag : UInt8) (content : Bytes) :
    (encodeTlv tag content).length ≤ content.length + 5 := by
  rw [encodeTlv, length_append, length_cons, encodeDerLength]
  split_ifs <;> simp <;> omega

end LeyLine.Sign.Der
