import LeyLine.StoreFs.Scratch

/-!
# What the scratch counter counts

`used` is the sum of the lengths of the linked regular files (`Sound.counted`), as long as
a file is not taken from its name while it is open and the host does not fail between a
reservation and what it is for. Each update of the directory is considered on its own;
the calls are put together from them.
-/

namespace LeyLine.StoreFs

open Req (Moves Ends)
open List

def Node.ino? : Node → Option Nat
  | .file ino => some ino
  | _ => none

variable {node : Node}

theorem Node.ino?_eq_some_iff {i : Nat} : node.ino? = some i ↔ node = .file i := by
  cases node <;> simp [Node.ino?]

theorem Node.ino?_eq_none_iff : node.ino? = none ↔ ∀ i, node ≠ .file i := by
  cases node <;> simp [Node.ino?]

namespace Scratch

def inos (s : Scratch) : List Nat := s.entries.filterMap (·.2.ino?)

def linkedBytes (s : Scratch) : Nat := (s.inos.map fun i => (s.bytesOf i).length).sum

/-- `used` counts the linked files' bytes, within the limit. `opened` are the inodes open
through a handle, all of them linked, and no file at a path of `free` is. -/
structure Sound (opened : Nat → Prop) (free : Path → Prop) (limit : Nat) (s : Scratch) : Prop where
  names : (s.entries.map Prod.fst).Nodup
  single : s.inos.Nodup
  bound : ∀ i ∈ s.inos, i < s.files.length
  linked : ∀ i, opened i → i ∈ s.inos
  closed : ∀ p i, free p → (p, .file i) ∈ s.entries → ¬ opened i
  counted : s.used = s.linkedBytes
  sameLimit : s.limit = limit
  within : s.used ≤ limit

variable {opened : Nat → Prop} {free : Path → Prop} {limit : Nat} {s s' : Scratch} {p : Path}
  {i : Nat}

theorem mem_inos : i ∈ s.inos ↔ ∃ p, (p, Node.file i) ∈ s.entries := by
  unfold inos
  rw [mem_filterMap]
  constructor
  · rintro ⟨⟨p, node⟩, hmem, hnode⟩
    exact ⟨p, Node.ino?_eq_some_iff.mp hnode ▸ hmem⟩
  · rintro ⟨p, hmem⟩
    exact ⟨(p, .file i), hmem, rfl⟩

theorem sound_fresh (hfree : ∀ i, ¬ opened i) : Sound opened free limit (fresh limit) :=
  ⟨nodup_nil, nodup_nil, fun _ hi => absurd hi not_mem_nil,
    fun i hi => absurd hi (hfree i), fun _ i _ _ => hfree i, rfl, rfl, Nat.zero_le _⟩

/-! ## Updates that keep the regular files -/

/-- The regular files, their names and the counter stay as they are. -/
structure SameFiles (s s' : Scratch) : Prop where
  names : (s'.entries.map Prod.fst).Nodup
  inos : s'.inos = s.inos
  entries : ∀ p i, (p, Node.file i) ∈ s'.entries ↔ (p, Node.file i) ∈ s.entries
  bytes : ∀ i, s'.bytesOf i = s.bytesOf i
  length : s'.files.length = s.files.length
  used : s'.used = s.used
  limit : s'.limit = s.limit

def Same (s s' : Scratch) : Prop := (s.entries.map Prod.fst).Nodup → SameFiles s s'

instance : Req.Closed Same where
  refl _ h := ⟨h, rfl, fun _ _ => Iff.rfl, fun _ => rfl, rfl, rfl, rfl⟩
  trans h h' hn := by
    have h₁ := h hn
    have h₂ := h' h₁.names
    exact ⟨h₂.names, h₂.inos.trans h₁.inos, fun p i => (h₂.entries p i).trans (h₁.entries p i),
      fun i => (h₂.bytes i).trans (h₁.bytes i), h₂.length.trans h₁.length, h₂.used.trans h₁.used,
      h₂.limit.trans h₁.limit⟩

theorem Same.sound (hsame : Same s s') (h : Sound opened free limit s) :
    Sound opened free limit s' := by
  have hs := hsame h.names
  refine ⟨hs.names, hs.inos ▸ h.single, fun i hi => ?_, fun i hi => ?_, fun p i hp hmem => ?_, ?_,
    hs.limit.trans h.sameLimit, hs.used ▸ h.within⟩
  · rw [hs.length]
    exact h.bound i (hs.inos ▸ hi)
  · rw [hs.inos]
    exact h.linked i hi
  · exact h.closed p i hp ((hs.entries p i).mp hmem)
  · rw [hs.used, h.counted, linkedBytes, linkedBytes, hs.inos]
    simp only [hs.bytes]

theorem same_ticks (s : Scratch) (ticks : Nat) : Same s { s with ticks := ticks } :=
  fun h => ⟨h, rfl, fun _ _ => Iff.rfl, fun _ => rfl, rfl, rfl, rfl⟩

theorem same_put (hnode : ∀ i, node ≠ .file i) (hnew : s.entryAt p = none) :
    Same s (s.put p node) := by
  intro h
  refine ⟨nodup_cons.mpr ⟨Assoc.get_eq_none_iff.mp hnew, h⟩, ?_, fun p' i => ?_, fun _ => rfl,
    rfl, rfl, rfl⟩
  · exact filterMap_cons_none (Node.ino?_eq_none_iff.mpr hnode)
  · unfold put
    rw [mem_cons]
    refine ⟨fun hmem => hmem.resolve_left fun heq => ?_, .inr⟩
    exact hnode i (congrArg Prod.snd heq).symm

theorem same_drop (hnode : ∀ i, node ≠ .file i) (hget : s.entryAt p = some node) :
    Same s (s.drop p) := by
  intro h
  obtain ⟨before, after, heq, hdrop⟩ := Assoc.erase_eq h ((Assoc.get_eq_some_iff h).mp hget)
  have hentries : (s.drop p).entries = before ++ after := hdrop
  refine ⟨?_, ?_, fun p' i => ?_, fun _ => rfl, rfl, rfl, rfl⟩
  · exact h.sublist (filter_sublist.map _)
  · unfold inos
    have hcons : ((p, node) :: after).filterMap (·.2.ino?) = after.filterMap (·.2.ino?) :=
      filterMap_cons_none (Node.ino?_eq_none_iff.mpr hnode)
    rw [hentries, heq, filterMap_append, filterMap_append, hcons]
  · rw [hentries, heq, mem_append, mem_append, mem_cons]
    refine or_congr_right ⟨.inr, fun hmem => hmem.resolve_left fun hpi => ?_⟩
    exact hnode i (congrArg Prod.snd hpi).symm

theorem same_setPerm {path : Path} {file : HostFile} (perm : Nat)
    (hfile : file = none → ∀ i, (path, Node.file i) ∉ s.entries) :
    Same s (s.setPerm path file perm) := by
  intro h
  cases file with
  | some ino =>
    refine ⟨h, rfl, fun _ _ => Iff.rfl, fun i => ?_, length_modify .., rfl, rfl⟩
    simp only [bytesOf, setPerm, getElem?_modify]
    cases s.files[i]? with
    | none => rfl
    | some f => by_cases hi : ino = i <;> simp [hi]
  | none =>
    have hno := hfile rfl
    have hentries : (s.setPerm path none perm).entries = s.entries.map fun x =>
        if x.1 = path then (x.1, .directory perm) else x := rfl
    refine ⟨?_, ?_, fun p i => ?_, fun _ => rfl, rfl, rfl, rfl⟩
    · rw [hentries, map_map]
      refine (congrArg List.Nodup (map_congr_left fun x _ => ?_)).mpr h
      simp only [Function.comp]
      split <;> rfl
    · unfold inos
      rw [hentries, filterMap_map]
      refine filterMap_congr fun x hx => ?_
      simp only [Function.comp]
      by_cases hpath : x.1 = path
      · rw [if_pos hpath]
        refine (Node.ino?_eq_none_iff.mpr fun i hi => hno i ?_).symm
        rw [← hpath, ← hi]
        exact hx
      · rw [if_neg hpath]
    · rw [hentries, mem_map]
      constructor
      · rintro ⟨x, hx, heq⟩
        split at heq
        · cases congrArg Prod.snd heq
        · exact heq ▸ hx
      · intro hmem
        refine ⟨(p, .file i), hmem, if_neg ?_⟩
        rintro rfl
        exact hno i hmem

/-! ## Updates of a regular file -/

theorem Sound.create (h : Sound opened free limit s) (hnew : s.entryAt p = none) (perm : Nat) :
    Sound opened free limit
      { s.put p (.file s.files.length) with files := s.files ++ [⟨[], perm⟩] } := by
  have hbytes : ∀ i ∈ s.inos, ((s.files ++ [⟨[], perm⟩])[i]?.map (·.bytes)).getD [] = s.bytesOf i :=
    fun i hi => by rw [getElem?_append_left (h.bound i hi), bytesOf]
  have hfresh : s.files.length ∉ s.inos := fun hi => lt_irrefl _ (h.bound _ hi)
  refine ⟨nodup_cons.mpr ⟨Assoc.get_eq_none_iff.mp hnew, h.names⟩,
    nodup_cons.mpr ⟨hfresh, h.single⟩, fun i hi => ?_, fun i hi => ?_, fun p' i hp' hmem => ?_,
    ?_, h.sameLimit, h.within⟩
  · rw [length_append, length_singleton]
    rcases mem_cons.mp hi with rfl | hi
    · exact Nat.lt_succ_self _
    · exact (h.bound i hi).trans (Nat.lt_succ_self _)
  · exact mem_cons_of_mem _ (h.linked i hi)
  · rcases mem_cons.mp hmem with heq | hmem
    · obtain rfl : i = s.files.length := Node.file.inj (congrArg Prod.snd heq)
      exact fun hopen => hfresh (h.linked _ hopen)
    · exact h.closed p' i hp' hmem
  · have hlinked : linkedBytes { s.put p (.file s.files.length) with
        files := s.files ++ [⟨[], perm⟩] } = s.linkedBytes := by
      change ((s.files.length :: s.inos).map _).sum = _
      rw [map_cons, sum_cons]
      have hzero : (bytesOf { s.put p (.file s.files.length) with
          files := s.files ++ [⟨[], perm⟩] } s.files.length).length = 0 := by
        simp [bytesOf]
      rw [hzero, Nat.zero_add, linkedBytes]
      refine congrArg sum (map_congr_left fun i hi => congrArg length ?_)
      exact hbytes i hi
    rw [hlinked]
    exact h.counted

theorem bytesOf_setBytes (hi : i < s.files.length) (bytes : Bytes) (j : Nat) :
    (s.setBytes i bytes).bytesOf j = if i = j then bytes else s.bytesOf j := by
  unfold bytesOf setBytes
  by_cases hij : i = j
  · subst hij
    simp [getElem?_eq_getElem hi]
  · simp [hij]

theorem Sound.setBytes (h : Sound opened free limit s) (hi : i ∈ s.inos) {bytes : Bytes}
    (used : Nat)
    (hused : used + (s.bytesOf i).length = s.used + bytes.length) (hle : used ≤ limit) :
    Sound opened free limit { s.setBytes i bytes with used := used } := by
  have hlen := h.bound i hi
  refine ⟨h.names, h.single, fun j hj => ?_, h.linked, h.closed, ?_, h.sameLimit, hle⟩
  · change j < (s.files.modify i _).length
    rw [length_modify]
    exact h.bound j hj
  · change used = (s.inos.map fun j => ((s.setBytes i bytes).bytesOf j).length).sum
    have hrest : ((s.inos.erase i).map fun j => ((s.setBytes i bytes).bytesOf j).length) =
        (s.inos.erase i).map fun j => (s.bytesOf j).length := by
      refine map_congr_left fun j hj => ?_
      rw [bytesOf_setBytes hlen, if_neg (fun hij => (h.single.mem_erase_iff.mp hj).1 hij.symm)]
    have hself : ((s.setBytes i bytes).bytesOf i).length = bytes.length := by
      rw [bytesOf_setBytes hlen, if_pos rfl]
    have hnew := sum_map_erase (fun j => ((s.setBytes i bytes).bytesOf j).length) hi
    have hold := sum_map_erase (fun j => (s.bytesOf j).length) hi
    have hcounted := h.counted
    unfold linkedBytes at hcounted
    simp only [hrest, hself] at hnew
    omega

theorem Sound.drop (h : Sound opened free limit s) (hget : s.entryAt p = some node)
    {freed : Nat} (hfile : ∀ i, node = .file i → ¬ opened i ∧ freed = (s.bytesOf i).length)
    (hother : (∀ i, node ≠ .file i) → freed = 0) :
    Sound opened free limit { s.drop p with used := s.used - freed } := by
  by_cases hnode : ∃ i, node = .file i
  · obtain ⟨i, rfl⟩ := hnode
    obtain ⟨hclosed, rfl⟩ := hfile i rfl
    obtain ⟨before, after, heq, hdrop⟩ :=
      Assoc.erase_eq h.names ((Assoc.get_eq_some_iff h.names).mp hget)
    have hinos : s.inos = before.filterMap (·.2.ino?) ++ i :: after.filterMap (·.2.ino?) := by
      unfold inos
      rw [heq, filterMap_append]
      rfl
    have hinos' : (s.drop p).inos = before.filterMap (·.2.ino?) ++ after.filterMap (·.2.ino?) := by
      unfold inos
      rw [show (s.drop p).entries = before ++ after from hdrop, filterMap_append]
    have hmem : ∀ j, j ∈ (s.drop p).inos ↔ j ∈ s.inos ∧ j ≠ i := by
      intro j
      have hsingle := h.single
      rw [hinos] at hsingle
      rw [hinos, hinos', mem_append, mem_append, mem_cons]
      have hapart := (nodup_append.mp hsingle).2.2
      have hi := (nodup_cons.mp (nodup_append.mp hsingle).2.1).1
      constructor
      · rintro (hj | hj)
        · exact ⟨.inl hj, fun hji => hapart j hj i mem_cons_self hji⟩
        · exact ⟨.inr (.inr hj), fun hji => hi (hji ▸ hj)⟩
      · rintro ⟨hj | rfl | hj, hji⟩
        · exact .inl hj
        · exact absurd rfl hji
        · exact .inr hj
    refine ⟨h.names.sublist (filter_sublist.map _), ?_, fun j hj => h.bound j ((hmem j).mp hj).1,
      fun j hj => (hmem j).mpr ⟨h.linked j hj, fun hji => hclosed (hji ▸ hj)⟩,
      fun p' j hp' hj => h.closed p' j hp' (mem_of_mem_filter hj), ?_, h.sameLimit,
      (Nat.sub_le _ _).trans h.within⟩
    · change (s.drop p).inos.Nodup
      have hsingle := h.single
      rw [hinos] at hsingle
      rw [hinos']
      exact hsingle.sublist ((List.Sublist.refl _).append (sublist_cons_self _ _))
    · change s.used - (s.bytesOf i).length = ((s.drop p).inos.map fun j => (s.bytesOf j).length).sum
      have hcounted := h.counted
      unfold linkedBytes at hcounted
      rw [hinos] at hcounted
      rw [hinos', hcounted]
      simp only [map_append, map_cons, sum_append, sum_cons]
      omega
  · have hnot : ∀ i, node ≠ .file i := fun i hi => hnode ⟨i, hi⟩
    rw [hother hnot, Nat.sub_zero]
    exact (same_drop hnot hget).sound h

/-! ## Moving names -/

theorem moveEntry_snd (src dst : Path) (x : Path × Node) : (moveEntry src dst x).2 = x.2 := by
  unfold moveEntry
  split <;> rfl

theorem moveEntry_cases {src : Path} (hsrc : src ≠ []) (dst : Path) (x : Path × Node) :
    (moveEntry src dst x).1 = x.1 ∨ ∃ rest, x.1 = src ++ rest ∧
    (moveEntry src dst x).1 = dst ++ rest ∧
      (rest = [] ∨ ∃ r, rest = '/' :: r) := by
  unfold moveEntry
  split
  · rename_i hmoves
    refine .inr ?_
    rcases hmoves with heq | hpre
    · exact ⟨[], by simpa using heq, by simp [movedPath, heq], .inl rfl⟩
    · rw [join, if_neg hsrc] at hpre
      obtain ⟨r, hr⟩ := List.isPrefixOf_iff_prefix.mp hpre
      refine ⟨'/' :: r, ?_, ?_, .inr ⟨r, rfl⟩⟩
      · rw [← hr]
        simp
      · rw [← hr]
        simp [movedPath]
  · exact .inl rfl

theorem inos_map_moveEntry (src dst : Path) (l : List (Path × Node)) :
    (l.map (moveEntry src dst)).filterMap (·.2.ino?) = l.filterMap (·.2.ino?) := by
  rw [filterMap_map]
  simp only [Function.comp, moveEntry_snd]

theorem nodup_move {src dst : Path} (hsrc : src ≠ []) (hdst : dst ≠ []) {l : List (Path × Node)}
    (hnames : (l.map Prod.fst).Nodup)
    (hfree : ∀ x ∈ l, x.1 ≠ dst ∧ ¬ (join dst []).isPrefixOf x.1 = true) :
    ((l.map (moveEntry src dst)).map Prod.fst).Nodup := by
  have hunder : ∀ x ∈ l, ∀ rest, (rest = [] ∨ ∃ r, rest = '/' :: r) → x.1 ≠ dst ++ rest := by
    rintro x hx rest (rfl | ⟨r, rfl⟩) heq
    · exact (hfree x hx).1 (by simpa using heq)
    · refine (hfree x hx).2 (List.isPrefixOf_iff_prefix.mpr ⟨r, ?_⟩)
      rw [heq, join, if_neg hdst]
      simp
  rw [map_map]
  refine List.Nodup.map_on (fun x hx y hy heq => ?_) hnames.of_map
  refine inj_on_of_nodup_map hnames hx hy ?_
  simp only [Function.comp] at heq
  rcases moveEntry_cases hsrc dst x with hx' | ⟨rest, hx', hx'', hrest⟩ <;>
    rcases moveEntry_cases hsrc dst y with hy' | ⟨rest', hy', hy'', hrest'⟩
  · rw [← hx', ← hy', heq]
  · exact absurd (hx'.symm.trans (heq.trans hy'')) (hunder x hx rest' hrest')
  · exact absurd (hy'.symm.trans (heq.symm.trans hx'')) (hunder y hy rest hrest)
  · rw [hx', hy', append_cancel_left (hx''.symm.trans (heq.trans hy''))]

theorem Sound.forget (h : Sound opened free limit s) : Sound opened (fun _ => False) limit s :=
  ⟨h.names, h.single, h.bound, h.linked, fun _ _ hp => hp.elim, h.counted, h.sameLimit, h.within⟩

theorem Sound.remap {src dst : Path} (hsrc : src ≠ []) (hdst : dst ≠ [])
    (h : Sound opened free limit s)
    (hempty : ∀ x ∈ s.entries, x.1 ≠ dst ∧ ¬ (join dst []).isPrefixOf x.1 = true) :
    Sound opened (fun _ => False) limit
      { s with entries := s.entries.map (moveEntry src dst) } := by
  have hinos : inos { s with entries := s.entries.map (moveEntry src dst) } = s.inos :=
    inos_map_moveEntry src dst s.entries
  refine ⟨nodup_move hsrc hdst h.names hempty, hinos ▸ h.single, fun i hi => h.bound i (hinos ▸ hi),
    fun i hi => hinos ▸ h.linked i hi, fun _ _ hp => hp.elim, ?_, h.sameLimit, h.within⟩
  rw [linkedBytes, hinos]
  exact h.counted

end Scratch

end LeyLine.StoreFs
