import LeyLine.Restriction
import LeyLine.TreeRoot

/-!
# When equal restriction keys mean equal reviews

A key determines the rows of its closure up to their order (`rows_perm_of_key_eq`).
For the public-API review that is all the review reads. For the call-target review it
is not: a reference resolves through the *first* import it names, in its *own* file,
and the closure keeps neither the order of the imports nor the file of a row.
`CallTargetSound` says that a cached review is never served after its result changed;
`callTargetSound_iff` says for which closures that is so.
-/

namespace LeyLine.Restriction

open Std (ExtTreeMap)
open List (filter_append filter_eq_self map_cons map_map mem_append mem_append_right mem_filter
  mem_map mem_map_of_mem mem_singleton)
open Partition.PartitionSpec (folded_perm preimage_congr preimage_inj)
open Table (mem_sortedSet nodup_sortedSet sortedSet)

/-! ## The rows of a key -/

theorem indexSlice_indexBy {α : Type} (key : α → Option Text) (rows : List α) (k : Text) :
    indexSlice (indexBy key rows) k = rows.filter fun r => key r = some k := by
  induction rows using List.reverseRecOn with
  | nil => simp [indexBy, indexSlice]
  | append_singleton rows r ih =>
    rw [filter_append, ← ih, indexBy, List.foldl_append, ← indexBy]
    cases hkey : key r with
    | none => simp [hkey]
    | some k' =>
      by_cases hk : k' = k
      · subst hk
        simp [hkey, indexSlice]
      · simp [hkey, hk, indexSlice, ExtTreeMap.getD_insert]

/-- Every count and every length of a closure fits the 64 bits it is written in. -/
structure RowsFit (rows : List Row) : Prop where
  count : rows.length < 256 ^ 8
  fields : ∀ r ∈ rows, r.fields.length < 256 ^ 8 ∧ ∀ f ∈ r.fields, f.length < 256 ^ 8

/-- Neither hash collides on the strings two keys are computed from. -/
structure Separates (rowHash keyed : Bytes → Digest) (scheme : Text) (id id' : Digest)
    (rows rows' : List Row) : Prop where
  row : Set.InjOn rowHash {b | ∃ r ∈ rows ++ rows', b = r.encode}
  fold : Set.InjOn keyed {(keySpec scheme id).preimage (rows.map (Row.entry rowHash)),
    (keySpec scheme id').preimage (rows'.map (Row.entry rowHash))}

variable {k : RowKind}

theorem RowKind.code_inj {k k' : RowKind} (h : k.code = k'.code) : k = k' := by
  cases k <;> cases k' <;> first | rfl | cases h

theorem perm_of_map_perm {α β : Type} {f : α → β} {l l' : List α}
    (hf : ∀ x ∈ l ++ l', ∀ y ∈ l ++ l', f x = f y → x = y) (h : (l.map f).Perm (l'.map f)) :
    l.Perm l' := by
  rcases isEmpty_or_nonempty α with hempty | hne
  · have hnil : ∀ l : List α, l = [] := fun l => List.eq_nil_iff_forall_not_mem.mpr hempty.elim
    rw [hnil l, hnil l']
  · have hinv : Set.LeftInvOn (Function.invFunOn f {x | x ∈ l ++ l'}) f {x | x ∈ l ++ l'} :=
      Set.InjOn.leftInvOn_invFunOn hf
    have hback : ∀ m : List α, (∀ x ∈ m, x ∈ l ++ l') →
        (m.map f).map (Function.invFunOn f {x | x ∈ l ++ l'}) = m := by
      intro m hm
      rw [map_map]
      exact (List.map_congr_left fun x hx => hinv (hm x hx)).trans (List.map_id _)
    have hperm := h.map (Function.invFunOn f {x | x ∈ l ++ l'})
    rwa [hback l fun x hx => List.mem_append_left _ hx,
      hback l' fun x hx => mem_append_right _ hx] at hperm

variable {rowHash keyed : Bytes → Digest}

/-- **A key determines the derivation and the rows of its closure.** -/
theorem rows_perm_of_key_eq {scheme : Text} {id id' : Digest}
    {rows rows' : List Row} (hscheme : (utf8 scheme).length < 256 ^ 8) (hfit : RowsFit rows)
    (hfit' : RowsFit rows') (hsep : Separates rowHash keyed scheme id id' rows rows')
    (h : restrictionKey rowHash keyed scheme id rows =
      restrictionKey rowHash keyed scheme id' rows') : id = id' ∧ rows.Perm rows' := by
  have hspec : ∀ (id : Digest) (rows : List Row), RowsFit rows →
      (keySpec scheme id).Fits (rows.map (Row.entry rowHash)) := fun id rows hfit =>
    ⟨hscheme, by rw [keySpec, id.length_eq]; decide, by rw [List.length_map]; exact hfit.count⟩
  have hpre := hsep.fold (Set.mem_insert _ _) (Set.mem_insert_of_mem _ rfl) h
  obtain ⟨hkey, hfolded⟩ := preimage_inj (hspec id rows hfit) (hspec id' rows' hfit') hpre
  refine ⟨Digest.ext (congrArg Partition.PartitionSpec.params hkey), ?_⟩
  have hentries : (rows.map (Row.entry rowHash)).Perm (rows'.map (Row.entry rowHash)) := by
    have hperm := ((keySpec scheme id).folded_perm (rows.map (Row.entry rowHash))).symm
    rw [hfolded] at hperm
    exact hperm.trans (folded_perm _ _)
  have hfields : ∀ r ∈ rows ++ rows', r.fields.length < 256 ^ 8 ∧
      ∀ f ∈ r.fields, f.length < 256 ^ 8 := fun r hr =>
    (mem_append.mp hr).elim (hfit.fields r) (hfit'.fields r)
  refine perm_of_map_perm (fun r hr r' hr' heq => ?_) hentries
  obtain ⟨haddr, hkind, -⟩ := Partition.Entry.mk.inj heq
  have hencode := hsep.row ⟨r, hr, rfl⟩ ⟨r', hr', rfl⟩ haddr
  have hsame :=
    ((Framing.selfDelimiting_sized 8).counted 8).inj (hfields r hr) (hfields r' hr') hencode
  obtain ⟨kind, fields⟩ := r
  obtain ⟨kind', fields'⟩ := r'
  obtain rfl : kind = kind' := RowKind.code_inj hkind
  obtain rfl : fields = fields' := hsame
  rfl

theorem key_congr (rowHash keyed : Bytes → Digest) (scheme : Text) (id : Digest)
    {rows rows' : List Row} (h : rows.Perm rows') :
    restrictionKey rowHash keyed scheme id rows = restrictionKey rowHash keyed scheme id rows' :=
  congrArg keyed (preimage_congr rfl (h.map _))

theorem optField_inj {q q' : Option Text} (h : optField q = optField q') : q = q' := by
  cases q with
  | none => cases q' with
    | none => rfl
    | some s' => exact absurd (List.cons.inj h).1 (by decide)
  | some s => cases q' with
    | none => exact absurd (List.cons.inj h).1 (by decide)
    | some s' => exact congrArg some (utf8_inj (List.cons.inj h).2)

theorem defRow_inj {d d' : DefRow} (h : defRow k d = defRow k d') : d = d' := by
  obtain ⟨token, sourceId, kind⟩ := d
  simp only [defRow, Row.mk.injEq, List.cons.injEq, and_true, true_and] at h
  obtain rfl := utf8_inj h.1
  obtain rfl := utf8_inj h.2.1
  obtain rfl := utf8_inj h.2.2
  rfl

theorem filter_kind_map {α : Type} {f : α → Row} (hf : ∀ x, (f x).kind = k) (k' : RowKind)
    (l : List α) :
    ((l.map f).filter fun r => r.kind = k') = if k = k' then l.map f else [] := by
  split
  · rename_i heq
    refine filter_eq_self.mpr fun r hr => ?_
    obtain ⟨x, -, rfl⟩ := mem_map.mp hr
    simp [hf, heq]
  · rename_i hne
    refine List.filter_eq_nil_iff.mpr fun r hr => ?_
    obtain ⟨x, -, rfl⟩ := mem_map.mp hr
    simp [hf, hne]

/-! ## Definitions of a token -/

/-- The comparison behind `DefRow.LE`. -/
def DefRow.compareKey (x y : DefRow) : Ordering :=
  (compare x.token y.token).then ((compare x.sourceId y.sourceId).then (compare x.kind y.kind))

instance : Std.TransCmp DefRow.compareKey :=
  inferInstanceAs (Std.TransCmp (compareLex (compareOn DefRow.token)
    (compareLex (compareOn DefRow.sourceId) (compareOn DefRow.kind))))

instance : Std.LawfulEqCmp DefRow.compareKey where
  compare_self := by simp [DefRow.compareKey]
  eq_of_compare {x y} h := by
    simp only [DefRow.compareKey, Ordering.then_eq_eq, Std.LawfulEqOrd.compare_eq_iff_eq] at h
    obtain ⟨token, sourceId, kind⟩ := x
    obtain ⟨token', sourceId', kind'⟩ := y
    obtain ⟨rfl, rfl, rfl⟩ := h
    rfl

variable (sub : FactSubstrate)

theorem defSlice (t : Text) : indexSlice sub.defIndex t = sub.defs.filter fun d => d.token = t := by
  unfold FactSubstrate.defIndex
  rw [indexSlice_indexBy]
  exact List.filter_congr fun d _ => by simp

theorem filter_defs {t : Text} {tokens : List Text} (hnodup : tokens.Nodup) (ht : t ∈ tokens) :
    ((tokens.flatMap (indexSlice sub.defIndex)).filter fun d => d.token = t) =
      sub.defs.filter fun d => d.token = t := by
  have hone : ∀ a, ((indexSlice sub.defIndex a).filter fun d => d.token = t) =
      if a = t then sub.defs.filter (fun d => d.token = t) else [] := by
    intro a
    rw [defSlice, List.filter_filter]
    split
    · rename_i heq
      exact List.filter_congr fun d _ => by simp [heq]
    · rename_i hne
      refine List.filter_eq_nil_iff.mpr fun d _ => ?_
      simp only [Bool.and_eq_true, decide_eq_true_eq, not_and]
      exact fun htok hd => hne (hd.symm.trans htok)
  induction tokens with
  | nil => cases ht
  | cons a tokens ih =>
    obtain ⟨ha, hnodup⟩ := List.nodup_cons.mp hnodup
    rw [List.flatMap_cons, filter_append, hone]
    by_cases heq : a = t
    · rw [if_pos heq]
      have hrest : ((tokens.flatMap (indexSlice sub.defIndex)).filter fun d => d.token = t) =
          [] := by
        refine List.filter_eq_nil_iff.mpr fun d hd => ?_
        obtain ⟨b, hb, hd⟩ := List.mem_flatMap.mp hd
        rw [defSlice, mem_filter, decide_eq_true_eq] at hd
        rw [decide_eq_true_eq, hd.2]
        rintro rfl
        exact ha (heq ▸ hb)
      rw [hrest, List.append_nil]
    · rw [if_neg heq, List.nil_append]
      exact ih hnodup ((List.mem_cons.mp ht).resolve_left fun h => heq h.symm)

theorem candidates_congr {sub sub' : FactSubstrate} {tokens tokens' : List Text}
    (hnodup : tokens.Nodup) (hnodup' : tokens'.Nodup)
    (h : ((tokens.flatMap (indexSlice sub.defIndex)).map (defRow k)).Perm
      ((tokens'.flatMap (indexSlice sub'.defIndex)).map (defRow k)))
    {t : Text} (ht : t ∈ tokens) (ht' : t ∈ tokens') : candidates sub t = candidates sub' t := by
  have hdefs := (perm_of_map_perm (fun _ _ _ _ heq => defRow_inj heq) h).filter fun d => d.token = t
  rw [filter_defs sub hnodup ht, filter_defs sub' hnodup' ht'] at hdefs
  exact @Table.insertionSort_congr _ DefRow.compareKey _ _ _ _ hdefs

/-! ## The public-API family -/

theorem filter_publicApiClosure (api : ApiDefRow) (k : RowKind) :
    ((publicApiClosure sub api).filter fun r => r.kind = k) = match k with
      | .api => [⟨.api, [utf8 api.token, utf8 api.kind]⟩]
      | .qualifier => [⟨.qualifier, [optField api.qualifier]⟩]
      | .visibility => [⟨.visibility, [[if api.isPublic then 1 else 0]]⟩]
      | .signature => [⟨.signature, [api.sigIdentity.bytes]⟩]
      | .sigType => (sortedSet api.sigTypeTokens).map sigTypeRow
      | .typeDef =>
        ((sortedSet api.sigTypeTokens).flatMap (indexSlice sub.defIndex)).map (defRow .typeDef)
      | _ => [] := by
  unfold publicApiClosure
  rw [filter_append, filter_append, filter_kind_map (f := sigTypeRow) (fun _ => rfl),
    filter_kind_map (f := defRow .typeDef) (fun _ => rfl)]
  cases k <;> simp

theorem publicApi_sound {sub sub' : FactSubstrate} {api api' : ApiDefRow}
    (hfit : RowsFit (publicApiClosure sub api)) (hfit' : RowsFit (publicApiClosure sub' api'))
    (hsep : Separates rowHash keyed publicApiScheme sub.parserId sub'.parserId
      (publicApiClosure sub api) (publicApiClosure sub' api'))
    (h : restrictionForPublicApi rowHash keyed sub api =
      restrictionForPublicApi rowHash keyed sub' api') :
    reviewPublicApi sub api = reviewPublicApi sub' api' := by
  obtain ⟨-, hperm⟩ := rows_perm_of_key_eq (by decide +kernel) hfit hfit' hsep h
  have hkind : ∀ k : RowKind, ((publicApiClosure sub api).filter fun r => r.kind = k).Perm
      ((publicApiClosure sub' api').filter fun r => r.kind = k) := fun k => hperm.filter _
  simp only [filter_publicApiClosure] at hkind
  have hapi := (hkind .api).eq_singleton
  have hqual := (hkind .qualifier).eq_singleton
  have hvis := (hkind .visibility).eq_singleton
  simp only [List.cons.injEq, Row.mk.injEq, and_true, true_and] at hapi hqual hvis
  have hpublic : api.isPublic = api'.isPublic := by
    cases hp : api.isPublic <;> cases hp' : api'.isPublic <;> simp [hp, hp'] at hvis <;> rfl
  have htokens : sortedSet api.sigTypeTokens = sortedSet api'.sigTypeTokens := by
    have hsig := perm_of_map_perm (fun t _ t' _ (heq : sigTypeRow t = sigTypeRow t') =>
      utf8_inj (List.cons.inj (Row.mk.inj heq).2).1) (hkind .sigType)
    refine Table.sortedSet_congr fun t => ?_
    rw [← mem_sortedSet, ← mem_sortedSet (l := api'.sigTypeTokens)]
    exact hsig.mem_iff
  have htypes : ∀ t ∈ sortedSet api'.sigTypeTokens, candidates sub t = candidates sub' t :=
    fun t ht =>
    candidates_congr (nodup_sortedSet _) (nodup_sortedSet _) (hkind .typeDef) (htokens ▸ ht) ht
  unfold reviewPublicApi
  rw [hpublic, utf8_inj hapi.1, utf8_inj hapi.2, optField_inj hqual, htokens]
  congr 2
  exact List.map_congr_left fun t ht => by rw [htypes t ht]

/-! ## The call-target family -/

def refsOf (container : Text) : List RefRow :=
  sub.refs.filter fun r => r.container = some container

theorem refsByContainer_slice (c : Text) : indexSlice sub.refsByContainer c = refsOf sub c :=
  indexSlice_indexBy _ _ _

variable {c : Text} {i : ImportRow}

theorem mem_closureImports {sub : FactSubstrate} : i ∈ closureImports sub c ↔ i ∈ sub.imports ∧
      (∃ r ∈ refsOf sub c, i.sourceId = r.sourceId) ∧ ∃ r ∈ refsOf sub c, r.Names i := by
  have hslice : ∀ f, indexSlice sub.importsByFile f = sub.imports.filter fun i =>
      i.sourceId = f := by
    intro f
    refine (indexSlice_indexBy _ _ _).trans (List.filter_congr fun i _ => by simp)
  simp only [closureImports, refsByContainer_slice, mem_filter, List.mem_flatMap, hslice,
    mem_sortedSet, mem_map, List.mem_filterMap, decide_eq_true_eq]
  constructor
  · rintro ⟨⟨f, ⟨r, hr, rfl⟩, hi, hfile⟩, hnames⟩
    refine ⟨hi, ⟨r, hr, hfile⟩, ?_⟩
    rcases hnames with ⟨r', hr', htok⟩ | ⟨r', hr', hqual⟩
    · exact ⟨r', hr', .inl htok.symm⟩
    · exact ⟨r', hr', .inr hqual⟩
  · rintro ⟨hi, ⟨r, hr, hfile⟩, r', hr', hnames⟩
    refine ⟨⟨r.sourceId, ⟨r, hr, rfl⟩, hi, hfile⟩, ?_⟩
    rcases hnames with htok | hqual
    · exact .inl ⟨r', hr', htok.symm⟩
    · exact .inr ⟨r', hr', hqual⟩

theorem filter_callTargetClosure (c : Text) (k : RowKind) :
    ((callTargetClosure sub c).filter fun r => r.kind = k) = match k with
      | .container => [⟨.container, [utf8 c]⟩]
      | .ref => (refsOf sub c).map refRow
      | .import_ => (closureImports sub c).map importRow
      | .def_ => ((sortedSet ((refsOf sub c).map (·.token))).flatMap
          (indexSlice sub.defIndex)).map (defRow .def_)
      | _ => [] := by
  unfold callTargetClosure
  rw [filter_append, filter_append, filter_append,
    filter_kind_map (f := refRow) (fun _ => rfl), filter_kind_map (f := importRow) (fun _ => rfl),
    filter_kind_map (f := defRow .def_) (fun _ => rfl), refsByContainer_slice]
  cases k <;> simp

variable {c' : Text}

theorem closure_kinds {sub sub' : FactSubstrate}
    (hperm : (callTargetClosure sub c).Perm (callTargetClosure sub' c')) :
    ((refsOf sub c).map refRow).Perm ((refsOf sub' c').map refRow) ∧
      ((closureImports sub c).map importRow).Perm ((closureImports sub' c').map importRow) ∧
      (((sortedSet ((refsOf sub c).map (·.token))).flatMap (indexSlice sub.defIndex)).map
        (defRow .def_)).Perm (((sortedSet ((refsOf sub' c').map (·.token))).flatMap
          (indexSlice sub'.defIndex)).map (defRow .def_)) := by
  have hkind : ∀ k : RowKind, ((callTargetClosure sub c).filter fun r => r.kind = k).Perm
      ((callTargetClosure sub' c').filter fun r => r.kind = k) := fun k => hperm.filter _
  simp only [filter_callTargetClosure] at hkind
  exact ⟨hkind .ref, hkind .import_, hkind .def_⟩

variable {r : RefRow}

theorem refRow_inj {r r' : RefRow} (h : refRow r = refRow r') :
    r.token = r'.token ∧ r.qualifier = r'.qualifier := by
  simp only [refRow, Row.mk.injEq, List.cons.injEq, and_true, true_and] at h
  exact ⟨utf8_inj h.1, optField_inj h.2⟩

theorem importRow_inj {i i' : ImportRow} (h : importRow i = importRow i') :
    i.alias_ = i'.alias_ ∧ i.path = i'.path := by
  simp only [importRow, Row.mk.injEq, List.cons.injEq, and_true, true_and] at h
  exact ⟨utf8_inj h.1, utf8_inj h.2⟩

theorem RefRow.Names.congr {r r' : RefRow} {i i' : ImportRow} (hr : refRow r = refRow r')
    (hi : i.alias_ = i'.alias_) (h : r.Names i) : r'.Names i' := by
  obtain ⟨htok, hqual⟩ := refRow_inj hr
  unfold RefRow.Names at h ⊢
  rwa [← hi, ← htok, ← hqual]

theorem viaImport_mem {sub : FactSubstrate} (hr : r ∈ refsOf sub c)
    {p : Text} (h : viaImport sub r = some p) :
    ∃ i ∈ closureImports sub c, r.Names i ∧ i.sourceId = r.sourceId ∧ i.path = p := by
  obtain ⟨i, hfind, hpath⟩ := Option.map_eq_some_iff.mp h
  have htest := List.find?_some hfind
  rw [decide_eq_true_eq] at htest
  exact ⟨i, mem_closureImports.mpr ⟨List.mem_of_find?_eq_some hfind, ⟨r, hr, htest.1⟩,
    ⟨r, hr, htest.2⟩⟩, htest.2, htest.1, hpath⟩

/-- Whatever import of any of the container's files a reference names, it resolves
through one of that path. -/
def Determined (c : Text) : Prop :=
  ∀ r ∈ refsOf sub c, ∀ i ∈ closureImports sub c, r.Names i → viaImport sub r = some i.path

instance (sub : FactSubstrate) (c : Text) : Decidable (Determined sub c) :=
  inferInstanceAs (Decidable (∀ r ∈ refsOf sub c, ∀ i ∈ closureImports sub c, _))

/-- Where the closures of two containers list the same rows and determine the
imports, every edge of the one review is in the other. -/
theorem review_subset {sub sub' : FactSubstrate}
    (hperm : (callTargetClosure sub c).Perm (callTargetClosure sub' c')) (hdet : Determined sub c)
    (hdet' : Determined sub' c') : reviewCallTargets sub c ⊆ reviewCallTargets sub' c' := by
  obtain ⟨hrefs, himports, hdefs⟩ := closure_kinds hperm
  intro edge hedge
  unfold reviewCallTargets at hedge ⊢
  rw [refsByContainer_slice, List.mem_toFinset] at hedge ⊢
  obtain ⟨r, hr, rfl⟩ := mem_map.mp hedge
  obtain ⟨r', hr', hrow⟩ := mem_map.mp (hrefs.mem_iff.mp (mem_map_of_mem hr))
  obtain ⟨htok, hqual⟩ := refRow_inj hrow
  refine mem_map.mpr ⟨r', hr', ?_⟩
  have hcand : candidates sub r.token = candidates sub' r.token :=
    candidates_congr (nodup_sortedSet _)
      (nodup_sortedSet _) hdefs (mem_sortedSet.mpr (mem_map_of_mem hr))
      (mem_sortedSet.mpr (mem_map.mpr ⟨r', hr', htok⟩))
  have hvia : viaImport sub' r' = viaImport sub r := by
    -- an import the one names is, up to its file, an import the other names
    have hcross : ∀ {s s' : FactSubstrate} {d d' : Text} {x x' : RefRow} {i : ImportRow},
        ((closureImports s d).map importRow).Perm ((closureImports s' d').map importRow) →
        refRow x = refRow x' → i ∈ closureImports s d → x.Names i →
        ∃ i' ∈ closureImports s' d', x'.Names i' ∧ i'.path = i.path := by
      intro s s' d d' x x' i hp hx hi hnames
      obtain ⟨i', hi', hrow⟩ := mem_map.mp (hp.mem_iff.mp (mem_map_of_mem hi))
      obtain ⟨halias, hpath⟩ := importRow_inj hrow
      exact ⟨i', hi', hnames.congr hx halias.symm, hpath⟩
    cases hv : viaImport sub r with
    | some p =>
      obtain ⟨i, hi, hnames, -, rfl⟩ := viaImport_mem hr hv
      obtain ⟨i', hi', hnames', hpath⟩ := hcross himports hrow.symm hi hnames
      rw [hdet' r' hr' i' hi' hnames', hpath]
    | none =>
      cases hv' : viaImport sub' r' with
      | none => rfl
      | some p =>
        obtain ⟨i', hi', hnames', -, rfl⟩ := viaImport_mem hr' hv'
        obtain ⟨i, hi, hnames, hpath⟩ := hcross himports.symm hrow hi' hnames'
        rw [hdet r hr i hi hnames] at hv
        exact absurd hv (Option.some_ne_none _)
  unfold resolve
  rw [htok, hqual, hcand, hvia]

theorem review_eq {sub sub' : FactSubstrate}
    (hperm : (callTargetClosure sub c).Perm (callTargetClosure sub' c')) (hdet : Determined sub c)
    (hdet' : Determined sub' c') : reviewCallTargets sub c = reviewCallTargets sub' c' :=
  (review_subset hperm hdet hdet').antisymm (review_subset hperm.symm hdet' hdet)

/-- The review of a container, cached under its key, is never served after its result
changed: whatever container of whatever substrate has that key has that result. -/
def CallTargetSound (rowHash keyed : Bytes → Digest) (sub : FactSubstrate) (c : Text) : Prop :=
  ∀ sub' c', RowsFit (callTargetClosure sub' c') →
    Separates rowHash keyed callTargetScheme sub.parserId sub'.parserId
      (callTargetClosure sub c) (callTargetClosure sub' c') →
    restrictionForCallTarget rowHash keyed sub c = restrictionForCallTarget rowHash keyed sub' c' →
    reviewCallTargets sub c = reviewCallTargets sub' c'

/-- Either no reference of the container names an import of its files, or there is one
reference and all the imports it names have one path. -/
def ImportsFixed (c : Text) : Prop :=
  closureImports sub c = [] ∨ (refsOf sub c).length = 1 ∧
    ∀ i ∈ closureImports sub c, ∀ j ∈ closureImports sub c, i.path = j.path

theorem ImportsFixed.determined {sub : FactSubstrate} (h : ImportsFixed sub c) :
    Determined sub c := by
  intro r hr i hi hnames
  rcases h with hnil | ⟨hone, hpath⟩
  · rw [hnil] at hi
    cases hi
  · obtain ⟨r₀, hr₀⟩ := List.length_eq_one_iff.mp hone
    obtain ⟨himp, ⟨r', hr', hfile⟩, -⟩ := mem_closureImports.mp hi
    have hsame : r' = r := by
      rw [hr₀, mem_singleton] at hr hr'
      exact hr'.trans hr.symm
    rw [hsame] at hfile
    cases hv : viaImport sub r with
    | some p =>
      obtain ⟨j, hj, -, -, rfl⟩ := viaImport_mem hr hv
      rw [hpath i hi j hj]
    | none =>
      have hnone := List.find?_eq_none.mp (Option.map_eq_none_iff.mp hv) i himp
      exact absurd (decide_eq_true (And.intro hfile hnames)) hnone

theorem ImportsFixed.congr {sub sub' : FactSubstrate}
    (hperm : (callTargetClosure sub c).Perm (callTargetClosure sub' c'))
    (h : ImportsFixed sub c) : ImportsFixed sub' c' := by
  obtain ⟨hrefs, himports, -⟩ := closure_kinds hperm
  rcases h with hnil | ⟨hone, hpath⟩
  · rw [hnil, List.map_nil, List.nil_perm, List.map_eq_nil_iff] at himports
    exact .inl himports
  · refine .inr ⟨?_, fun i hi j hj => ?_⟩
    · simpa [hone] using hrefs.length_eq.symm
    · obtain ⟨i', hi', hrow⟩ := mem_map.mp (himports.mem_iff.mpr (mem_map_of_mem hi))
      obtain ⟨j', hj', hrow'⟩ := mem_map.mp (himports.mem_iff.mpr (mem_map_of_mem hj))
      rw [← (importRow_inj hrow).2, ← (importRow_inj hrow').2]
      exact hpath i' hi' j' hj'

/-! ### Other substrates with the same key -/

def RefRow.at (r : RefRow) (file : Text) : RefRow := { r with sourceId := file }

def ImportRow.at (i : ImportRow) (file : Text) : ImportRow := { i with sourceId := file }

/-- The same references in other files, and the imports of the closure, in any order,
all in the file with the empty name. -/
structure Rearranges (sub : FactSubstrate) (c : Text) (refs : List RefRow)
    (imports : List ImportRow) : Prop where
  rows : refs.map refRow = (refsOf sub c).map refRow
  held : ∀ r ∈ refs, r.container = some c
  listed : (imports.map importRow).Perm ((closureImports sub c).map importRow)
  file : ∀ i ∈ imports, i.sourceId = []
  used : ∃ r ∈ refs, r.sourceId = []

variable {imports : List ImportRow} {refs : List RefRow}

theorem Rearranges.refsOf {sub : FactSubstrate} (h : Rearranges sub c refs imports) :
    Restriction.refsOf { sub with refs, imports } c = refs :=
  filter_eq_self.mpr fun r hr => decide_eq_true (h.held r hr)

theorem mem_tokens_congr {l l' : List RefRow} (h : l.map refRow = l'.map refRow) (t : Text) :
    t ∈ l.map (·.token) ↔ t ∈ l'.map (·.token) := by
  have hsub : ∀ {l l' : List RefRow}, l.map refRow = l'.map refRow →
      t ∈ l.map (·.token) → t ∈ l'.map (·.token) := by
    intro l l' h ht
    obtain ⟨r, hr, rfl⟩ := mem_map.mp ht
    have hrow : refRow r ∈ l'.map refRow := h ▸ mem_map_of_mem hr
    obtain ⟨r', hr', heq⟩ := mem_map.mp hrow
    exact mem_map.mpr ⟨r', hr', (refRow_inj heq).1⟩
  exact ⟨hsub h, hsub h.symm⟩

theorem Rearranges.closureImports {sub : FactSubstrate} (h : Rearranges sub c refs imports) :
    Restriction.closureImports { sub with refs, imports } c = imports := by
  have hslice : ∀ f, indexSlice ({ sub with refs, imports } : FactSubstrate).importsByFile f =
      if f = [] then imports else [] := by
    intro f
    refine (indexSlice_indexBy _ _ _).trans ?_
    split
    · rename_i hf
      exact filter_eq_self.mpr fun i hi => by simp [h.file i hi, hf]
    · rename_i hf
      refine List.filter_eq_nil_iff.mpr fun i hi => ?_
      simp [h.file i hi, Ne.symm hf]
  have hflat : ∀ files : List Text, files.Nodup → [] ∈ files →
      files.flatMap (fun f => if f = [] then imports else []) = imports := by
    intro files hnodup hmem
    obtain ⟨pre, post, rfl⟩ := List.append_of_mem hmem
    have hrest : ∀ l : List Text, [] ∉ l → l.flatMap (fun f => if f = [] then imports else []) =
        [] := by
      intro l hl
      refine List.flatMap_eq_nil_iff.mpr fun f hf => if_neg ?_
      rintro rfl
      exact hl hf
    have hnodup' := List.nodup_middle.mp hnodup
    rw [List.nodup_cons, mem_append, not_or] at hnodup'
    rw [List.flatMap_append, List.flatMap_cons, hrest pre hnodup'.1.1, hrest post hnodup'.1.2,
      if_pos rfl, List.append_nil, List.nil_append]
  unfold Restriction.closureImports
  simp only [refsByContainer_slice, h.refsOf]
  rw [show indexSlice ({ sub with refs, imports } : FactSubstrate).importsByFile = _ from
    funext hslice, hflat _ (nodup_sortedSet _)]
  · refine filter_eq_self.mpr fun i hi => ?_
    -- named by a reference of the container, hence by one of the same row
    obtain ⟨i', hi', hrow⟩ := mem_map.mp (h.listed.mem_iff.mp (mem_map_of_mem hi))
    obtain ⟨-, -, r, hr, hnames⟩ := mem_closureImports.mp hi'
    have hmem : refRow r ∈ refs.map refRow := h.rows ▸ mem_map_of_mem hr
    obtain ⟨r', hr', hrow'⟩ := mem_map.mp hmem
    rw [decide_eq_true_eq, mem_sortedSet, mem_sortedSet]
    rcases hnames.congr hrow'.symm (importRow_inj hrow).1 with htok | hqual
    · exact .inl (mem_map.mpr ⟨r', hr', htok.symm⟩)
    · exact .inr (List.mem_filterMap.mpr ⟨r', hr', hqual⟩)
  · obtain ⟨r, hr, hfile⟩ := h.used
    exact mem_sortedSet.mpr (mem_map.mpr ⟨r, hr, hfile⟩)

theorem Rearranges.closure_perm {sub : FactSubstrate} (h : Rearranges sub c refs imports) :
    (callTargetClosure sub c).Perm (callTargetClosure { sub with refs, imports } c) := by
  unfold callTargetClosure
  rw [h.closureImports]
  simp only [refsByContainer_slice, h.refsOf]
  rw [← h.rows, Table.sortedSet_congr (mem_tokens_congr h.rows.symm)]
  exact ((h.listed.symm.append_left _).append_right _)

theorem CallTargetSound.rearranged {sub : FactSubstrate}
    (h : CallTargetSound rowHash keyed sub c) (hfit : RowsFit (callTargetClosure sub c))
    (hrow : Set.InjOn rowHash {b | ∃ r ∈ callTargetClosure sub c, b = r.encode})
    (hre : Rearranges sub c refs imports) :
    reviewCallTargets sub c = reviewCallTargets { sub with refs, imports } c := by
  have hperm := hre.closure_perm
  refine h _ c ⟨hperm.length_eq ▸ hfit.count, fun r hr => hfit.fields r (hperm.mem_iff.mpr hr)⟩
    ⟨hrow.mono ?_, ?_⟩ (key_congr rowHash keyed callTargetScheme sub.parserId hperm)
  · rintro b ⟨r, hr, rfl⟩
    exact ⟨r, (mem_append.mp hr).elim id hperm.mem_iff.mpr, rfl⟩
  · refine Set.injOn_pair.mpr fun _ => ?_
    exact preimage_congr rfl (hperm.map (Row.entry rowHash))

theorem map_importRow_at {l l' : List ImportRow} (h : l.Perm l') :
    ((l.map (·.at [])).map importRow).Perm (l'.map importRow) := by
  rw [map_map]
  exact h.map importRow

theorem viaImport_ne_none {sub : FactSubstrate} (hi : i ∈ sub.imports)
    (hfile : i.sourceId = r.sourceId) (hnames : r.Names i) : viaImport sub r ≠ none := by
  intro hnone
  have h := List.find?_eq_none.mp (Option.map_eq_none_iff.mp hnone) i hi
  exact h (decide_eq_true (And.intro hfile hnames))

/-- Two references and an import one of them names: the reference may share the
import's file or not, and the key is the same. -/
theorem CallTargetSound.one_ref {sub : FactSubstrate}
    (h : CallTargetSound rowHash keyed sub c) (hfit : RowsFit (callTargetClosure sub c))
    (hrow : Set.InjOn rowHash {b | ∃ r ∈ callTargetClosure sub c, b = r.encode})
    (hi : i ∈ closureImports sub c) : (refsOf sub c).length = 1 := by
  obtain ⟨-, -, r, hr, hnames⟩ := mem_closureImports.mp hi
  obtain ⟨pre, post, hsplit⟩ := List.append_of_mem hr
  by_contra hlen
  have hheld : ∀ x ∈ refsOf sub c, x.container = some c := fun x hx => by
    simpa using (mem_filter.mp hx).2
  -- all references beside the imports, or all but this one
  have hat : ∀ l : List RefRow, (l.map (·.at [])).map refRow = l.map refRow := fun l => by
    rw [map_map]; rfl
  have htogether : Rearranges sub c ((refsOf sub c).map (·.at []))
      ((closureImports sub c).map (·.at [])) := by
    refine ⟨hat _, fun x hx => ?_, map_importRow_at (List.Perm.refl _), fun j hj => ?_,
      ⟨r.at [], mem_map_of_mem hr, rfl⟩⟩
    · obtain ⟨y, hy, rfl⟩ := mem_map.mp hx
      exact hheld y hy
    · obtain ⟨k, -, rfl⟩ := mem_map.mp hj
      rfl
  have hother : ∃ x, x ∈ pre ++ post := by
    refine List.exists_mem_of_ne_nil _ fun hnil => hlen ?_
    obtain ⟨rfl, rfl⟩ := List.append_eq_nil_iff.mp hnil
    rw [hsplit]
    rfl
  obtain ⟨x, hx⟩ := hother
  have hapart : Rearranges sub c (pre.map (·.at []) ++ r.at ['b'] :: post.map (·.at []))
      ((closureImports sub c).map (·.at [])) := by
    refine ⟨?_, fun y hy => ?_, map_importRow_at (List.Perm.refl _), fun j hj => ?_,
      ⟨x.at [], ?_, rfl⟩⟩
    · rw [hsplit, List.map_append, map_cons, hat, hat, List.map_append, map_cons]
      rfl
    · rw [hsplit] at hheld
      rcases mem_append.mp hy with hy | hy
      · obtain ⟨z, hz, rfl⟩ := mem_map.mp hy
        exact hheld z (List.mem_append_left _ hz)
      · rcases List.mem_cons.mp hy with rfl | hy
        · exact hheld r (mem_append_right _ List.mem_cons_self)
        · obtain ⟨z, hz, rfl⟩ := mem_map.mp hy
          exact hheld z (mem_append_right _ (List.mem_cons_of_mem _ hz))
    · obtain ⟨k, -, rfl⟩ := mem_map.mp hj
      rfl
    · rcases mem_append.mp hx with hx | hx
      · exact List.mem_append_left _ (mem_map_of_mem hx)
      · exact mem_append_right _ (List.mem_cons_of_mem _ (mem_map_of_mem hx))
  have heq := (h.rearranged hfit hrow htogether).symm.trans (h.rearranged hfit hrow hapart)
  -- apart, the reference resolves through nothing
  have hedge : resolve { sub with
        refs := pre.map (·.at []) ++ r.at ['b'] :: post.map (·.at [])
        imports := (closureImports sub c).map (·.at []) } (r.at ['b']) ∈
      reviewCallTargets { sub with
        refs := pre.map (·.at []) ++ r.at ['b'] :: post.map (·.at [])
        imports := (closureImports sub c).map (·.at []) } c := by
    unfold reviewCallTargets
    rw [refsByContainer_slice, hapart.refsOf, List.mem_toFinset]
    exact mem_map_of_mem (mem_append_right _ List.mem_cons_self)
  rw [← heq] at hedge
  unfold reviewCallTargets at hedge
  rw [refsByContainer_slice, htogether.refsOf, List.mem_toFinset] at hedge
  obtain ⟨y, hy, hsame⟩ := mem_map.mp hedge
  obtain ⟨z, -, rfl⟩ := mem_map.mp hy
  obtain ⟨htok, hqual, hvia, -⟩ := ResolvedEdge.mk.inj hsame
  have hnone : viaImport { sub with
        refs := pre.map (·.at []) ++ r.at ['b'] :: post.map (·.at [])
        imports := (closureImports sub c).map (·.at []) } (r.at ['b']) = none := by
    refine Option.map_eq_none_iff.mpr (List.find?_eq_none.mpr fun j hj => ?_)
    obtain ⟨k, -, rfl⟩ := mem_map.mp hj
    simp [ImportRow.at, RefRow.at]
  rw [hnone] at hvia
  refine viaImport_ne_none (mem_map_of_mem hi) rfl ?_ hvia
  have hrow' : refRow r = refRow (z.at []) := by
    unfold refRow
    rw [htok, hqual]
    rfl
  exact hnames.congr hrow' rfl

theorem CallTargetSound.one_path {sub : FactSubstrate}
    (h : CallTargetSound rowHash keyed sub c) (hfit : RowsFit (callTargetClosure sub c))
    (hrow : Set.InjOn rowHash {b | ∃ r ∈ callTargetClosure sub c, b = r.encode})
    (hone : refsOf sub c = [r]) (hi : i ∈ closureImports sub c) :
    viaImport sub r = some i.path := by
  have hheld : r.container = some c := by
    have hr : r ∈ refsOf sub c := hone ▸ mem_singleton.mpr rfl
    simpa using (mem_filter.mp hr).2
  have hfirst : Rearranges sub c [r.at []]
      ((i :: (closureImports sub c).erase i).map (·.at [])) := by
    refine ⟨by rw [hone]; rfl, fun x hx => ?_,
      map_importRow_at (List.perm_cons_erase hi).symm, fun j hj => ?_,
      ⟨r.at [], mem_singleton.mpr rfl, rfl⟩⟩
    · rw [mem_singleton.mp hx]
      exact hheld
    · obtain ⟨k, -, rfl⟩ := mem_map.mp hj
      rfl
  have heq := h.rearranged hfit hrow hfirst
  unfold reviewCallTargets at heq
  rw [refsByContainer_slice, refsByContainer_slice, hfirst.refsOf, hone] at heq
  have hedge : resolve sub r = resolve { sub with
      refs := [r.at []]
      imports := (i :: (closureImports sub c).erase i).map (·.at []) } (r.at []) := by
    simpa using heq
  obtain ⟨-, -, hvia, -⟩ := ResolvedEdge.mk.inj hedge
  obtain ⟨-, -, r', hr', hnames⟩ := mem_closureImports.mp hi
  rw [hone, mem_singleton] at hr'
  subst hr'
  refine hvia.trans ?_
  unfold viaImport
  rw [map_cons, List.find?_cons_of_pos]
  · rfl
  · exact decide_eq_true (And.intro rfl hnames)

theorem callTargetSound_iff {rowHash : Bytes → Digest} (keyed : Bytes → Digest)
    {sub : FactSubstrate} (hfit : RowsFit (callTargetClosure sub c))
    (hrow : Set.InjOn rowHash {b | ∃ r ∈ callTargetClosure sub c, b = r.encode}) :
    CallTargetSound rowHash keyed sub c ↔ ImportsFixed sub c := by
  constructor
  · intro h
    by_cases hnil : closureImports sub c = []
    · exact .inl hnil
    · obtain ⟨i₀, hi₀⟩ := List.exists_mem_of_ne_nil _ hnil
      have hlen := h.one_ref hfit hrow hi₀
      obtain ⟨r, hone⟩ := List.length_eq_one_iff.mp hlen
      refine .inr ⟨hlen, fun i hi j hj => ?_⟩
      have hpath := (h.one_path hfit hrow hone hi).symm.trans (h.one_path hfit hrow hone hj)
      exact Option.some.inj hpath
  · intro hfixed sub' c' hfit' hsep hkey
    obtain ⟨-, hperm⟩ := rows_perm_of_key_eq (by decide +kernel) hfit hfit' hsep hkey
    exact review_eq hperm hfixed.determined (hfixed.congr hperm).determined

/-! ## Both families -/

/-- When a restriction key is sound. A cached call-target review is never served after
its result changed exactly when its container has no import in scope, or one reference
and one path; two containers whose keys agree have one review where each settles its own
imports; a public-API review is never stale. -/
theorem restriction_sound_iff (rowHash keyed : Bytes → Digest) :
    (∀ sub c, RowsFit (callTargetClosure sub c) →
      Set.InjOn rowHash {b | ∃ r ∈ callTargetClosure sub c, b = r.encode} →
      (CallTargetSound rowHash keyed sub c ↔ ImportsFixed sub c)) ∧
    (∀ sub c sub' c', RowsFit (callTargetClosure sub c) → RowsFit (callTargetClosure sub' c') →
      Separates rowHash keyed callTargetScheme sub.parserId sub'.parserId
        (callTargetClosure sub c) (callTargetClosure sub' c') →
      Determined sub c → Determined sub' c' → restrictionForCallTarget rowHash keyed sub c =
        restrictionForCallTarget rowHash keyed sub' c' →
      reviewCallTargets sub c = reviewCallTargets sub' c') ∧
    (∀ sub api sub' api', RowsFit (publicApiClosure sub api) →
      RowsFit (publicApiClosure sub' api') →
      Separates rowHash keyed publicApiScheme sub.parserId sub'.parserId
        (publicApiClosure sub api) (publicApiClosure sub' api') →
      restrictionForPublicApi rowHash keyed sub api =
      restrictionForPublicApi rowHash keyed sub' api' →
      reviewPublicApi sub api = reviewPublicApi sub' api') := by
  refine ⟨fun sub c hfit hrow => callTargetSound_iff keyed hfit hrow, ?_, ?_⟩
  · intro sub c sub' c' hfit hfit' hsep hdet hdet' hkey
    obtain ⟨-, hperm⟩ := rows_perm_of_key_eq (by decide +kernel) hfit hfit' hsep hkey
    exact review_eq hperm hdet hdet'
  · intro sub api sub' api' hfit hfit' hsep hkey
    exact publicApi_sound hfit hfit' hsep hkey

/-- One reference `x` of the container `f`, in a file with these imports of `x`. -/
def importing (paths : List Text) : FactSubstrate where
  defs := []
  refs := [⟨['x'], none, some ['f'], ['a']⟩]
  imports := paths.map fun p => ⟨['x'], p, ['a']⟩
  parserId := headDigest []

theorem headDigest_injOn {l : List Row}
    (h : ∀ r ∈ l, ∀ r' ∈ l, headDigest r.encode = headDigest r'.encode → r.encode = r'.encode) :
    Set.InjOn headDigest {b | ∃ r ∈ l, b = r.encode} := by
  rintro b ⟨r, hr, rfl⟩ b' ⟨r', hr', rfl⟩ heq
  exact h r hr r' hr' heq

/-- The key of `f` stays and its review changes when two imports of one alias change
places, with hashes that do not collide. -/
theorem restriction_misses_import_order :
    (RowsFit (callTargetClosure (importing [['p'], ['q']]) ['f']) ∧
      RowsFit (callTargetClosure (importing [['q'], ['p']]) ['f'])) ∧
    Separates headDigest tailDigest callTargetScheme
      (importing [['p'], ['q']]).parserId (importing [['q'], ['p']]).parserId
      (callTargetClosure (importing [['p'], ['q']]) ['f'])
      (callTargetClosure (importing [['q'], ['p']]) ['f']) ∧
    restrictionForCallTarget headDigest tailDigest (importing [['p'], ['q']]) ['f'] =
      restrictionForCallTarget headDigest tailDigest (importing [['q'], ['p']]) ['f'] ∧
    reviewCallTargets (importing [['p'], ['q']]) ['f'] ≠
      reviewCallTargets (importing [['q'], ['p']]) ['f'] := by
  have hperm : (callTargetClosure (importing [['p'], ['q']]) ['f']).Perm
      (callTargetClosure (importing [['q'], ['p']]) ['f']) := by
    decide +kernel
  refine ⟨⟨⟨by decide +kernel, by decide +kernel⟩, ⟨by decide +kernel, by decide +kernel⟩⟩,
    ⟨headDigest_injOn (by decide +kernel), ?_⟩, ?_, by decide +kernel⟩
  · refine Set.injOn_pair.mpr fun _ => ?_
    exact preimage_congr rfl (hperm.map (Row.entry headDigest))
  · exact key_congr headDigest tailDigest callTargetScheme _ hperm

/-- A definition the public surface of `g` mentions. -/
def exporting (files : List Text) : FactSubstrate where
  defs := files.map fun f => ⟨['T'], f, ['s']⟩
  refs := []
  imports := []
  parserId := headDigest []

def exported : ApiDefRow where
  token := ['g']
  qualifier := none
  kind := ['f']
  sourceId := ['a']
  isPublic := true
  sigIdentity := headDigest [1]
  sigTypeTokens := [['T']]

/-- An imported and a defined reference of `f`, the second with definitions in these files. -/
def calling (files : List Text) : FactSubstrate :=
  { importing [['p']] with
    defs := (exporting files).defs
    refs := [⟨['x'], none, some ['f'], ['a']⟩, ⟨['T'], none, some ['f'], ['a']⟩] }

theorem restriction_sound_iff_importing :
    CallTargetSound headDigest tailDigest (importing [['p']]) ['f'] ∧
      reviewCallTargets (calling [['a'], ['b']]) ['f'] =
        reviewCallTargets (calling [['b'], ['a']]) ['f'] ∧
      reviewPublicApi (exporting [['a'], ['b']]) exported =
        reviewPublicApi (exporting [['b'], ['a']]) exported := by
  have hfit : RowsFit (callTargetClosure (importing [['p']]) ['f']) :=
    ⟨by decide +kernel, by decide +kernel⟩
  have hcalls : (callTargetClosure (calling [['a'], ['b']]) ['f']).Perm
      (callTargetClosure (calling [['b'], ['a']]) ['f']) := by
    decide +kernel
  have hperm : (publicApiClosure (exporting [['a'], ['b']]) exported).Perm
      (publicApiClosure (exporting [['b'], ['a']]) exported) := by
    decide +kernel
  obtain ⟨hiff, hpair, hapi⟩ := restriction_sound_iff headDigest tailDigest
  refine ⟨(hiff _ _ hfit (headDigest_injOn (by decide +kernel))).mpr (.inr (by decide +kernel)),
    hpair _ _ _ _ ⟨by decide +kernel, by decide +kernel⟩ ⟨by decide +kernel, by decide +kernel⟩
      ⟨headDigest_injOn (by decide +kernel), ?_⟩ (by decide +kernel) (by decide +kernel) ?_,
    hapi _ _ _ _ ⟨by decide +kernel, by decide +kernel⟩ ⟨by decide +kernel, by decide +kernel⟩
      ⟨headDigest_injOn (by decide +kernel), ?_⟩ ?_⟩
  · refine Set.injOn_pair.mpr fun _ => ?_
    exact preimage_congr rfl (hcalls.map (Row.entry headDigest))
  · exact key_congr headDigest tailDigest callTargetScheme _ hcalls
  · refine Set.injOn_pair.mpr fun _ => ?_
    exact preimage_congr rfl (hperm.map (Row.entry headDigest))
  · exact key_congr headDigest tailDigest publicApiScheme _ hperm

end LeyLine.Restriction
