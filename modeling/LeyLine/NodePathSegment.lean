import LeyLine.Lib.Rank
import LeyLine.NodePathGood

/-!
# Segments of a tree's path

Below a file a segment is a kind, with a rank where the parent has several children of
that kind. `resolveAstSegment` prefers the kind: it takes a segment for the kind of an
only child first and splits off a rank only where there is none. So a rendered
`{kind}_{rank}` can be taken for the kind of another child, and a rank can be written in
ways that are never rendered.
-/

namespace LeyLine.NodePath

open Std (ExtTreeMap)
open SepPath (dirPart lastPart)

variable {db : Db} {q nid : Int} {row : NodeRow} {rawKind segment : Text}

/-! ## The children of a kind -/

theorem mem_ofRawKind : (nid, row) ∈ db.ofRawKind q rawKind ↔ db.nodes[nid]? = some row ∧
    row.parentNid = some q ∧ ∃ k lang, row.kindId = some k ∧
    db.kinds.row k = some (lang, rawKind) := by
  unfold Db.ofRawKind
  rw [List.mem_filter, ExtTreeMap.mem_toList_iff_getElem?_eq_some, decide_eq_true_eq]
  refine and_congr_right fun _ => and_congr_right fun _ => ?_
  rw [Option.map_eq_some_iff]
  constructor
  · rintro ⟨⟨lang, raw⟩, hbind, rfl⟩
    obtain ⟨k, hk, hrow⟩ := Option.bind_eq_some_iff.mp hbind
    exact ⟨k, lang, hk, hrow⟩
  · rintro ⟨k, lang, hk, hrow⟩
    exact ⟨(lang, rawKind), Option.bind_eq_some_iff.mpr ⟨k, hk, hrow⟩, rfl⟩

theorem Good.ofRawKind_eq (h : Good db) {k : Nat} {lang : Text} (hq : 0 ≤ q)
    (hrow : db.nodes[nid]? = some row) (hp : row.parentNid = some q) (hk : row.kindId = some k)
    (hkind : db.kinds.row k = some (lang, rawKind)) :
    db.ofRawKind q rawKind = db.sameKind (some q) k := by
  obtain ⟨f, -, o', -, -, -, -, -, -, rfl, -⟩ := (h.node nid row hrow).of_file_parent h.tables hq hp
  refine List.filter_congr fun x hx => decide_eq_decide.mpr (and_congr_right fun hxp => ?_)
  have hx := ExtTreeMap.mem_toList_iff_getElem?_eq_some.mp hx
  constructor
  · intro hraw
    obtain ⟨⟨lang', raw'⟩, hbind, rfl⟩ := Option.map_eq_some_iff.mp hraw
    obtain ⟨k', hk', hkind'⟩ := Option.bind_eq_some_iff.mp hbind
    obtain rfl := (h.siblings _ _ _ _ f o' hrow hx hp hxp).2 k k' _ _ _ _ hk hk' hkind hkind'
    rw [hk', Interned.row_inj hkind hkind']
  · intro hk'
    rw [hk', Option.bind_some, hkind]
    rfl

theorem nodup_toList (nodes : ExtTreeMap Int NodeRow) : nodes.toList.Nodup :=
  (ExtTreeMap.distinct_keys_toList).imp fun h heq => h (by rw [heq]; simp)

theorem Good.nodup_ords (h : Good db) (hq : 0 ≤ q) :
    ((db.ofRawKind q rawKind).map (·.2.ord)).Nodup := by
  refine List.Nodup.map_on (fun x hx y hy heq => ?_) ((nodup_toList _).filter _)
  obtain ⟨hxrow, hxp, -⟩ := mem_ofRawKind.mp hx
  obtain ⟨hyrow, hyp, -⟩ := mem_ofRawKind.mp hy
  obtain ⟨f, -, o', -, -, -, -, -, -, rfl, -⟩ :=
    (h.node x.1 x.2 hxrow).of_file_parent h.tables hq hxp
  have hnid := (h.siblings _ _ _ _ f o' hxrow hyrow hxp hyp).1 heq
  refine Prod.ext hnid (Option.some.inj ?_)
  rw [← hxrow, ← hyrow, hnid]

theorem Good.length_ofRawKind_le (h : Good db) (hq : 0 ≤ q) :
    (db.ofRawKind q rawKind).length ≤ 2 ^ 24 := by
  have hnodup : ((db.ofRawKind q rawKind).map (·.1)).Nodup := by
    refine List.Nodup.map_on (fun x hx y hy heq => ?_) ((nodup_toList _).filter _)
    have hxrow := (mem_ofRawKind.mp hx).1
    rw [heq, (mem_ofRawKind.mp hy).1] at hxrow
    exact Prod.ext heq (Option.some.inj hxrow).symm
  have hrange : ((db.ofRawKind q rawKind).map (·.1)).toFinset ⊆ Finset.Ico q (q + 2 ^ 24) := by
    intro nid hnid
    obtain ⟨⟨nid, row⟩, hx, rfl⟩ := List.mem_map.mp (List.mem_toFinset.mp hnid)
    obtain ⟨hrow, hp, -⟩ := mem_ofRawKind.mp hx
    obtain ⟨f, o, o', -, -, -, rfl, ho, ho', rfl, -⟩ :=
      (h.node nid row hrow).of_file_parent h.tables hq hp
    rw [Finset.mem_Ico]
    unfold fileNid
    omega
  have hcard := Finset.card_le_card hrange
  rw [List.toFinset_card_of_nodup hnodup, Int.card_Ico, List.length_map] at hcard
  omega

/-! ## What a segment resolves to -/

def ranked (db : Db) (q : Int) (rawKind : Text) : List (Int × NodeRow) :=
  (db.ofRawKind q rawKind).mergeSort fun x y => x.2.ord ≤ y.2.ord

theorem resolveAstSegment_eq_some_iff : db.resolveAstSegment q segment = some nid ↔
    (∃ row, db.ofRawKind q segment = [(nid, row)]) ∨
      (db.ofRawKind q segment).length ≠ 1 ∧ '_' ∈ segment ∧ lastPart '_' segment ≠ [] ∧
        (∀ c ∈ lastPart '_' segment, c.isDigit) ∧
        Nat.ofDigitChars 10 (lastPart '_' segment) 0 < 2 ^ 63 ∧
        ∃ row, (ranked db q (dirPart '_' segment))[Nat.ofDigitChars 10
          (lastPart '_' segment) 0]? = some (nid, row) := by
  unfold Db.resolveAstSegment
  split
  · rename_i only honly
    rw [honly]
    constructor
    · intro h
      exact .inl ⟨only.2, by rw [← Option.some.inj h]⟩
    · rintro (⟨row, hrow⟩ | ⟨hlen, -⟩)
      · rw [List.head_eq_of_cons_eq hrow]
      · exact absurd rfl hlen
  · rename_i hmany
    have hlen : (db.ofRawKind q segment).length ≠ 1 := fun hone => by
      obtain ⟨only, honly⟩ := List.length_eq_one_iff.mp hone
      exact hmany only honly
    have hno : ¬ ∃ row, db.ofRawKind q segment = [(nid, row)] := by
      rintro ⟨row, hrow⟩
      exact hmany _ hrow
    simp only [hno, false_or, hlen, ne_eq, not_false_eq_true, true_and]
    by_cases hunder : '_' ∈ segment
    · rw [if_neg (not_not.mpr hunder)]
      simp only [hunder, true_and]
      by_cases hdigits : lastPart '_' segment = [] ∨ ¬ (lastPart '_' segment).all Char.isDigit
      · rw [if_pos hdigits]
        refine iff_of_false (by simp) ?_
        rintro ⟨hne, hall, -⟩
        exact hdigits.elim hne fun hnot => hnot (List.all_eq_true.mpr hall)
      · rw [if_neg hdigits]
        obtain ⟨hne, hall⟩ := not_or.mp hdigits
        rw [and_iff_right hne, and_iff_right (List.all_eq_true.mp (not_not.mp hall))]
        by_cases hbig : 2 ^ 63 ≤ Nat.ofDigitChars 10 (lastPart '_' segment) 0
        · rw [if_pos hbig]
          exact iff_of_false (by simp) fun hsmall => absurd hsmall.1 hbig.not_gt
        · rw [if_neg hbig, and_iff_right (Nat.lt_of_not_le hbig), Option.map_eq_some_iff]
          constructor
          · rintro ⟨⟨nid', row⟩, hget, rfl⟩
            exact ⟨row, hget⟩
          · rintro ⟨row, hget⟩
            exact ⟨(nid, row), hget, rfl⟩
    · simp [hunder]

theorem mem_of_resolveAstSegment (h : db.resolveAstSegment q segment = some nid) :
    ∃ rawKind row, (nid, row) ∈ db.ofRawKind q rawKind := by
  rcases resolveAstSegment_eq_some_iff.mp h with ⟨row, hrow⟩ | ⟨-, -, -, -, -, row, hrow⟩
  · exact ⟨segment, row, by rw [hrow]; exact List.mem_singleton_self _⟩
  · exact ⟨_, row, List.mem_mergeSort.mp (List.mem_of_getElem? hrow)⟩

/-! ## Rendered segments -/

def rankOf (db : Db) (q : Int) (rawKind : Text) (x : Int × NodeRow) : Nat :=
  Rank.rank (fun y => y.2.ord) (db.ofRawKind q rawKind) x

theorem Good.ranked_getElem? (h : Good db) (hq : 0 ≤ q) {r : Nat} {x : Int × NodeRow} :
    (ranked db q rawKind)[r]? = some x ↔ x ∈ db.ofRawKind q rawKind ∧ rankOf db q rawKind x = r :=
  Rank.getElem?_mergeSort (h.nodup_ords hq)

theorem Good.nodeDisplayName_ast (h : Good db) (hq : 0 ≤ q)
    (hmem : (nid, row) ∈ db.ofRawKind q rawKind) :
    db.nodeDisplayName nid = some (if 1 < (db.ofRawKind q rawKind).length then
      rawKind ++ '_' :: Nat.toDigits 10 (rankOf db q rawKind (nid, row)) else rawKind) := by
  obtain ⟨hrow, hp, k, lang, hk, hkind⟩ := mem_ofRawKind.mp hmem
  obtain ⟨-, -, -, -, -, -, -, -, -, -, hname, -⟩ :=
    (h.node nid row hrow).of_file_parent h.tables hq hp
  simp only [rankOf, Rank.rank, h.ofRawKind_eq hq hrow hp hk hkind, Db.nodeDisplayName, hrow,
    hname, hk, hkind, hp]
  split <;> rfl

theorem dirPart_ranked (rawKind : Text) (r : Nat) :
    dirPart '_' (rawKind ++ '_' :: Nat.toDigits 10 r) = rawKind :=
  SepPath.dirPart_append rawKind Nat.underscore_not_in_toDigits

theorem lastPart_ranked (rawKind : Text) (r : Nat) :
    lastPart '_' (rawKind ++ '_' :: Nat.toDigits 10 r) = Nat.toDigits 10 r :=
  SepPath.lastPart_append rawKind Nat.underscore_not_in_toDigits

theorem ne_append_cons (rawKind rest : Text) (c : Char) : rawKind ≠ rawKind ++ c :: rest := by
  intro heq
  have hlen := congrArg List.length heq
  simp at hlen

/-- Another child, the only one of its kind, has this one's name for a kind. -/
def Mistaken (db : Db) (q nid : Int) : Prop :=
  ∃ name other otherRow, db.nodeDisplayName nid = some name ∧
    db.ofRawKind q name = [(other, otherRow)] ∧ other ≠ nid

theorem Good.resolve_name_iff (h : Good db) (hq : 0 ≤ q)
    (hmem : (nid, row) ∈ db.ofRawKind q rawKind) (hname : db.nodeDisplayName nid = some segment) :
    db.resolveAstSegment q segment = some nid ↔ ¬ Mistaken db q nid := by
  constructor
  · rintro hres ⟨name, other, otherRow, hname', honly, hne⟩
    obtain rfl := Option.mem_unique hname hname'
    rcases resolveAstSegment_eq_some_iff.mp hres with ⟨row, hrow⟩ | ⟨hlen, -⟩
    · rw [honly] at hrow
      exact hne (congrArg Prod.fst (List.head_eq_of_cons_eq hrow))
    · exact hlen (by rw [honly]; rfl)
  · intro hclear
    refine resolveAstSegment_eq_some_iff.mpr ?_
    by_cases hone : (db.ofRawKind q segment).length = 1
    · obtain ⟨⟨other, otherRow⟩, honly⟩ := List.length_eq_one_iff.mp hone
      have heq : other = nid := by_contra fun hne => hclear ⟨_, _, _, hname, honly, hne⟩
      exact .inl ⟨otherRow, by rw [honly, heq]⟩
    · refine .inr ⟨hone, ?_⟩
      have hsegment := Option.mem_unique hname (h.nodeDisplayName_ast hq hmem)
      -- a kind without a rank is that of an only child
      have hmany : 1 < (db.ofRawKind q rawKind).length := by
        by_contra hfew
        rw [if_neg hfew] at hsegment
        have hpos := List.length_pos_of_mem hmem
        rw [hsegment] at hone
        omega
      rw [if_pos hmany] at hsegment
      rw [hsegment, dirPart_ranked, lastPart_ranked, Nat.ofDigitChars_ten_toDigits]
      have hrank : rankOf db q rawKind (nid, row) ≤ 2 ^ 24 :=
        (List.length_filter_le _ _).trans (h.length_ofRawKind_le hq)
      exact ⟨by simp, Nat.toDigits_ne_nil,
        fun c hc => Nat.isDigit_of_mem_toDigits (by norm_num) le_rfl hc, by omega,
        row, (h.ranked_getElem? hq).mpr ⟨hmem, rfl⟩⟩

/-- The form in which a segment is rendered: the kind of an only child, or a kind of
several and a rank without idle zeros. -/
def PlainSegment (db : Db) (q : Int) (segment : Text) : Prop :=
  (db.ofRawKind q segment).length = 1 ∨
    1 < (db.ofRawKind q (dirPart '_' segment)).length ∧ Rank.Trim (lastPart '_' segment)

instance (db : Db) (q : Int) (segment : Text) : Decidable (PlainSegment db q segment) :=
  inferInstanceAs (Decidable (_ ∨ _ ∧ _))

theorem Good.name_iff_of_resolve (h : Good db) (hq : 0 ≤ q)
    (hres : db.resolveAstSegment q segment = some nid) :
    db.nodeDisplayName nid = some segment ↔ PlainSegment db q segment := by
  rcases resolveAstSegment_eq_some_iff.mp hres with
    ⟨row, honly⟩ | ⟨hlen, hunder, hne, hdigits, -, row, hget⟩
  · have hone : (db.ofRawKind q segment).length = 1 := by rw [honly]; rfl
    have hmem : (nid, row) ∈
        db.ofRawKind q segment := by rw [honly]; exact List.mem_singleton_self _
    refine iff_of_true ?_ (.inl hone)
    rw [h.nodeDisplayName_ast hq hmem, if_neg (by omega)]
  · obtain ⟨hmem, hrank⟩ := (h.ranked_getElem? hq).mp hget
    have hsegment := SepPath.dirPart_append_lastPart hunder
    rw [h.nodeDisplayName_ast hq hmem, hrank, PlainSegment, or_iff_right hlen, Option.some.injEq]
    rw [← Rank.toDigits_ofDigitChars hne hdigits]
    by_cases hmany : 1 < (db.ofRawKind q (dirPart '_' segment)).length
    · rw [if_pos hmany, and_iff_right hmany]
      constructor
      · intro heq
        exact (List.cons_inj_right _).mp (List.append_cancel_left (heq.trans hsegment.symm))
      · intro heq
        rw [heq, hsegment]
    · rw [if_neg hmany]
      refine iff_of_false (fun heq => ?_) fun hboth => hmany hboth.1
      exact ne_append_cons _ _ _ (heq.trans hsegment.symm)

end LeyLine.NodePath
