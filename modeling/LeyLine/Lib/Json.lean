import LeyLine.Lib.Assoc

/-!
# JSON

JSON as a tree whose objects are lists of members. A text may repeat a key, and its tree
then does too; a reader that builds maps keeps the last value of a key, at the place of
the first (`collapse`). Two trees are the same value (`Same`) when they differ in the
order of members alone. A tree that is the same value as one without repeated keys
repeats none itself.
-/

/-- A number as it is read: an integer that fits its type, or a float. -/
inductive Json.Number where
  | posInt (n : UInt64)
  | negInt (n : Int64)
  | float (bits : UInt64)
  deriving DecidableEq, Repr

inductive Json where
  | null
  | bool (b : Bool)
  | number (n : Json.Number)
  | string (s : String)
  | array (items : List Json)
  | object (members : List (String × Json))

namespace Json

/-! ## Reading a value -/

/-- The value of a key of an object; what is not an object has none. -/
def get : Json → String → Option Json
  | .object members, key => Assoc.get members key
  | _, _ => none

def asStr : Json → Option String
  | .string s => some s
  | _ => none

def asArray : Json → Option (List Json)
  | .array items => some items
  | _ => none

def asObject : Json → Option (List (String × Json))
  | .object members => some members
  | _ => none

def asU64 : Json → Option UInt64
  | .number (.posInt n) => some n
  | _ => none

variable {x : Json}

theorem asStr_eq_some_iff {s : String} : x.asStr = some s ↔ x = .string s := by
  cases x <;> simp [asStr]

theorem asArray_eq_some_iff {items : List Json} : x.asArray = some items ↔ x = .array items := by
  cases x <;> simp [asArray]

variable {members : List (String × Json)}

theorem asObject_eq_some_iff : x.asObject = some members ↔ x = .object members := by
  cases x <;> simp [asObject]

theorem asU64_eq_some_iff {n : UInt64} : x.asU64 = some n ↔ x = .number (.posInt n) := by
  cases x with
  | number m => cases m <;> simp [asU64]
  | null | bool _ | string _ | array _ | object _ => simp [asU64]

variable {key : String} {v : Json}

theorem get_eq_some_iff :
    x.get key = some v ↔ ∃ members, x = .object members ∧ Assoc.get members key = some v := by
  cases x <;> simp [get]

/-! ## Repeated keys -/

/-- No object of the tree repeats a key. -/
inductive Distinct : Json → Prop where
  | null : Distinct .null
  | bool (b : Bool) : Distinct (.bool b)
  | number (n : Number) : Distinct (.number n)
  | string (s : String) : Distinct (.string s)
  | array {items : List Json} (h : ∀ x ∈ items, Distinct x) : Distinct (.array items)
  | object {members : List (String × Json)} (hkeys : (members.map Prod.fst).Nodup)
      (h : ∀ m ∈ members, Distinct m.2) : Distinct (.object members)

theorem distinct_array_iff {items : List Json} :
    Distinct (.array items) ↔ ∀ x ∈ items, Distinct x :=
  ⟨fun | .array h => h, .array⟩

theorem distinct_object_iff :
    Distinct (.object members) ↔ (members.map Prod.fst).Nodup ∧ ∀ m ∈ members, Distinct m.2 :=
  ⟨fun | .object hkeys h => ⟨hkeys, h⟩, fun h => .object h.1 h.2⟩

/-- Putting a member into a map: in the place of its key, or at the end. -/
def insertMember (key : String) (v : Json) : List (String × Json) → List (String × Json)
  | [] => [(key, v)]
  | (key', v') :: members =>
    if key' = key then (key, v) :: members else (key', v') :: insertMember key v members

/-- The map of a list of members: the last value of a key, at the place of the first. -/
def mapOf (members : List (String × Json)) : List (String × Json) :=
  members.foldl (fun ms m => insertMember m.1 m.2 ms) []

mutual

/-- The value a reader that builds maps makes of a tree. -/
def collapse : Json → Json
  | .array items => .array (collapseItems items)
  | .object members => .object (mapOf (collapseMembers members))
  | .null => .null
  | .bool b => .bool b
  | .number n => .number n
  | .string s => .string s

def collapseItems : List Json → List Json
  | [] => []
  | x :: xs => collapse x :: collapseItems xs

def collapseMembers : List (String × Json) → List (String × Json)
  | [] => []
  | (key, v) :: members => (key, collapse v) :: collapseMembers members

end

theorem insertMember_of_not_mem
    (h : key ∉ members.map Prod.fst) : insertMember key v members = members ++ [(key, v)] := by
  induction members with
  | nil => rfl
  | cons m members ih =>
    rw [List.map_cons, List.mem_cons, not_or] at h
    rw [insertMember, if_neg (Ne.symm h.1), ih h.2, List.cons_append]

theorem foldl_insertMember : ∀ (acc : List (String × Json)), ((acc ++ members).map Prod.fst).Nodup →
      members.foldl (fun ms m => insertMember m.1 m.2 ms) acc = acc ++ members := by
  induction members with
  | nil =>
    intro acc _
    rw [List.append_nil]
    rfl
  | cons m members ih =>
    intro acc h
    have hm : m.1 ∉ acc.map Prod.fst := by
      rw [List.map_append, List.map_cons, List.nodup_append] at h
      exact fun hmem => h.2.2 _ hmem _ List.mem_cons_self rfl
    rw [← List.singleton_append, ← List.append_assoc] at h
    rw [List.foldl_cons, insertMember_of_not_mem hm, ih _ h, List.append_assoc,
      List.singleton_append]

mutual

theorem collapse_of_distinct : ∀ {x : Json}, Distinct x → collapse x = x
  | .null, _ => rfl
  | .bool _, _ => rfl
  | .number _, _ => rfl
  | .string _, _ => rfl
  | .array items, h => by
    rw [collapse, collapseItems_of_distinct (distinct_array_iff.mp h)]
  | .object members, h => by
    obtain ⟨hkeys, hvalues⟩ := distinct_object_iff.mp h
    rw [collapse, collapseMembers_of_distinct hvalues, mapOf, foldl_insertMember [] hkeys,
      List.nil_append]

theorem collapseItems_of_distinct : ∀ {items : List Json}, (∀ x ∈ items, Distinct x) →
    collapseItems items = items
  | [], _ => rfl
  | x :: xs, h => by
    rw [List.forall_mem_cons] at h
    rw [collapseItems, collapse_of_distinct h.1, collapseItems_of_distinct h.2]

theorem collapseMembers_of_distinct :
    ∀ {members : List (String × Json)}, (∀ m ∈ members, Distinct m.2) →
    collapseMembers members = members
  | [], _ => rfl
  | (key, v) :: members, h => by
    rw [List.forall_mem_cons] at h
    rw [collapseMembers, collapse_of_distinct h.1, collapseMembers_of_distinct h.2]

end

/-! ## The same value -/

/-- The trees differ in the order of members alone. -/
inductive Same : Json → Json → Prop where
  | null : Same .null .null
  | bool (b : Bool) : Same (.bool b) (.bool b)
  | number (n : Number) : Same (.number n) (.number n)
  | string (s : String) : Same (.string s) (.string s)
  | array {xs ys : List Json} (h : List.Forall₂ Same xs ys) : Same (.array xs) (.array ys)
  | object {xs ys zs : List (String × Json)} (hperm : ys.Perm zs)
      (hkeys : xs.map Prod.fst = zs.map Prod.fst)
      (h : List.Forall₂ Same (xs.map Prod.snd) (zs.map Prod.snd)) : Same (.object xs) (.object ys)

theorem forall₂_members {R : Json → Json → Prop} {xs zs : List (String × Json)} :
    List.Forall₂ (fun x z => x.1 = z.1 ∧ R x.2 z.2) xs zs ↔
      xs.map Prod.fst = zs.map Prod.fst ∧ List.Forall₂ R (xs.map Prod.snd) (zs.map Prod.snd) := by
  induction xs generalizing zs with
  | nil => cases zs <;> simp
  | cons x xs ih =>
    cases zs with
    | nil => simp
    | cons z zs =>
      simp only [List.forall₂_cons, List.map_cons, List.cons.injEq, ih]
      tauto

theorem same_object_iff {xs ys : List (String × Json)} :
    Same (.object xs) (.object ys) ↔ Assoc.Related (fun _ => Same) xs ys := by
  constructor
  · rintro (_ | _ | _ | _ | _ | ⟨hperm, hkeys, h⟩)
    exact ⟨_, hperm, forall₂_members.mpr ⟨hkeys, h⟩⟩
  · rintro ⟨zs, hperm, h⟩
    obtain ⟨hkeys, hvalues⟩ := forall₂_members.mp h
    exact .object hperm hkeys hvalues

theorem same_array_right_iff {ys : List Json} :
    Same x (.array ys) ↔ ∃ xs, x = .array xs ∧ List.Forall₂ Same xs ys := by
  constructor
  · rintro (_ | _ | _ | _ | h)
    exact ⟨_, rfl, h⟩
  · rintro ⟨xs, rfl, h⟩
    exact .array h

theorem same_object_right_iff {ys : List (String × Json)} :
    Same x (.object ys) ↔ ∃ xs, x = .object xs ∧ Assoc.Related (fun _ => Same) xs ys := by
  constructor
  · intro h
    cases x with
    | object xs => exact ⟨xs, rfl, same_object_iff.mp h⟩
    | null | bool _ | number _ | string _ | array _ => cases h
  · rintro ⟨xs, rfl, h⟩
    exact same_object_iff.mpr h

@[simp] theorem same_string_iff {s : String} : Same x (.string s) ↔ x = .string s := by
  constructor
  · rintro ⟨⟩
    rfl
  · rintro rfl
    exact .string s

theorem Same.distinct {x y : Json} (h : Same x y) (hy : Distinct y) : Distinct x := by
  induction hy generalizing x with
  | null => cases h; exact .null
  | bool b => cases h; exact .bool b
  | number n => cases h; exact .number n
  | string s => cases h; exact .string s
  | array _ ih =>
    obtain ⟨xs, rfl, hrel⟩ := same_array_right_iff.mp h
    refine .array fun x hx => ?_
    obtain ⟨y, hy, hxy⟩ := Assoc.forall₂_mem_left hrel hx
    exact ih y hy hxy
  | object hkeys _ ih =>
    obtain ⟨xs, rfl, hrel⟩ := same_object_right_iff.mp h
    refine .object (hrel.nodup hkeys) fun m hm => ?_
    obtain ⟨w, hw, hmw⟩ := hrel.mem hm
    exact ih (m.1, w) hw hmw

/-! ## Lists that may stand as one element -/

def asList : Json → List Json
  | .array items => items
  | x => [x]

/-- The same elements in any order, however a list of one is spelled. -/
def SameList (x y : Json) : Prop := ∃ l, y.asList.Perm l ∧ List.Forall₂ Same x.asList l

/-! ## Members that may be left out -/

def present (members : List (String × Option Json)) : List (String × Json) :=
  members.filterMap fun m => m.2.map (m.1, ·)

theorem mem_present {members : List (String × Option Json)} :
    (key, v) ∈ present members ↔ (key, some v) ∈ members := by
  rw [present, List.mem_filterMap]
  constructor
  · rintro ⟨⟨key', o⟩, hm, heq⟩
    obtain ⟨v', rfl, hv'⟩ := Option.map_eq_some_iff.mp heq
    cases hv'
    exact hm
  · intro hm
    exact ⟨(key, some v), hm, rfl⟩

section Present

variable {members : List (String × Option Json)} (h : (members.map Prod.fst).Nodup)
include h

theorem nodup_present : ((present members).map Prod.fst).Nodup := by
  refine Assoc.nodup_filterMap (fun m m' heq => ?_) h
  obtain ⟨v, -, rfl⟩ := Option.map_eq_some_iff.mp heq
  rfl

theorem get_present {o : Option Json} (hm : (key, o) ∈ members) :
    Assoc.get (present members) key = o := by
  cases o with
  | some v => exact (Assoc.get_eq_some_iff (nodup_present h)).mpr (mem_present.mpr hm)
  | none =>
    refine Assoc.get_eq_none_iff.mpr fun hkey => ?_
    obtain ⟨⟨_, v⟩, hv, rfl⟩ := List.mem_map.mp hkey
    have heq := List.inj_on_of_nodup_map h hm (mem_present.mp hv) rfl
    cases congrArg Prod.snd heq

/-- Members against the ones that may be left out: no other key, and each key there
exactly when it is not left out. -/
theorem related_present_iff {R : String → Json → Json → Prop} {xs : List (String × Json)}
    (hx : (xs.map Prod.fst).Nodup) : Assoc.Related R xs (present members) ↔
      (∀ key ∈ xs.map Prod.fst, key ∈ members.map Prod.fst) ∧
        ∀ m ∈ members, Option.Rel (R m.1) (Assoc.get xs m.1) m.2 := by
  have hout : ∀ key, key ∉ members.map Prod.fst → Assoc.get (present members) key = none := by
    intro key hkey
    refine Assoc.get_eq_none_iff.mpr fun hmem => ?_
    obtain ⟨⟨_, v⟩, hv, rfl⟩ := List.mem_map.mp hmem
    exact hkey (List.mem_map_of_mem (mem_present.mp hv))
  rw [Assoc.related_iff hx (nodup_present h)]
  constructor
  · intro hrel
    refine ⟨fun key hkey => ?_, fun m hm => get_present h hm ▸ hrel m.1⟩
    by_contra hnot
    have hnone := hrel key
    rw [hout key hnot] at hnone
    cases hget : Assoc.get xs key with
    | none => exact Assoc.get_eq_none_iff.mp hget hkey
    | some v =>
      rw [hget] at hnone
      cases hnone
  · rintro ⟨hkeys, hrel⟩ key
    by_cases hkey : key ∈ members.map Prod.fst
    · obtain ⟨m, hm, rfl⟩ := List.mem_map.mp hkey
      rw [get_present h hm]
      exact hrel m hm
    · rw [hout key hkey, Assoc.get_eq_none_iff.mpr fun hmem => hkey (hkeys key hmem)]
      exact .none

end Present

end Json
