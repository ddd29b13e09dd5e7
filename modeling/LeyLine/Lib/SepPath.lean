import Mathlib

/-!
# Separated paths

A path is a list of symbols in which one symbol, the separator, ends each
directory name: `a`, `a·b` with `·` the separator, and so on. This module
holds the order theory of such lists that a hierarchical name space rests on.

`Under s d p` says that `p` lies strictly below `d`, and `parents s p` lists
every `d` with that property, outermost first. Two facts carry most uses: below
is transitive, and the ancestors of one path form a chain.
-/

namespace SepPath

variable {α : Type*} (s : α)

/-- `p` lies strictly below `d`: it continues `d` by a separator. -/
def Under (d p : List α) : Prop := d ++ [s] <+: p

/-- `p` is `d` or lies below it. -/
def AtOrUnder (d p : List α) : Prop := d = p ∨ Under s d p

instance [DecidableEq α] (d p : List α) : Decidable (Under s d p) :=
  inferInstanceAs (Decidable (d ++ [s] <+: p))

instance [DecidableEq α] (d p : List α) : Decidable (AtOrUnder s d p) :=
  inferInstanceAs (Decidable (d = p ∨ Under s d p))

/-- The proper ancestors of a path, outermost first: what stands before each
separator. -/
def parents [DecidableEq α] : List α → List (List α)
  | [] => []
  | c :: cs => (if c = s then [[]] else []) ++ (parents cs).map (c :: ·)

variable {s}

variable {d p : List α}

theorem under_iff : Under s d p ↔ ∃ r, p = d ++ s :: r := by
  constructor
  · rintro ⟨r, hr⟩
    exact ⟨r, by rw [← hr]; simp⟩
  · rintro ⟨r, rfl⟩
    exact ⟨r, by simp⟩

theorem under_append (d r : List α) : Under s d (d ++ s :: r) := under_iff.mpr ⟨r, rfl⟩

theorem not_under_nil {d : List α} : ¬ Under s d [] := by
  rintro ⟨r, hr⟩
  simp at hr

theorem Under.isPrefix (h : Under s d p) : d <+: p := (List.prefix_append d [s]).trans h

theorem Under.length_lt (h : Under s d p) : d.length < p.length := by
  obtain ⟨r, rfl⟩ := under_iff.mp h
  simp

theorem Under.ne (h : Under s d p) : d ≠ p := by
  rintro rfl
  exact absurd h.length_lt (Nat.lt_irrefl _)

variable {d e p : List α}

theorem Under.trans (hde : Under s d e) (hep : Under s e p) : Under s d p :=
  List.IsPrefix.trans hde hep.isPrefix

theorem AtOrUnder.refl (p : List α) : AtOrUnder s p p := .inl rfl

theorem Under.atOrUnder (h : Under s d p) : AtOrUnder s d p := .inr h

theorem AtOrUnder.trans_under (hde : AtOrUnder s d e) (hep : Under s e p) : Under s d p := by
  rcases hde with rfl | hde
  · exact hep
  · exact hde.trans hep

theorem Under.trans_atOrUnder (hde : Under s d e) (hep : AtOrUnder s e p) : Under s d p := by
  rcases hep with rfl | hep
  · exact hde
  · exact hde.trans hep

theorem AtOrUnder.trans (hde : AtOrUnder s d e) (hep : AtOrUnder s e p) : AtOrUnder s d p := by
  rcases hde with rfl | hde
  · exact hep
  · exact (hde.trans_atOrUnder hep).atOrUnder

theorem Under.comparable (hd : Under s d p) (he : Under s e p) :
    d = e ∨ Under s d e ∨ Under s e d := by
  -- both continue to `p`, so the shorter of `d·` and `e·` starts the longer
  rcases List.prefix_or_prefix_of_prefix hd he with h | h
  · obtain ⟨r, hr⟩ := h
    rcases List.eq_nil_or_concat r with rfl | ⟨r', x, rfl⟩
    · left; simpa using hr
    · right; left
      have hre : d ++ [s] ++ r' = e := by
        have := congrArg List.dropLast hr
        simpa [← List.append_assoc] using this
      exact ⟨r', hre⟩
  · obtain ⟨r, hr⟩ := h
    rcases List.eq_nil_or_concat r with rfl | ⟨r', x, rfl⟩
    · left; simpa using hr.symm
    · right; right
      have hrd : e ++ [s] ++ r' = d := by
        have := congrArg List.dropLast hr
        simpa [← List.append_assoc] using this
      exact ⟨r', hrd⟩

theorem AtOrUnder.comparable (hd : AtOrUnder s d p)
    (he : AtOrUnder s e p) : AtOrUnder s d e ∨ Under s e d := by
  rcases hd with rfl | hd
  · rcases he with rfl | he
    · exact .inl (AtOrUnder.refl _)
    · exact .inr he
  · rcases he with rfl | he
    · exact .inl hd.atOrUnder
    · rcases hd.comparable he with h | h | h
      · exact .inl (.inl h)
      · exact .inl h.atOrUnder
      · exact .inr h

variable {n : List α}

theorem under_append_iff {d q n : List α} (h : s ∉ n) :
    Under s d (q ++ s :: n) ↔ AtOrUnder s d q := by
  constructor
  · intro hd
    rcases hd.comparable (under_append q n) with heq | hdq | hqd
    · exact .inl heq
    · exact .inr hdq
    · -- between `q` and its component there is no room for a separator
      obtain ⟨r, rfl⟩ := under_iff.mp hqd
      obtain ⟨r', hr'⟩ := under_iff.mp hd
      rw [List.append_assoc, List.cons_append] at hr'
      have htail := (List.cons.inj (List.append_cancel_left hr')).2
      exact absurd (htail ▸ List.mem_append_right r List.mem_cons_self) h
  · intro hd
    exact hd.trans_under (under_append q n)

/-! ## The list of ancestors -/

section Parents

variable [DecidableEq α]

@[simp] theorem parents_nil : parents s ([] : List α) = [] := rfl

/-- **`parents` lists exactly the paths a path lies below.** -/
theorem mem_parents {d : List α} : ∀ {p : List α}, d ∈ parents s p ↔ Under s d p
  | [] => by simp [not_under_nil]
  | c :: cs => by
    cases d with
    | nil =>
      simp [parents, under_iff, eq_comm]
    | cons x d' =>
      have ih := mem_parents (d := d') (p := cs)
      simp only [parents, List.mem_append, List.mem_map]
      constructor
      · rintro (h | ⟨e, he, heq⟩)
        · split at h <;> simp at h
        · obtain ⟨rfl, rfl⟩ : c = x ∧ e = d' := by simpa using heq
          obtain ⟨r, rfl⟩ := under_iff.mp (ih.mp he)
          exact under_append (c :: e) r
      · intro h
        obtain ⟨r, hr⟩ := under_iff.mp h
        obtain ⟨rfl, rfl⟩ : c = x ∧ cs = d' ++ s :: r := by simpa using hr
        exact .inr ⟨d', ih.mpr (under_append d' r), rfl⟩

end Parents

/-! ## The last component -/

section Last

variable [DecidableEq α]

/-- What stands before the last separator; nothing where there is none. -/
def dirPart (s : α) (p : List α) : List α := (p.reverse.dropWhile (· ≠ s)).tail.reverse

def lastPart (s : α) (p : List α) : List α := (p.reverse.takeWhile (· ≠ s)).reverse

def join (s : α) (d n : List α) : List α := if d = [] then n else d ++ s :: n

theorem not_mem_lastPart (p : List α) : s ∉ lastPart s p := by
  intro h
  have := List.mem_takeWhile_imp (List.mem_reverse.mp h)
  simp at this

theorem takeWhile_ne_of_not_mem {l : List α} (h : s ∉ l) (r : List α) :
    (l ++ s :: r).takeWhile (· ≠ s) = l ∧ (l ++ s :: r).dropWhile (· ≠ s) = s :: r := by
  have hl : ∀ x ∈ l, decide (x ≠ s) = true := fun x hx =>
    decide_eq_true fun hxs => h (hxs ▸ hx)
  rw [List.takeWhile_append_of_pos hl, List.dropWhile_append_of_pos hl]
  simp

@[simp] theorem dirPart_append (d : List α) (h : s ∉ n) : dirPart s (d ++ s :: n) = d := by
  have hrev : (d ++ s :: n).reverse = n.reverse ++ s :: d.reverse := by simp
  rw [dirPart, hrev, (takeWhile_ne_of_not_mem (by simpa using h) _).2]
  simp

@[simp] theorem lastPart_append (d : List α) (h : s ∉ n) : lastPart s (d ++ s :: n) = n := by
  have hrev : (d ++ s :: n).reverse = n.reverse ++ s :: d.reverse := by simp
  rw [lastPart, hrev, (takeWhile_ne_of_not_mem (by simpa using h) _).1]
  simp

@[simp] theorem dirPart_of_not_mem {p : List α} (h : s ∉ p) : dirPart s p = [] := by
  have hall : p.reverse.dropWhile (· ≠ s) = [] := by
    refine List.dropWhile_eq_nil_iff.mpr fun x hx => decide_eq_true fun hxs => h ?_
    exact hxs ▸ List.mem_reverse.mp hx
  rw [dirPart, hall]
  rfl

@[simp] theorem lastPart_of_not_mem {p : List α} (h : s ∉ p) : lastPart s p = p := by
  have hall : p.reverse.takeWhile (· ≠ s) = p.reverse := by
    refine List.takeWhile_eq_self_iff.mpr fun x hx => decide_eq_true fun hxs => h ?_
    exact hxs ▸ List.mem_reverse.mp hx
  rw [lastPart, hall, List.reverse_reverse]

theorem dirPart_join (d : List α) (h : s ∉ n) : dirPart s (join s d n) = d := by
  unfold join
  split
  · rename_i hd
    rw [hd, dirPart_of_not_mem h]
  · exact dirPart_append d h

theorem lastPart_join (d : List α) (h : s ∉ n) : lastPart s (join s d n) = n := by
  unfold join
  split
  · exact lastPart_of_not_mem h
  · exact lastPart_append d h

theorem dirPart_append_lastPart {p : List α} (h : s ∈ p) :
    dirPart s p ++ s :: lastPart s p = p := by
  obtain ⟨n, d, hsplit, hn⟩ := List.eq_append_cons_of_mem (List.mem_reverse.mpr h)
  have hp : p = d.reverse ++ s :: n.reverse := by
    rw [← List.reverse_reverse p, hsplit]
    simp
  have hn' : s ∉ n.reverse := by simpa using hn
  rw [hp, dirPart_append _ hn', lastPart_append _ hn']

theorem not_mem_of_mem_splitOn {p c : List α} (h : c ∈ p.splitOn s) : s ∉ c := by
  induction p generalizing c with
  | nil =>
    rw [List.splitOn_nil, List.mem_singleton] at h
    rw [h]
    exact List.not_mem_nil
  | cons x p ih =>
    rw [List.splitOn_cons_eq_if_modifyHead] at h
    split at h
    · rcases List.mem_cons.mp h with rfl | h
      · exact List.not_mem_nil
      · exact ih h
    · rename_i hx
      cases hp : p.splitOn s with
      | nil => exact absurd hp (List.splitOn_ne_nil s p)
      | cons head tail =>
        rw [hp, List.modifyHead_cons] at h
        rcases List.mem_cons.mp h with rfl | h
        · have hhead : s ∉ head := ih (hp ▸ List.mem_cons_self)
          simp only [beq_iff_eq] at hx
          exact List.not_mem_cons_of_ne_of_not_mem (Ne.symm hx) hhead
        · exact ih (hp ▸ List.mem_cons_of_mem _ h)

theorem splitOn_eq_concat {p : List α} (h : s ∈ p) :
    p.splitOn s = (dirPart s p).splitOn s ++ [lastPart s p] := by
  conv_lhs => rw [← dirPart_append_lastPart h]
  rw [List.splitOn_append_cons_self, List.splitOn_eq_singleton (not_mem_lastPart p)]

end Last

/-! ## Paths in lexicographic order -/

section Order

variable [Ord α] [Std.ReflOrd α]

theorem compare_append_cons (x : α) (r : List α) : ∀ d : List α, compare d (d ++ x :: r) = .lt
  | [] => rfl
  | c :: d => by
    have ih := compare_append_cons x r d
    change List.compareLex compare (c :: d) (c :: (d ++ x :: r)) = .lt
    rw [List.compareLex_cons_cons, Std.ReflOrd.compare_self]
    exact ih

theorem Under.compare_lt (h : Under s d p) : compare d p = .lt := by
  obtain ⟨r, rfl⟩ := under_iff.mp h
  exact compare_append_cons s r d

end Order

theorem isPrefix_of_between [Ord α] [Std.TransOrd α] [Std.LawfulEqOrd α] (r : List α) :
    ∀ x k : List α, (compare x k).isLE → (compare k (x ++ r)).isLE → x <+: k
  | [], k, _, _ => List.nil_prefix
  | a :: x, [], h, _ => by simp [compare, List.compareLex] at h
  | a :: x, b :: k, h, h' => by
    change (List.compareLex compare (a :: x) (b :: k)).isLE at h
    change (List.compareLex compare (b :: k) (a :: (x ++ r))).isLE at h'
    rw [List.compareLex_cons_cons] at h h'
    rw [Std.OrientedOrd.eq_swap] at h'
    cases hab : compare a b with
    | lt => simp [hab] at h'
    | gt => simp [hab] at h
    | eq =>
      obtain rfl : a = b := Std.LawfulEqOrd.eq_of_compare hab
      rw [hab] at h h'
      exact List.cons_prefix_cons.mpr ⟨rfl, isPrefix_of_between r x k h h'⟩

end SepPath
