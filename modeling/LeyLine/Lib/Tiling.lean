import Mathlib.Data.List.TakeWhile
import Mathlib.Tactic.Common

/-!
# Spans that tile an interval

A list of rows, each with an offset and a length, tiles an interval when the rows
follow each other without gap or overlap from its start to its end. The rows that
meet a smaller interval are found by skipping those that end before it and taking
those that start before its end (`meeting_tiles`), and what is read of them,
trimmed at both ends, is the smaller interval (`flatMap_trimmed`).
-/

namespace Tiling

variable {α β : Type} (off len : α → Nat)

/-- The rows follow each other, each of some length, from `a` to `b`. -/
def Tiles : Nat → Nat → List α → Prop
  | a, b, [] => a = b
  | a, b, c :: cs => off c = a ∧ 0 < len c ∧ Tiles (a + len c) b cs

/-- The bytes from `lo` to `hi`. -/
def slice (data : List β) (lo hi : Nat) : List β := (data.take hi).drop lo

theorem slice_length (data : List β) (lo hi : Nat) :
    (slice data lo hi).length = min hi data.length - lo := by
  rw [slice, List.length_drop, List.length_take]

theorem slice_self (data : List β) (lo : Nat) : slice data lo lo = [] := by
  rw [slice, List.drop_eq_nil_of_le]
  rw [List.length_take]
  exact Nat.min_le_left _ _

variable {data : List β}

theorem slice_append {lo mid hi : Nat} (h₁ : lo ≤ mid) (h₂ : mid ≤ hi) :
    slice data lo mid ++ slice data mid hi = slice data lo hi := by
  unfold slice
  have hsplit : data.take hi = data.take mid ++ (data.take hi).drop mid := by
    conv_lhs => rw [← List.take_append_drop mid (data.take hi), List.take_take, Nat.min_eq_left h₂]
  conv_rhs => rw [hsplit]
  rw [List.drop_append]
  by_cases hm : mid ≤ data.length
  · rw [List.length_take, Nat.min_eq_left hm, Nat.sub_eq_zero_of_le h₁, List.drop_zero]
  · have hnil : (data.take hi).drop mid = [] := by
      rw [List.drop_eq_nil_of_le]
      rw [List.length_take]
      omega
    rw [hnil, List.drop_nil]

theorem slice_slice {a n lo hi : Nat} (h : hi ≤ n) :
    slice (slice data a (a + n)) lo hi = slice data (a + lo) (a + hi) := by
  unfold slice
  rw [List.take_drop, List.take_take, List.drop_drop, Nat.min_eq_left (by omega)]

section Tiles

variable {off len} {a b : Nat} {cs : List α}

theorem Tiles.le (h : Tiles off len a b cs) : a ≤ b := by
  induction cs generalizing a with
  | nil => exact Nat.le_of_eq h
  | cons c cs ih =>
    have := ih h.2.2
    omega

theorem Tiles.mem (h : Tiles off len a b cs) {c : α} (hc : c ∈ cs) :
    a ≤ off c ∧ 0 < len c ∧ off c + len c ≤ b := by
  induction cs generalizing a with
  | nil => simp at hc
  | cons d cs ih =>
    obtain ⟨hoff, hpos, hrest⟩ := h
    rcases List.mem_cons.mp hc with rfl | hc
    · have := hrest.le
      omega
    · have := ih hrest hc
      omega

theorem Tiles.takeWhile (h : Tiles off len a b cs) {stop : Nat} (hstop : stop ≤ b) :
    ∃ b', Tiles off len a b' (cs.takeWhile fun c => decide (off c < stop)) ∧ stop ≤ max a b' ∧
    b' ≤ b := by
  induction cs generalizing a with
  | nil => exact ⟨b, h, by omega, le_rfl⟩
  | cons c cs ih =>
    obtain ⟨hoff, hpos, hrest⟩ := h
    rw [List.takeWhile_cons]
    by_cases hc : off c < stop
    · obtain ⟨b', htiles, hcover, hle⟩ := ih hrest
      rw [if_pos (by simpa using hc)]
      have := htiles.le
      exact ⟨b', ⟨hoff, hpos, htiles⟩, by omega, hle⟩
    · rw [if_neg (by simpa using hc)]
      have := hrest.le
      exact ⟨a, rfl, by omega, by omega⟩

/-- The rows that meet `start..stop`: those after the ones that end at or before
`start`, as long as they start before `stop`. -/
def meeting (off len : α → Nat) (start stop : Nat) (cs : List α) : List α :=
  (cs.drop (cs.findIdx fun c => decide (start < off c + len c))).takeWhile fun c =>
    decide (off c < stop)

theorem meeting_cons (start stop : Nat) (c : α) (cs : List α) :
    meeting off len start stop (c :: cs) = if start < off c + len c then
        (c :: cs).takeWhile fun c => decide (off c < stop) else meeting off len start stop cs := by
  unfold meeting
  rw [List.findIdx_cons]
  by_cases h : start < off c + len c
  · simp [h]
  · simp [h]

theorem Tiles.meeting (h : Tiles off len a b cs) {start stop : Nat} (ha : a ≤ start)
    (hlt : start < stop) (hstop : stop ≤ b) :
    ∃ a' b', Tiles off len a' b' (meeting off len start stop cs) ∧ a' ≤ start ∧ stop ≤ b' ∧
      b' ≤ b ∧ Tiling.meeting off len start stop cs ≠ [] ∧
      ∀ c ∈ Tiling.meeting off len start stop cs, off c < stop ∧ start < off c + len c := by
  induction cs generalizing a with
  | nil =>
    have heq : a = b := h
    omega
  | cons c cs ih =>
    rw [meeting_cons]
    have hc := h
    obtain ⟨hoff, hpos, hrest⟩ := h
    by_cases hmeets : start < off c + len c
    · rw [if_pos hmeets]
      obtain ⟨b', htiles, hcover, hle⟩ := hc.takeWhile hstop
      have hhead : off c < stop := by omega
      have hcons : (c :: cs).takeWhile (fun c => decide (off c < stop)) =
          c :: cs.takeWhile fun c => decide (off c < stop) := by
        rw [List.takeWhile_cons, if_pos (by simpa using hhead)]
      refine ⟨a, b', htiles, ha, by omega, hle, by rw [hcons]; simp, fun d hd => ⟨?_, ?_⟩⟩
      · simpa using List.mem_takeWhile_imp hd
      · rw [hcons] at hd
        rcases List.mem_cons.mp hd with rfl | hd
        · exact hmeets
        · have := hrest.mem ((List.takeWhile_sublist _).mem hd)
          omega
    · rw [if_neg hmeets]
      exact ih hrest (by omega)

theorem Tiles.meeting_empty (h : Tiles off len a b cs) {x : Nat} (ha : a ≤ x) :
    Tiling.meeting off len x x cs = [] ↔ b ≤ x ∨ ∃ c ∈ cs, off c = x := by
  induction cs generalizing a with
  | nil =>
    have heq : a = b := h
    simp [Tiling.meeting]
    omega
  | cons c cs ih =>
    rw [meeting_cons]
    obtain ⟨hoff, hpos, hrest⟩ := h
    by_cases hmeets : x < off c + len c
    · have hpast : ¬ b ≤ x := by
        have := hrest.le
        omega
      have hlater : ∀ d ∈ cs, off d ≠ x := by
        intro d hd
        have := hrest.mem hd
        omega
      rw [if_pos hmeets, List.takeWhile_cons]
      by_cases hin : off c < x
      · rw [if_pos (by simpa using hin)]
        simp only [reduceCtorEq, false_iff, not_or, not_exists, not_and]
        refine ⟨hpast, fun d hd => ?_⟩
        rcases List.mem_cons.mp hd with rfl | hd
        · omega
        · exact hlater d hd
      · rw [if_neg (by simpa using hin)]
        exact ⟨fun _ => .inr ⟨c, List.mem_cons_self, by omega⟩, fun _ => rfl⟩
    · rw [if_neg hmeets, ih hrest (by omega)]
      have hne : off c ≠ x := by omega
      simp [hne]

theorem Tiles.flatMap_trimmed {start stop : Nat} (h : Tiles off len a b cs)
    (hmeet : ∀ c ∈ cs, off c < stop ∧ start < off c + len c) (hne : cs ≠ []) :
    (cs.flatMap fun c => slice data (max start (off c)) (min stop (off c + len c))) =
      slice data (max start a) (min stop b) := by
  induction cs generalizing a with
  | nil => exact absurd rfl hne
  | cons c cs ih =>
    obtain ⟨rfl, hpos, hrest⟩ := h
    have hc := hmeet c List.mem_cons_self
    rw [List.flatMap_cons]
    cases cs with
    | nil =>
      obtain rfl : off c + len c = b := hrest
      simp
    | cons d ds =>
      have hd := hmeet d (by simp)
      have hdoff : off d = off c + len c := hrest.1
      rw [ih hrest (fun e he => hmeet e (List.mem_cons_of_mem _ he)) (by simp)]
      have hle := hrest.le
      rw [show min stop (off c + len c) = off c + len c by omega,
        show max start (off c + len c) = off c + len c by omega]
      exact slice_append (by omega) (by omega)

end Tiles

end Tiling
