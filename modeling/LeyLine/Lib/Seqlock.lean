import Mathlib

/-!
# Sequence locks

A writer makes a counter odd, stores into a memory location by location, and
makes the counter even again. A reader loads the counter, copies the memory
location by location, and keeps the copy when the counter reads the same.

The counter of a machine wraps; the one here is its unbounded value, so the
reader compares it modulo `N`. `Copy.Tracks` is what a copy in progress keeps
under every step of the writer, and `Copy.Tracks.accept` what the comparison at
the end then gives.
-/

namespace Seqlock

variable {A V : Type*}

/-- A copy in progress: the counter it began at, and the values read so far. -/
structure Copy (V : Type*) where
  start : Nat
  values : List V

/-- The counter has not gone back since the copy began, and as long as it has
not moved the values read are those in memory. -/
structure Copy.Tracks (addr : Nat → A) (seq : Nat) (mem : A → V) (c : Copy V) : Prop where
  start_le : c.start ≤ seq
  values_eq : seq = c.start → ∀ i v, c.values[i]? = some v → v = mem (addr i)

variable {addr : Nat → A} {seq : Nat} {mem : A → V} {c : Copy V}

theorem Copy.tracks_start : (⟨seq, []⟩ : Copy V).Tracks addr seq mem :=
  ⟨Nat.le_refl _, fun _ i v h => by simp at h⟩

theorem Copy.Tracks.read (h : c.Tracks addr seq mem) :
    (⟨c.start, c.values ++ [mem (addr c.values.length)]⟩ : Copy V).Tracks addr seq mem := by
  refine ⟨h.start_le, fun hseq i v hi => ?_⟩
  rw [List.getElem?_append] at hi
  split at hi
  · exact h.values_eq hseq i v hi
  · have hi' : i = c.values.length := by
      have := (List.getElem?_eq_some_iff.mp hi).1
      simp only [List.length_singleton] at this
      omega
    subst hi'
    simpa [eq_comm] using hi

theorem Copy.Tracks.bump {seq' : Nat} {mem' : A → V} (h : c.Tracks addr seq mem)
    (hlt : seq < seq') : c.Tracks addr seq' mem' := by
  have hle := h.start_le
  exact ⟨by omega, fun heq => by omega⟩

theorem Copy.Tracks.store {mem' : A → V} (h : c.Tracks addr seq mem) (hne : seq ≠ c.start) :
    c.Tracks addr seq mem' :=
  ⟨h.start_le, fun heq => absurd heq hne⟩

/-- **An accepted copy is the memory**: the counter reads the same, and has not
gone once round in between. -/
theorem Copy.Tracks.accept {N : Nat} (h : c.Tracks addr seq mem)
    (heq : seq % N = c.start % N) (hlt : seq < c.start + N) :
    seq = c.start ∧ c.values = (List.range c.values.length).map (mem ∘ addr) := by
  have hle := h.start_le
  have hseq : seq = c.start := by
    have hdvd : N ∣ seq - c.start := (Nat.modEq_iff_dvd' hle).mp heq.symm
    have hzero := Nat.eq_zero_of_dvd_of_lt hdvd (by omega)
    omega
  refine ⟨hseq, List.ext_getElem? fun i => ?_⟩
  rw [List.getElem?_map]
  cases hi : c.values[i]? with
  | none =>
    have hlen := List.getElem?_eq_none_iff.mp hi
    rw [List.getElem?_eq_none (by simpa using hlen), Option.map_none]
  | some v =>
    obtain ⟨hlt, -⟩ := List.getElem?_eq_some_iff.mp hi
    rw [List.getElem?_range hlt, Option.map_some, h.values_eq hseq i v hi]
    rfl

/-! ## Stores -/

variable [DecidableEq A]

def Stored (mem : A → V) (l : List (A × V)) : Prop := ∀ x ∈ l, mem x.1 = x.2

theorem Stored.store {l : List (A × V)} {a : A} {v : V} (h : Stored mem l)
    (hnew : ∀ x ∈ l, x.1 ≠ a) : Stored (Function.update mem a v) (l ++ [(a, v)]) := by
  intro x hx
  rcases List.mem_append.mp hx with hx | hx
  · rw [Function.update_of_ne (hnew x hx)]
    exact h x hx
  · rw [List.mem_singleton.mp hx, Function.update_self]

end Seqlock
