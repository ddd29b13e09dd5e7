import Mathlib

/-!
# The rate limit of the signing helper

`sign/src/host/ratelimit.rs`: a bucket of tokens for each caller, filled at a rate per
second up to one second's worth, from which each check takes one token. Times are in
seconds and the arithmetic is exact. A check takes its time before it has the lock, so
checks can reach a bucket out of order. The bucket then goes back to the earlier time, and
what passes until the later one is filled in twice.
-/

namespace LeyLine.Sign

structure Bucket where
  tokens : ℚ
  capacity : ℚ
  refillPerSec : ℚ
  lastRefill : ℚ

namespace Bucket

def new (capacity refillPerSec clock : ℚ) : Bucket := ⟨capacity, capacity, refillPerSec, clock⟩

def refill (b : Bucket) (now : ℚ) : ℚ :=
  min (b.tokens + max (now - b.lastRefill) 0 * b.refillPerSec) b.capacity

def tryConsume (b : Bucket) (now : ℚ) : Bucket × Bool :=
  if 1 ≤ b.refill now then ({ b with tokens := b.refill now - 1, lastRefill := now }, true)
  else ({ b with tokens := b.refill now, lastRefill := now }, false)

/-- What every bucket of a limiter keeps. -/
structure Good (rate : ℚ) (b : Bucket) : Prop where
  nonneg : 0 ≤ b.tokens
  capacity : b.capacity = rate
  refillPerSec : b.refillPerSec = rate

variable {rate : ℚ} {b : Bucket}

theorem Good.refill_nonneg (hrate : 0 ≤ rate) (h : Good rate b) (now : ℚ) : 0 ≤ b.refill now := by
  refine le_min (add_nonneg h.nonneg (mul_nonneg (le_max_right _ _) ?_)) ?_
  · rwa [h.refillPerSec]
  · rwa [h.capacity]

/-- Between two times a bucket gains no more than the rate. -/
theorem Good.refill_le (hrate : 0 ≤ rate) (h : Good rate b) {t now : ℚ} (hle : t ≤ now) :
    b.refill now ≤ b.refill t + rate * (now - t) := by
  have hspan : max (now - b.lastRefill) 0 ≤ max (t - b.lastRefill) 0 + (now - t) := by
    refine max_le ?_ (add_nonneg (le_max_right _ _) (sub_nonneg.mpr hle))
    linarith [le_max_left (t - b.lastRefill) 0]
  have hgain := mul_le_mul_of_nonneg_right hspan hrate
  rw [refill, refill, ← min_add_add_right, h.refillPerSec]
  refine min_le_min ?_ (le_add_of_nonneg_right (mul_nonneg hrate (sub_nonneg.mpr hle)))
  linarith

theorem refill_tryConsume (b : Bucket) (now : ℚ) :
    ([(b.tryConsume now).2].count true : ℚ) + (b.tryConsume now).1.refill now ≤ b.refill now := by
  rw [tryConsume]
  by_cases h : 1 ≤ b.refill now
  · rw [if_pos h]
    simp [refill]
  · rw [if_neg h]
    simp [refill]

theorem Good.tryConsume (hrate : 0 ≤ rate) (h : Good rate b) (now : ℚ) :
    Good rate (b.tryConsume now).1 := by
  rw [Bucket.tryConsume]
  split_ifs with hone
  · exact ⟨sub_nonneg.mpr hone, h.capacity, h.refillPerSec⟩
  · exact ⟨h.refill_nonneg hrate now, h.capacity, h.refillPerSec⟩

end Bucket

/-- A check: its caller, the time it took, and the clock when it has the lock. -/
structure Check where
  caller : List Char
  now : ℚ
  clock : ℚ

structure RateLimiter where
  inner : List Char → Option Bucket
  ratePerSec : ℚ

namespace RateLimiter

def new (rate : Nat) : RateLimiter := ⟨fun _ => none, (max rate 1 : Nat)⟩

def bucket (l : RateLimiter) (c : Check) : Bucket :=
  (l.inner c.caller).getD (.new l.ratePerSec l.ratePerSec c.clock)

def checkAt (l : RateLimiter) (c : Check) : RateLimiter × Bool :=
  ({ l with inner := Function.update l.inner c.caller (some ((l.bucket c).tryConsume c.now).1) },
    ((l.bucket c).tryConsume c.now).2)

def after (l : RateLimiter) (checks : List Check) : RateLimiter :=
  checks.foldl (fun l c => (l.checkAt c).1) l

def outcomes (caller : List Char) : RateLimiter → List Check → List Bool
  | _, [] => []
  | l, c :: checks =>
    (if c.caller = caller then [(l.checkAt c).2] else []) ++ outcomes caller (l.checkAt c).1 checks

def InOrder (caller : List Char) (checks : List Check) : Prop :=
  checks.Pairwise fun c d => c.caller = caller → d.caller = caller → c.now ≤ d.now

structure Good (rate : ℚ) (l : RateLimiter) : Prop where
  ratePerSec : l.ratePerSec = rate
  buckets : ∀ caller, ∀ b ∈ l.inner caller, b.Good rate

variable {rate stop : ℚ} {l : RateLimiter} {caller : List Char} {c : Check} {checks : List Check}

theorem inner_checkAt_self (l : RateLimiter) (c : Check) :
    (l.checkAt c).1.inner c.caller = some ((l.bucket c).tryConsume c.now).1 :=
  Function.update_self _ _ _

theorem inner_checkAt_of_ne (h : c.caller ≠ caller) :
    (l.checkAt c).1.inner caller = l.inner caller :=
  Function.update_of_ne h.symm _ _

theorem Good.bucket (hrate : 0 ≤ rate) (h : Good rate l) (c : Check) : (l.bucket c).Good rate := by
  rw [RateLimiter.bucket]
  cases hinner : l.inner c.caller with
  | none => exact ⟨h.ratePerSec ▸ hrate, h.ratePerSec, h.ratePerSec⟩
  | some b => exact h.buckets c.caller b hinner

theorem Good.checkAt (hrate : 0 ≤ rate) (h : Good rate l) (c : Check) :
    Good rate (l.checkAt c).1 := by
  refine ⟨h.ratePerSec, fun caller b hb => ?_⟩
  by_cases hcaller : c.caller = caller
  · rw [← hcaller, inner_checkAt_self] at hb
    cases hb
    exact (h.bucket hrate c).tryConsume hrate c.now
  · rw [inner_checkAt_of_ne hcaller] at hb
    exact h.buckets caller b hb

theorem good_after (rate : Nat) (before : List Check) :
    Good (max rate 1 : Nat) ((new rate).after before) := by
  refine List.foldlRecOn before _ ⟨rfl, fun _ _ hb => ?_⟩ fun l hl c _ =>
    hl.checkAt (Nat.cast_nonneg _) c
  cases hb

theorem outcomes_alone {l' : RateLimiter} (hinner : l.inner caller = l'.inner caller)
    (hrate : l.ratePerSec = l'.ratePerSec) :
    outcomes caller l checks = outcomes caller l' (checks.filter (·.caller = caller)) := by
  induction checks generalizing l l' with
  | nil => rfl
  | cons c checks ih =>
    by_cases hc : c.caller = caller
    · have hbucket : l.bucket c = l'.bucket c := by rw [bucket, bucket, hc, hinner, hrate]
      have hanswer : (l.checkAt c).2 = (l'.checkAt c).2 := by rw [checkAt, checkAt, hbucket]
      have hrest := @ih (l.checkAt c).1 (l'.checkAt c).1
        (by rw [← hc, inner_checkAt_self, inner_checkAt_self, hbucket]) hrate
      rw [List.filter_cons_of_pos (by simpa using hc), outcomes, outcomes, hanswer, hrest]
    · rw [List.filter_cons_of_neg (by simpa using hc), outcomes, if_neg hc, List.nil_append]
      exact ih ((inner_checkAt_of_ne hc).trans hinner) hrate

def level (l : RateLimiter) (caller : List Char) (t : ℚ) : ℚ :=
  (l.inner caller).elim l.ratePerSec (·.refill t)

theorem Good.level_eq (hrate : 0 ≤ rate) (h : Good rate l) (c : Check) (t : ℚ) :
    l.level c.caller t = (l.bucket c).refill t := by
  rw [level, RateLimiter.bucket]
  cases l.inner c.caller with
  | none =>
    refine (min_eq_right (le_add_of_nonneg_right (mul_nonneg (le_max_right _ _) ?_))).symm
    exact h.ratePerSec ▸ hrate
  | some b => rfl

/-- Checks in order admit no more than the tokens there are and those that come in. -/
theorem Good.count_le (hrate : 0 ≤ rate) {t : ℚ} (h : Good rate l) (hstop : t ≤ stop)
    (horder : InOrder caller checks)
    (htimes : ∀ c ∈ checks, c.caller = caller → t ≤ c.now ∧ c.now ≤ stop) :
    ((outcomes caller l checks).count true : ℚ) ≤ l.level caller t + rate * (stop - t) := by
  induction checks generalizing l t with
  | nil =>
    have hlevel : 0 ≤ l.level caller t := by
      rw [h.level_eq hrate ⟨caller, t, t⟩]
      exact (h.bucket hrate _).refill_nonneg hrate t
    simpa [outcomes] using add_nonneg hlevel (mul_nonneg hrate (sub_nonneg.mpr hstop))
  | cons c checks ih =>
    obtain ⟨hfirst, hrest⟩ := List.pairwise_cons.mp horder
    rw [List.forall_mem_cons] at htimes
    by_cases hc : c.caller = caller
    · subst hc
      -- the rest is counted from this check on
      have hcount := ih (h.checkAt hrate c) (htimes.1 rfl).2 hrest fun d hd hdc =>
        ⟨hfirst d hd rfl hdc, (htimes.2 d hd hdc).2⟩
      have hpays := Bucket.refill_tryConsume (l.bucket c) c.now
      have hgain := (h.bucket hrate c).refill_le hrate (htimes.1 rfl).1
      rw [level, inner_checkAt_self, Option.elim_some] at hcount
      rw [outcomes, if_pos rfl, List.count_append, Nat.cast_add, h.level_eq hrate,
        RateLimiter.checkAt]
      rw [RateLimiter.checkAt] at hcount
      linarith
    · rw [outcomes, if_neg hc, List.nil_append, level, ← inner_checkAt_of_ne hc]
      exact ih (h.checkAt hrate c) hstop hrest htimes.2

/-- **The rate limit.** From any state of the limiter a caller is answered as if it were
alone, and of its checks in a window of `T` seconds that reach the lock in the order of
their times, at most `rate * (1 + T)` are admitted. -/
theorem admitted_le (rate : Nat) (before checks : List Check) (caller : List Char) :
    outcomes caller ((new rate).after before) checks =
        outcomes caller ((new rate).after before) (checks.filter (·.caller = caller)) ∧
      ∀ start T : ℚ, 0 ≤ T → (∀ c ∈ checks, c.caller = caller → start ≤ c.now ∧ c.now ≤ start + T) →
        InOrder caller checks →
        ((outcomes caller ((new rate).after before) checks).count true : ℚ) ≤
        (max rate 1 : Nat) * (1 + T) := by
  refine ⟨outcomes_alone rfl rfl, fun start T hT htimes horder => ?_⟩
  have hrate : (0 : ℚ) ≤ (max rate 1 : Nat) := Nat.cast_nonneg _
  have hgood := good_after rate before
  have hcount := hgood.count_le hrate (le_add_of_nonneg_right hT) horder htimes
  have hfull : ((new rate).after before).level caller start ≤ (max rate 1 : Nat) := by
    rw [hgood.level_eq hrate ⟨caller, start, start⟩]
    exact (min_le_right _ _).trans_eq (hgood.bucket hrate _).capacity
  linarith

def checksAt (times : List ℚ) : List Check := times.map fun now => ⟨['a'], now, now⟩

theorem admitted_le_two :
    ((outcomes ['a'] ((new 1).after []) (checksAt [0, 0, 1])).count true : ℚ) ≤
    (max 1 1 : Nat) * (1 + 1) :=
  (admitted_le 1 [] (checksAt [0, 0, 1]) ['a']).2 0 1 zero_le_one (by decide +kernel) (by
    unfold InOrder
    decide +kernel)

/-- Two times that alternate: every return to the later one is paid for again. -/
theorem rate_limit_exceeded : (∀ c ∈ checksAt [1, 0, 1, 0, 1], 0 ≤ c.now ∧ c.now ≤ 0 + 1) ∧
    (max 1 1 : Nat) * (1 + 1) < (outcomes ['a'] (new 1) (checksAt [1, 0, 1, 0, 1])).count true := by
  decide +kernel

end RateLimiter

end LeyLine.Sign
