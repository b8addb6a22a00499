import CometOS.Lib.Loop
import CometOS.Lib.Word

/-!
# The timer (`arch/i386/pit.c`)

`timer_ticks` is a `long` of 32 bits, and its sums wrap as the machine's do.  The interrupt comes when
it comes: `arrivals n` is how often it has fired between the `n`-th test that is made of the counter
and the one before it, or the call if there was none.
-/

namespace CometOS

open Loop Word32

/-- `pit_handler`, on `timer_ticks`. -/
def pitHandler (timerTicks : Int32) : Int32 := timerTicks + 1

/-- The counter, and how many tests have been made of it. -/
structure Timer where
  timerTicks : Int32
  tests : ℕ

/-- The interrupts that come before the next test. -/
def Timer.advance (arrivals : ℕ → ℕ) (t : Timer) : Timer where
  timerTicks := pitHandler^[arrivals t.tests] t.timerTicks
  tests := t.tests + 1

/-- `sleep`, for at most `fuel` tests. -/
def sleep (arrivals : ℕ → ℕ) (fuel : ℕ) (ticks : Int32) (t : Timer) : Option Timer :=
  let eticks := t.timerTicks + ticks
  whileLoop (fun t => t.timerTicks < eticks) (fun t => some (t.advance arrivals)) fuel
    (t.advance arrivals)

/-! ### When it should return -/

/-- How often the interrupt has fired since the call, by test `n` of the loop. -/
def firedBy (arrivals : ℕ → ℕ) (t : Timer) (n : ℕ) : ℕ :=
  ∑ i ∈ Finset.range (n + 1), arrivals (t.tests + i)

/-- The loop is left at test `n` exactly if this is the first by which the interrupt has fired `ticks`
times. -/
def SleepRight (arrivals : ℕ → ℕ) (ticks : Int32) (t : Timer) : Prop :=
  ∀ n, (∃ fuel, sleep arrivals fuel ticks t = some ((Timer.advance arrivals)^[n + 1] t)) ↔
    ticks.toInt ≤ firedBy arrivals t n ∧ ∀ k < n, ¬ ticks.toInt ≤ firedBy arrivals t k

/-- Up to the test that should leave the loop: before it, the end of the wait is not past the counter's
wrap, or the counter has wrapped already; and the interrupts by which that test comes late do not take
the counter over its wrap. -/
def SleepMet (arrivals : ℕ → ℕ) (ticks : Int32) (t : Timer) : Prop :=
  ∀ n, (∀ k < n, ¬ ticks.toInt ≤ firedBy arrivals t k) →
    (firedBy arrivals t n < ticks.toInt →
      t.timerTicks.toInt + ticks.toInt < 2 ^ 31 ∨
        2 ^ 31 ≤ t.timerTicks.toInt + firedBy arrivals t n) ∧
    (ticks.toInt ≤ firedBy arrivals t n →
      (t.timerTicks.toInt + ticks.toInt).bmod (2 ^ 32) +
        (firedBy arrivals t n - ticks.toInt) % 2 ^ 32 < 2 ^ 31)

section Sleep

variable {arrivals : ℕ → ℕ} {ticks : Int32} {t : Timer}

theorem pitHandler_iterate (x : Int32) (n : ℕ) :
    (pitHandler^[n] x).toInt = (x.toInt + n).bmod (2 ^ 32) := by
  induction n with
  | zero =>
    have hlo := x.le_toInt
    have hhi := x.toInt_lt
    rw [Function.iterate_zero_apply, bmod_word]
    omega
  | succ n ih =>
    rw [Function.iterate_succ_apply', pitHandler, Int32.toInt_add, ih,
      show (1 : Int32).toInt = 1 from rfl, bmod_word, bmod_word, bmod_word]
    omega

theorem advance_iterate (n : ℕ) :
    (Timer.advance arrivals)^[n] t =
      ⟨pitHandler^[∑ i ∈ Finset.range n, arrivals (t.tests + i)] t.timerTicks, t.tests + n⟩ := by
  induction n with
  | zero => rfl
  | succ n ih =>
    rw [Function.iterate_succ_apply', ih, Timer.advance, Finset.sum_range_succ, Nat.add_comm _ (arrivals _),
      Function.iterate_add_apply]
    rfl

/-- The counter at test `n`. -/
theorem toInt_timerTicks (n : ℕ) : ((Timer.advance arrivals)^[n + 1] t).timerTicks.toInt =
    (t.timerTicks.toInt + firedBy arrivals t n).bmod (2 ^ 32) := by
  rw [advance_iterate]
  exact pitHandler_iterate _ _

/-- The loop is left at the first test that fails, and only there. -/
theorem sleep_leaves_iff (n : ℕ) :
    (∃ fuel, sleep arrivals fuel ticks t = some ((Timer.advance arrivals)^[n + 1] t)) ↔
      ¬ ((Timer.advance arrivals)^[n + 1] t).timerTicks < t.timerTicks + ticks ∧
        ∀ k < n, ((Timer.advance arrivals)^[k + 1] t).timerTicks < t.timerTicks + ticks := by
  constructor
  · rintro ⟨fuel, h⟩
    obtain ⟨m, hbefore, hend, hm⟩ := whileLoop_eq_some fuel _ _ h
    rw [← Function.iterate_succ_apply] at hend hm
    -- the tests made tell the states apart
    have htests := congrArg Timer.tests hm
    rw [advance_iterate, advance_iterate] at htests
    obtain rfl : n = m := by
      have : t.tests + (n + 1) = t.tests + (m + 1) := htests
      omega
    refine ⟨of_decide_eq_false hend, fun k hk => ?_⟩
    have hk' := hbefore k hk
    rw [← Function.iterate_succ_apply] at hk'
    exact of_decide_eq_true hk'
  · rintro ⟨hend, hbefore⟩
    refine ⟨n + 1, ?_⟩
    refine whileLoop_first n _ (fun k hk => ?_) ?_ _ (Nat.lt_succ_self n)
    · rw [← Function.iterate_succ_apply]
      exact decide_eq_true (hbefore k hk)
    · rw [← Function.iterate_succ_apply]
      exact decide_eq_false hend

/-- **One test**, with interrupts still due and with none. -/
theorem sleep_test (hticks : 0 ≤ ticks.toInt) (n : ℕ) :
    (firedBy arrivals t n < ticks.toInt →
      (((Timer.advance arrivals)^[n + 1] t).timerTicks < t.timerTicks + ticks ↔
        t.timerTicks.toInt + ticks.toInt < 2 ^ 31 ∨
          2 ^ 31 ≤ t.timerTicks.toInt + firedBy arrivals t n)) ∧
    (ticks.toInt ≤ firedBy arrivals t n →
      (¬ ((Timer.advance arrivals)^[n + 1] t).timerTicks < t.timerTicks + ticks ↔
        (t.timerTicks.toInt + ticks.toInt).bmod (2 ^ 32) +
          (firedBy arrivals t n - ticks.toInt) % 2 ^ 32 < 2 ^ 31)) := by
  have hlo := t.timerTicks.le_toInt
  have hhi := t.timerTicks.toInt_lt
  have hmax := ticks.toInt_lt
  rw [Int32.lt_iff_toInt_lt, toInt_timerTicks, Int32.toInt_add, bmod_word, bmod_word]
  omega

/-- **`sleep`, exactly.**  For a wait of no less than zero ticks, and interrupts at any times. -/
theorem sleep_right_iff (arrivals : ℕ → ℕ) (ticks : Int32) (t : Timer) (hticks : 0 ≤ ticks) :
    SleepRight arrivals ticks t ↔ SleepMet arrivals ticks t := by
  rw [Int32.le_iff_toInt_le] at hticks
  have hleaves := @sleep_leaves_iff arrivals ticks t
  unfold SleepRight SleepMet
  simp only [hleaves]
  have h := @first_iff (fun n => ticks.toInt ≤ firedBy arrivals t n)
    (fun n => ¬ ((Timer.advance arrivals)^[n + 1] t).timerTicks < t.timerTicks + ticks)
  simp only [not_not] at h
  rw [h]
  refine forall_congr' fun n => imp_congr_right fun _ => ?_
  obtain ⟨hdue, hdone⟩ := @sleep_test arrivals ticks t hticks n
  by_cases hn : ticks.toInt ≤ firedBy arrivals t n
  · have hn' : ¬ (firedBy arrivals t n : ℤ) < ticks.toInt := not_lt.2 hn
    simp only [hn, hn', true_iff, true_implies, false_implies, true_and]
    exact hdone hn
  · have hn' := not_le.1 hn
    simp only [hn, hn', false_iff, true_implies, false_implies, and_true, not_not]
    exact hdue hn'

/-- From 7 on, 3 ticks that come one at a time. -/
theorem sleep_right_three : SleepRight (fun n => if n = 0 then 0 else 1) 3 ⟨7, 0⟩ := by
  refine (sleep_right_iff _ 3 ⟨7, 0⟩ (by decide)).2 fun n hn => ?_
  have hfired : firedBy (fun n => if n = 0 then 0 else 1) ⟨7, 0⟩ n = n := by
    clear hn
    induction n with
    | zero => rfl
    | succ n ih =>
      rw [firedBy] at ih ⊢
      rw [Finset.sum_range_succ, ih]
      simp
  have h3 : (3 : Int32).toInt = 3 := rfl
  have h7 : (7 : Int32).toInt = 7 := rfl
  simp only [hfired, h3, h7]
  refine ⟨fun _ => Or.inl (by decide), fun hle => ?_⟩
  have hn3 : n ≤ 3 := by
    by_contra hc
    refine hn 3 (by omega) ?_
    rw [h3]
    decide
  obtain rfl : n = 3 := by omega
  decide

/-- **A wait over the wrap.**  With the counter at its largest value, one tick is waited for by
returning at once. -/
theorem sleep_wrap_returns :
    ¬ ∀ (arrivals : ℕ → ℕ) (ticks : Int32) (t : Timer), 0 ≤ ticks → SleepRight arrivals ticks t := by
  intro h
  have hleft := (h (fun _ => 0) 1 ⟨0x7FFFFFFF, 0⟩ (by decide) 0).1 ⟨1, rfl⟩
  exact absurd hleft.1 (by decide)

end Sleep

end CometOS
