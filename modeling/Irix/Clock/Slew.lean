import Irix.Lib.Run
import Mathlib.Algebra.Order.Group.Unbundled.Abs
import Mathlib.Tactic.Linarith
import Mathlib.Tactic.Ring

/-! # Slewing the clock

`hardclock` adds a tick to the time and, as long as `adjtime_sub` has left something to do, a
few microseconds more or less. These are kept apart: a tick is skipped where they fall below
zero, and one is added where they make up a whole tick.
-/

namespace Irix.Clock

/-- A 32-bit `long` or `int`. -/
def long (x : Int) : Int := Int.bmod x 4294967296

/-- The time, as the kernel keeps it. -/
structure Time where
  /-- seconds -/
  time : Int
  /-- ticks since the previous second -/
  timeTicks : Int
  /-- microseconds since the previous tick -/
  timeUsec : Int
  /-- number of times clock should be slewed -/
  timedelta : Int
  /-- slew until the clock has been adjusted -/
  tickdelta : Int
  deriving DecidableEq, Repr

inductive Move where
  | hardclock
  | adjtimeSub (ntimedelta : Int)

section

variable (hz : Nat)

/-- `1000000/HZ` -/
def tick : Int := 1000000 / hz

/-- nominal skew of 240ms/minute -/
def tickadj : Int := 240000 / (60 * hz)

/-- use 10x skew above 1 second -/
def bigadj : Int := 1000000

/-- The clock is slewed. -/
def adjust (s : Time) : Time :=
  if s.timedelta ≠ 0 then
    { s with timedelta := long (s.timedelta - 1), timeUsec := s.timeUsec + s.tickdelta }
  else s

/-- How `hardclock` updates the time. -/
def hardclock (s : Time) : Time :=
  let s := adjust s
  if s.timeUsec < 0 then { s with timeUsec := s.timeUsec + tick hz }
  else
    let s :=
      if tick hz ≤ s.timeUsec then
        { s with timeUsec := s.timeUsec - tick hz, timeTicks := s.timeTicks + 1 }
      else s
    let s := { s with timeTicks := s.timeTicks + 1 }
    if (hz : Int) ≤ s.timeTicks then
      { s with timeTicks := s.timeTicks - hz, time := long (s.time + 1) }
    else s

/-- The rate and the number of slews that a delta is made into. -/
def rate (ntimedelta : Int) : Int × Int :=
  let (ntimedelta, ntickdelta) :=
    if ntimedelta < 0 then (long (-ntimedelta), -tickadj hz) else (ntimedelta, tickadj hz)
  let ntimedelta := ntimedelta.tdiv (tickadj hz)
  if bigadj.tdiv (tickadj hz) < ntimedelta then (ntimedelta.tdiv 10, ntickdelta * 10)
  else (ntimedelta, ntickdelta)

/-- Nothing comes of a division by zero. -/
def adjtimeSub (ntimedelta : Int) (s : Time) : Option (Int × Time) :=
  if tickadj hz = 0 then none
  else
    some (long (s.timedelta * s.tickdelta),
      { s with timedelta := (rate hz ntimedelta).1, tickdelta := (rate hz ntimedelta).2 })

def microtime (s : Time) : Int × Int := (s.time, s.timeTicks * tick hz + s.timeUsec)

def step (s : Time) : Move → Option Time
  | .hardclock => some (hardclock hz s)
  | .adjtimeSub ntimedelta => (adjtimeSub hz ntimedelta s).map Prod.snd

/-! ## What is expected -/

/-- The time that is reported, in microseconds. -/
def reported (s : Time) : Int := (microtime hz s).1 * 1000000 + (microtime hz s).2

/-- What the next tick is slewed by. -/
def slew (s : Time) : Int := if s.timedelta ≠ 0 then s.tickdelta else 0

/-- What a move adds to the time. -/
def advance (s : Time) : Move → Int
  | .hardclock => tick hz + slew s
  | .adjtimeSub _ => 0

structure Proper (s : Time) (m : Move) (s' : Time) : Prop where
  advances : reported hz s' = reported hz s + advance hz s m
  grows : reported hz s ≤ reported hz s'
  usec : 0 ≤ (microtime hz s').2 ∧ (microtime hz s').2 < 1000000

def Steady : Time → List Move → Prop := Lib.Run.Steady (step hz) (Proper hz)

/-- The slews of so many ticks. -/
def slewed : Time → Nat → Int
  | _, 0 => 0
  | s, k + 1 => slew s + slewed (hardclock hz s) k

/-- In the end a delta has been made up for, but for less than ten steps. -/
def MadeUp (d : Int) (s : Time) : Prop :=
  ∃ r s', adjtimeSub hz d s = some (r, s') ∧ ∃ n, ∀ k, n ≤ k → |slewed hz s' k - d| < 10 * tickadj hz

/-- The seconds stay in a `long`, with one tick a second none is added, and there is
    something to divide by. -/
def Allowed (s : Time) : Move → Prop
  | .hardclock =>
      reported hz s + tick hz + slew s < 2147483648 * 1000000 ∧ (hz = 1 → s.timeUsec + slew s < tick hz)
  | .adjtimeSub _ => tickadj hz ≠ 0

instance (s : Time) : ∀ m, Decidable (Allowed hz s m)
  | .hardclock => inferInstanceAs (Decidable (_ < _ ∧ (_ → _)))
  | .adjtimeSub _ => inferInstanceAs (Decidable (tickadj hz ≠ 0))

def AllAllowed : Time → List Move → Prop := Lib.Run.Permitted (step hz) (Allowed hz)

instance (s : Time) (moves : List Move) : Decidable (AllAllowed hz s moves) :=
  Lib.Run.Permitted.decidable (step hz) (Allowed hz) s moves

/-- What holds of the clock at any time. -/
structure Sound (s : Time) : Prop where
  time : -2147483648 ≤ s.time ∧ s.time < 2147483648
  timeTicks : 0 ≤ s.timeTicks ∧ s.timeTicks < hz
  timeUsec : 0 ≤ s.timeUsec ∧ s.timeUsec < tick hz
  tickdelta : |s.tickdelta| ≤ 10 * tickadj hz

end

/-! ## Ticks -/

section

variable {hz : Nat} {s : Time}

theorem tick_whole (divides : hz ∣ 1000000) : hz * tick hz = 1000000 := by
  rw [tick]
  exact Int.mul_ediv_cancel' (by exact_mod_cast divides)

theorem tickadj_nonneg (hz : Nat) : 0 ≤ tickadj hz := Int.ediv_nonneg (by decide) (by positivity)

/-- The fastest slew is less than a tick. -/
theorem tickadj_less (pos : 0 < hz) (divides : hz ∣ 1000000) : 10 * tickadj hz < tick hz := by
  have whole := tick_whole divides
  have part : 60 * hz * tickadj hz ≤ 240000 := Int.mul_ediv_self_le (by omega)
  have hz_pos : (0 : Int) < hz := by exact_mod_cast pos
  nlinarith

theorem slew_less (pos : 0 < hz) (divides : hz ∣ 1000000) (sound : Sound hz s) :
    -tick hz < slew s ∧ slew s < tick hz := by
  have less := tickadj_less pos divides
  have nonneg := tickadj_nonneg hz
  have bound := abs_le.mp sound.tickdelta
  unfold slew
  split <;> omega

@[simp]
theorem adjust_timeTicks (s : Time) : (adjust s).timeTicks = s.timeTicks := by
  unfold adjust
  split <;> rfl

@[simp]
theorem adjust_time (s : Time) : (adjust s).time = s.time := by
  unfold adjust
  split <;> rfl

/-- A tick adds its length and the slew, in whole ticks and what is left of one. -/
theorem hardclock_eq (hz : Nat) (s : Time) :
    ∃ ticks left : Int, s.timeUsec + slew s + tick hz = ticks * tick hz + left ∧
      (ticks = 0 ∧ s.timeUsec + slew s < 0 ∨
        ticks = 1 ∧ 0 ≤ s.timeUsec + slew s ∧ s.timeUsec + slew s < tick hz ∨
        ticks = 2 ∧ tick hz ≤ s.timeUsec + slew s ∧ 0 ≤ s.timeUsec + slew s) ∧
      (hardclock hz s).timeUsec = left ∧
      (hardclock hz s).timeTicks =
        (if ticks ≠ 0 ∧ hz ≤ s.timeTicks + ticks then s.timeTicks + ticks - hz
          else s.timeTicks + ticks) ∧
      (hardclock hz s).time =
        if ticks ≠ 0 ∧ hz ≤ s.timeTicks + ticks then long (s.time + 1) else s.time := by
  have usec : (adjust s).timeUsec = s.timeUsec + slew s := by
    simp only [adjust, slew]
    split <;> simp
  unfold hardclock
  simp only [usec]
  split
  · next skipped => exact ⟨0, _, by ring, Or.inl ⟨rfl, skipped⟩, rfl, by simp, by simp⟩
  · next counted =>
      rw [not_lt] at counted
      by_cases added : tick hz ≤ s.timeUsec + slew s
      · refine ⟨2, s.timeUsec + slew s - tick hz, by ring, Or.inr (Or.inr ⟨rfl, added, counted⟩), ?_⟩
        have two : s.timeTicks + 1 + 1 = s.timeTicks + 2 := by ring
        simp only [added, if_true, adjust_timeTicks, two]
        split <;> simp_all
      · refine ⟨1, s.timeUsec + slew s, by ring,
          Or.inr (Or.inl ⟨rfl, counted, not_le.mp added⟩), ?_⟩
        simp only [added, if_false]
        split <;> simp_all

@[simp]
theorem hardclock_tickdelta (hz : Nat) (s : Time) : (hardclock hz s).tickdelta = s.tickdelta := by
  simp only [hardclock, adjust]
  split_ifs <;> rfl

@[simp]
theorem hardclock_timedelta (hz : Nat) (s : Time) :
    (hardclock hz s).timedelta = if s.timedelta ≠ 0 then long (s.timedelta - 1) else 0 := by
  simp only [hardclock, adjust]
  split_ifs <;> simp_all

theorem long_spec (x : Int) :
    -2147483648 ≤ long x ∧ long x < 2147483648 ∧ long x % 4294967296 = x % 4294967296 := by
  refine ⟨?_, ?_, Int.bmod_emod⟩
  · exact Int.le_bmod (by decide)
  · exact Int.bmod_lt (by decide)

theorem long_succ {x : Int} (low : -2147483648 ≤ x) (high : x < 2147483648) :
    x < 2147483647 ∧ long (x + 1) = x + 1 ∨ x = 2147483647 ∧ long (x + 1) = -2147483648 := by
  unfold long
  rcases lt_or_eq_of_le (Int.lt_add_one_iff.mp high : x ≤ 2147483647) with less | rfl
  · exact Or.inl ⟨less, Int.bmod_eq_of_le (by omega) (by omega)⟩
  · exact Or.inr ⟨rfl, by decide⟩

/-- A tick does what is expected of it exactly where it is allowed. -/
theorem hardclock_proper (pos : 0 < hz) (divides : hz ∣ 1000000) (sound : Sound hz s) :
    (Proper hz s .hardclock (hardclock hz s) ↔ Allowed hz s .hardclock) ∧
      (Allowed hz s .hardclock → Sound hz (hardclock hz s)) := by
  have whole := tick_whole divides
  have less := slew_less pos divides sound
  have size := tickadj_less pos divides
  have nonneg := tickadj_nonneg hz
  obtain ⟨time, timeTicks, timeUsec, tickdelta⟩ := sound
  obtain ⟨ticks, left, sum, which, usec, count, seconds⟩ := hardclock_eq hz s
  have next := long_succ time.1 time.2
  have last : (s.timeTicks + 1) * tick hz ≤ hz * tick hz :=
    Int.mul_le_mul_of_nonneg_right (by omega) (by omega)
  have several : (hz = 1 ∧ tick hz = 1000000 ∧ s.timeTicks * tick hz = 0) ∨
      (hz ≠ 1 ∧ 2 * tick hz ≤ 1000000) := by
    rcases Nat.lt_or_ge 1 hz with more | one
    · have two : (2 : Int) * tick hz ≤ hz * tick hz :=
        Int.mul_le_mul_of_nonneg_right (by omega) (by omega)
      exact Or.inr ⟨by omega, by omega⟩
    · obtain rfl : hz = 1 := by omega
      obtain none : s.timeTicks = 0 := by omega
      exact Or.inl ⟨rfl, by omega, by simp [none]⟩
  have proper : Proper hz s .hardclock (hardclock hz s) ↔
      reported hz (hardclock hz s) = reported hz s + (tick hz + slew s) ∧
        0 ≤ (microtime hz (hardclock hz s)).2 ∧ (microtime hz (hardclock hz s)).2 < 1000000 := by
    constructor
    · rintro ⟨advances, -, range⟩
      exact ⟨advances, range⟩
    · rintro ⟨advances, range⟩
      exact ⟨advances, by omega, range⟩
  rw [proper]
  clear proper
  simp only [reported, microtime, Allowed, seconds, count, usec]
  generalize slew s = d at *
  have counts : ∀ n, (s.timeTicks + n) * tick hz = s.timeTicks * tick hz + n * tick hz := fun n => by ring
  have counts' : ∀ n, (s.timeTicks + n - hz) * tick hz =
    s.timeTicks * tick hz + n * tick hz - 1000000 := fun n => by rw [← whole]; ring
  have reached : ∀ n, (hz : Int) ≤ s.timeTicks + n → 1000000 ≤ s.timeTicks * tick hz + n * tick hz := by
    intro n le
    rw [← whole, ← counts]
    exact Int.mul_le_mul_of_nonneg_right le (by omega)
  have unreached : ∀ n, s.timeTicks + n < hz →
      s.timeTicks * tick hz + n * tick hz + tick hz ≤ 1000000 := by
    intro n lt
    have le : (s.timeTicks + n + 1) * tick hz ≤ hz * tick hz :=
      Int.mul_le_mul_of_nonneg_right (by omega) (by omega)
    rw [whole, add_assoc, counts, add_mul] at le
    omega
  have first : 0 ≤ s.timeTicks * tick hz := mul_nonneg timeTicks.1 (by omega)
  rw [counts, whole] at last
  rcases which with ⟨rfl, under⟩ | ⟨rfl, range⟩ | ⟨rfl, range⟩
  · have short := unreached 0 (by omega)
    simp only [ne_eq, not_true_eq_false, false_and, if_false, counts]
    exact ⟨by omega, fun allowed =>
      ⟨by simp only [seconds]; simpa using time, by simp only [count]; simpa using timeTicks,
        by omega, by simpa using tickdelta⟩⟩
  · by_cases wraps : (hz : Int) ≤ s.timeTicks + 1
    · have long := reached 1 wraps
      simp only [ne_eq, one_ne_zero, not_false_eq_true, true_and, wraps, if_true, counts'] at seconds count ⊢
      refine ⟨by omega, fun allowed => ⟨by omega, by omega, by omega, by simpa using tickdelta⟩⟩
    · have short := unreached 1 (by omega)
      simp only [ne_eq, one_ne_zero, not_false_eq_true, true_and, wraps, if_false, counts] at seconds count ⊢
      refine ⟨by omega, fun allowed => ⟨by omega, by omega, by omega, by simpa using tickdelta⟩⟩
  · by_cases wraps : (hz : Int) ≤ s.timeTicks + 2
    · have long := reached 2 wraps
      simp only [ne_eq, OfNat.ofNat_ne_zero, not_false_eq_true, true_and, wraps, if_true, counts'] at seconds count ⊢
      refine ⟨by omega, fun allowed => ⟨by omega, by omega, by omega, by simpa using tickdelta⟩⟩
    · have short := unreached 2 (by omega)
      simp only [ne_eq, OfNat.ofNat_ne_zero, not_false_eq_true, true_and, wraps, if_false, counts] at seconds count ⊢
      refine ⟨by omega, fun allowed => ⟨by omega, by omega, by omega, by simpa using tickdelta⟩⟩

theorem rate_less (hz : Nat) (d : Int) : |(rate hz d).2| ≤ 10 * tickadj hz := by
  have nonneg := tickadj_nonneg hz
  by_cases negative : d < 0
  · simp only [rate, negative, if_true]
    split <;> exact abs_le.mpr ⟨by simp only; omega, by simp only; omega⟩
  · simp only [rate, negative, if_false]
    split <;> exact abs_le.mpr ⟨by simp only; omega, by simp only; omega⟩

/-- A new delta leaves the time as it is. -/
theorem adjtimeSub_proper (divides : hz ∣ 1000000) (sound : Sound hz s) {d r : Int}
    {s' : Time} (done : adjtimeSub hz d s = some (r, s')) :
    Proper hz s (.adjtimeSub d) s' ∧ Sound hz s' := by
  unfold adjtimeSub at done
  split at done
  · cases done
  · simp only [Option.some.injEq, Prod.mk.injEq] at done
    obtain ⟨-, rfl⟩ := done
    have whole := tick_whole divides
    obtain ⟨time, timeTicks, timeUsec, tickdelta⟩ := sound
    refine ⟨⟨by simp [reported, microtime, advance], by simp [reported, microtime], ?_⟩,
      ⟨time, timeTicks, timeUsec, rate_less hz d⟩⟩
    have last : (s.timeTicks + 1) * tick hz ≤ hz * tick hz :=
      Int.mul_le_mul_of_nonneg_right (by omega) (by omega)
    have first : 0 ≤ s.timeTicks * tick hz := mul_nonneg timeTicks.1 (by omega)
    rw [add_mul, one_mul, whole] at last
    simp only [microtime]
    omega

theorem step_proper (pos : 0 < hz) (divides : hz ∣ 1000000) (sound : Sound hz s) (m : Move) :
    (Allowed hz s m ↔ ∃ s', step hz s m = some s' ∧ Proper hz s m s') ∧
      ∀ s', step hz s m = some s' → Allowed hz s m → Sound hz s' := by
  cases m with
  | hardclock =>
      obtain ⟨proper, kept⟩ := hardclock_proper pos divides sound
      simp only [step, Option.some.injEq, exists_eq_left']
      refine ⟨proper.symm, ?_⟩
      rintro s' rfl allowed
      exact kept allowed
  | adjtimeSub d =>
      simp only [step, Option.map_eq_some_iff, Prod.exists, exists_eq_right, Allowed]
      refine ⟨⟨fun some => ?_, ?_⟩, ?_⟩
      · have done : adjtimeSub hz d s = Option.some _ := if_neg some
        exact ⟨_, ⟨_, done⟩, (adjtimeSub_proper divides sound done).1⟩
      · rintro ⟨s', ⟨r, done⟩, -⟩ none
        simp [adjtimeSub, none] at done
      · rintro s' ⟨r, done⟩ -
        exact (adjtimeSub_proper divides sound done).2

/-- A run is as it should be exactly where each of its moves is allowed. -/
theorem steady_iff (pos : 0 < hz) (divides : hz ∣ 1000000) (sound : Sound hz s) (moves : List Move) :
    Steady hz s moves ↔ AllAllowed hz s moves := by
  apply Lib.Run.steady_iff _ _ sound
  · exact fun s m sound => (step_proper pos divides sound m).1
  · exact fun s m s' sound allowed done => (step_proper pos divides sound m).2 s' done allowed

/-! ## What a delta comes to -/

/-- So many ticks are slewed as the count says, taken without its sign. -/
theorem slewed_eq (hz : Nat) (s : Time) (range : -2147483648 ≤ s.timedelta ∧ s.timedelta < 2147483648)
    (k : Nat) : slewed hz s k = min (k : Int) (s.timedelta % 4294967296) * s.tickdelta := by
  induction k generalizing s with
  | zero =>
      have nonneg : 0 ≤ s.timedelta % 4294967296 := by omega
      simp [slewed, nonneg]
  | succ k ih =>
      have next := hardclock_timedelta hz s
      have bounds : -2147483648 ≤ (hardclock hz s).timedelta ∧ (hardclock hz s).timedelta < 2147483648 := by
        rw [next]
        have fits := long_spec (s.timedelta - 1)
        split <;> omega
      simp only [slewed, slew, ih _ bounds, hardclock_tickdelta]
      by_cases finished : s.timedelta = 0
      · simp only [finished, ne_eq, not_true_eq_false, if_false] at next
        simp [finished]
        omega
      · simp only [ne_eq, finished, not_false_eq_true, if_true] at next ⊢
        have less : (hardclock hz s).timedelta % 4294967296 = s.timedelta % 4294967296 - 1 := by
          have same := (long_spec (s.timedelta - 1)).2.2
          rw [next]
          omega
        rw [less, ← one_add_mul]
        congr 1
        omega

/-- What is left out by the division is less than a step. -/
theorem quotient_close {n a : Int} (nonneg : 0 ≤ n) (pos : 0 < a) :
    0 ≤ n.tdiv a ∧ n.tdiv a ≤ n ∧ 0 ≤ n - n.tdiv a * a ∧ n - n.tdiv a * a < a := by
  rw [Int.tdiv_eq_ediv_of_nonneg nonneg]
  have split := Int.emod_add_mul_ediv n a
  have less := Int.emod_lt_of_pos n pos
  have rest := Int.emod_nonneg n pos.ne'
  rw [mul_comm] at split
  exact ⟨Int.ediv_nonneg nonneg pos.le, Int.ediv_le_self a nonneg, by omega, by omega⟩

/-- The steps that are made of a delta, but for their direction. -/
def steps (hz : Nat) (n : Int) : Int × Int :=
  if bigadj.tdiv (tickadj hz) < n.tdiv (tickadj hz) then
    ((n.tdiv (tickadj hz)).tdiv 10, tickadj hz * 10)
  else (n.tdiv (tickadj hz), tickadj hz)

theorem rate_neg {d : Int} (negative : d < 0) :
    rate hz d = ((steps hz (long (-d))).1, -(steps hz (long (-d))).2) := by
  simp only [rate, steps, negative, if_true]
  split <;> simp

theorem rate_nonneg {d : Int} (nonneg : ¬d < 0) : rate hz d = steps hz d := by
  simp only [rate, steps, nonneg, if_false]

theorem steps_close {n : Int} (pos : 0 < tickadj hz) (nonneg : 0 ≤ n) :
    0 ≤ (steps hz n).1 ∧ (steps hz n).1 ≤ n ∧ 0 ≤ n - (steps hz n).1 * (steps hz n).2 ∧
      n - (steps hz n).1 * (steps hz n).2 < 10 * tickadj hz := by
  have one := quotient_close nonneg pos
  have ten := quotient_close one.1 (by decide : (0 : Int) < 10)
  unfold steps
  split
  · have rest : n - (n.tdiv (tickadj hz)).tdiv 10 * (tickadj hz * 10) =
        n - n.tdiv (tickadj hz) * tickadj hz +
          (n.tdiv (tickadj hz) - (n.tdiv (tickadj hz)).tdiv 10 * 10) * tickadj hz := by ring
    have many := Int.mul_le_mul_of_nonneg_right
      (by omega : n.tdiv (tickadj hz) - (n.tdiv (tickadj hz)).tdiv 10 * 10 ≤ 9) pos.le
    have some := mul_nonneg ten.2.2.1 pos.le
    simp only
    omega
  · simp only
    omega

/-- The steps come to the delta, but for less than ten of the small ones. -/
theorem rate_close {d : Int} (pos : 0 < tickadj hz) (low : -2147483648 < d) (high : d < 2147483648) :
    0 ≤ (rate hz d).1 ∧ (rate hz d).1 < 2147483648 ∧
      |(rate hz d).1 * (rate hz d).2 - d| < 10 * tickadj hz := by
  by_cases negative : d < 0
  · have opposite : long (-d) = -d := Int.bmod_eq_of_le (by omega) (by omega)
    obtain ⟨nonneg, less, rest⟩ := steps_close pos (by omega : 0 ≤ -d)
    rw [rate_neg negative, opposite]
    refine ⟨nonneg, by simp only; omega, abs_lt.mpr ?_⟩
    simp only [mul_neg]
    omega
  · obtain ⟨nonneg, less, rest⟩ := steps_close pos (by omega : 0 ≤ d)
    rw [rate_nonneg negative]
    exact ⟨nonneg, by omega, abs_lt.mpr (by omega)⟩

/-- The least delta is its own opposite: the count of the steps is negative. -/
theorem rate_least (pos : 0 < tickadj hz) :
    rate hz (-2147483648) = (-(2147483648 / tickadj hz), -tickadj hz) := by
  have opposite : long (-(-2147483648)) = -2147483648 := by decide
  have quotient : (-2147483648 : Int).tdiv (tickadj hz) = -(2147483648 / tickadj hz) := by
    rw [Int.neg_tdiv, Int.tdiv_eq_ediv_of_nonneg (by decide)]
  have negative : ¬bigadj.tdiv (tickadj hz) < -(2147483648 / tickadj hz) := by
    have first : 0 ≤ bigadj.tdiv (tickadj hz) := Int.tdiv_nonneg (by decide) pos.le
    have second : 0 ≤ 2147483648 / tickadj hz := Int.ediv_nonneg (by decide) pos.le
    omega
  rw [rate_neg (by decide), opposite]
  simp only [steps, quotient, if_neg negative]

/-- What is slewed in the end. -/
theorem slewed_all (hz : Nat) (s : Time) (range : -2147483648 ≤ s.timedelta ∧ s.timedelta < 2147483648)
    {k : Nat} (enough : s.timedelta % 4294967296 ≤ k) :
    slewed hz s k = s.timedelta % 4294967296 * s.tickdelta := by
  rw [slewed_eq hz s range, min_eq_right enough]

theorem madeUp_iff (pos : 0 < hz) (divides : hz ∣ 1000000) (d : Int) (low : -2147483648 ≤ d)
    (high : d < 2147483648) (s : Time) :
    MadeUp hz d s ↔ tickadj hz ≠ 0 ∧ (d = -2147483648 → tickadj hz = 1) := by
  have nonneg := tickadj_nonneg hz
  have size := tickadj_less pos divides
  by_cases none : tickadj hz = 0
  · simp [MadeUp, adjtimeSub, none]
  have some : 0 < tickadj hz := by omega
  have made : MadeUp hz d s ↔ ∃ n, ∀ k, n ≤ k →
      |slewed hz { s with timedelta := (rate hz d).1, tickdelta := (rate hz d).2 } k - d| <
        10 * tickadj hz := by
    simp [MadeUp, adjtimeSub, none]
  rw [made]
  by_cases least : d = -2147483648
  · subst least
    have whole := tick_whole divides
    have short : tick hz ≤ 1000000 := by
      have one : 1 * tick hz ≤ hz * tick hz :=
        Int.mul_le_mul_of_nonneg_right (by omega) (by omega)
      omega
    have quotient := Int.ediv_mul_le 2147483648 some.ne'
    have bound : 1 ≤ 2147483648 / tickadj hz := Int.le_ediv_of_mul_le some (by omega)
    have upper : 2147483648 / tickadj hz ≤ 2147483648 := Int.ediv_le_self _ (by decide)
    have count : (-(2147483648 / tickadj hz)) % 4294967296 = 4294967296 - 2147483648 / tickadj hz := by
      omega
    have all : ∀ k : Nat, 4294967296 ≤ k →
        slewed hz { s with timedelta := -(2147483648 / tickadj hz), tickdelta := -tickadj hz } k =
          2147483648 / tickadj hz * tickadj hz - 4294967296 * tickadj hz := by
      intro k enough
      rw [slewed_all hz _ (by simp only; omega) (by simp only; omega)]
      simp only [count]
      ring
    rw [rate_least some]
    simp only [ne_eq, none, not_false_eq_true, true_and, forall_const]
    constructor
    · rintro ⟨n, close⟩
      have last := close (max n 4294967296) (by omega)
      rw [all _ (by omega), abs_lt] at last
      omega
    · intro one
      refine ⟨4294967296, fun k enough => ?_⟩
      rw [all k enough, one]
      decide
  · obtain ⟨nonneg, less, close⟩ := rate_close some (by omega : -2147483648 < d) high
    simp only [ne_eq, none, not_false_eq_true, least, false_implies, and_self, iff_true]
    refine ⟨(rate hz d).1.toNat, fun k enough => ?_⟩
    rw [slewed_all hz _ (by simp only; omega) (by simp only; omega)]
    simp only
    rwa [Int.emod_eq_of_lt nonneg (by omega)]

/-- A run is as expected exactly where its moves are allowed, and a delta is made up for unless
    its opposite does not fit. -/
theorem slewing_iff (divides : hz ∣ 1000000) (sound : Sound hz s) (moves : List Move) :
    (Steady hz s moves ↔ AllAllowed hz s moves) ∧
      ∀ d, -2147483648 ≤ d → d < 2147483648 →
        (MadeUp hz d s ↔ tickadj hz ≠ 0 ∧ (d = -2147483648 → tickadj hz = 1)) := by
  have pos := Nat.pos_of_dvd_of_pos divides (by decide)
  exact ⟨steady_iff pos divides sound moves, fun d low high => madeUp_iff pos divides d low high s⟩

end

/-- The clock when it is started. -/
def started : Time := ⟨0, 0, 0, 0, 0⟩

/-- A slew of 5000 microseconds, two ticks after it was asked for. -/
def slewing : Time := ⟨0, 2, 124, 78, 62⟩

theorem slewing_sound : Sound 64 slewing := ⟨by decide, by decide, by decide, by decide⟩

/-- In the middle of the slew the clock is to be set back. -/
theorem slewing_iff_back :
    [.adjtimeSub 5000, .hardclock, .hardclock].foldlM (step 64) started = some slewing ∧
      Steady 64 slewing [.hardclock, .adjtimeSub (-3000), .hardclock, .hardclock, .hardclock] ∧
      MadeUp 64 (-3000) slewing := by
  obtain ⟨steady, made⟩ := slewing_iff (by decide : 64 ∣ 1000000) slewing_sound
    [.hardclock, .adjtimeSub (-3000), .hardclock, .hardclock, .hardclock]
  refine ⟨by decide, steady.mpr (by decide), ?_⟩
  exact (made (-3000) (by decide) (by decide)).mpr ⟨by decide, fun least => absurd least (by decide)⟩

/-- Of the least delta come more than two to the thirty-one steps, and in the same direction. -/
theorem least_delta : ¬MadeUp 64 (-2147483648) started := by
  have iff := madeUp_iff (by decide) (by decide : 64 ∣ 1000000) (-2147483648) (by decide) (by decide) started
  exact fun made => absurd ((iff.mp made).2 rfl) (by decide)

end Irix.Clock
