import Mathlib.Data.Nat.Find
import Mathlib.Data.Nat.Init
import Mathlib.Tactic.Common

/-! # Bit maps and the runs inside them

A bit map is read as a predicate on bit numbers.  An allocator works on one
through ranges: it fills a range with one value, measures how far a range
keeps one value, and counts the bits set in a range.
-/

namespace Lib.Bits

abbrev Map := Nat → Bool

/-- Give every bit of `[b, b + len)` the value `v`. -/
def fill (v : Bool) (m : Map) (b len : Nat) : Map :=
  fun i => if b ≤ i ∧ i < b + len then v else m i

/-- How many bits from `b` on, and at most `len`, have the value `v`. -/
def run (v : Bool) (m : Map) : Nat → Nat → Nat
  | _, 0 => 0
  | b, len + 1 => if m b = v then run v m (b + 1) len + 1 else 0

/-- The number of bits set in `[b, b + len)`. -/
def count (m : Map) : Nat → Nat → Nat
  | _, 0 => 0
  | b, len + 1 => (if m b then 1 else 0) + count m (b + 1) len

theorem fill_inside {v m b len i} (low : b ≤ i) (high : i < b + len) : fill v m b len i = v := by
  simp only [fill, low, high, and_self, if_true]

theorem fill_outside {v m b len i} (out : i < b ∨ b + len ≤ i) : fill v m b len i = m i := by
  have : ¬(b ≤ i ∧ i < b + len) := by omega
  simp only [fill, this, if_false]

@[simp] theorem fill_zero {v m b} : fill v m b 0 = m := by
  funext i
  exact fill_outside (by omega)

section Run

variable {v : Bool} {m : Map}

theorem run_le {b len} : run v m b len ≤ len := by
  induction len generalizing b with
  | zero => exact Nat.le_refl 0
  | succ len ih =>
      simp only [run]
      split
      · exact Nat.succ_le_succ ih
      · exact Nat.zero_le _

/-- Every bit a run counts has the run's value. -/
theorem run_value {b len i} (inside : i < run v m b len) : m (b + i) = v := by
  induction len generalizing b i with
  | zero => simp only [run, Nat.not_lt_zero] at inside
  | succ len ih =>
      simp only [run] at inside
      split at inside
      next head =>
        cases i with
        | zero => exact head
        | succ i =>
            have tail := ih (b := b + 1) (i := i) (by omega)
            rwa [Nat.add_right_comm] at tail
      next => exact absurd inside (Nat.not_lt_zero i)

/-- A run that ends before its limit ends at a bit of the other value. -/
theorem run_stop {b len} (short : run v m b len < len) : m (b + run v m b len) ≠ v := by
  induction len generalizing b with
  | zero => exact absurd short (Nat.not_lt_zero _)
  | succ len ih =>
      simp only [run] at short ⊢
      split at short
      next head =>
        have tail := ih (b := b + 1) (by omega)
        simp only [head, if_true]
        rwa [show b + (run v m (b + 1) len + 1) = b + 1 + run v m (b + 1) len by omega]
      next head =>
        rw [if_neg head, Nat.add_zero]
        exact head

theorem run_full {b len} : run v m b len = len ↔ ∀ i < len, m (b + i) = v := by
  constructor
  · intro full i inside
    rw [← full] at inside
    exact run_value inside
  · intro all
    by_contra short
    have before : run v m b len < len := Nat.lt_of_le_of_ne run_le short
    exact run_stop before (all _ before)

theorem run_pos {b len} (room : 0 < len) : 0 < run v m b len ↔ m b = v := by
  cases len with
  | zero => exact absurd room (Nat.lt_irrefl 0)
  | succ len =>
      simp only [run]
      split <;> simp_all

end Run

section Count

variable {m m' : Map}

theorem count_append (b n k : Nat) : count m b (n + k) = count m b n + count m (b + n) k := by
  induction n generalizing b with
  | zero => simp only [Nat.zero_add, count, Nat.add_zero]
  | succ n ih =>
      rw [show n + 1 + k = (n + k) + 1 by omega]
      simp only [count, ih (b + 1)]
      rw [show b + 1 + n = b + (n + 1) by omega]
      omega

theorem count_congr {b len} (same : ∀ i, b ≤ i → i < b + len → m i = m' i) :
    count m b len = count m' b len := by
  induction len generalizing b with
  | zero => rfl
  | succ len ih =>
      simp only [count, same b (Nat.le_refl b) (by omega)]
      rw [ih fun i low high => same i (by omega) (by omega)]

theorem count_set {b len} (all : ∀ i < len, m (b + i) = true) : count m b len = len := by
  induction len generalizing b with
  | zero => rfl
  | succ len ih =>
      have head : m b = true := all 0 (by omega)
      have tail : count m (b + 1) len = len := ih fun i inside => by
        rw [Nat.add_right_comm]
        exact all (i + 1) (by omega)
      simp only [count, head, if_true, tail]
      omega

theorem count_clear {b len} (none : ∀ i < len, m (b + i) = false) : count m b len = 0 := by
  induction len generalizing b with
  | zero => rfl
  | succ len ih =>
      have head : m b = false := none 0 (by omega)
      have tail : count m (b + 1) len = 0 := ih fun i inside => by
        rw [Nat.add_right_comm]
        exact none (i + 1) (by omega)
      simp only [count, head, tail, Bool.false_eq_true, if_false]

theorem count_run_true (m : Map) (b len : Nat) :
    count m b (run true m b len) = run true m b len :=
  count_set fun _ inside => run_value inside

theorem count_run_false (m : Map) (b len : Nat) : count m b (run false m b len) = 0 :=
  count_clear fun _ inside => run_value inside

theorem count_pos {b len} : 0 < count m b len ↔ ∃ i < len, m (b + i) = true := by
  constructor
  · intro some
    by_contra none
    push Not at none
    have : count m b len = 0 := count_clear fun i inside => by simpa using none i inside
    omega
  · rintro ⟨i, inside, here⟩
    have split := count_append (m := m) b i (len - i)
    rw [Nat.add_sub_cancel' (Nat.le_of_lt inside)] at split
    obtain ⟨rest, hrest⟩ : ∃ rest, len - i = rest + 1 := ⟨len - i - 1, by omega⟩
    rw [hrest] at split
    simp only [count, here, if_true] at split
    omega

theorem count_le (b len : Nat) : count m b len ≤ len := by
  induction len generalizing b with
  | zero => exact Nat.le_refl 0
  | succ len ih =>
      have tail := ih (b + 1)
      simp only [count]
      split <;> omega

/-- Filling a range inside a counted one changes the count by the change in
    that range alone. -/
theorem count_fill {v b len a n} (low : b ≤ a) (high : a + n ≤ b + len) :
    count (fill v m a n) b len + count m a n = count m b len + (if v then n else 0) := by
  obtain ⟨i, rfl⟩ : ∃ i, a = b + i := ⟨a - b, by omega⟩
  obtain ⟨k, rfl⟩ : ∃ k, len = i + n + k := ⟨len - i - n, by omega⟩
  have before : count (fill v m (b + i) n) b i = count m b i :=
    count_congr fun j _ right => fill_outside (by omega)
  have after : count (fill v m (b + i) n) (b + (i + n)) k = count m (b + (i + n)) k :=
    count_congr fun j left _ => fill_outside (by omega)
  have middle : count (fill v m (b + i) n) (b + i) n = if v then n else 0 := by
    cases v with
    | true => exact count_set fun j inside => fill_inside (by omega) (by omega)
    | false => exact count_clear fun j inside => fill_inside (by omega) (by omega)
  simp only [count_append, before, after, middle]
  omega

theorem count_fill_outside {v b len a n} (out : a + n ≤ b ∨ b + len ≤ a) :
    count (fill v m a n) b len = count m b len :=
  count_congr fun i low high => fill_outside (by omega)

theorem count_mono {b len} (sub : ∀ i < len, m (b + i) = true → m' (b + i) = true) :
    count m b len ≤ count m' b len := by
  induction len generalizing b with
  | zero => exact Nat.le_refl 0
  | succ len ih =>
      have tail : count m (b + 1) len ≤ count m' (b + 1) len := ih fun i inside here => by
        rw [Nat.add_right_comm] at here ⊢
        exact sub (i + 1) (by omega) here
      have head := sub 0 (by omega)
      simp only [count, Nat.add_zero] at head ⊢
      split
      next here =>
        rw [if_pos (head here)]
        omega
      next =>
        split <;> omega

/-- A map within another one has as many bits only if it is the same. -/
theorem count_eq_iff {b len} (sub : ∀ i < len, m (b + i) = true → m' (b + i) = true) :
    count m b len = count m' b len ↔ ∀ i < len, m (b + i) = m' (b + i) := by
  constructor
  · intro equal i inside
    by_contra other
    have bits : m (b + i) = false ∧ m' (b + i) = true := by
      have sub := sub i inside
      revert sub other
      cases m (b + i) <;> cases m' (b + i) <;> simp
    have before : count m b i ≤ count m' b i :=
      count_mono fun j earlier => sub j (Nat.lt_trans earlier inside)
    have after : count m (b + (i + 1)) (len - (i + 1)) ≤ count m' (b + (i + 1)) (len - (i + 1)) :=
      count_mono fun j later => by
        rw [Nat.add_assoc]
        exact sub _ (by omega)
    have here : count m (b + i) 1 < count m' (b + i) 1 := by simp [count, bits]
    obtain ⟨rest, rfl⟩ : ∃ rest, len = i + 1 + rest := ⟨len - (i + 1), by omega⟩
    rw [count_append, count_append, count_append, count_append] at equal
    rw [Nat.add_sub_cancel_left] at after
    omega
  · intro same
    apply count_congr
    intro i low high
    obtain ⟨k, rfl⟩ := Nat.exists_eq_add_of_le low
    exact same k (by omega)

end Count

/-! ## The runs of a range -/

section Runs

/-- A run of set bits of `[lo, hi)` with nothing to add to it at either end. -/
structure MaximalRun (m : Map) (lo hi i n : Nat) : Prop where
  low : lo ≤ i
  high : i + n ≤ hi
  some : 0 < n
  set : ∀ k < n, m (i + k) = true
  before : i = lo ∨ m (i - 1) = false
  after : i + n = hi ∨ m (i + n) = false

/-- The run that starts at bit `i` of `[lo, hi)`. -/
def runAt (m : Map) (lo hi i : Nat) : Option (Nat × Nat) :=
  if m i = true ∧ (i = lo ∨ m (i - 1) = false) then some (i, run true m i (hi - i)) else none

/-- The runs of `[lo, hi)` that start in `[b, b + len)`. -/
def runs (m : Map) (lo hi b len : Nat) : List (Nat × Nat) :=
  (List.range' b len).filterMap (runAt m lo hi)

variable {m : Map} {lo hi b i j n : Nat}

theorem runAt_eq_some (low : lo ≤ i) (high : i < hi) :
    runAt m lo hi i = some (j, n) ↔ i = j ∧ MaximalRun m lo hi j n := by
  have room : 0 < hi - i := Nat.sub_pos_of_lt high
  constructor
  · intro here
    simp only [runAt, Option.ite_none_right_eq_some, Option.some.injEq, Prod.mk.injEq] at here
    obtain ⟨⟨set, before⟩, rfl, rfl⟩ := here
    have le : run true m i (hi - i) ≤ hi - i := run_le
    refine ⟨rfl, low, by omega, (run_pos room).mpr set, fun k => run_value, before, ?_⟩
    rcases Nat.lt_or_eq_of_le le with short | full
    · apply Or.inr
      simpa using run_stop short
    · exact Or.inl (by omega)
  · rintro ⟨rfl, maximal⟩
    have first := maximal.set 0 maximal.some
    have le : run true m i (hi - i) ≤ hi - i := run_le
    have whole : run true m i (hi - i) = n := by
      rcases Nat.lt_trichotomy (run true m i (hi - i)) n with short | same | long
      · have inside := maximal.high
        exact absurd (maximal.set _ short) (run_stop (by omega))
      · exact same
      · rcases maximal.after with top | clear
        · omega
        · rw [run_value long] at clear
          cases clear
    simp only [runAt, whole]
    exact if_pos ⟨first, maximal.before⟩

theorem mem_runs : (i, n) ∈ runs m lo hi lo (hi - lo) ↔ MaximalRun m lo hi i n := by
  simp only [runs, List.mem_filterMap, List.mem_range'_1]
  constructor
  · rintro ⟨k, ⟨low, high⟩, here⟩
    exact ((runAt_eq_some low (by omega)).mp here).2
  · intro maximal
    have low := maximal.low
    have high := maximal.high
    have positive := maximal.some
    exact ⟨i, ⟨low, by omega⟩, (runAt_eq_some low (by omega)).mpr ⟨rfl, maximal⟩⟩

theorem runs_sorted (m : Map) (lo hi b len : Nat) :
    (runs m lo hi b len).Pairwise fun r s => r.1 < s.1 := by
  apply List.Pairwise.filterMap (runAt m lo hi) ?_ List.pairwise_lt_range'
  intro i j before r first s second
  simp only [runAt, Option.ite_none_right_eq_some, Option.some.injEq] at first second
  rw [← first.2, ← second.2]
  exact before

theorem runs_append (b k len : Nat) :
    runs m lo hi b (k + len) = runs m lo hi b k ++ runs m lo hi (b + k) len := by
  simp only [runs, ← List.range'_append_1, List.filterMap_append]

/-- No run starts at a clear bit. -/
theorem runs_clear {len : Nat} (clear : ∀ k < len, m (b + k) = false) : runs m lo hi b len = [] := by
  simp only [runs, List.filterMap_eq_nil_iff, List.mem_range'_1]
  rintro i ⟨low, high⟩
  have here := clear (i - b) (by omega)
  rw [Nat.add_sub_cancel' low] at here
  simp only [runAt, here, Bool.false_eq_true, false_and, if_false]

/-- The bits of a run start one run. -/
theorem runs_run (before : b = lo ∨ m (b - 1) = false) (low : lo ≤ b)
    (some : 0 < run true m b (hi - b)) :
    runs m lo hi b (run true m b (hi - b)) = [(b, run true m b (hi - b))] := by
  obtain ⟨k, more⟩ : ∃ k, run true m b (hi - b) = k + 1 := ⟨run true m b (hi - b) - 1, by omega⟩
  have set : ∀ i < k + 1, m (b + i) = true := by
    rw [← more]
    exact fun i => run_value
  have rest : (List.range' (b + 1) k).filterMap (runAt m lo hi) = [] := by
    simp only [List.filterMap_eq_nil_iff, List.mem_range'_1]
    rintro i ⟨above, high⟩
    have before := set (i - 1 - b) (by omega)
    rw [show b + (i - 1 - b) = i - 1 by omega] at before
    have other : i ≠ lo := by omega
    simp only [runAt, before, other, Bool.true_eq_false, or_self, and_false, if_false]
  have first : runAt m lo hi b = Option.some (b, k + 1) := by
    simp only [runAt, more]
    exact if_pos ⟨set 0 (Nat.succ_pos k), before⟩
  rw [more, runs, List.range'_succ, List.filterMap_cons, first, rest]

end Runs

/-! ## The first run of a length -/

section FirstRun

/-- `n` bits from bit `i` on, set and inside `[lo, hi)`. -/
structure SetRun (m : Map) (lo hi n i : Nat) : Prop where
  low : lo ≤ i
  high : i + n ≤ hi
  set : ∀ k < n, m (i + k) = true

/-- The lowest of the set runs of a length. -/
structure FirstRun (m : Map) (lo hi n i : Nat) : Prop extends SetRun m lo hi n i where
  first : ∀ j < i, ¬ SetRun m lo hi n j

variable {m : Map} {lo lo' hi n i j : Nat}

theorem SetRun.lower (run : SetRun m lo hi n i) (le : lo' ≤ lo) : SetRun m lo' hi n i :=
  ⟨Nat.le_trans le run.low, run.high, run.set⟩

/-- A run does not start so close below a clear bit that it would hold it. -/
theorem SetRun.above (run : SetRun m lo hi n i) (clear : m j = false) (near : j < lo + n) :
    SetRun m (j + 1) hi n i := by
  have start := run.low
  have above : j < i := by
    by_contra below
    have bit := run.set (j - i) (by omega)
    rw [show i + (j - i) = j by omega, clear] at bit
    cases bit
  exact ⟨above, run.high, run.set⟩

theorem FirstRun.lower (run : FirstRun m (j + 1) hi n i) (clear : m j = false) (le : lo ≤ j + 1)
    (near : j < lo + n) : FirstRun m lo hi n i :=
  ⟨run.toSetRun.lower le, fun k before other => run.first k before (other.above clear near)⟩

theorem FirstRun.unique (run : FirstRun m lo hi n i) (other : FirstRun m lo hi n j) : i = j := by
  rcases Nat.lt_trichotomy i j with before | same | before
  · exact absurd run.toSetRun (other.first i before)
  · exact same
  · exact absurd other.toSetRun (run.first j before)

end FirstRun

/-! ## The first set bit -/

section First

/-- The lowest set bit of `[lo, hi)`, or that there is none. -/
def First (m : Map) (lo hi : Nat) : Option Nat → Prop
  | some i => (lo ≤ i ∧ i < hi ∧ m i = true) ∧ ∀ j, lo ≤ j → j < i → m j = false
  | none => ∀ j, lo ≤ j → j < hi → m j = false

variable {m : Map} {lo mid hi : Nat} {out : Option Nat}

theorem first_empty (empty : hi ≤ lo) : First m lo hi none := fun j low high => by omega

theorem first_here (inside : lo < hi) (set : m lo = true) : First m lo hi (some lo) :=
  ⟨⟨Nat.le_refl lo, inside, set⟩, fun j low before => by omega⟩

/-- Clear bits before a range do not matter. -/
theorem First.lower (first : First m mid hi out) (le : lo ≤ mid)
    (clear : ∀ j, lo ≤ j → j < mid → j < hi → m j = false) : First m lo hi out := by
  cases out with
  | none =>
      intro j low high
      rcases Nat.lt_or_ge j mid with before | after
      · exact clear j low before high
      · exact first j after high
  | some i =>
      obtain ⟨⟨low, high, set⟩, least⟩ := first
      refine ⟨⟨Nat.le_trans le low, high, set⟩, fun j low' before => ?_⟩
      rcases Nat.lt_or_ge j mid with earlier | after
      · exact clear j low' earlier (Nat.lt_trans before high)
      · exact least j after before

theorem First.higher {i : Nat} (first : First m lo mid (some i)) (le : mid ≤ hi) :
    First m lo hi (some i) :=
  ⟨⟨first.1.1, Nat.lt_of_lt_of_le first.1.2.1 le, first.1.2.2⟩, first.2⟩

end First

end Lib.Bits
