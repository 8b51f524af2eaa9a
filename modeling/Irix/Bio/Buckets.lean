import Mathlib.Data.Int.Order.Basic
import Mathlib.Data.Nat.Bitwise
import Mathlib.Tactic.Common

/-! # The buckets of the buffer cache

A buffer is hashed by its first block.  `getblk` looks for every buffer that
overlaps the blocks it is asked for, so it begins as far to the left of them as a
logical block reaches.
-/

namespace Irix.Bio

/-- A 32-bit `long` or `int`. -/
def long (x : Int) : Int := Int.bmod x 4294967296

/-- `bio_bbsperbucketshift`, set up by `bio_init` from `efs_lbtobbshift` -/
abbrev bioBbsperbucketshift (efsLbtobbshift : Nat) : Nat := efsLbtobbshift + 1

def bioBbsperbucketminusone (efsLbtobbshift : Nat) : Nat := 2 ^ bioBbsperbucketshift efsLbtobbshift - 1

def bioBbsperlbminusone (efsLbtobbshift : Nat) : Nat := 2 ^ efsLbtobbshift - 1

/-- `COMPUTE_BUCKET_STUFF`: the starting bucket and the number of buckets for
    searching. -/
def computeBucketStuff (efsLbtobbshift blkno len : Nat) : Nat × Int :=
  let lb := bioBbsperlbminusone efsLbtobbshift
  let bucket := bioBbsperbucketminusone efsLbtobbshift
  if lb ≤ blkno then
    let bucketbn := blkno - lb
    (bucketbn >>> bioBbsperbucketshift efsLbtobbshift,
      long ((bucketbn &&& bucket) + lb + len + bucket : Nat) >>> bioBbsperbucketshift efsLbtobbshift)
  else
    (blkno >>> bioBbsperbucketshift efsLbtobbshift,
      long (blkno + len + bucket : Nat) >>> bioBbsperbucketshift efsLbtobbshift)

/-- The turns of `while (buckets--)`. -/
def turns (buckets : Int) : Nat := (buckets % 4294967296).toNat

/-- `bucketbn` in the turns of the loop of `getblk`, where it finds no buffer. -/
def Visits (efsLbtobbshift blkno len : Nat) (bucket : Int) : Prop :=
  let (bucketbn, buckets) := computeBucketStuff efsLbtobbshift blkno len
  ∃ k < turns buckets, bucket = long (bucketbn + k)

section Coverage

variable {s blkno len : Nat}

theorem long_small {x : Int} (low : 0 ≤ x) (high : x < 2147483648) : long x = x := by
  unfold long
  rw [Int.bmod_eq_of_le] <;> omega

/-- Where the blocks and their surroundings do not fit an `int`, the number of turns is
    so large that the loop goes over every bucket. -/
theorem turns_shift {total : Nat} (pos : 0 < s) (small : s ≤ 22) (fits : total < 4294967296) :
    min (total / 2 ^ s) 2147483648 ≤ turns (long total >>> s) := by
  have quot : total / 2 ^ s ≤ total := Nat.div_le_self total _
  rw [Int.shiftRight_eq_div_pow, turns]
  rcases Nat.lt_or_ge total 2147483648 with low | high
  · rw [long_small (by omega) (by omega)]
    have same : (total : Int) / ((2 ^ s : Nat) : Int) = ((total / 2 ^ s : Nat) : Int) := rfl
    rw [same]
    omega
  · have wrapped : long total = (total : Int) - 4294967296 := by
      unfold long
      rw [Int.bmod_def]
      omega
    -- the whole word is a number of buckets
    have word : (4294967296 : Int) = ((2 ^ s : Nat) : Int) * ((2 ^ (32 - s) : Nat) : Int) := by
      rw [← Int.natCast_mul, ← Nat.pow_add, Nat.add_sub_cancel' (by omega)]
      rfl
    have size : ((2 ^ s : Nat) : Int) ≠ 0 := Int.natCast_ne_zero.mpr (Nat.two_pow_pos s).ne'
    have split : ((total : Int) - 4294967296) / ((2 ^ s : Nat) : Int) =
        ((total / 2 ^ s : Nat) : Int) - ((2 ^ (32 - s) : Nat) : Int) := by
      rw [word, Int.sub_mul_ediv_left _ _ size]
      rfl
    have most : 2 ^ (32 - s) ≤ 2 ^ 31 := Nat.pow_le_pow_right (by omega) (by omega)
    have fewer : total / 2 ^ s < 2 ^ (32 - s) := by
      rw [Nat.div_lt_iff_lt_mul (Nat.two_pow_pos s), ← Nat.pow_add, Nat.sub_add_cancel (by omega)]
      exact fits
    rw [wrapped, split]
    omega

/-- The buckets from the first to the last of the blocks and of those that a logical
    block to the left of them reaches. -/
theorem visits_between {first total bucket : Nat} (small : s ≤ 21) (fits : total < 4294967296)
    (block : bucket < 2147483648)
    (stuff : computeBucketStuff s blkno len = (first, long total >>> (s + 1)))
    (low : first ≤ bucket) (high : bucket - first < total / 2 ^ (s + 1)) : Visits s blkno len bucket := by
  have enough : min (total / 2 ^ (s + 1)) 2147483648 ≤ turns (long total >>> (s + 1)) :=
    turns_shift (Nat.succ_pos s) (Nat.succ_le_succ small) fits
  simp only [Visits, stuff]
  refine ⟨bucket - first, ?_, ?_⟩
  · omega
  · rw [long_small (by omega) (by omega)]
    omega

/-- Rounded up to whole buckets, a run of blocks takes in the bucket of each of them. -/
theorem bucket_within {base span start size : Nat} (some : 0 < size) (low : base ≤ start)
    (high : start < base + span) :
    base / size ≤ start / size ∧ start / size - base / size < (base % size + span + (size - 1)) / size := by
  have order := Nat.div_le_div_right (c := size) low
  refine ⟨order, ?_⟩
  have parts := Nat.div_add_mod base size
  have start_le := Nat.div_mul_le_self start size
  rw [Nat.lt_iff_add_one_le, Nat.le_div_iff_mul_le some, Nat.add_mul, Nat.sub_mul, Nat.one_mul,
    Nat.mul_comm (base / size)]
  omega

/-- Every buffer no longer than a logical block that overlaps the blocks is in a bucket
    that is visited. -/
theorem visits_overlapping {start length : Nat} (small : s ≤ 21) (word : blkno < 2147483648)
    (int : len < 2147483648) (place : start < 2147483648) (short : length ≤ 2 ^ s)
    (left : blkno < start + length) (right : start < blkno + len) :
    Visits s blkno len ((start >>> bioBbsperbucketshift s : Nat) : Int) := by
  have size : 2 ^ s ≤ 2 ^ 21 := Nat.pow_le_pow_right (by omega) small
  have some := Nat.two_pow_pos s
  have double : 2 ^ (s + 1) = 2 * 2 ^ s := Nat.pow_succ'
  have lb : bioBbsperlbminusone s = 2 ^ s - 1 := rfl
  have bucket : bioBbsperbucketminusone s = 2 ^ (s + 1) - 1 := rfl
  have block : start / 2 ^ (s + 1) < 2147483648 := Nat.lt_of_le_of_lt (Nat.div_le_self _ _) place
  have masked : ∀ base, base &&& bioBbsperbucketminusone s = base % 2 ^ (s + 1) := fun base =>
    Nat.and_two_pow_sub_one_eq_mod base (s + 1)
  have off := fun base => Nat.mod_lt base (Nat.two_pow_pos (s + 1))
  rw [Nat.shiftRight_eq_div_pow]
  by_cases far : 2 ^ s - 1 ≤ blkno
  · have stuff : computeBucketStuff s blkno len = (_, _) := if_pos far
    simp only [masked, Nat.shiftRight_eq_div_pow] at stuff
    -- the search begins at the leftmost block that a buffer can begin with
    have within := @bucket_within (blkno - (2 ^ s - 1)) (2 ^ s - 1 + len) start (2 ^ (s + 1))
      (Nat.two_pow_pos _) (by omega) (by omega)
    have off := off (blkno - (2 ^ s - 1))
    rw [← Nat.add_assoc] at within
    exact visits_between small (by omega) block stuff within.1 within.2
  · have stuff : computeBucketStuff s blkno len = (_, _) := if_neg far
    simp only [Nat.shiftRight_eq_div_pow] at stuff
    have within := @bucket_within 0 (blkno + len) start (2 ^ (s + 1)) (Nat.two_pow_pos _)
      (Nat.zero_le _) (by omega)
    rw [Nat.zero_mod, Nat.zero_add, Nat.zero_div] at within
    have first : blkno / 2 ^ (s + 1) = 0 := Nat.div_eq_of_lt (by omega)
    rw [first] at stuff
    exact visits_between small (by omega) block stuff within.1 within.2

end Coverage

end Irix.Bio
