import Irix.Lib.Reader
import Mathlib.Data.List.TakeWhile
import Mathlib.Tactic.Linarith

/-! # Bytewise input and output

Shorts, longs and strings on a stream of bytes, the most significant byte first.
A string is the bytes before its null byte.
-/

namespace Irix.Inst

open Lib Lib.Reader

abbrev Str : Type := List UInt8

/-- What a `short` holds of `x`. -/
def short (x : Int) : Int := Int.bmod x (2 ^ 16)

/-- What a `long` holds of `x`. -/
def long (x : Int) : Int := Int.bmod x (2 ^ 32)

/-- `t & 0377` -/
def low (t : Int) : UInt8 := UInt8.ofNat (t % 256).toNat

/-- `buff & 0377` -/
def value (b : UInt8) : Int := b.toNat

/-! ## Writing -/

def putbyte (byte : Int) : List UInt8 := [low byte]

def putshort (t : Int) : List UInt8 :=
  let t := short t
  [low (t / 2 ^ 8), low t]

def putlong (t : Int) : List UInt8 :=
  let t := long t
  [low (t / 2 ^ 24), low (t / 2 ^ 16), low (t / 2 ^ 8), low t]

def putstr (p : Str) : List UInt8 :=
  let len := short p.length
  putshort len ++ if len = 0 then [] else p.take len.toNat

/-! ## Reading -/

/-- The next `n` bytes. -/
def vread (n : Nat) : Reader UInt8 (List UInt8) := fun s =>
  if n ≤ s.length then some (s.take n, s.drop n) else none

/-- Minus one is also what is read at the end of the stream. -/
def getshort : Reader UInt8 Int := fun s =>
  match s with
  | b₀ :: b₁ :: s => some (short (short (value b₀ * 2 ^ 8) + value b₁), s)
  | _ => some (-1, [])

def getlong : Reader UInt8 Int := fun s =>
  match s with
  | b₀ :: b₁ :: b₂ :: b₃ :: s =>
    some (long (long (value b₀ * 2 ^ 24) + value b₁ * 2 ^ 16 + value b₂ * 2 ^ 8 + value b₃), s)
  | _ => some (-1, [])

/-- `if ((n = getshort (f)) < 0) return (-1);` -/
def readshort : Reader UInt8 Int := do
  let n ← getshort
  check (0 ≤ n)
  pure n

/-- `if ((n = getlong (f)) < 0) return (-1);` -/
def readlong : Reader UInt8 Int := do
  let n ← getlong
  check (0 ≤ n)
  pure n

/-- `if ((p = getstr (f, mset)) == NULL) return (-1);` -/
def getstr : Reader UInt8 Str := do
  let len ← readshort
  if len = 0 then pure []
  else do
    let p ← vread len.toNat
    pure (p.takeWhile (· ≠ 0))

/-! ## What is written can be read -/

theorem value_low (t : Int) : value (low t) = t % 256 := by
  have inside : (t % 256).toNat < 2 ^ 8 := by omega
  rw [value, low, UInt8.toNat_ofNat_of_lt' inside]
  omega

theorem short_eq {x : Int} (low : 0 ≤ x) (high : x < 2 ^ 15) : short x = x :=
  Int.bmod_eq_of_le (by omega) (by omega)

theorem long_eq {x : Int} (low : 0 ≤ x) (high : x < 2 ^ 31) : long x = x :=
  Int.bmod_eq_of_le (by omega) (by omega)

theorem putshort_length (t : Int) : (putshort t).length = 2 := rfl

theorem putlong_length (t : Int) : (putlong t).length = 4 := rfl

theorem reads_short {t : Int} (low_t : 0 ≤ t) (high : t < 2 ^ 15) :
    Reads readshort (putshort t) t := by
  have got : Reads getshort (putshort t) t := by
    intro rest
    simp only [putshort, List.cons_append, List.nil_append, getshort, value_low,
      short_eq low_t high]
    have hi : short (t / 2 ^ 8 % 256 * 2 ^ 8) = t / 2 ^ 8 * 2 ^ 8 := by
      rw [short_eq (by omega) (by omega)]
      omega
    rw [hi, show t / 2 ^ 8 * 2 ^ 8 + t % 256 = t by omega, short_eq low_t high]
  have both := got.bind (f := fun n => do check (0 ≤ n); pure n)
    (reads_check (decide_eq_true low_t) (reads_pure t))
  rw [List.append_nil] at both
  exact both

theorem reads_long {t : Int} (low_t : 0 ≤ t) (high : t < 2 ^ 31) :
    Reads readlong (putlong t) t := by
  have got : Reads getlong (putlong t) t := by
    intro rest
    simp only [putlong, List.cons_append, List.nil_append, getlong, value_low, long_eq low_t high]
    have hi : long (t / 2 ^ 24 % 256 * 2 ^ 24) = t / 2 ^ 24 * 2 ^ 24 := by
      rw [long_eq (by omega) (by omega)]
      omega
    have sum : t / 2 ^ 24 * 2 ^ 24 + t / 2 ^ 16 % 256 * 2 ^ 16 + t / 2 ^ 8 % 256 * 2 ^ 8 + t % 256 =
        t := by omega
    rw [hi, sum, long_eq low_t high]
  have both := got.bind (f := fun n => do check (0 ≤ n); pure n)
    (reads_check (decide_eq_true low_t) (reads_pure t))
  rw [List.append_nil] at both
  exact both

/-- A string that a `short` counts. -/
@[mk_iff] structure Fits (p : Str) : Prop where
  whole : 0 ∉ p
  counted : p.length < 2 ^ 15

instance (p : Str) : Decidable (Fits p) := decidable_of_iff' _ (fits_iff p)

theorem reads_vread {p : List UInt8} : Reads (vread p.length) p p := by
  intro rest
  have room : p.length ≤ (p ++ rest).length := by simp
  rw [vread, if_pos room, List.take_left, List.drop_left]

theorem reads_str {p : Str} (fits : Fits p) : Reads getstr (putstr p) p := by
  have len : short p.length = p.length := short_eq (by omega) (by have := fits.counted; omega)
  have whole : p.takeWhile (· ≠ 0) = p := by
    refine List.takeWhile_eq_self_iff.mpr fun b listed => ?_
    simpa using ne_of_mem_of_not_mem listed fits.whole
  have counted : Reads readshort (putshort p.length) p.length :=
    reads_short (by omega) (by have := fits.counted; omega)
  simp only [putstr, len]
  refine counted.bind ?_
  split
  next empty =>
    rw [List.length_eq_zero_iff.mp (Int.natCast_eq_zero.mp empty)]
    exact reads_pure []
  next =>
    rw [Int.toNat_natCast, List.take_length]
    have got := (reads_vread (p := p)).pure (fun p => p.takeWhile (· ≠ 0))
    rw [whole] at got
    exact got

/-! ## What is read -/

theorem spends_short (e : Nat) : Spends readshort e fun _ => e + 2 := by
  have got : Spends getshort e fun n => if 0 ≤ n then e + 2 else e := by
    intro s n rest result
    simp only [getshort] at result
    split at result
    next b₀ b₁ s =>
      obtain ⟨-, rfl⟩ := Prod.mk.inj (Option.some.inj result)
      dsimp only
      split <;> simp only [List.length_cons] <;> omega
    next =>
      cases result
      exact Nat.le_add_right ..
  refine got.bind fun n => spends_check fun positive => spends_pure ?_
  rw [if_pos (of_decide_eq_true positive)]

theorem spends_long (e : Nat) : Spends readlong e fun _ => e + 4 := by
  have got : Spends getlong e fun n => if 0 ≤ n then e + 4 else e := by
    intro s n rest result
    simp only [getlong] at result
    split at result
    next b₀ b₁ b₂ b₃ s =>
      obtain ⟨-, rfl⟩ := Prod.mk.inj (Option.some.inj result)
      dsimp only
      split <;> simp only [List.length_cons] <;> omega
    next =>
      cases result
      exact Nat.le_add_right ..
  refine got.bind fun n => spends_check fun positive => spends_pure ?_
  rw [if_pos (of_decide_eq_true positive)]

theorem spends_str (e : Nat) : Spends getstr e fun p => e + (2 + p.length) := by
  refine (spends_short e).bind fun n => ?_
  split
  next => exact spends_pure (by simp)
  next =>
    have got : Spends (vread n.toNat) (e + 2) fun p => e + 2 + p.length := by
      intro s p rest result
      rw [vread] at result
      split at result
      next room =>
        cases result
        simp only [List.length_take, List.length_drop]
        omega
      next => cases result
    refine got.bind fun p => spends_pure ?_
    have part := (List.takeWhile_sublist (fun b : UInt8 => decide (b ≠ 0)) (l := p)).length_le
    omega

end Irix.Inst
