import Mathlib.Data.List.TakeWhile
import Mathlib.Tactic.Common

/-! # Run length encoding of a row

A row is cut into stretches of pixels copied as they are and runs of one pixel.
Each is announced by a word whose low seven bits count the pixels and whose next
bit tells a stretch from a run, and a zero word ends the row.
-/

namespace Irix.Imglib

/-- How far `iptr` is moved to the next three equal pixels, or to the last two. -/
def scan {w : Nat} : List (BitVec w) → Nat
  | a :: b :: c :: rest => if a ≠ b ∨ b ≠ c then scan (b :: c :: rest) + 1 else 0
  | _ => 0

/-- The pixels copied as they are, up to 126 at a time. -/
def literals {w : Nat} (o : Nat) : Nat → List (BitVec w) → List (BitVec o)
  | 0, _ => []
  | _, [] => []
  | fuel + 1, p :: l =>
    let todo := min 126 (l.length + 1)
    BitVec.ofNat o (0x80 ||| todo) :: ((p :: l).take todo).map (BitVec.setWidth o) ++
      literals o fuel ((p :: l).drop todo)

/-- A run of `count` pixels `cc`, up to 126 at a time. -/
def runs (o : Nat) (cc : BitVec 16) : Nat → Nat → List (BitVec o)
  | 0, _ => []
  | _, 0 => []
  | fuel + 1, count + 1 =>
    let todo := min 126 (count + 1)
    BitVec.ofNat o todo :: cc.setWidth o :: runs o cc fuel (count + 1 - todo)

/-- The pixel is compared with the short `cc` as integers: one with the high bit set
    never extends a run. -/
def extends? {w : Nat} (cc : BitVec 16) (p : BitVec w) : Bool := decide ((p.toNat : Int) = cc.toInt)

def docompactFrom {w : Nat} (o : Nat) : Nat → List (BitVec w) → List (BitVec o)
  | 0, _ => []
  | fuel + 1, l =>
    match l.drop (scan l) with
    | [] => []
    | c :: rest =>
      let cc := c.setWidth 16
      let more := (rest.takeWhile (extends? cc)).length
      literals o l.length (l.take (scan l)) ++ runs o cc (more + 1) (more + 1) ++
        docompactFrom o fuel (rest.drop more)

/-- `img_rle_compact`, from pixels of `w` bits to words of `o` bits. -/
def imgRleCompact {w : Nat} (o : Nat) (row : List (BitVec w)) : List (BitVec o) :=
  docompactFrom o row.length row ++ [0]

/-- The pixels the words stand for, unless the zero word is missing. -/
def doexpandFrom {i : Nat} (o : Nat) : Nat → List (BitVec i) → Option (List (BitVec o))
  | 0, _ => none
  | _, [] => none
  | fuel + 1, word :: rest =>
    let count := word.toNat % 128
    if count = 0 then some []
    else if word.toNat / 128 % 2 = 1 then
      if count ≤ rest.length then do
        let later ← doexpandFrom o fuel (rest.drop count)
        some ((rest.take count).map (BitVec.setWidth o) ++ later)
      else none
    else match rest with
      | [] => none
      | pixel :: rest => do
        let later ← doexpandFrom o fuel rest
        some (List.replicate count (pixel.setWidth o) ++ later)

/-- `img_rle_expand`, from words of `i` bits to pixels of `o` bits. -/
def imgRleExpand {i : Nat} (o : Nat) (words : List (BitVec i)) : Option (List (BitVec o)) :=
  doexpandFrom o (words.length + 1) words

/-! ## Expanding what was compacted -/

section

variable {w o i : Nat} {l : List (BitVec w)}

/-- The words are stretches and runs, which stand for the pixels. -/
inductive Tokens (o : Nat) : List (BitVec i) → List (BitVec o) → Prop where
  | nil : Tokens o [] []
  | stretch {words : List (BitVec i)} {ws : List (BitVec i)} {ps : List (BitVec o)} (word : BitVec i)
      (count : word.toNat % 128 = words.length) (bit : word.toNat / 128 % 2 = 1) (nonempty : words ≠ [])
      (later : Tokens o ws ps) :
      Tokens o (word :: words ++ ws) (words.map (BitVec.setWidth o) ++ ps)
  | run {ws : List (BitVec i)} {ps : List (BitVec o)} (word pixel : BitVec i) (nonzero : word.toNat % 128 ≠ 0)
      (bit : word.toNat / 128 % 2 = 0) (later : Tokens o ws ps) :
      Tokens o (word :: pixel :: ws) (List.replicate (word.toNat % 128) (pixel.setWidth o) ++ ps)

/-- In front of any words that expand, these words expand to the pixels first. -/
def Expands (o : Nat) (words : List (BitVec i)) (pixels : List (BitVec o)) : Prop :=
  ∀ fuel tail later, doexpandFrom o fuel tail = some later →
    doexpandFrom o (fuel + words.length) (words ++ tail) = some (pixels ++ later)

theorem Tokens.append {words words' : List (BitVec i)} {pixels pixels' : List (BitVec o)}
    (first : Tokens o words pixels) (second : Tokens o words' pixels') :
    Tokens o (words ++ words') (pixels ++ pixels') := by
  induction first with
  | nil => exact second
  | stretch word count bit nonempty later ih =>
    rw [List.append_assoc, List.append_assoc]
    exact .stretch word count bit nonempty ih
  | run word pixel nonzero bit later ih =>
    rw [List.append_assoc]
    exact .run word pixel nonzero bit ih

/-- More fuel does not change the pixels. -/
theorem doexpandFrom_mono {fuel more : Nat} {words : List (BitVec i)} {pixels : List (BitVec o)}
    (eq : doexpandFrom o fuel words = some pixels) (le : fuel ≤ more) :
    doexpandFrom o more words = some pixels := by
  induction fuel generalizing words pixels more with
  | zero => cases eq
  | succ fuel ih =>
    obtain ⟨more, rfl⟩ : ∃ n, more = n + 1 := ⟨more - 1, by omega⟩
    cases words with
    | nil => cases eq
    | cons word rest =>
      simp only [doexpandFrom] at eq ⊢
      split at eq
      next zero => rwa [if_pos zero]
      next some =>
        rw [if_neg some]
        split at eq
        next copied =>
          rw [if_pos copied]
          split at eq
          next enough =>
            rw [if_pos enough]
            obtain ⟨later, eq', same⟩ := Option.bind_eq_some_iff.mp eq
            simp only [ih eq' (Nat.le_of_succ_le_succ le), Option.bind_eq_bind, Option.bind_some]
            exact same
          next => cases eq
        next run =>
          rw [if_neg run]
          cases rest with
          | nil => cases eq
          | cons pixel rest =>
            obtain ⟨later, eq', same⟩ := Option.bind_eq_some_iff.mp eq
            simp only [ih eq' (Nat.le_of_succ_le_succ le), Option.bind_eq_bind, Option.bind_some]
            exact same

theorem count_word {n : Nat} (low : 8 ≤ i) (few : n < 128) :
    (BitVec.ofNat i n).toNat % 128 = n ∧ (BitVec.ofNat i n).toNat / 128 % 2 = 0 := by
  have room : 2 ^ 8 ≤ 2 ^ i := Nat.pow_le_pow_right (by decide) low
  have below : n < 2 ^ i := by omega
  rw [BitVec.toNat_ofNat, Nat.mod_eq_of_lt below]
  omega

theorem stretch_word {n : Nat} (low : 8 ≤ i) (few : n < 128) :
    (BitVec.ofNat i (0x80 ||| n)).toNat % 128 = n ∧
      (BitVec.ofNat i (0x80 ||| n)).toNat / 128 % 2 = 1 := by
  have join : ∀ n < 128, 0x80 ||| n = 128 + n := by decide
  have room : 2 ^ 8 ≤ 2 ^ i := Nat.pow_le_pow_right (by decide) low
  have below : 128 + n < 2 ^ i := by omega
  rw [join n few, BitVec.toNat_ofNat, Nat.mod_eq_of_lt below]
  omega

theorem Tokens.expands {words : List (BitVec i)} {pixels : List (BitVec o)} (tokens : Tokens o words pixels) :
    Expands o words pixels := by
  induction tokens with
  | nil => exact fun _ _ _ eq => eq
  | @stretch words ws ps word count bit nonempty later ih =>
    intro fuel tail last eq
    have more : words.length ≠ 0 := fun zero => nonempty (List.length_eq_zero_iff.mp zero)
    have enough : words.length ≤ (words ++ (ws ++ tail)).length := by simp
    have rest := doexpandFrom_mono (ih fuel tail last eq)
      (show fuel + ws.length ≤ fuel + (words ++ ws).length by simp)
    show doexpandFrom o (fuel + (words ++ ws).length + 1) (word :: (words ++ ws ++ tail)) = _
    rw [List.append_assoc, List.append_assoc]
    simp only [doexpandFrom, count, bit, if_neg more, if_pos enough, if_true, List.drop_left, List.take_left,
      rest]
    rfl
  | @run ws ps word pixel nonzero bit later ih =>
    intro fuel tail last eq
    have rest := doexpandFrom_mono (ih fuel tail last eq) (Nat.le_succ _)
    show doexpandFrom o (fuel + ws.length + 1 + 1) (word :: pixel :: (ws ++ tail)) = _
    rw [List.append_assoc]
    simp only [doexpandFrom, bit, if_neg nonzero, Nat.zero_ne_one, if_false, rest]
    rfl

theorem tokens_literals (low : 8 ≤ i) {fuel : Nat} (enough : l.length ≤ fuel) :
    Tokens o (literals i fuel l) (l.map fun p => (p.setWidth i).setWidth o) := by
  induction fuel generalizing l with
  | zero =>
    cases List.length_eq_zero_iff.mp (Nat.le_zero.mp enough)
    exact .nil
  | succ fuel ih =>
    cases l with
    | nil => exact .nil
    | cons p l =>
      let todo := min 126 (l.length + 1)
      have length : (((p :: l).take todo).map (BitVec.setWidth i)).length = todo := by
        simp only [List.length_map, List.length_take, List.length_cons]
        omega
      have later : Tokens o (literals i fuel ((p :: l).drop todo)) _ := ih (by
        simp only [List.length_drop, List.length_cons] at enough ⊢
        omega)
      obtain ⟨count, bit⟩ := @stretch_word i todo low (by omega)
      have whole := Tokens.stretch _ (count.trans length.symm) bit (List.ne_nil_of_length_pos (by omega)) later
      rw [List.map_map] at whole
      rw [literals]
      have join : (p :: l).map (fun p => (p.setWidth i).setWidth o) =
          ((p :: l).take todo).map (BitVec.setWidth o ∘ BitVec.setWidth i) ++
            ((p :: l).drop todo).map (fun p => (p.setWidth i).setWidth o) := by
        rw [← List.take_append_drop todo (p :: l), List.map_append, List.take_append_drop]
        rfl
      rw [join]
      exact whole

theorem tokens_runs (low : 8 ≤ i) (cc : BitVec 16) {fuel count : Nat} (enough : count ≤ fuel) :
    Tokens o (runs i cc fuel count) (List.replicate count ((cc.setWidth i).setWidth o)) := by
  induction fuel generalizing count with
  | zero =>
    cases Nat.le_zero.mp enough
    exact .nil
  | succ fuel ih =>
    cases count with
    | zero => exact .nil
    | succ count =>
      let todo := min 126 (count + 1)
      have later := @ih (count + 1 - todo) (by omega)
      obtain ⟨word, bit⟩ := @count_word i todo low (by omega)
      have whole := Tokens.run _ (cc.setWidth i) (by omega) bit later
      rw [word, List.replicate_append_replicate, Nat.add_sub_cancel' (Nat.min_le_right ..)] at whole
      exact whole

/-- A pixel that extends the run is the pixel of the run. -/
theorem eq_of_extends {c p : BitVec w} (narrow : w ≤ 16)
    (same : extends? (c.setWidth 16) p = true) : p = c := by
  have eq := of_decide_eq_true same
  have room : 2 ^ w ≤ 2 ^ 16 := Nat.pow_le_pow_right (by decide) narrow
  have below := c.isLt
  have toNat : (c.setWidth 16).toNat = c.toNat := by
    rw [BitVec.toNat_setWidth, Nat.mod_eq_of_lt (by omega)]
  apply BitVec.eq_of_toNat_eq
  rw [BitVec.toInt_eq_toNat_cond, toNat] at eq
  split at eq
  all_goals omega

theorem scan_lt (nonempty : l ≠ []) : scan l < l.length := by
  induction l using scan.induct with
  | case1 a b c rest other ih =>
    have rest := ih (by simp)
    rw [scan, if_pos other]
    simp only [List.length_cons] at rest ⊢
    omega
  | case2 a b c rest same =>
    rw [scan, if_neg same]
    simp
  | case3 l short =>
    have pos := List.length_pos_iff.mpr nonempty
    rw [scan]
    · exact pos
    · exact short

/-- The row in front of the zero word. -/
theorem tokens_docompactFrom (low : 8 ≤ i) (narrow : w ≤ 16) {fuel : Nat}
    (enough : l.length ≤ fuel) :
    Tokens o (docompactFrom i fuel l) (l.map fun p => (p.setWidth i).setWidth o) := by
  induction fuel generalizing l with
  | zero =>
    cases List.length_eq_zero_iff.mp (Nat.le_zero.mp enough)
    exact .nil
  | succ fuel ih =>
    rw [docompactFrom]
    split
    next empty =>
      have whole : l = [] := by
        by_contra nonempty
        have lt := scan_lt nonempty
        have length := congrArg List.length empty
        rw [List.length_drop, List.length_nil] at length
        omega
      rw [whole]
      exact .nil
    next c rest eq =>
      let cc : BitVec 16 := c.setWidth 16
      let more := (rest.takeWhile (extends? cc)).length
      have shrinks : (rest.drop more).length ≤ fuel := by
        have length := congrArg List.length eq
        simp only [List.length_drop, List.length_cons] at length ⊢
        omega
      have first := @tokens_literals w o i (l.take (scan l)) low l.length (List.length_take_le' ..)
      have second := @tokens_runs o i low cc (more + 1) (more + 1) (Nat.le_refl _)
      have third := @ih (rest.drop more) shrinks
      have whole := (first.append second).append third
      have taken : rest.take more = rest.takeWhile (extends? cc) :=
        (List.prefix_iff_eq_take.mp (List.takeWhile_prefix _)).symm
      -- the run is the pixel `c` over and over
      have run : List.replicate (more + 1) ((cc.setWidth i).setWidth o) =
          (c :: rest.take more).map fun p => (p.setWidth i).setWidth o := by
        have same : ∀ p ∈ rest.takeWhile (extends? cc), p = c := fun p listed =>
          eq_of_extends narrow (List.mem_takeWhile_imp listed)
        have all : rest.takeWhile (extends? cc) = List.replicate more c :=
          List.eq_replicate_iff.mpr ⟨rfl, same⟩
        have width : cc.setWidth i = c.setWidth i := by
          apply BitVec.eq_of_toNat_eq
          have room : 2 ^ w ≤ 2 ^ 16 := Nat.pow_le_pow_right (by decide) narrow
          have below := c.isLt
          rw [BitVec.toNat_setWidth, BitVec.toNat_setWidth, BitVec.toNat_setWidth,
            Nat.mod_eq_of_lt (b := 2 ^ 16) (by omega)]
        rw [taken, all, ← List.replicate_succ, List.map_replicate, width]
      have join : l = l.take (scan l) ++ ((c :: rest.take more) ++ rest.drop more) := by
        rw [List.cons_append, List.take_append_drop, ← eq, List.take_append_drop]
      rw [run] at whole
      have pixels := congrArg (List.map fun p => (p.setWidth i).setWidth o) join
      rw [List.map_append, List.map_append, ← List.append_assoc] at pixels
      rw [pixels]
      exact whole

/-- Expanding a compacted row gives its pixels, as far as a word holds them. -/
theorem imgRleExpand_compact (low : 8 ≤ i) (narrow : w ≤ 16) (row : List (BitVec w)) :
    imgRleExpand o (imgRleCompact i row) =
      some (row.map fun p => (p.setWidth i).setWidth o) := by
  have last : doexpandFrom o 1 ([0] : List (BitVec i)) = some [] := by
    simp [doexpandFrom]
  have whole := (tokens_docompactFrom low narrow (Nat.le_refl row.length)).expands 1 [0] [] last
  rw [List.append_nil] at whole
  refine doexpandFrom_mono whole ?_
  rw [imgRleCompact, List.length_append, List.length_singleton]
  omega

/-! ## The length of a compacted row -/

theorem literals_length_le {fuel : Nat} : (literals i fuel l).length ≤ 2 * l.length := by
  induction fuel generalizing l with
  | zero => exact Nat.zero_le _
  | succ fuel ih =>
    cases l with
    | nil => exact Nat.zero_le _
    | cons p l =>
      have later := @ih ((p :: l).drop (min 126 (l.length + 1)))
      rw [literals]
      simp only [List.length_append, List.length_cons, List.length_map, List.length_take,
        List.length_drop] at later ⊢
      omega

theorem runs_length_le {cc : BitVec 16} {fuel count : Nat} :
    (runs i cc fuel count).length ≤ 2 * count := by
  induction fuel generalizing count with
  | zero => exact Nat.zero_le _
  | succ fuel ih =>
    cases count with
    | zero => exact Nat.zero_le _
    | succ count =>
      have later := @ih (count + 1 - min 126 (count + 1))
      rw [runs]
      simp only [List.length_cons] at later ⊢
      omega

theorem docompactFrom_length_le {fuel : Nat} : (docompactFrom i fuel l).length ≤ 2 * l.length := by
  induction fuel generalizing l with
  | zero => exact Nat.zero_le _
  | succ fuel ih =>
    rw [docompactFrom]
    split
    next => exact Nat.zero_le _
    next c rest eq =>
      have length := congrArg List.length eq
      have first := @literals_length_le w i (l.take (scan l)) l.length
      have few : (rest.takeWhile (extends? (c.setWidth 16))).length ≤ rest.length :=
        (List.takeWhile_prefix _).length_le
      have second := @runs_length_le i (c.setWidth 16)
        ((rest.takeWhile (extends? (c.setWidth 16))).length + 1)
        ((rest.takeWhile (extends? (c.setWidth 16))).length + 1)
      have third := @ih (rest.drop (rest.takeWhile (extends? (c.setWidth 16))).length)
      simp only [List.length_append, List.length_take, List.length_drop, List.length_cons]
        at length first third ⊢
      omega

/-- The worst row: every pixel is a run of its own. -/
theorem imgRleCompact_length_le (row : List (BitVec w)) :
    (imgRleCompact i row).length ≤ 2 * row.length + 1 := by
  rw [imgRleCompact, List.length_append, List.length_singleton]
  exact Nat.succ_le_succ docompactFrom_length_le

end

example : imgRleCompact 8 [5, 5, 5, 5, 0x8001#16, 0x8001] =
    [0x04, 5, 0x01, 1, 0x01, 1, 0] := by decide

end Irix.Imglib
