import Irix.Imglib.Rle

/-! # The loops of the run length encoder

`docompact` and `doexpand` with their pointers. What is compacted is the compacted row, and what is
expanded is the row again, up to the word behind the last one.
-/

namespace Irix.Imglib

/-- One or two bytes for a pixel, or for a word. -/
inductive Bpp where
  | one
  | two
  deriving DecidableEq

def Bpp.bits : Bpp → Nat
  | .one => 8
  | .two => 16

/-! ## Compacting -/

section

variable {w : Nat} (o : Nat) (row : List (BitVec w))

/-- What a pointer into the row points to. -/
def pixelAt (ptr : Nat) : BitVec w := row.getD ptr 0

/-- Up to three equal pixels that end at `iptr`. -/
def searchThree : Nat → Nat → Option Nat
  | 0, _ => none
  | fuel + 1, iptr =>
    if iptr < row.length ∧ (pixelAt row (iptr - 2) ≠ pixelAt row (iptr - 1) ∨
        pixelAt row (iptr - 1) ≠ pixelAt row iptr) then searchThree fuel (iptr + 1)
    else some iptr

/-- `while (todo--) *optr++ = *sptr++` -/
def copyPixels : Nat → Nat → List (BitVec o) → List (BitVec o)
  | 0, _, out => out
  | todo + 1, sptr, out => copyPixels todo (sptr + 1) (out ++ [(pixelAt row sptr).setWidth o])

def putStretch : Nat → Nat → Nat → List (BitVec o) → Option (List (BitVec o))
  | 0, _, _, _ => none
  | fuel + 1, sptr, count, out =>
    if count = 0 then some out
    else
      let todo := if count > 126 then 126 else count
      putStretch fuel (sptr + todo) (count - todo)
        (copyPixels o row todo sptr (out ++ [BitVec.ofNat o (0x80 ||| todo)]))

/-- Up to the end of a run of `cc`. -/
def searchEnd (cc : BitVec 16) : Nat → Nat → Option Nat
  | 0, _ => none
  | fuel + 1, iptr =>
    if iptr < row.length ∧ extends? cc (pixelAt row iptr) then searchEnd cc fuel (iptr + 1) else some iptr

def putRun (cc : BitVec 16) : Nat → Nat → List (BitVec o) → Option (List (BitVec o))
  | 0, _, _ => none
  | fuel + 1, count, out =>
    if count = 0 then some out
    else
      let todo := if count > 126 then 126 else count
      putRun cc fuel (count - todo) (out ++ [BitVec.ofNat o todo, cc.setWidth o])

/-- What is written to `rlebuf`, from a pointer into the row on. -/
def docompact : Nat → Nat → List (BitVec o) → Option (List (BitVec o))
  | 0, _, _ => none
  | fuel + 1, iptr, out =>
    if iptr < row.length then do
      let found ← searchThree row fuel (iptr + 2)
      let sptr := found - 2
      let out ← putStretch o row fuel iptr (sptr - iptr) out
      let cc := (pixelAt row sptr).setWidth 16
      let ended ← searchEnd row cc fuel (sptr + 1)
      let out ← putRun o cc fuel (ended - sptr) out
      docompact fuel ended out
    else some (out ++ [0])

end

/-! ## Expanding -/

section

variable {i : Nat} (o : Nat) (mem : Nat → BitVec i)

/-- `while (count--) *optr++ = *iptr++` -/
def copyWords : Nat → Nat → List (BitVec o) → List (BitVec o)
  | 0, _, out => out
  | count + 1, iptr, out => copyWords count (iptr + 1) (out ++ [(mem iptr).setWidth o])

/-- Where `iptr` is in the end, and what is written to `expbuf`. -/
def doexpand : Nat → Nat → List (BitVec o) → Option (Nat × List (BitVec o))
  | 0, _, _ => none
  | fuel + 1, iptr, out =>
    let pixel := (mem iptr).toNat
    let count := pixel &&& 0x7f
    if count = 0 then some (iptr + 1, out)
    else if pixel &&& 0x80 ≠ 0 then
      doexpand fuel (iptr + 1 + count) (copyWords o mem count (iptr + 1) out)
    else doexpand fuel (iptr + 2) (out ++ List.replicate count ((mem (iptr + 1)).setWidth o))

end

/-! ## What the loops do -/

section

variable {w o i : Nat} {row : List (BitVec w)} {fuel iptr sptr count : Nat} {out : List (BitVec o)}

theorem drop_pixel (inside : iptr < row.length) : row.drop iptr = pixelAt row iptr :: row.drop (iptr + 1) := by
  rw [List.drop_eq_getElem_cons inside, pixelAt, List.getD_eq_getElem?_getD, List.getElem?_eq_getElem inside,
    Option.getD_some]

theorem searchThree_eq (inside : sptr ≤ row.length) (enough : row.length < sptr + fuel) :
    searchThree row fuel (sptr + 2) = some (sptr + 2 + scan (row.drop sptr)) := by
  induction fuel generalizing sptr with
  | zero => omega
  | succ fuel ih =>
      rw [searchThree]
      by_cases room : sptr + 2 < row.length
      · have first := @drop_pixel w row sptr (by omega)
        have second := @drop_pixel w row (sptr + 1) (by omega)
        have third := @drop_pixel w row (sptr + 2) room
        have later := @ih (sptr + 1) (by omega) (by omega)
        rw [second, third] at later
        rw [first, second, third, scan]
        simp only [room, true_and, Nat.add_sub_cancel, show sptr + 2 - 1 = sptr + 1 by omega]
        split
        next other =>
          rw [show sptr + 2 + 1 = sptr + 1 + 2 by omega, later, show sptr + 1 + 2 = sptr + 2 + 1 by omega]
          congr 1
          omega
        next same => rfl
      · have few : (row.drop sptr).length ≤ 2 := by
          rw [List.length_drop]
          omega
        have none : scan (row.drop sptr) = 0 := by
          rw [scan]
          intro a b c rest eq
          rw [eq] at few
          simp at few
        rw [if_neg fun found => room found.1, none]

theorem copyPixels_eq (inside : sptr + count ≤ row.length) :
    copyPixels o row count sptr out = out ++ ((row.drop sptr).take count).map (BitVec.setWidth o) := by
  induction count generalizing sptr out with
  | zero => simp [copyPixels]
  | succ count ih =>
      have first := @drop_pixel w row sptr (by omega)
      rw [copyPixels, ih (by omega), first]
      simp

theorem putStretch_eq (inside : sptr + count ≤ row.length) (enough : count < fuel) :
    putStretch o row fuel sptr count out = some (out ++ literals o fuel ((row.drop sptr).take count)) := by
  induction fuel generalizing sptr count out with
  | zero => omega
  | succ fuel ih =>
      rw [putStretch]
      split
      next zero =>
        rw [zero, List.take_zero, literals]
        · simp
        · simp
      next some =>
        have todo : (if count > 126 then 126 else count) = min 126 count := by
          split <;> omega
        have length : ((row.drop sptr).take count).length = count := by
          rw [List.length_take, List.length_drop]
          omega
        obtain ⟨p, l, eq⟩ := List.exists_cons_of_length_pos (l := (row.drop sptr).take count) (by omega)
        have many : l.length + 1 = count := by rw [← length, eq, List.length_cons]
        simp only [todo]
        rw [ih (by omega) (by omega), copyPixels_eq (by omega), eq, literals, many, ← eq]
        have front : ((row.drop sptr).take count).take (min 126 count) =
            (row.drop sptr).take (min 126 count) := by
          rw [List.take_take, Nat.min_eq_left (Nat.min_le_right ..)]
        have rest : ((row.drop sptr).take count).drop (min 126 count) =
            (row.drop (sptr + min 126 count)).take (count - min 126 count) := by
          rw [List.drop_take, List.drop_drop]
        rw [front, rest]
        simp

theorem searchEnd_eq {cc : BitVec 16} (inside : iptr ≤ row.length) (enough : row.length < iptr + fuel) :
    searchEnd row cc fuel iptr =
      some (iptr + ((row.drop iptr).takeWhile (extends? cc)).length) := by
  induction fuel generalizing iptr with
  | zero => omega
  | succ fuel ih =>
      rw [searchEnd]
      by_cases room : iptr < row.length
      · rw [drop_pixel room]
        simp only [room, true_and]
        split
        next same =>
          rw [ih (by omega) (by omega), List.takeWhile_cons_of_pos same, List.length_cons]
          congr 1
          omega
        next other => rw [List.takeWhile_cons_of_neg other, List.length_nil, Nat.add_zero]
      · have empty : row.drop iptr = [] := List.drop_eq_nil_of_le (by omega)
        rw [if_neg fun found => room found.1, empty, List.takeWhile_nil, List.length_nil, Nat.add_zero]

theorem putRun_eq {cc : BitVec 16} (enough : count < fuel) :
    putRun o cc fuel count out = some (out ++ runs o cc fuel count) := by
  induction fuel generalizing count out with
  | zero => omega
  | succ fuel ih =>
      rw [putRun]
      split
      next zero =>
        rw [zero, runs]
        · simp
        · simp
      next some =>
        obtain ⟨n, rfl⟩ : ∃ n, count = n + 1 := ⟨count - 1, by omega⟩
        have todo : (if n + 1 > 126 then 126 else n + 1) = min 126 (n + 1) := by
          split <;> omega
        simp only [todo]
        rw [ih (by omega), runs]
        simp

theorem literals_fuel {l : List (BitVec w)} {fuel' : Nat} (enough : l.length ≤ fuel)
    (enough' : l.length ≤ fuel') : literals o fuel l = literals o fuel' l := by
  induction fuel generalizing l fuel' with
  | zero =>
      cases List.length_eq_zero_iff.mp (Nat.le_zero.mp enough)
      cases fuel' <;> simp [literals]
  | succ fuel ih =>
      cases l with
      | nil => cases fuel' <;> simp [literals]
      | cons p l =>
          rw [List.length_cons] at enough enough'
          obtain ⟨n, rfl⟩ : ∃ n, fuel' = n + 1 := ⟨fuel' - 1, by omega⟩
          have few : ((p :: l).drop (min 126 (l.length + 1))).length ≤ fuel ∧
              ((p :: l).drop (min 126 (l.length + 1))).length ≤ n := by
            rw [List.length_drop, List.length_cons]
            omega
          rw [literals, literals, ih few.1 few.2]

theorem runs_fuel {cc : BitVec 16} {fuel' : Nat} (enough : count ≤ fuel) (enough' : count ≤ fuel') :
    runs o cc fuel count = runs o cc fuel' count := by
  induction fuel generalizing count fuel' with
  | zero =>
      cases Nat.le_zero.mp enough
      cases fuel' <;> simp [runs]
  | succ fuel ih =>
      cases count with
      | zero => cases fuel' <;> simp [runs]
      | succ count =>
          obtain ⟨n, rfl⟩ : ∃ n, fuel' = n + 1 := ⟨fuel' - 1, by omega⟩
          rw [runs, runs, @ih (count + 1 - min 126 (count + 1)) n (by omega) (by omega)]

/-- The loop of `docompact` ends, and what it writes is the compacted row. -/
theorem docompact_eq {fuel' : Nat} (inside : iptr ≤ row.length) (enough : row.length + 1 < iptr + fuel)
    (enough' : row.length - iptr ≤ fuel') :
    docompact o row fuel iptr out = some (out ++ docompactFrom o fuel' (row.drop iptr) ++ [0]) := by
  induction fuel generalizing iptr out fuel' with
  | zero => omega
  | succ fuel ih =>
      rw [docompact]
      split
      next room =>
        obtain ⟨n, rfl⟩ : ∃ n, fuel' = n + 1 := ⟨fuel' - 1, by omega⟩
        have nonempty : row.drop iptr ≠ [] := by
          rw [drop_pixel room]
          simp
        have far := scan_lt nonempty
        rw [List.length_drop] at far
        have found := @searchThree_eq w row fuel iptr inside (by omega)
        generalize scanned : scan (row.drop iptr) = k at found far
        have start : iptr + 2 + k - 2 = iptr + k := by omega
        have here := @drop_pixel w row (iptr + k) (by omega)
        have ended := @searchEnd_eq w row fuel (iptr + k + 1) ((pixelAt row (iptr + k)).setWidth 16) (by omega)
          (by omega)
        have within : ((row.drop (iptr + k + 1)).takeWhile
            (extends? ((pixelAt row (iptr + k)).setWidth 16))).length ≤ row.length - (iptr + k + 1) := by
          have le := (List.takeWhile_prefix (extends? ((pixelAt row (iptr + k)).setWidth 16))
            (l := row.drop (iptr + k + 1))).length_le
          rwa [List.length_drop] at le
        rw [docompactFrom, scanned, List.drop_drop, here]
        simp only [found, Option.bind_eq_bind, Option.bind_some, start, ended]
        generalize ((row.drop (iptr + k + 1)).takeWhile
            (extends? ((pixelAt row (iptr + k)).setWidth 16))).length = m at within
        rw [putStretch_eq (by omega) (by omega), show iptr + k - iptr = k by omega]
        simp only [Option.bind_some]
        rw [putRun_eq (by omega), show iptr + k + 1 + m - (iptr + k) = m + 1 by omega]
        simp only [Option.bind_some]
        rw [@ih (iptr + k + 1 + m) _ n (by omega) (by omega) (by omega), List.drop_drop,
          @runs_fuel o fuel (m + 1) _ (m + 1) (by omega) (Nat.le_refl _),
          @literals_fuel w o fuel ((row.drop iptr).take k) (row.drop iptr).length]
        · simp
        · rw [List.length_take, List.length_drop]
          omega
        · exact List.length_take_le' ..
      next past =>
        have empty : row.drop iptr = [] := List.drop_eq_nil_of_le (by omega)
        have none : docompactFrom o fuel' ([] : List (BitVec w)) = [] := by
          cases fuel' <;> simp [docompactFrom]
        rw [empty, none, List.append_nil]

/-! ## Reading words -/

/-- The words are in memory from a pointer on. -/
def Reads (mem : Nat → BitVec i) : Nat → List (BitVec i) → Prop
  | _, [] => True
  | iptr, word :: words => mem iptr = word ∧ Reads mem (iptr + 1) words

variable {mem : Nat → BitVec i} {words : List (BitVec i)} {pixels : List (BitVec o)}

theorem reads_append {words' : List (BitVec i)} : Reads mem iptr (words ++ words') ↔
    Reads mem iptr words ∧ Reads mem (iptr + words.length) words' := by
  induction words generalizing iptr with
  | nil => simp [Reads]
  | cons word words ih =>
      rw [List.cons_append, Reads, Reads, ih, and_assoc, List.length_cons,
        show iptr + 1 + words.length = iptr + (words.length + 1) by omega]

theorem reads_getD (front : List (BitVec i)) (words : List (BitVec i)) (behind : Nat → BitVec i) :
    Reads (fun k => (front ++ words).getD k (behind k)) front.length words := by
  induction words generalizing front with
  | nil => trivial
  | cons word words ih =>
      have later := ih (front ++ [word])
      rw [List.append_assoc, List.length_append, List.length_singleton] at later
      exact ⟨by simp, later⟩

theorem copyWords_eq (reads : Reads mem iptr words) :
    copyWords o mem words.length iptr out = out ++ words.map (BitVec.setWidth o) := by
  induction words generalizing iptr out with
  | nil => simp [copyWords]
  | cons word words ih =>
      rw [List.length_cons, copyWords, ih reads.2, reads.1]
      simp

theorem and_count (n : Nat) : n &&& 0x7f = n % 128 := Nat.and_two_pow_sub_one_eq_mod n 7

theorem and_bit (n : Nat) : n &&& 0x80 ≠ 0 ↔ n / 128 % 2 = 1 := by
  rw [show n / 128 % 2 = 1 ↔ n.testBit 7 = true by rw [Nat.testBit_eq_decide_div_mod_eq]; simp]
  cases bit : n.testBit 7 with
  | true =>
      simp only [iff_true]
      intro zero
      have none := congrArg (Nat.testBit · 7) zero
      simp [Nat.testBit_and, bit] at none
      revert none
      decide
  | false =>
      simp only [Bool.false_eq_true, iff_false, not_not]
      apply Nat.eq_of_testBit_eq
      intro k
      rw [Nat.testBit_and, show (0x80 : Nat) = 2 ^ 7 by decide, Nat.testBit_two_pow, Nat.zero_testBit]
      by_cases same : 7 = k
      · rw [← same, bit, Bool.false_and]
      · simp [same]

/-- Tokens are expanded one after the other. -/
theorem Tokens.doexpand (tokens : Tokens o words pixels) (reads : Reads mem iptr words) (fuel : Nat) :
    ∃ fuel' ≥ fuel, Imglib.doexpand o mem (fuel + words.length) iptr out =
      Imglib.doexpand o mem fuel' (iptr + words.length) (out ++ pixels) := by
  induction tokens generalizing iptr out fuel with
  | nil => exact ⟨fuel, Nat.le_refl _, by simp⟩
  | @stretch words ws ps word count bit nonempty later ih =>
      obtain ⟨here, copied⟩ := reads
      obtain ⟨copied, rest⟩ := reads_append.mp copied
      have more : words.length ≠ 0 := fun zero => nonempty (List.length_eq_zero_iff.mp zero)
      have length : (word :: words ++ ws).length = words.length + ws.length + 1 := by
        rw [List.cons_append, List.length_cons, List.length_append]
      obtain ⟨fuel', enough, eq⟩ := @ih (iptr + 1 + words.length) (out ++ words.map (BitVec.setWidth o)) rest
        (fuel + words.length)
      refine ⟨fuel', Nat.le_trans (Nat.le_add_right ..) enough, ?_⟩
      rw [length, show fuel + (words.length + ws.length + 1) = fuel + words.length + ws.length + 1 by omega,
        Imglib.doexpand]
      simp only [here, and_count, count, if_neg more, if_pos ((and_bit _).mpr bit), copyWords_eq copied]
      rw [eq, List.append_assoc, show iptr + 1 + words.length + ws.length =
        iptr + (words.length + ws.length + 1) by omega]
  | @run ws ps word pixel nonzero bit later ih =>
      obtain ⟨here, pix, rest⟩ := reads
      have unset : ¬word.toNat &&& 0x80 ≠ 0 := by
        rw [and_bit, bit]
        decide
      obtain ⟨fuel', enough, eq⟩ := @ih (iptr + 1 + 1)
        (out ++ List.replicate (word.toNat % 128) (pixel.setWidth o)) rest (fuel + 1)
      refine ⟨fuel', Nat.le_trans (Nat.le_add_right ..) enough, ?_⟩
      rw [List.length_cons, List.length_cons, show fuel + (ws.length + 1 + 1) = fuel + 1 + ws.length + 1 by omega,
        Imglib.doexpand]
      simp only [here, and_count, if_neg nonzero, if_neg unset, pix]
      rw [eq, List.append_assoc, show iptr + 1 + 1 + ws.length = iptr + (ws.length + 1 + 1) by omega]

/-- A row is compacted, and what was written is expanded to the row again, as far as a word holds its
    pixels, and not read any further. -/
theorem compacted_expands (ibpp obpp ebpp : Bpp) (row : List (BitVec ibpp.bits)) :
    ∃ words, (∀ fuel > row.length + 1, docompact obpp.bits row fuel 0 [] = some words) ∧
      ∀ behind : Nat → BitVec obpp.bits, ∃ pixels,
        (∀ fuel > words.length, doexpand ebpp.bits (fun k => words.getD k (behind k)) fuel 0 [] =
          some (words.length, pixels)) ∧
        pixels.map BitVec.toNat = row.map fun p =>
          if ibpp = .two ∧ obpp = .two ∧ ebpp = .two then p.toNat else p.toNat % 256 := by
  have low : 8 ≤ obpp.bits := by cases obpp <;> decide
  have narrow : ibpp.bits ≤ 16 := by cases ibpp <;> decide
  have tokens := @tokens_docompactFrom ibpp.bits ebpp.bits obpp.bits row low narrow row.length (Nat.le_refl _)
  refine ⟨imgRleCompact obpp.bits row, fun fuel enough => ?_, fun behind =>
    ⟨row.map fun p => (p.setWidth obpp.bits).setWidth ebpp.bits, fun fuel enough => ?_, ?_⟩⟩
  · have ran := @docompact_eq ibpp.bits obpp.bits row fuel 0 [] row.length (Nat.zero_le _) (by omega) (by simp)
    rwa [List.drop_zero, List.nil_append] at ran
  · have reads := reads_getD [] (imgRleCompact obpp.bits row) behind
    rw [List.nil_append, List.length_nil] at reads
    generalize (fun k => (imgRleCompact obpp.bits row).getD k (behind k)) = mem at reads
    rw [imgRleCompact] at reads enough ⊢
    rw [List.length_append, List.length_singleton] at enough ⊢
    obtain ⟨reads, last, -⟩ := reads_append.mp reads
    rw [Nat.zero_add] at last
    obtain ⟨fuel', more, ran⟩ := @Tokens.doexpand _ _ 0 [] mem _ _ tokens reads
      (fuel - (docompactFrom obpp.bits row.length row).length)
    obtain ⟨n, rfl⟩ : ∃ n, fuel' = n + 1 := ⟨fuel' - 1, by omega⟩
    rw [Nat.sub_add_cancel (by omega), Imglib.doexpand] at ran
    simpa [last] using ran
  · rw [List.map_map]
    apply List.map_congr_left
    intro p _
    have small := p.isLt
    cases ibpp <;> cases obpp <;> cases ebpp <;>
      simp only [Function.comp, Bpp.bits, BitVec.toNat_setWidth] at small ⊢ <;> grind

end

end Irix.Imglib
