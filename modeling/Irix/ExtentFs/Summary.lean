import Irix.ExtentFs.Types

/-! # The bit map routines and the summary of a cylinder group

`efs_builddsum` scans the data area of a group and records its first free runs
in the group's summary.  Its specification says what the allocator relies on:
the summary's window lists disjoint free runs, and with `dontstop` the free
count is exact.
-/

namespace Irix.ExtentFs

open Lib

/-! ## efs_bit.c -/

def bset (bp : Bits.Map) (b : Nat) : Bits.Map := fun i => if i = b then true else bp i

def bclr (bp : Bits.Map) (b : Nat) : Bits.Map := fun i => if i = b then false else bp i

/-- set a bit field of length len in bitmap bp starting at b -/
def bfset : Bits.Map → Nat → Nat → Bits.Map
  | bp, _, 0 => bp
  | bp, b, len + 1 => bfset (bset bp b) (b + 1) len

/-- clear a bit field of length len in bitmap bp starting at b -/
def bfclr : Bits.Map → Nat → Nat → Bits.Map
  | bp, _, 0 => bp
  | bp, b, len + 1 => bfclr (bclr bp b) (b + 1) len

/-- the number of set bits found from b on, at most len -/
def bftstset (bp : Bits.Map) : Nat → Nat → Nat
  | _, 0 => 0
  | b, len + 1 => if bp b then bftstset bp (b + 1) len + 1 else 0

/-- the number of clear bits found from b on, at most len -/
def bftstclr (bp : Bits.Map) : Nat → Nat → Nat
  | _, 0 => 0
  | b, len + 1 => if bp b then 0 else bftstclr bp (b + 1) len + 1

theorem bfset_eq (bp : Bits.Map) (b len : Nat) : bfset bp b len = Bits.fill true bp b len := by
  induction len generalizing bp b with
  | zero => exact Bits.fill_zero.symm
  | succ len ih =>
      funext i
      rw [bfset, ih]
      simp only [Bits.fill, bset]
      grind

theorem bfclr_eq (bp : Bits.Map) (b len : Nat) : bfclr bp b len = Bits.fill false bp b len := by
  induction len generalizing bp b with
  | zero => exact Bits.fill_zero.symm
  | succ len ih =>
      funext i
      rw [bfclr, ih]
      simp only [Bits.fill, bclr]
      grind

theorem bftstset_eq (bp : Bits.Map) (b len : Nat) : bftstset bp b len = Bits.run true bp b len := by
  induction len generalizing b with
  | zero => rfl
  | succ len ih => simp only [bftstset, Bits.run, ih]

theorem bftstclr_eq (bp : Bits.Map) (b len : Nat) : bftstclr bp b len = Bits.run false bp b len := by
  induction len generalizing b with
  | zero => rfl
  | succ len ih =>
      simp only [bftstclr, Bits.run, ih]
      cases bp b <;> rfl

/-! ## efs_builddsum -/

/-- What the scan has filled in so far: the summary slots, how many of them,
    and the free blocks counted. -/
structure Dsum where
  dsum : Nat → Cgdmap
  lastd : Nat
  dfree : Nat

def Dsum.push (acc : Dsum) (bn length : Nat) : Dsum :=
  { acc with
    dsum := fun j => if j = acc.lastd then ⟨bn, short length⟩ else acc.dsum j
    lastd := acc.lastd + 1 }

/-- The loop of `efs_builddsum`.  `curbn` of the source always equals
    `firstbit`; two units of fuel a block cover the iterations that only turn
    `lookfor` around. -/
def builddsumLoop (dmap : Bits.Map) (minimumsize : Nat) (dontstop : Bool) :
    (fuel : Nat) → (lookfor : Bool) → (firstbit bitlen : Nat) → Dsum → Dsum
  | 0, _, _, _, acc => acc
  | fuel + 1, lookfor, firstbit, bitlen, acc =>
      if bitlen = 0 then acc
      else
        let length := bftstset dmap firstbit bitlen
        if lookfor && length ≠ 0 then
          let acc := { acc with dfree := acc.dfree + length }
          if minimumsize ≤ length && acc.lastd < cgDsums then
            let acc := acc.push firstbit length
            if !dontstop && cgDsums ≤ acc.lastd then acc
            else builddsumLoop dmap minimumsize dontstop fuel false
              (firstbit + length) (bitlen - length) acc
          else builddsumLoop dmap minimumsize dontstop fuel false
            (firstbit + length) (bitlen - length) acc
        else
          -- findzeros
          let length := bftstclr dmap firstbit bitlen
          builddsumLoop dmap minimumsize dontstop fuel true
            (firstbit + length) (bitlen - length) acc

/-- scan the data bitmap, counting free blocks within the cg, and construct
    data allocation summary information in cg_dsum -/
def efsBuilddsum (fs : Efs) (cg : Cg) (minimumsize : Nat) (dontstop : Bool) : Cg :=
  if fs.fsCorrupted || fs.fsReadonly then cg
  else
    let firstbit := cg.cgFirstdbn
    let bitlen := cg.cgFirstbn + fs.fsCgfsize - firstbit
    let minimumsize := if minimumsize = 0 then 1 else minimumsize
    let acc := builddsumLoop fs.fsDmap minimumsize dontstop (2 * bitlen + 1) true firstbit bitlen
      ⟨cg.cgDsum, 0, 0⟩
    { cg with
      cgFirstdfree := cg.cgFirstdbn
      cgNextd := 0
      cgLastd := acc.lastd
      cgDsum := acc.dsum
      cgDfree := if dontstop then short acc.dfree else cg.cgDfree }

/-- Slots `[nextd, lastd)` of a summary list free runs of `[lo, hi)`, in order
    and disjoint.  A slot may have been used up, and the length of a run that
    does not fit the slot overflows: it may be anything less. -/
structure Window (dmap : Bits.Map) (lo hi : Nat) (dsum : Nat → Cgdmap) (nextd lastd : Nat) :
    Prop where
  low : ∀ j, nextd ≤ j → j < lastd → lo ≤ (dsum j).dBn
  small : ∀ j, nextd ≤ j → j < lastd → (dsum j).dLength < 32768
  high : ∀ j, nextd ≤ j → j < lastd → ((dsum j).dBn : Int) + (dsum j).dLength ≤ hi
  free : ∀ j, nextd ≤ j → j < lastd → ∀ b, (dsum j).dBn ≤ b →
    (b : Int) < (dsum j).dBn + (dsum j).dLength → dmap b = true
  order : ∀ j k, nextd ≤ j → j < k → k < lastd →
    ((dsum j).dBn : Int) + (dsum j).dLength ≤ (dsum k).dBn

namespace Window

variable {dmap : Bits.Map} {lo hi : Nat} {dsum : Nat → Cgdmap} {nextd lastd : Nat}

theorem empty (none : lastd ≤ nextd) : Window dmap lo hi dsum nextd lastd where
  low := fun j _ _ => by omega
  small := fun j _ _ => by omega
  high := fun j _ _ => by omega
  free := fun j _ _ => by omega
  order := fun j k _ _ _ => by omega

theorem later (window : Window dmap lo hi dsum nextd lastd) {next : Nat} (le : nextd ≤ next) :
    Window dmap lo hi dsum next lastd where
  low := fun j left right => window.low j (by omega) right
  small := fun j left right => window.small j (by omega) right
  high := fun j left right => window.high j (by omega) right
  free := fun j left right => window.free j (by omega) right
  order := fun j k left middle right => window.order j k (by omega) middle right

theorem wider (window : Window dmap lo hi dsum nextd lastd) {top : Nat} (le : hi ≤ top) :
    Window dmap lo top dsum nextd lastd :=
  { window with high := fun j left right => by have := window.high j left right; omega }

end Window

/-- No free run of `[lo, hi)` is too long for the `short` of a slot. -/
def ShortRuns (dmap : Bits.Map) (lo hi : Nat) : Prop :=
  ∀ b n, lo ≤ b → b + n ≤ hi → (∀ i < n, dmap (b + i) = true) → n < 32768

theorem ShortRuns.of_short {dmap : Bits.Map} {lo len : Nat} (few : len < 32768) :
    ShortRuns dmap lo (lo + len) :=
  fun b n low high _ => by omega

section Loop

variable {dmap : Bits.Map} {minimumsize : Nat} {dontstop : Bool} {lo hi top : Nat}

/-- Recording a free run behind the window keeps the window. -/
theorem Dsum.push_window {acc : Dsum} {bn length : Nat}
    (window : Window dmap lo bn acc.dsum 0 acc.lastd) (low : lo ≤ bn)
    (free : ∀ i < length, dmap (bn + i) = true) :
    Window dmap lo (bn + length) (acc.push bn length).dsum 0 (acc.push bn length).lastd := by
  have less := short_le length
  have new : (acc.push bn length).dsum acc.lastd = ⟨bn, short length⟩ := by
    simp only [Dsum.push, if_true]
  have old : ∀ j, j < acc.lastd → (acc.push bn length).dsum j = acc.dsum j := fun j inside => by
    simp only [Dsum.push, Nat.ne_of_lt inside, if_false]
  have last : (acc.push bn length).lastd = acc.lastd + 1 := rfl
  refine
    { low := fun j left right => ?_
      small := fun j left right => ?_
      high := fun j left right => ?_
      free := fun j left right => ?_
      order := fun j k left middle right => ?_ }
  all_goals rw [last] at right
  · rcases Nat.lt_succ_iff_lt_or_eq.mp right with inside | rfl
    · rw [old j inside]
      exact window.low j left inside
    · rw [new]
      exact low
  · rcases Nat.lt_succ_iff_lt_or_eq.mp right with inside | rfl
    · rw [old j inside]
      exact window.small j left inside
    · rw [new]
      dsimp only
      exact short_lt length
  · rcases Nat.lt_succ_iff_lt_or_eq.mp right with inside | rfl
    · rw [old j inside]
      have := window.high j left inside
      omega
    · rw [new]
      dsimp only
      omega
  · rcases Nat.lt_succ_iff_lt_or_eq.mp right with inside | rfl
    · rw [old j inside]
      exact window.free j left inside
    · rw [new]
      intro b start stop
      obtain ⟨i, rfl⟩ := Nat.exists_eq_add_of_le start
      exact free i (by push_cast at stop; omega)
  · have before : j < acc.lastd := by omega
    rw [old j before]
    rcases Nat.lt_succ_iff_lt_or_eq.mp right with inside | rfl
    · rw [old k inside]
      exact window.order j k left middle inside
    · rw [new]
      exact window.high j left before

/-- What every iteration keeps: the window of the runs recorded so far, the
    number of slots, and, where the runs of the whole area fit the slots, that
    no recorded run is shorter than the minimum. -/
structure LoopOk (dmap : Bits.Map) (minimumsize lo top hi : Nat) (acc : Dsum) : Prop where
  window : Window dmap lo hi acc.dsum 0 acc.lastd
  slots : acc.lastd ≤ cgDsums
  minimum : ShortRuns dmap lo top → ∀ j < acc.lastd, (minimumsize : Int) ≤ (acc.dsum j).dLength

theorem LoopOk.wider {acc : Dsum} (ok : LoopOk dmap minimumsize lo top hi acc) {hi' : Nat}
    (le : hi ≤ hi') : LoopOk dmap minimumsize lo top hi' acc :=
  { ok with window := ok.window.wider le }

theorem LoopOk.push {acc : Dsum} {bn length : Nat} (ok : LoopOk dmap minimumsize lo top bn acc)
    (low : lo ≤ bn) (high : bn + length ≤ top) (free : ∀ i < length, dmap (bn + i) = true)
    (enough : minimumsize ≤ length) (room : acc.lastd < cgDsums) :
    LoopOk dmap minimumsize lo top (bn + length) (acc.push bn length) where
  window := Dsum.push_window ok.window low free
  slots := room
  minimum := fun short j inside => by
    have few := short bn length low high free
    simp only [Dsum.push] at inside ⊢
    split
    · rw [short_fits (by omega) (by omega)]
      exact Int.ofNat_le.mpr enough
    · exact ok.minimum short j (by omega)

theorem builddsumLoop_ok (fuel : Nat) (lookfor : Bool) {firstbit bitlen : Nat} {acc : Dsum}
    (low : lo ≤ firstbit) (high : firstbit + bitlen ≤ top)
    (ok : LoopOk dmap minimumsize lo top firstbit acc) :
    LoopOk dmap minimumsize lo top (firstbit + bitlen)
      (builddsumLoop dmap minimumsize dontstop fuel lookfor firstbit bitlen acc) := by
  induction fuel generalizing lookfor firstbit bitlen acc with
  | zero => exact ok.wider (Nat.le_add_right _ _)
  | succ fuel ih =>
      rw [builddsumLoop]
      dsimp only
      split
      · exact ok.wider (Nat.le_add_right _ _)
      have setLe : bftstset dmap firstbit bitlen ≤ bitlen := by
        rw [bftstset_eq]
        exact Bits.run_le
      have clrLe : bftstclr dmap firstbit bitlen ≤ bitlen := by
        rw [bftstclr_eq]
        exact Bits.run_le
      have free : ∀ i < bftstset dmap firstbit bitlen, dmap (firstbit + i) = true := by
        rw [bftstset_eq]
        exact fun i => Bits.run_value
      -- the rest of the area after `length` blocks of either kind
      have rest : ∀ (flag : Bool) (length : Nat) (next : Dsum), length ≤ bitlen →
          LoopOk dmap minimumsize lo top (firstbit + length) next →
          LoopOk dmap minimumsize lo top (firstbit + bitlen)
            (builddsumLoop dmap minimumsize dontstop fuel flag (firstbit + length)
              (bitlen - length) next) := by
        intro flag length next le nextOk
        have inside : firstbit + length + (bitlen - length) ≤ top := by omega
        have tail := ih flag (by omega) inside nextOk
        rwa [show firstbit + length + (bitlen - length) = firstbit + bitlen by omega] at tail
      split
      · split
        next record =>
          simp only [Bool.and_eq_true, decide_eq_true_eq] at record
          have counted : LoopOk dmap minimumsize lo top firstbit
              { acc with dfree := acc.dfree + bftstset dmap firstbit bitlen } :=
            ⟨ok.window, ok.slots, ok.minimum⟩
          have pushed := counted.push low (by omega) free record.1 record.2
          split
          · exact pushed.wider (by omega)
          · exact rest false _ _ setLe pushed
        next =>
          exact rest false _ _ setLe
            ⟨ok.window.wider (Nat.le_add_right _ _), ok.slots, ok.minimum⟩
      · exact rest true _ _ clrLe (ok.wider (Nat.le_add_right _ _))

/-- Free blocks are counted to the end of the area unless the scan may stop at
    a full summary. -/
theorem builddsumLoop_dfree {fuel : Nat} {lookfor : Bool} {firstbit bitlen : Nat} {acc : Dsum}
    (enough : 2 * bitlen + (if lookfor then 0 else 1) ≤ fuel) :
    (builddsumLoop dmap minimumsize true fuel lookfor firstbit bitlen acc).dfree =
      acc.dfree + Bits.count dmap firstbit bitlen := by
  induction fuel generalizing lookfor firstbit bitlen acc with
  | zero =>
      have : bitlen = 0 := by omega
      subst this
      rfl
  | succ fuel ih =>
      rw [builddsumLoop]
      dsimp only
      rcases Nat.eq_zero_or_pos bitlen with rfl | room
      · rfl
      rw [if_neg (by omega)]
      have whole : ∀ n ≤ bitlen, Bits.count dmap firstbit bitlen =
          Bits.count dmap firstbit n + Bits.count dmap (firstbit + n) (bitlen - n) := by
        intro n le
        rw [← Bits.count_append, Nat.add_sub_cancel' le]
      rw [bftstset_eq, bftstclr_eq]
      have setLe : Bits.run true dmap firstbit bitlen ≤ bitlen := Bits.run_le
      have clrLe : Bits.run false dmap firstbit bitlen ≤ bitlen := Bits.run_le
      have setCount := Bits.count_run_true dmap firstbit bitlen
      have clrCount := Bits.count_run_false dmap firstbit bitlen
      have setPos := Bits.run_pos (v := true) (m := dmap) (b := firstbit) room
      have clrPos := Bits.run_pos (v := false) (m := dmap) (b := firstbit) room
      generalize Bits.run true dmap firstbit bitlen = set at *
      generalize Bits.run false dmap firstbit bitlen = clr at *
      split
      next look =>
        simp only [Bool.and_eq_true, decide_eq_true_eq] at look
        have fuelLeft : 2 * (bitlen - set) + (if false = true then 0 else 1) ≤ fuel := by
          rw [look.1] at enough
          simp only [if_true, Bool.false_eq_true, if_false] at enough ⊢
          omega
        split
        · simp only [Bool.not_true, Bool.false_and, Bool.false_eq_true, if_false]
          rw [ih fuelLeft, whole set setLe, setCount]
          exact Nat.add_assoc acc.dfree set _
        · rw [ih fuelLeft, whole set setLe, setCount]
          exact Nat.add_assoc acc.dfree set _
      next look =>
        rw [ih, whole clr clrLe, clrCount, Nat.zero_add]
        -- a scan for free blocks that found none starts at a used block
        cases lookfor with
        | false =>
            simp only [Bool.false_eq_true, if_false, if_true] at enough ⊢
            omega
        | true =>
            simp only [Bool.true_and, decide_eq_true_eq, not_not] at look
            have used : dmap firstbit = false := by
              cases free : dmap firstbit with
              | false => rfl
              | true => exact absurd (setPos.mpr free) (by omega)
            have := clrPos.mpr used
            simp only [if_true] at enough ⊢
            omega

theorem builddsumLoop_lastd {fuel : Nat} {lookfor : Bool} {firstbit bitlen : Nat} {acc : Dsum} :
    acc.lastd ≤ (builddsumLoop dmap minimumsize dontstop fuel lookfor firstbit bitlen acc).lastd := by
  induction fuel generalizing lookfor firstbit bitlen acc with
  | zero => exact Nat.le_refl _
  | succ fuel ih =>
      rw [builddsumLoop]
      dsimp only
      split
      · exact Nat.le_refl _
      split
      · split
        · split
          · exact Nat.le_succ _
          · refine le_trans ?_ ih
            exact Nat.le_succ _
        · refine le_trans ?_ ih
          exact Nat.le_refl _
      · exact ih

/-- A scan that accepts every length records a run if the area has a free
    block at all. -/
theorem builddsumLoop_found {fuel : Nat} {lookfor : Bool} {firstbit bitlen : Nat} {acc : Dsum}
    (enough : 2 * bitlen + (if lookfor then 0 else 1) ≤ fuel)
    (fresh : acc.lastd = 0) (some : 0 < Bits.count dmap firstbit bitlen)
    (ready : lookfor = false → dmap firstbit = false) :
    0 < (builddsumLoop dmap 1 dontstop fuel lookfor firstbit bitlen acc).lastd := by
  induction fuel generalizing lookfor firstbit bitlen acc with
  | zero =>
      have : bitlen = 0 := by omega
      subst this
      exact absurd some (Nat.lt_irrefl 0)
  | succ fuel ih =>
      rw [builddsumLoop]
      dsimp only
      have room : 0 < bitlen := by
        rcases Nat.eq_zero_or_pos bitlen with rfl | room
        · exact absurd some (Nat.lt_irrefl 0)
        · exact room
      rw [if_neg (by omega), bftstset_eq, bftstclr_eq]
      split
      next look =>
        simp only [Bool.and_eq_true, decide_eq_true_eq] at look
        have record : 1 ≤ Bits.run true dmap firstbit bitlen ∧ acc.lastd < cgDsums := by
          rw [fresh]
          exact ⟨Nat.pos_of_ne_zero look.2, by decide⟩
        rw [if_pos (by simpa only [Bool.and_eq_true, decide_eq_true_eq] using record)]
        split
        · exact Nat.succ_pos _
        · refine Nat.lt_of_lt_of_le ?_ builddsumLoop_lastd
          exact Nat.succ_pos _
      next look =>
        have used : dmap firstbit = false := by
          cases lookfor with
          | false => exact ready rfl
          | true =>
              cases free : dmap firstbit with
              | false => rfl
              | true =>
                  have := (Bits.run_pos (v := true) (m := dmap) (b := firstbit) room).mpr free
                  simp only [Bool.true_and, decide_eq_true_eq, not_not] at look
                  omega
        have clrPos := (Bits.run_pos (v := false) (m := dmap) (b := firstbit) room).mpr used
        have clrLe : Bits.run false dmap firstbit bitlen ≤ bitlen := Bits.run_le
        have clrCount := Bits.count_run_false dmap firstbit bitlen
        have whole := Bits.count_append (m := dmap) firstbit
          (Bits.run false dmap firstbit bitlen) (bitlen - Bits.run false dmap firstbit bitlen)
        rw [Nat.add_sub_cancel' clrLe, clrCount, Nat.zero_add] at whole
        refine ih ?_ fresh (whole ▸ some) (fun h => absurd h (by simp))
        simp only [if_true]
        split at enough <;> omega

end Loop

end Irix.ExtentFs
