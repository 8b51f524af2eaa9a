import Irix.ExtentFs.Summary
import Mathlib.Data.List.Basic

/-! # The summary of a group

What `efs_builddsum` writes down: the first runs of free blocks of a cylinder
group that are long enough, and how many free blocks there are.  The lengths
are kept in a `short`, and a group may have more blocks than that.
-/

namespace Irix.ExtentFs

open Lib

/-- The loop of `efs_builddsum` again, with no summary if it would not come to an end. -/
def builddsumScan (dmap : Bits.Map) (minimumsize : Nat) (dontstop : Bool) :
    (fuel : Nat) → (lookfor : Bool) → (firstbit bitlen : Nat) → Dsum → Option Dsum
  | 0, _, _, _, _ => none
  | fuel + 1, lookfor, firstbit, bitlen, acc =>
      if bitlen = 0 then some acc
      else
        let length := bftstset dmap firstbit bitlen
        if lookfor && length ≠ 0 then
          let acc := { acc with dfree := acc.dfree + length }
          if minimumsize ≤ length && acc.lastd < cgDsums then
            let acc := acc.push firstbit length
            if !dontstop && cgDsums ≤ acc.lastd then some acc
            else builddsumScan dmap minimumsize dontstop fuel false
              (firstbit + length) (bitlen - length) acc
          else builddsumScan dmap minimumsize dontstop fuel false
            (firstbit + length) (bitlen - length) acc
        else
          let length := bftstclr dmap firstbit bitlen
          builddsumScan dmap minimumsize dontstop fuel true
            (firstbit + length) (bitlen - length) acc

/-- The group with what a scan has filled in. -/
def Cg.summarized (cg : Cg) (dontstop : Bool) (acc : Dsum) : Cg :=
  { cg with
    cgFirstdfree := cg.cgFirstdbn
    cgNextd := 0
    cgLastd := acc.lastd
    cgDsum := acc.dsum
    cgDfree := if dontstop then short acc.dfree else cg.cgDfree }

/-- `efs_builddsum` for a group of any size. -/
def efsBuilddsumAny (idle : Bool) (fsCgfsize : Nat) (dmap : Bits.Map) (cg : Cg) (minimumsize : Int)
    (dontstop : Bool) : Option Cg :=
  if idle then some cg
  else
    let firstbit := cg.cgFirstdbn
    let bitlen := cg.cgFirstbn + fsCgfsize - firstbit
    let minimumsize := if minimumsize ≤ 0 then 1 else minimumsize.toNat
    (builddsumScan dmap minimumsize dontstop (2 * bitlen + 1) true firstbit bitlen
      ⟨cg.cgDsum, 0, 0⟩).map (cg.summarized dontstop)

/-- Record the runs as long as there are slots. -/
def Dsum.pushAll (acc : Dsum) (runs : List (Nat × Nat)) : Dsum :=
  runs.foldl (fun acc run => if acc.lastd < cgDsums then acc.push run.1 run.2 else acc) acc

/-- The runs of `[b, b + len)` that are long enough for the summary. -/
def longRuns (dmap : Bits.Map) (minimumsize lo hi b len : Nat) : List (Nat × Nat) :=
  (Bits.runs dmap lo hi b len).filter (minimumsize ≤ ·.2)

/-! ## The scan -/

section Scan

variable {dmap : Bits.Map} {minimumsize lo hi : Nat} {dontstop : Bool}

theorem Dsum.pushAll_full {acc : Dsum} (full : ¬ acc.lastd < cgDsums) (runs : List (Nat × Nat)) :
    acc.pushAll runs = acc := by
  induction runs with
  | nil => rfl
  | cons run runs ih =>
      simp only [Dsum.pushAll, List.foldl_cons, if_neg full] at ih ⊢
      exact ih

theorem Dsum.pushAll_append (acc : Dsum) (runs runs' : List (Nat × Nat)) :
    acc.pushAll (runs ++ runs') = (acc.pushAll runs).pushAll runs' := List.foldl_append

/-- The slots after recording: the first runs there was room for. -/
theorem Dsum.pushAll_slots (acc : Dsum) (runs : List (Nat × Nat)) (room : acc.lastd ≤ cgDsums) :
    (acc.pushAll runs).lastd = min cgDsums (acc.lastd + runs.length) ∧
      (∀ j < acc.lastd, (acc.pushAll runs).dsum j = acc.dsum j) ∧
      ∀ j (inside : j < runs.length), acc.lastd + j < cgDsums →
        (acc.pushAll runs).dsum (acc.lastd + j) = ⟨runs[j].1, short runs[j].2⟩ := by
  induction runs generalizing acc with
  | nil =>
      refine ⟨(Nat.min_eq_right room).symm, fun j _ => rfl, fun j inside => ?_⟩
      exact absurd inside (Nat.not_lt_zero j)
  | cons run runs ih =>
      by_cases more : acc.lastd < cgDsums
      · obtain ⟨last, old, new⟩ := ih (acc.push run.1 run.2) more
        have step : acc.pushAll (run :: runs) = (acc.push run.1 run.2).pushAll runs := by
          simp only [Dsum.pushAll, List.foldl_cons, if_pos more]
        have count : (acc.push run.1 run.2).lastd = acc.lastd + 1 := rfl
        rw [step, last, count]
        refine ⟨?_, fun j before => ?_, fun j inside fits => ?_⟩
        · rw [List.length_cons, Nat.add_right_comm, Nat.add_assoc]
        · rw [old j (Nat.lt_succ_of_lt before)]
          exact if_neg (Nat.ne_of_lt before)
        · cases j with
          | zero =>
              rw [Nat.add_zero, old acc.lastd (Nat.lt_succ_self _)]
              exact if_pos rfl
          | succ j =>
              have later := new j (Nat.lt_of_succ_lt_succ inside) (by omega)
              rw [count, Nat.add_assoc, Nat.add_comm 1] at later
              exact later
      · have step := Dsum.pushAll_full more (run :: runs)
        rw [step]
        refine ⟨by omega, fun j _ => rfl, fun j _ fits => by omega⟩

/-- The count of the free blocks has no part in the recording. -/
theorem Dsum.pushAll_dfree (acc : Dsum) (n : Nat) (runs : List (Nat × Nat)) :
    ({ acc with dfree := n } : Dsum).pushAll runs = { acc.pushAll runs with dfree := n } := by
  induction runs generalizing acc with
  | nil => rfl
  | cons run runs ih =>
      simp only [Dsum.pushAll, List.foldl_cons] at ih ⊢
      split
      · exact ih (acc.push run.1 run.2)
      · exact ih acc

theorem longRuns_append (b k len : Nat) :
    longRuns dmap minimumsize lo hi b (k + len) =
      longRuns dmap minimumsize lo hi b k ++ longRuns dmap minimumsize lo hi (b + k) len := by
  simp only [longRuns, Bits.runs_append, List.filter_append]

theorem longRuns_clear {b len : Nat} (clear : ∀ k < len, dmap (b + k) = false) :
    longRuns dmap minimumsize lo hi b len = [] := by
  simp only [longRuns, Bits.runs_clear clear, List.filter_nil]

theorem longRuns_split {b k len : Nat} (le : k ≤ len) :
    longRuns dmap minimumsize lo hi b len =
      longRuns dmap minimumsize lo hi b k ++ longRuns dmap minimumsize lo hi (b + k) (len - k) := by
  rw [← longRuns_append, Nat.add_sub_cancel' le]

/-- Where the scan may stand: at the start of a run if it looks for one, and at a used block if
    not. -/
def Ready (dmap : Bits.Map) (lo : Nat) (lookfor : Bool) (firstbit bitlen : Nat) : Prop :=
  if lookfor then firstbit = lo ∨ dmap (firstbit - 1) = false
  else bitlen = 0 ∨ dmap firstbit = false

/-- The scan comes to an end, and records the runs and counts the blocks of what it has passed. -/
theorem builddsumScan_spec {fuel : Nat} {lookfor : Bool} {firstbit bitlen : Nat} {acc : Dsum}
    (low : lo ≤ firstbit) (stop : firstbit + bitlen = hi) (enough : bitlen < fuel)
    (ready : Ready dmap lo lookfor firstbit bitlen) :
    ∃ out, builddsumScan dmap minimumsize dontstop fuel lookfor firstbit bitlen acc = some out ∧
      out.lastd = (acc.pushAll (longRuns dmap minimumsize lo hi firstbit bitlen)).lastd ∧
      out.dsum = (acc.pushAll (longRuns dmap minimumsize lo hi firstbit bitlen)).dsum ∧
      (dontstop = true → out.dfree = acc.dfree + Bits.count dmap firstbit bitlen) := by
  induction fuel generalizing lookfor firstbit bitlen acc with
  | zero => exact absurd enough (Nat.not_lt_zero _)
  | succ fuel ih =>
      rw [builddsumScan]
      by_cases done : bitlen = 0
      · subst done
        rw [if_pos rfl]
        exact ⟨acc, rfl, rfl, rfl, fun _ => rfl⟩
      rw [if_neg done]
      have room : 0 < bitlen := Nat.pos_of_ne_zero done
      simp only [bftstset_eq, bftstclr_eq]
      have setLe : Bits.run true dmap firstbit bitlen ≤ bitlen := Bits.run_le
      have clrLe : Bits.run false dmap firstbit bitlen ≤ bitlen := Bits.run_le
      have whole : ∀ n ≤ bitlen, Bits.count dmap firstbit bitlen =
          Bits.count dmap firstbit n + Bits.count dmap (firstbit + n) (bitlen - n) := by
        intro n le
        rw [← Bits.count_append, Nat.add_sub_cancel' le]
      by_cases look : (lookfor && Bits.run true dmap firstbit bitlen ≠ 0) = true
      · -- a run of free blocks
        rw [if_pos look]
        simp only [Bool.and_eq_true, decide_eq_true_eq] at look
        obtain ⟨rfl, found⟩ := look
        have alone : Bits.runs dmap lo hi firstbit (Bits.run true dmap firstbit bitlen) =
            [(firstbit, Bits.run true dmap firstbit bitlen)] := by
          have length : hi - firstbit = bitlen := by omega
          have one := @Bits.runs_run dmap lo hi firstbit ready low
          rw [length] at one
          exact one (Nat.pos_of_ne_zero found)
        have next : Ready dmap lo false (firstbit + Bits.run true dmap firstbit bitlen)
            (bitlen - Bits.run true dmap firstbit bitlen) := by
          rcases Nat.lt_or_eq_of_le setLe with short | full
          · apply Or.inr
            simpa using Bits.run_stop short
          · exact Or.inl (by omega)
        have counted := Bits.count_run_true dmap firstbit bitlen
        rw [longRuns_split setLe, Dsum.pushAll_append, whole _ setLe, counted]
        have first : longRuns dmap minimumsize lo hi firstbit (Bits.run true dmap firstbit bitlen) =
            if minimumsize ≤ Bits.run true dmap firstbit bitlen then
              [(firstbit, Bits.run true dmap firstbit bitlen)] else [] := by
          rw [longRuns, alone]
          split
          next long => exact List.filter_cons_of_pos (decide_eq_true long)
          next short => exact List.filter_cons_of_neg (by simpa using short)
        rw [first]
        have low' : lo ≤ firstbit + Bits.run true dmap firstbit bitlen :=
          Nat.le_trans low (Nat.le_add_right ..)
        generalize Bits.run true dmap firstbit bitlen = set at *
        -- the rest of the area, after whatever this run adds
        have rest : ∀ before : Dsum, ∃ out,
            builddsumScan dmap minimumsize dontstop fuel false (firstbit + set) (bitlen - set)
                { before with dfree := acc.dfree + set } = some out ∧
              out.lastd = (before.pushAll
                (longRuns dmap minimumsize lo hi (firstbit + set) (bitlen - set))).lastd ∧
              out.dsum = (before.pushAll
                (longRuns dmap minimumsize lo hi (firstbit + set) (bitlen - set))).dsum ∧
              (dontstop = true → out.dfree =
                acc.dfree + (set + Bits.count dmap (firstbit + set) (bitlen - set))) := by
          intro before
          have tail := @ih false (firstbit + set) (bitlen - set)
            { before with dfree := acc.dfree + set } low' (by omega) (by omega) next
          simp only [Dsum.pushAll_dfree, Nat.add_assoc] at tail
          exact tail
        by_cases record : (decide (minimumsize ≤ set) && decide (acc.lastd < cgDsums)) = true
        · rw [if_pos record]
          simp only [Bool.and_eq_true, decide_eq_true_eq] at record
          have pushed : acc.pushAll (if minimumsize ≤ set then [(firstbit, set)] else []) =
              acc.push firstbit set := by
            simp only [if_pos record.1, Dsum.pushAll, List.foldl_cons, List.foldl_nil, if_pos record.2]
          rw [pushed]
          by_cases stops : (!dontstop && decide (cgDsums ≤ acc.lastd + 1)) = true
          · have full : ¬ (acc.push firstbit set).lastd < cgDsums := by
              simp only [Bool.and_eq_true, decide_eq_true_eq] at stops
              exact Nat.not_lt.mpr stops.2
            rw [Dsum.pushAll_full full]
            refine ⟨_, if_pos stops, rfl, rfl, fun more => ?_⟩
            rw [more] at stops
            cases stops
          · obtain ⟨out, ends, same⟩ := rest (acc.push firstbit set)
            exact ⟨out, (if_neg stops).trans ends, same⟩
        · rw [if_neg record]
          have pushed : acc.pushAll (if minimumsize ≤ set then [(firstbit, set)] else []) = acc := by
            split
            next long =>
              apply Dsum.pushAll_full
              simpa [long] using record
            next => rfl
          rw [pushed]
          exact rest acc
      · rw [if_neg look]
        have used : dmap firstbit = false := by
          cases lookfor with
          | false => exact ready.resolve_left done
          | true =>
              simp only [Bool.true_and, decide_eq_true_eq, not_not] at look
              have none := Bits.run_pos (v := true) (m := dmap) (b := firstbit) room
              rw [look] at none
              simpa using none
        have clrPos := (Bits.run_pos (v := false) (m := dmap) (b := firstbit) room).mpr used
        have clear : ∀ k < Bits.run false dmap firstbit bitlen, dmap (firstbit + k) = false :=
          fun k => Bits.run_value
        have last := clear _ (Nat.sub_lt clrPos Nat.one_pos)
        rw [longRuns_split clrLe, longRuns_clear clear, List.nil_append, whole _ clrLe,
          Bits.count_run_false, Nat.zero_add]
        apply ih
        · exact Nat.le_trans low (Nat.le_add_right ..)
        · omega
        · omega
        · apply Or.inr
          rwa [Nat.add_sub_assoc clrPos]

end Scan

/-! ## The summary -/

/-- The runs in order: all maximal ones that are long enough. -/
structure Listed (dmap : Bits.Map) (lo hi : Nat) (least : Int) (runs : List (Nat × Nat)) : Prop where
  sorted : runs.Pairwise fun r s => r.1 < s.1
  mem : ∀ i n, (i, n) ∈ runs ↔ Bits.MaximalRun dmap lo hi i n ∧ least ≤ n

/-- The summary has the runs, as many of them as it has slots, and the number of free blocks
    after a scan to the end. -/
structure Summarizes (dmap : Bits.Map) (lo hi : Nat) (dontstop : Bool) (runs : List (Nat × Nat))
    (cg : Cg) : Prop where
  nextd : cg.cgNextd = 0
  lastd : cg.cgLastd = min cgDsums runs.length
  slots : ∀ j (inside : j < runs.length), j < cgDsums →
    cg.cgDsum j = ⟨runs[j].1, (runs[j].2 : Int)⟩
  dfree : dontstop = true → cg.cgDfree = Bits.count dmap lo (hi - lo)

section Summary

variable {dmap : Bits.Map} {lo hi fsCgfsize : Nat} {cg : Cg} {minimumsize : Int} {dontstop : Bool}

theorem longRuns_listed (dmap : Bits.Map) (minimumsize lo hi : Nat) :
    Listed dmap lo hi minimumsize (longRuns dmap minimumsize lo hi lo (hi - lo)) where
  sorted := (Bits.runs_sorted dmap lo hi lo (hi - lo)).filter _
  mem i n := by
    simp only [longRuns, List.mem_filter, Bits.mem_runs, decide_eq_true_eq, Nat.cast_le]

/-- A number comes out of a `short` as it went in if it is small enough. -/
theorem short_eq_iff (n : Nat) : short n = n ↔ n < 32768 := by
  constructor
  · intro same
    have high := @Int.bmod_lt n 65536 (by decide)
    rw [short] at same
    omega
  · intro small
    exact short_fits (by omega) (by omega)

/-- The least length `efs_builddsum` records. -/
def leastSize (minimumsize : Int) : Nat := if minimumsize ≤ 0 then 1 else minimumsize.toNat

theorem leastSize_eq (minimumsize : Int) : (leastSize minimumsize : Int) = max 1 minimumsize := by
  rw [leastSize]
  split <;> omega

/-- What `efs_builddsum` leaves in a group. -/
theorem efsBuilddsumAny_spec (area : cg.cgFirstdbn ≤ cg.cgFirstbn + fsCgfsize)
    (hend : hi = cg.cgFirstbn + fsCgfsize) {runs : List (Nat × Nat)}
    (hruns : runs =
      longRuns dmap (leastSize minimumsize) cg.cgFirstdbn hi cg.cgFirstdbn (hi - cg.cgFirstdbn)) :
    ∃ cg', efsBuilddsumAny false fsCgfsize dmap cg minimumsize dontstop = some cg' ∧
      cg'.cgNextd = 0 ∧ cg'.cgLastd = min cgDsums runs.length ∧
      (∀ j (inside : j < runs.length), j < cgDsums →
        cg'.cgDsum j = ⟨runs[j].1, short runs[j].2⟩) ∧
      (dontstop = true →
        cg'.cgDfree = short (Bits.count dmap cg.cgFirstdbn (hi - cg.cgFirstdbn))) := by
  subst hend
  obtain ⟨out, ends, last, dsum, dfree⟩ := @builddsumScan_spec dmap (leastSize minimumsize)
    cg.cgFirstdbn (cg.cgFirstbn + fsCgfsize) dontstop
    (2 * (cg.cgFirstbn + fsCgfsize - cg.cgFirstdbn) + 1) true cg.cgFirstdbn
    (cg.cgFirstbn + fsCgfsize - cg.cgFirstdbn) ⟨cg.cgDsum, 0, 0⟩ (Nat.le_refl _)
    (Nat.add_sub_cancel' area) (by omega) (Or.inl rfl)
  rw [← hruns] at last dsum
  obtain ⟨count, -, slots⟩ := Dsum.pushAll_slots ⟨cg.cgDsum, 0, 0⟩ runs (Nat.zero_le _)
  simp only [Nat.zero_add] at count slots dfree
  simp only [leastSize] at ends
  have returns : efsBuilddsumAny false fsCgfsize dmap cg minimumsize dontstop =
      some (cg.summarized dontstop out) := congrArg (Option.map (cg.summarized dontstop)) ends
  refine ⟨_, returns, rfl, last.trans count, fun j inside fits => ?_, fun more => ?_⟩
  · have slot := slots j inside fits
    simp only [Cg.summarized, dsum, slot]
  · simp only [Cg.summarized, if_pos more, dfree more]

/-- The slots of a summary hold the lengths as they are only if they are small. -/
theorem short_slots {runs : List (Nat × Nat)} {dsum : Nat → Cgdmap}
    (slots : ∀ j (inside : j < runs.length), j < cgDsums →
      dsum j = ⟨runs[j].1, short runs[j].2⟩) :
    (∀ j (inside : j < runs.length), j < cgDsums → dsum j = ⟨runs[j].1, (runs[j].2 : Int)⟩) ↔
      ∀ run ∈ runs.take cgDsums, run.2 < 32768 := by
  constructor
  · intro same run mem
    obtain ⟨j, inside, rfl⟩ := List.getElem_of_mem mem
    rw [List.length_take] at inside
    have slot := slots j (by omega) (by omega)
    rw [same j (by omega) (by omega), Cgdmap.mk.injEq] at slot
    rw [List.getElem_take]
    exact (short_eq_iff _).mp slot.2.symm
  · intro small j inside fits
    have mem : runs[j] ∈ runs.take cgDsums := by
      rw [List.mem_take_iff_getElem]
      exact ⟨j, by omega, rfl⟩
    rw [slots j inside fits, (short_eq_iff _).mpr (small _ mem)]

end Summary

/-- The scan ends with the first maximal runs in the summary, unless a length does not fit the
    `short` it is kept in. -/
theorem builddsum_exact_iff (fsCgfsize : Nat) (dmap : Bits.Map) (cg : Cg) (minimumsize : Int)
    (dontstop : Bool) (area : cg.cgFirstdbn ≤ cg.cgFirstbn + fsCgfsize) :
    ∃ runs cg',
      Listed dmap cg.cgFirstdbn (cg.cgFirstbn + fsCgfsize) (max 1 minimumsize) runs ∧
      efsBuilddsumAny false fsCgfsize dmap cg minimumsize dontstop = some cg' ∧
      (Summarizes dmap cg.cgFirstdbn (cg.cgFirstbn + fsCgfsize) dontstop runs cg' ↔
        (∀ run ∈ runs.take cgDsums, run.2 < 32768) ∧
        (dontstop = true → Bits.count dmap cg.cgFirstdbn
          (cg.cgFirstbn + fsCgfsize - cg.cgFirstdbn) < 32768)) := by
  obtain ⟨cg', ends, nextd, lastd, slots, dfree⟩ :=
    @efsBuilddsumAny_spec dmap _ fsCgfsize cg minimumsize dontstop area rfl _ rfl
  have listed := longRuns_listed dmap (leastSize minimumsize) cg.cgFirstdbn (cg.cgFirstbn + fsCgfsize)
  rw [leastSize_eq] at listed
  refine ⟨_, cg', listed, ends, fun exact_ => ⟨?_, fun more => ?_⟩, fun fits => ?_⟩
  · exact (short_slots slots).mp exact_.slots
  · have same := exact_.dfree more
    rw [dfree more] at same
    exact (short_eq_iff _).mp same
  · refine ⟨nextd, lastd, (short_slots slots).mpr fits.1, fun more => ?_⟩
    rw [dfree more]
    exact (short_eq_iff _).mpr (fits.2 more)

/-- A group of 40000 data blocks. -/
def largeGroup : Cg where
  cgFirstbn := 9
  cgFirstdbn := 10
  cgFirsti := 0
  cgLasti := 3
  cgFulli := false
  cgLowi := 0
  cgDfree := 0
  cgFirstdfree := 10
  cgNextd := 0
  cgLastd := 0
  cgDsum := fun _ => ⟨0, 0⟩

theorem builddsum_exact_iff_large :
    ∃ runs cg', Listed (fun _ => true) 10 40010 (max 1 0) runs ∧
      efsBuilddsumAny false 40001 (fun _ => true) largeGroup 0 true = some cg' ∧
      (Summarizes (fun _ => true) 10 40010 true runs cg' ↔
        (∀ run ∈ runs.take cgDsums, run.2 < 32768) ∧
        (true = true → Bits.count (fun _ => true) 10 (40010 - 10) < 32768)) :=
  builddsum_exact_iff 40001 (fun _ => true) largeGroup 0 true (by decide)

/-- All its blocks are free, and the summary says there are less than none. -/
theorem large_group_overflows : ¬ ∃ runs cg',
    efsBuilddsumAny false 40001 (fun _ => true) largeGroup 0 true = some cg' ∧
      Summarizes (fun _ => true) 10 40010 true runs cg' := by
  rintro ⟨runs, cg', ends, exact_⟩
  obtain ⟨cg'', ends', -, -, -, dfree⟩ :=
    @efsBuilddsumAny_spec (fun _ => true) _ 40001 largeGroup 0 true (by decide) rfl _ rfl
  rw [ends, Option.some.injEq] at ends'
  subst ends'
  have count : Bits.count (fun _ => true) 10 40000 = 40000 := Bits.count_set fun _ _ => rfl
  have total := exact_.dfree rfl
  rw [dfree rfl] at total
  have small := (short_eq_iff _).mp total
  have number : Bits.count (fun _ => true) 10 40000 < 32768 := small
  omega

/-! ## Mounted volumes -/

theorem builddsumLoop_of_scan {dmap : Bits.Map} {minimumsize fuel firstbit bitlen : Nat}
    {dontstop lookfor : Bool} {acc out : Dsum}
    (ends : builddsumScan dmap minimumsize dontstop fuel lookfor firstbit bitlen acc = some out) :
    builddsumLoop dmap minimumsize dontstop fuel lookfor firstbit bitlen acc = out := by
  induction fuel generalizing lookfor firstbit bitlen acc with
  | zero => cases ends
  | succ fuel ih =>
      simp only [builddsumScan] at ends
      simp only [builddsumLoop]
      split at ends
      next done =>
        rw [if_pos done]
        exact Option.some.inj ends
      next more =>
        rw [if_neg more]
        split at ends
        next look =>
          rw [if_pos look]
          split at ends
          next record =>
            rw [if_pos record]
            split at ends
            next stops =>
              rw [if_pos stops]
              exact Option.some.inj ends
            next onward =>
              rw [if_neg onward]
              exact ih ends
          next small =>
            rw [if_neg small]
            exact ih ends
        next zeros =>
          rw [if_neg zeros]
          exact ih ends

/-- On a mounted volume this is what `efs_builddsum` does. -/
theorem efsBuilddsumAny_eq (fs : Efs) (cg : Cg) (minimumsize : Nat) (dontstop : Bool)
    (area : cg.cgFirstdbn ≤ cg.cgFirstbn + fs.fsCgfsize) :
    efsBuilddsumAny (fs.fsCorrupted || fs.fsReadonly) fs.fsCgfsize fs.fsDmap cg minimumsize dontstop =
      some (efsBuilddsum fs cg minimumsize dontstop) := by
  rw [efsBuilddsum]
  split
  next idle =>
    rw [idle]
    rfl
  next busy =>
    have least : leastSize minimumsize = if minimumsize = 0 then 1 else minimumsize := by
      rw [leastSize]
      split <;> split <;> omega
    obtain ⟨out, ends, -⟩ := @builddsumScan_spec fs.fsDmap (leastSize minimumsize)
      cg.cgFirstdbn (cg.cgFirstbn + fs.fsCgfsize) dontstop
      (2 * (cg.cgFirstbn + fs.fsCgfsize - cg.cgFirstdbn) + 1) true cg.cgFirstdbn
      (cg.cgFirstbn + fs.fsCgfsize - cg.cgFirstdbn) ⟨cg.cgDsum, 0, 0⟩ (Nat.le_refl _)
      (Nat.add_sub_cancel' area) (by omega) (Or.inl rfl)
    have loop := builddsumLoop_of_scan ends
    rw [least] at loop
    rw [leastSize] at ends
    rw [Bool.not_eq_true] at busy
    dsimp only
    rw [busy, loop]
    exact congrArg (Option.map (cg.summarized dontstop)) ends

end Irix.ExtentFs
