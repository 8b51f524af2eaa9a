import Irix.ExtentFs.Runs

/-! # The checks of a mount

`efs_mountany` looks at the sizes in the superblock before it derives the in-core ones.
The same definitions are read twice here: with the widths of the machine, and with
integers that have no bounds.
-/

namespace Irix.ExtentFs.Mount

open Lib

/-- What is left of a value in each of the types of the source. -/
structure Widths where
  long : Int → Int
  short : Int → Int
  /-- `ino_t` -/
  ino : Int → Int

def Widths.machine : Widths := ⟨fun x => Int.bmod x 4294967296, ExtentFs.short, fun x => x % 65536⟩

def Widths.exact : Widths := ⟨id, id, id⟩

/-- The portion of the superblock that is read off the volume. -/
structure Superblock where
  fsSize : Int32
  fsFirstcg : Int32
  fsCgfsize : Int32
  fsCgisize : Int16
  fsSectors : Int16
  fsHeads : Int16
  fsNcg : Int16
  fsDirty : Int16
  fsMagic : Int32
  fsBmsize : Int32
  fsTfree : Int32
  fsTinode : Int32
  /-- All of it in front of the checksum, as `efs_checksum` reads it. -/
  words : List UInt16
  fsChecksum : Int32

abbrev efsInopbb : Int := 4

def efsWildchecksum : Int32 := 0

def efsChecksum (words : List UInt16) : Int32 :=
  let checksum : Int32 := words.foldl (fun checksum word =>
    let checksum : Int32 := checksum ^^^ word.toUInt32.toInt32
    (checksum <<< 1) ||| (if checksum < 0 then 1 else 0)) 0
  if checksum = efsWildchecksum then ~~~checksum else checksum

namespace Superblock

variable (fs : Superblock)

def firstcg : Int := fs.fsFirstcg.toInt

def cgfsize : Int := fs.fsCgfsize.toInt

def cgisize : Int := fs.fsCgisize.toInt

def ncg : Int := fs.fsNcg.toInt

end Superblock

namespace Widths

variable (w : Widths) (fs : Superblock)

/-- `fs_firstcg + fs_cgfsize * fs_ncg` -/
def size : Int := w.long (fs.firstcg + w.long (fs.cgfsize * fs.ncg))

/-- The legitimacy check. -/
def messedUp : Bool :=
  fs.fsSize.toInt ≠ w.size fs || fs.fsHeads.toInt < 0 || fs.ncg < 0 || fs.fsSectors.toInt < 0 ||
    fs.fsBmsize.toInt < 0 || 2 * 1024 * 1024 / 8 < fs.fsBmsize.toInt ||
    fs.fsTinode.toInt < 0 || w.long (fs.cgisize * efsInopbb * fs.ncg) < fs.fsTinode.toInt ||
    fs.fsTfree.toInt < 0 || w.long (w.long (fs.cgfsize - fs.cgisize) * fs.ncg) < fs.fsTfree.toInt

end Widths

/-- The superblock passes all the checks, on a device that is not the root. -/
def accepted (magic : Int32) (fs : Superblock) : Bool :=
  fs.fsMagic = magic && (fs.fsChecksum = efsWildchecksum || fs.fsChecksum = efsChecksum fs.words) &&
    fs.fsDirty = 0 && !Widths.machine.messedUp fs

/-- `struct cgdmap` -/
structure Region where
  dBn : Int
  dLength : Int
  deriving DecidableEq, Repr

/-- What `efs_builddsum` finds: `cg_dfree`, and the regions of `cg_dsum`. -/
structure Sums where
  dfree : Int
  dsum : List Region
  deriving DecidableEq, Repr

/-- `struct cg` -/
structure Cg where
  cgFirstbn : Int
  cgFirstdbn : Int
  cgFirsti : Int
  cgLasti : Int
  sums : Sums
  deriving DecidableEq, Repr

/-- The in-core portion of the superblock. -/
structure Efs where
  fsInopchunkbb : Int
  fsIpcg : Int
  fsLastinum : Int
  fsCgs : List Cg
  deriving DecidableEq, Repr

/-- The bit map from a block on. -/
def behind (dmap : Int → Bool) (bn : Int) : Bits.Map := fun k => dmap (bn + k)

namespace Widths

variable (w : Widths)

/-- Only accept regions of at least `minimumsize`, while there is room for them. -/
def record (dsum : List Region) (curbn length minimumsize : Int) : List Region :=
  if minimumsize ≤ length && dsum.length < cgDsums then dsum ++ [⟨curbn, w.short length⟩] else dsum

/-- The loop of `efs_builddsum` with `dontstop`.  Where `bitlen` is negative nothing ends
    the search for bits in the group. -/
def builddsumLoop (dmap : Int → Bool) (minimumsize : Int) :
    (fuel : Nat) → (lookfor : Bool) → (firstbit bitlen : Int) → Sums → Option Sums
  | 0, _, _, _, _ => none
  | fuel + 1, lookfor, firstbit, bitlen, acc =>
      if bitlen = 0 then some acc
      else if bitlen < 0 then none
      else
        let length := bftstset (behind dmap firstbit) 0 bitlen.toNat
        if lookfor && length ≠ 0 then
          builddsumLoop dmap minimumsize fuel false (w.long (firstbit + length)) (bitlen - length)
            ⟨acc.dfree + length, w.record acc.dsum firstbit length minimumsize⟩
        else
          -- findzeros
          let length := bftstclr (behind dmap firstbit) 0 bitlen.toNat
          builddsumLoop dmap minimumsize fuel true (w.long (firstbit + length)) (bitlen - length) acc

variable (fs : Superblock) (readonly : Bool) (dmap : Int → Bool) (minimumsize : Int)

def efsBuilddsum (firstbn firstdbn : Int) : Option Sums :=
  if readonly then some ⟨0, []⟩
  else
    let bitlen := w.long (w.long (firstbn + fs.cgfsize) - firstdbn)
    let minimumsize := if minimumsize ≤ 0 then 1 else minimumsize
    (w.builddsumLoop dmap minimumsize (2 * bitlen.toNat + 2) true firstdbn bitlen ⟨0, []⟩).map fun sums =>
      { sums with dfree := w.short sums.dfree }

def ipcg : Int := w.ino (efsInopbb * fs.cgisize)

/-- Initialize summary information for the cylinder groups. -/
def mountCgs : (n : Nat) → (inum bn : Int) → Option (List Cg)
  | 0, _, _ => some []
  | n + 1, inum, bn => do
      let firstdbn := w.long (bn + fs.cgisize)
      let sums ← w.efsBuilddsum fs readonly dmap minimumsize bn firstdbn
      let cgs ← mountCgs n (w.ino (inum + w.ipcg fs)) (w.long (bn + fs.cgfsize))
      some (⟨bn, firstdbn, inum, w.ino (inum + w.ipcg fs - 1), sums⟩ :: cgs)

/-- What `efs_mountany` computes of a superblock it has accepted; it divides by
    `fs_cgisize`. -/
def efsMountany : Option Efs :=
  if fs.cgisize = 0 then none
  else do
    let cgs ← w.mountCgs fs readonly dmap minimumsize fs.ncg.toNat 0 fs.firstcg
    some ⟨((32 + efsInopbb - 1) / 4).tmod fs.cgisize, w.ipcg fs, w.ino (w.ipcg fs * fs.ncg - 1), cgs⟩

/-- `EFS_ITOBB` -/
def itobb (inum : Nat) : Int :=
  w.long (fs.firstcg + w.long (w.short (inum / w.ipcg fs) * fs.cgfsize) + (inum >>> 2 : Nat) % fs.cgisize)

end Widths

/-! ## The widths of the machine -/

@[simp] theorem exact_long (x : Int) : Widths.exact.long x = x := rfl

@[simp] theorem exact_short (x : Int) : Widths.exact.short x = x := rfl

@[simp] theorem exact_ino (x : Int) : Widths.exact.ino x = x := rfl

theorem long_fits {x : Int} (low : -2147483648 ≤ x) (high : x < 2147483648) : Widths.machine.long x = x :=
  Int.bmod_eq_of_le (by omega) (by omega)

theorem long_lt (x : Int) : Widths.machine.long x < 2147483648 :=
  Int.bmod_lt (by decide)

theorem long_add_long (a b : Int) : Widths.machine.long (a + Widths.machine.long b) = Widths.machine.long (a + b) :=
  Int.add_bmod_bmod

theorem long_long_mul (a b : Int) : Widths.machine.long (Widths.machine.long a * b) = Widths.machine.long (a * b) :=
  Int.bmod_mul_bmod

/-! ## The summary of a group -/

/-- The regions as their lengths are stored. -/
def shortLengths (dsum : List Region) : List Region := dsum.map fun d => ⟨d.dBn, short d.dLength⟩

theorem record_short (dsum : List Region) (curbn length minimumsize : Int) :
    shortLengths (Widths.exact.record dsum curbn length minimumsize) =
      Widths.machine.record (shortLengths dsum) curbn length minimumsize := by
  simp only [Widths.record, shortLengths, List.length_map]
  split
  · rw [List.map_append]
    rfl
  · rfl

/-- The regions have no more blocks each than are free. -/
structure Sums.Kept (sums : Sums) : Prop where
  dfree : 0 ≤ sums.dfree
  lengths : ∀ d ∈ sums.dsum, 0 ≤ d.dLength ∧ d.dLength ≤ sums.dfree

section Summary

variable {dmap : Int → Bool} {minimumsize firstbit bitlen : Int} {fuel : Nat} {lookfor : Bool} {acc : Sums}

theorem count_behind (b k len : Nat) :
    Bits.count (behind dmap firstbit) (k + b) len = Bits.count (behind dmap (firstbit + k)) b len := by
  induction len generalizing b with
  | zero => rfl
  | succ len ih =>
      have here : behind dmap firstbit (k + b) = behind dmap (firstbit + k) b := by
        simp only [behind, Nat.cast_add, add_assoc]
      simp only [Bits.count, here]
      rw [Nat.add_assoc, ih]

/-- The blocks of the rest of the group, of which the first are of one kind. -/
theorem count_rest {n : Nat} (le : (n : Int) ≤ bitlen) :
    Bits.count (behind dmap firstbit) 0 bitlen.toNat =
      Bits.count (behind dmap firstbit) 0 n + Bits.count (behind dmap (firstbit + n)) 0 (bitlen - n).toNat := by
  have split : bitlen.toNat = n + (bitlen - n).toNat := by omega
  have rest := @count_behind dmap firstbit 0 n (bitlen - n).toNat
  rw [split, Bits.count_append, Nat.zero_add]
  rw [Nat.add_zero] at rest
  rw [rest]

/-- The blocks that a search finds: those of one kind come first. -/
theorem runs_behind {len : Nat} (some : 0 < len) :
    bftstset (behind dmap firstbit) 0 len ≤ len ∧
      Bits.count (behind dmap firstbit) 0 (bftstset (behind dmap firstbit) 0 len) =
        bftstset (behind dmap firstbit) 0 len ∧
      bftstclr (behind dmap firstbit) 0 len ≤ len ∧
      Bits.count (behind dmap firstbit) 0 (bftstclr (behind dmap firstbit) 0 len) = 0 ∧
      (bftstset (behind dmap firstbit) 0 len = 0 → 0 < bftstclr (behind dmap firstbit) 0 len) := by
  rw [bftstset_eq, bftstclr_eq]
  refine ⟨Bits.run_le, Bits.count_run_true .., Bits.run_le, Bits.count_run_false .., fun none => ?_⟩
  have first : behind dmap firstbit 0 ≠ true := by
    rw [ne_eq, ← Bits.run_pos some, none]
    exact Nat.lt_irrefl 0
  rw [Bits.run_pos some]
  simpa using first

/-- The scan counts the free blocks of the group and keeps regions of it, which the machine
    stores with their lengths cut. -/
theorem builddsumLoop_both (low : -2147483648 ≤ firstbit) (room : 0 ≤ bitlen) (high : firstbit + bitlen < 2147483648)
    (enough : 2 * bitlen.toNat + (if lookfor then 1 else 2) ≤ fuel)
    (known : acc.Kept) :
    ∃ sums, Widths.exact.builddsumLoop dmap minimumsize fuel lookfor firstbit bitlen acc = some sums ∧
      Widths.machine.builddsumLoop dmap minimumsize fuel lookfor firstbit bitlen ⟨acc.dfree, shortLengths acc.dsum⟩ =
        some ⟨sums.dfree, shortLengths sums.dsum⟩ ∧
      sums.dfree = acc.dfree + Bits.count (behind dmap firstbit) 0 bitlen.toNat ∧
      sums.Kept := by
  induction fuel generalizing lookfor firstbit bitlen acc with
  | zero => cases lookfor <;> simp at enough
  | succ fuel ih =>
      by_cases done : bitlen = 0
      · subst done
        refine ⟨acc, ?_, ?_, by simp [Bits.count], known⟩ <;> rw [Widths.builddsumLoop, if_pos rfl]
      · have positive : ¬ bitlen < 0 := by omega
        obtain ⟨set_le, set_count, clr_le, clr_count, either⟩ := @runs_behind dmap firstbit bitlen.toNat (by omega)
        simp only [Widths.builddsumLoop, if_neg done, if_neg positive]
        generalize bftstset (behind dmap firstbit) 0 bitlen.toNat = set at *
        generalize bftstclr (behind dmap firstbit) 0 bitlen.toNat = clr at *
        by_cases look : (lookfor && decide (set ≠ 0)) = true
        · simp only [if_pos look]
          simp only [ne_eq, Bool.and_eq_true, decide_eq_true_eq] at look
          have stored := record_short acc.dsum firstbit set minimumsize
          have fuel_left : 2 * (bitlen - set).toNat + (if false = true then 1 else 2) ≤ fuel := by
            simp only [look.1, if_true, Bool.false_eq_true, if_false] at enough ⊢
            omega
          have still : Sums.Kept ⟨acc.dfree + set, Widths.exact.record acc.dsum firstbit set minimumsize⟩ := by
            have nonneg := known.dfree
            refine ⟨by dsimp only; omega, fun d listed => ?_⟩
            dsimp only at listed ⊢
            rw [Widths.record] at listed
            split at listed
            · rcases List.mem_append.mp listed with old | new
              · have := known.lengths d old
                omega
              · obtain rfl := List.mem_singleton.mp new
                simp only [exact_short]
                omega
            · have := known.lengths d listed
              omega
          obtain ⟨sums, exact, machine, total, inside⟩ := @ih (firstbit + set) (bitlen - set) false
            ⟨acc.dfree + set, Widths.exact.record acc.dsum firstbit set minimumsize⟩ (by omega) (by omega) (by omega)
            fuel_left still
          refine ⟨sums, exact, ?_, ?_, inside⟩
          · rw [← machine, ← stored, long_fits (by omega) (by omega)]
          · rw [total, @count_rest dmap firstbit bitlen set (by omega), set_count]
            push_cast
            omega
        · simp only [if_neg look]
          have fuel_left : 2 * (bitlen - clr).toNat + (if true = true then 1 else 2) ≤ fuel := by
            simp only [if_true]
            cases lookfor with
            | false =>
                simp only [Bool.false_eq_true, if_false] at enough
                omega
            | true =>
                simp only [if_true] at enough
                simp only [ne_eq, Bool.true_and, decide_eq_true_eq, not_not] at look
                have := either look
                omega
          obtain ⟨sums, exact, machine, total, inside⟩ := @ih (firstbit + clr) (bitlen - clr) true acc (by omega)
            (by omega) (by omega) fuel_left known
          refine ⟨sums, exact, ?_, ?_, inside⟩
          · rw [← machine, long_fits (by omega) (by omega)]
          · rw [total, @count_rest dmap firstbit bitlen clr (by omega), clr_count]
            push_cast
            omega

/-- What the machine stores of a summary. -/
def Sums.narrow (sums : Sums) : Sums := ⟨short sums.dfree, shortLengths sums.dsum⟩

theorem short_fits_iff {x : Int} (nonneg : 0 ≤ x) : short x = x ↔ x < 32768 := by
  obtain ⟨n, rfl⟩ := Int.eq_ofNat_of_zero_le nonneg
  rw [short_eq_iff]
  omega

/-- A summary is stored as it is if its free blocks fit a `short`. -/
theorem Sums.Kept.narrow_iff {sums : Sums} (kept : sums.Kept) : sums.narrow = sums ↔ sums.dfree < 32768 := by
  rw [← short_fits_iff kept.dfree]
  constructor
  · intro same
    exact congrArg Sums.dfree same
  · intro fits
    have small := (short_fits_iff kept.dfree).mp fits
    have lengths : shortLengths sums.dsum = sums.dsum := by
      rw [shortLengths]
      refine (List.map_congr_left fun d listed => ?_).trans (List.map_id _)
      have length := kept.lengths d listed
      rw [(short_fits_iff length.1).mpr (by omega)]
      rfl
    rw [narrow, fits, lengths]

end Summary

/-! ## The groups -/

/-- What a group holds when its summary is stored by the machine. -/
def Cg.narrow (cg : Cg) : Cg := { cg with sums := cg.sums.narrow }

section Groups

variable {fs : Superblock} {readonly : Bool} {dmap : Int → Bool} {minimumsize bn inum : Int} {n : Nat}

/-- The free data blocks of the group at `bn`. -/
def freeBlocks (fs : Superblock) (dmap : Int → Bool) (bn : Int) : Nat :=
  Bits.count (behind dmap (bn + fs.cgisize)) 0 (fs.cgfsize - fs.cgisize).toNat

/-- Inodes and data of a group have their places in it. -/
structure Groups (fs : Superblock) : Prop where
  inodes : 0 < fs.cgisize
  data : fs.cgisize ≤ fs.cgfsize

theorem cgfsize_lt (fs : Superblock) : fs.cgfsize < 2147483648 := Int32.toInt_lt _

theorem efsBuilddsum_both (groups : Groups fs) (low : -2147483648 ≤ bn) (high : bn + fs.cgfsize < 2147483648) :
    ∃ sums, Widths.exact.efsBuilddsum fs readonly dmap minimumsize bn (bn + fs.cgisize) = some sums ∧
      Widths.machine.efsBuilddsum fs readonly dmap minimumsize bn (bn + fs.cgisize) = some sums.narrow ∧
      (sums.narrow = sums ↔ (readonly = false → freeBlocks fs dmap bn < 32768)) := by
  have inodes := groups.inodes
  have data := groups.data
  have small := cgfsize_lt fs
  cases readonly with
  | true => exact ⟨⟨0, []⟩, rfl, rfl, by simp [Sums.narrow, short, shortLengths]⟩
  | false =>
      obtain ⟨sums, exact, machine, total, kept⟩ := @builddsumLoop_both dmap
        (if minimumsize ≤ 0 then 1 else minimumsize) (bn + fs.cgisize) (fs.cgfsize - fs.cgisize)
        (2 * (fs.cgfsize - fs.cgisize).toNat + 2) true ⟨0, []⟩ (by omega) (by omega) (by omega) (by simp)
        ⟨Int.le_refl _, by simp⟩
      have bitlen : bn + fs.cgfsize - (bn + fs.cgisize) = fs.cgfsize - fs.cgisize := by omega
      refine ⟨sums, ?_, ?_, ?_⟩
      · simp only [Widths.efsBuilddsum, Bool.false_eq_true, if_false, exact_long, exact_short, bitlen, exact]
        rfl
      · simp only [Widths.efsBuilddsum, Bool.false_eq_true, if_false]
        rw [long_fits (x := bn + fs.cgfsize) (by omega) high, bitlen, long_fits (by omega) (by omega)]
        have stored := machine
        simp only [shortLengths, List.map_nil] at stored
        rw [stored]
        rfl
      · rw [kept.narrow_iff, total]
        simp only [freeBlocks, forall_const]
        omega

/-- The groups after the first. -/
theorem freeBlocks_succ :
    (∀ g < n + 1, freeBlocks fs dmap (bn + g * fs.cgfsize) < 32768) ↔
      freeBlocks fs dmap bn < 32768 ∧ ∀ g < n, freeBlocks fs dmap (bn + fs.cgfsize + g * fs.cgfsize) < 32768 := by
  have place : ∀ g : Nat, bn + ((g + 1 : Nat) : Int) * fs.cgfsize = bn + fs.cgfsize + g * fs.cgfsize := by
    intro g
    push_cast
    rw [Int.add_mul, Int.one_mul, Int.add_assoc, Int.add_comm fs.cgfsize]
  constructor
  · intro all
    refine ⟨by simpa using all 0 (Nat.succ_pos n), fun g less => ?_⟩
    rw [← place]
    exact all (g + 1) (Nat.succ_lt_succ less)
  · rintro ⟨first, rest⟩ g less
    cases g with
    | zero => simpa using first
    | succ g =>
        rw [place]
        exact rest g (Nat.lt_of_succ_lt_succ less)

/-- The groups of a mount, as the machine stores them. -/
theorem mountCgs_both (groups : Groups fs) (ipcg : Widths.machine.ipcg fs = 4 * fs.cgisize)
    (inum_low : 0 ≤ inum) (inum_high : inum + 4 * fs.cgisize * n ≤ 65536)
    (low : -2147483648 ≤ bn) (high : bn + fs.cgfsize * n < 2147483648) :
    ∃ cgs, Widths.exact.mountCgs fs readonly dmap minimumsize n inum bn = some cgs ∧
      Widths.machine.mountCgs fs readonly dmap minimumsize n inum bn = some (cgs.map Cg.narrow) ∧
      (cgs.map Cg.narrow = cgs ↔
        (readonly = false → ∀ g < n, freeBlocks fs dmap (bn + g * fs.cgfsize) < 32768)) := by
  have inodes := groups.inodes
  have data := groups.data
  induction n generalizing inum bn with
  | zero => exact ⟨[], rfl, rfl, by simp⟩
  | succ n ih =>
      push_cast at inum_high high
      rw [Int.mul_add, Int.mul_one] at inum_high high
      have later_inodes : 0 ≤ 4 * fs.cgisize * n := Int.mul_nonneg (by omega) (Int.natCast_nonneg n)
      have later_blocks : 0 ≤ fs.cgfsize * n := Int.mul_nonneg (by omega) (Int.natCast_nonneg n)
      obtain ⟨sums, exact, machine, fits⟩ := @efsBuilddsum_both fs readonly dmap minimumsize bn groups low (by omega)
      -- behind the last group the machine's number of the next inode may wrap
      obtain ⟨cgs, exact', machine', fits'⟩ : ∃ cgs,
          Widths.exact.mountCgs fs readonly dmap minimumsize n (inum + 4 * fs.cgisize) (bn + fs.cgfsize) = some cgs ∧
          Widths.machine.mountCgs fs readonly dmap minimumsize n (Widths.machine.ino (inum + 4 * fs.cgisize))
            (bn + fs.cgfsize) = some (cgs.map Cg.narrow) ∧
          (cgs.map Cg.narrow = cgs ↔
            (readonly = false → ∀ g < n, freeBlocks fs dmap (bn + fs.cgfsize + g * fs.cgfsize) < 32768)) := by
        rcases Nat.eq_zero_or_pos n with rfl | some
        · exact ⟨[], rfl, rfl, by simp⟩
        · have another : 4 * fs.cgisize * 1 ≤ 4 * fs.cgisize * n := Int.mul_le_mul_of_nonneg_left (by omega) (by omega)
          have stored : Widths.machine.ino (inum + 4 * fs.cgisize) = inum + 4 * fs.cgisize :=
            Int.emod_eq_of_lt (by omega) (by omega)
          rw [stored]
          exact ih (by omega) (by omega) (by omega) (by omega)
      have last : Widths.machine.ino (inum + 4 * fs.cgisize - 1) = inum + 4 * fs.cgisize - 1 :=
        Int.emod_eq_of_lt (by omega) (by omega)
      have ipcg_exact : Widths.exact.ipcg fs = 4 * fs.cgisize := rfl
      refine ⟨⟨bn, bn + fs.cgisize, inum, inum + 4 * fs.cgisize - 1, sums⟩ :: cgs, ?_, ?_, ?_⟩
      · simp only [Widths.mountCgs, exact_long, exact_ino, ipcg_exact, exact, exact']
        rfl
      · simp only [Widths.mountCgs, ipcg, last, long_fits (x := bn + fs.cgisize) (by omega) (by omega),
          long_fits (x := bn + fs.cgfsize) (by omega) (by omega), machine, machine']
        rfl
      · simp only [List.map_cons, List.cons.injEq, Cg.narrow, Cg.mk.injEq, true_and]
        rw [fits, fits', freeBlocks_succ, imp_and]

end Groups

/-! ## Accepted superblocks -/

/-- Nothing that the mount derives is cut, and it divides by positive numbers. -/
structure InRange (fs : Superblock) (readonly : Bool) (dmap : Int → Bool) (minimumsize : Int) : Prop where
  positive : 0 < fs.ncg ∧ 0 < fs.cgisize ∧ 0 < fs.cgfsize
  size : Widths.machine.size fs = Widths.exact.size fs
  mount : ∃ efs, Widths.machine.efsMountany fs readonly dmap minimumsize = some efs ∧
    Widths.exact.efsMountany fs readonly dmap minimumsize = some efs
  itobb : ∀ inum : Nat, (inum : Int) < 4 * fs.cgisize * fs.ncg →
    Widths.machine.itobb fs inum = Widths.exact.itobb fs inum

/-- The inodes have numbers, the blocks have addresses, and the free blocks of each group
    can be counted. -/
structure Fits (fs : Superblock) (readonly : Bool) (dmap : Int → Bool) : Prop where
  positive : 0 < fs.ncg ∧ 0 < fs.cgisize ∧ 0 < fs.cgfsize
  group : 4 * fs.cgisize < 65536
  inodes : 4 * fs.cgisize * fs.ncg ≤ 65536
  blocks : fs.firstcg + fs.cgfsize * fs.ncg < 2147483648
  free : readonly = false → ∀ g < fs.ncg.toNat, freeBlocks fs dmap (fs.firstcg + g * fs.cgfsize) < 32768

section Accepted

variable {magic : Int32} {fs : Superblock} {readonly : Bool} {dmap : Int → Bool} {minimumsize : Int}

theorem firstcg_ge (fs : Superblock) : -2147483648 ≤ fs.firstcg := Int32.le_toInt _

theorem ncg_lt (fs : Superblock) : fs.ncg < 32768 := Int16.toInt_lt _

/-- The check of the free blocks keeps the inodes of a group within it. -/
theorem accepted_data (ok : accepted magic fs = true) (positive : 0 < fs.ncg ∧ 0 < fs.cgisize ∧ 0 < fs.cgfsize)
    (inodes : 4 * fs.cgisize * fs.ncg ≤ 65536) : Groups fs := by
  obtain ⟨ncg, cgisize, cgfsize⟩ := positive
  refine ⟨cgisize, ?_⟩
  by_contra beyond
  have negative : (fs.cgfsize - fs.cgisize) * fs.ncg < 0 := Int.mul_neg_of_neg_of_pos (by omega) ncg
  have small : -16384 ≤ (fs.cgfsize - fs.cgisize) * fs.ncg := by
    have blocks : 0 ≤ fs.cgfsize * fs.ncg := Int.mul_nonneg (by omega) (by omega)
    rw [Int.mul_assoc] at inodes
    rw [Int.sub_mul]
    omega
  have stored := long_long_mul (fs.cgfsize - fs.cgisize) fs.ncg
  rw [long_fits (x := (fs.cgfsize - fs.cgisize) * fs.ncg) (by omega) (by omega)] at stored
  simp only [accepted, Widths.messedUp, stored, Bool.and_eq_true, Bool.not_eq_true', Bool.or_eq_false_iff,
    decide_eq_false_iff_not] at ok
  omega

theorem efsMountany_eq_some {w : Widths} {efs : Efs} :
    w.efsMountany fs readonly dmap minimumsize = some efs ↔
      fs.cgisize ≠ 0 ∧ ∃ cgs, w.mountCgs fs readonly dmap minimumsize fs.ncg.toNat 0 fs.firstcg = some cgs ∧
        efs = ⟨((32 + efsInopbb - 1) / 4).tmod fs.cgisize, w.ipcg fs, w.ino (w.ipcg fs * fs.ncg - 1), cgs⟩ := by
  rw [Widths.efsMountany]
  split
  next none => simp [none]
  next some =>
    simp only [Option.bind_eq_bind, Option.bind_eq_some_iff, Option.some.injEq]
    constructor
    · rintro ⟨cgs, found, rfl⟩
      exact ⟨some, cgs, found, rfl⟩
    · rintro ⟨-, cgs, found, rfl⟩
      exact ⟨cgs, found, rfl⟩

theorem itobb_fits (groups : Groups fs) (ipcg : Widths.machine.ipcg fs = 4 * fs.cgisize)
    (blocks : fs.firstcg + fs.cgfsize * fs.ncg < 2147483648) {inum : Nat}
    (inside : (inum : Int) < 4 * fs.cgisize * fs.ncg) :
    Widths.machine.itobb fs inum = Widths.exact.itobb fs inum := by
  have cgisize := groups.inodes
  have data := groups.data
  have start := firstcg_ge fs
  have groups_lt := ncg_lt fs
  have ipcg_exact : Widths.exact.ipcg fs = 4 * fs.cgisize := rfl
  simp only [Widths.itobb, ipcg, ipcg_exact, exact_long, exact_short]
  have group : (inum : Int) / (4 * fs.cgisize) < fs.ncg :=
    Int.ediv_lt_of_lt_mul (by omega) (by rwa [Int.mul_comm])
  have group_nonneg : 0 ≤ (inum : Int) / (4 * fs.cgisize) := Int.ediv_nonneg (by omega) (by omega)
  have block : ((inum >>> 2 : Nat) : Int) % fs.cgisize < fs.cgisize := Int.emod_lt_of_pos _ cgisize
  have block_nonneg : 0 ≤ ((inum >>> 2 : Nat) : Int) % fs.cgisize := Int.emod_nonneg _ (by omega)
  generalize (inum : Int) / (4 * fs.cgisize) = cg at *
  generalize ((inum >>> 2 : Nat) : Int) % fs.cgisize = bb at *
  have stored : Widths.machine.short cg = cg := short_fits (by omega) (by omega)
  -- the groups before it end before the last one begins
  have before : cg * fs.cgfsize ≤ fs.cgfsize * fs.ncg - fs.cgfsize := by
    have bound : fs.cgfsize * cg ≤ fs.cgfsize * (fs.ncg - 1) := Int.mul_le_mul_of_nonneg_left (by omega) (by omega)
    rw [Int.mul_sub, Int.mul_one] at bound
    rwa [Int.mul_comm]
  have before_nonneg : 0 ≤ cg * fs.cgfsize := Int.mul_nonneg (by omega) (by omega)
  rw [stored, Int.add_right_comm, long_add_long, long_fits (by omega) (by omega), Int.add_right_comm]

/-- For every superblock that the mount accepts, nothing is cut if and only if the inodes
    have numbers, the blocks have addresses and the free blocks of a group fit a `short`. -/
theorem mount_in_range_iff (magic : Int32) (fs : Superblock) (readonly : Bool) (dmap : Int → Bool)
    (minimumsize : Int) (ok : accepted magic fs = true) :
    InRange fs readonly dmap minimumsize ↔ Fits fs readonly dmap := by
  have start := firstcg_ge fs
  have groups_lt := ncg_lt fs
  constructor
  · rintro ⟨positive, size, ⟨efs, machine, exact⟩, -⟩
    obtain ⟨-, cgs, groups, rfl⟩ := efsMountany_eq_some.mp machine
    obtain ⟨-, cgs', groups', same⟩ := efsMountany_eq_some.mp exact
    simp only [Efs.mk.injEq, true_and] at same
    obtain ⟨ipcg, lastinum, rfl⟩ := same
    have ipcg' : Widths.machine.ipcg fs = 4 * fs.cgisize := ipcg
    have inodes : 4 * fs.cgisize * fs.ncg ≤ 65536 := by
      have wrapped : Widths.machine.ino (Widths.machine.ipcg fs * fs.ncg - 1) < 65536 :=
        Int.emod_lt_of_pos _ (by decide)
      rw [lastinum] at wrapped
      have last : Widths.exact.ino (Widths.exact.ipcg fs * fs.ncg - 1) = 4 * fs.cgisize * fs.ncg - 1 := rfl
      omega
    have blocks : fs.firstcg + fs.cgfsize * fs.ncg < 2147483648 := by
      have wrapped : Widths.machine.size fs < 2147483648 := long_lt _
      rw [size] at wrapped
      exact wrapped
    have layout := accepted_data ok positive inodes
    have count : (fs.ncg.toNat : Int) = fs.ncg := Int.toNat_of_nonneg (by omega)
    obtain ⟨cgs', exact', machine', fits⟩ := @mountCgs_both fs readonly dmap minimumsize fs.firstcg 0 fs.ncg.toNat layout
      ipcg' (Int.le_refl _) (by rw [count]; omega) start (by rw [count]; exact blocks)
    rw [groups] at machine'
    rw [groups'] at exact'
    cases exact'
    have group : 4 * fs.cgisize < 65536 := ipcg' ▸ Int.emod_lt_of_pos _ (by decide)
    exact ⟨positive, group, inodes, blocks, fits.mp (Option.some.inj machine').symm⟩
  · rintro ⟨positive, group, inodes, blocks, free⟩
    have layout := accepted_data ok positive inodes
    obtain ⟨ncg, cgisize, cgfsize⟩ := positive
    have count : (fs.ncg.toNat : Int) = fs.ncg := Int.toNat_of_nonneg (by omega)
    have total : 0 ≤ fs.cgfsize * fs.ncg := Int.mul_nonneg (by omega) (by omega)
    have inodes_nonneg : 0 < 4 * fs.cgisize * fs.ncg := Int.mul_pos (by omega) ncg
    have ipcg : Widths.machine.ipcg fs = 4 * fs.cgisize := Int.emod_eq_of_lt (by simp only [efsInopbb]; omega) group
    have lastinum : Widths.machine.ino (Widths.machine.ipcg fs * fs.ncg - 1) =
        Widths.exact.ino (Widths.exact.ipcg fs * fs.ncg - 1) := by
      rw [ipcg]
      exact Int.emod_eq_of_lt (by omega) (by omega)
    obtain ⟨cgs, exact, machine, fits⟩ := @mountCgs_both fs readonly dmap minimumsize fs.firstcg 0 fs.ncg.toNat layout
      ipcg (Int.le_refl _) (by rw [count]; omega) start (by rw [count]; exact blocks)
    rw [fits.mpr free] at machine
    refine ⟨⟨ncg, cgisize, cgfsize⟩, ?_, ?_, fun inum inside => itobb_fits layout ipcg blocks inside⟩
    · simp only [Widths.size, long_add_long, exact_long]
      exact long_fits (by omega) blocks
    · refine ⟨_, efsMountany_eq_some.mpr ⟨by omega, cgs, machine, rfl⟩,
        efsMountany_eq_some.mpr ⟨by omega, cgs, exact, ?_⟩⟩
      rw [lastinum, ipcg]
      rfl

/-- Two groups of 100 blocks, with two inode blocks each. -/
def twoGroups : Superblock :=
  ⟨300, 100, 100, 2, 17, 8, 2, 0, 0x041755, 38, 196, 14, [], efsWildchecksum⟩

theorem mount_in_range_twoGroups : InRange twoGroups false (fun _ => true) 8 :=
  (mount_in_range_iff 0x041755 twoGroups false (fun _ => true) 8 (by decide)).mpr
    ⟨by decide, by decide, by decide, by decide, fun _ => by decide⟩

/-- One group of 30000 blocks, with 20000 inode blocks. -/
def manyInodes : Superblock :=
  ⟨30100, 100, 30000, 20000, 17, 8, 1, 0, 0x041755, 3763, 10000, 80000, [], efsWildchecksum⟩

theorem mount_out_of_range :
    ¬ ∀ (magic : Int32) (fs : Superblock) (readonly : Bool) (dmap : Int → Bool) (minimumsize : Int),
      accepted magic fs = true → InRange fs readonly dmap minimumsize := by
  intro all
  obtain ⟨-, -, ⟨efs, machine, exact⟩, -⟩ := all 0x041755 manyInodes false (fun _ => true) 8 (by decide)
  obtain ⟨-, cgs, -, rfl⟩ := efsMountany_eq_some.mp machine
  obtain ⟨-, cgs', -, same⟩ := efsMountany_eq_some.mp exact
  have ipcg : Widths.machine.ipcg manyInodes = Widths.exact.ipcg manyInodes := congrArg Efs.fsIpcg same
  exact absurd ipcg (by decide)

end Accepted

end Irix.ExtentFs.Mount
