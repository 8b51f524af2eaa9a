import Irix.Fsck.Traverse

/-! # The block map of fsck

The block functions of Phase 1, Phase 1b and of clearing an inode.  A block that
is claimed again is entered in `duplist`, once more for each claim, and taken
out of it when an inode that claims it is cleared.
-/

namespace Irix.Fsck

open Lib ExtentFs

/-- limit on dup blks (per inode) -/
abbrev maxdup : Nat := 10

/-- limit on bad blks (per inode) -/
abbrev maxbad : Nat := 10

/-- num of dup blocks to remember -/
abbrev duptblsize : Nat := 100

/-- What the block functions work on.  `dups` are the entries of `duplist` up to
    `enddup`, and `muldup` is an index into them. -/
structure Blocks where
  blkmap : Bits.Map
  nBlks : Int
  dups : List Nat
  muldup : Nat
  badblk : Nat
  dupblk : Nat
  filsize : Nat
  blkerrs : List (String × Nat)

/-- The state of fsck at the start of Phase 1. -/
def blank : Blocks := ⟨fun _ => false, 0, [], 0, 0, 0, 0, []⟩

section Code

variable (sb : Layout)

/-- `fmin` is the first block of the first group and `fmax` the size of the
    volume. -/
def outrange (blk : Nat) : Bool := blk < sb.fsFirstcg || sb.fsSize ≤ blk

/-- Whether a block is within a valid data area or not. -/
def dataBlock (blk : Nat) : Bool :=
  sb.fsCgisize ≤ (blk - sb.fsFirstcg) % sb.fsCgfsize ||
    sb.fsNcg ≤ (blk - sb.fsFirstcg) / sb.fsCgfsize

def Blocks.blkerr (fk : Blocks) (s : String) (blk : Nat) : Blocks :=
  { fk with blkerrs := fk.blkerrs ++ [(s, blk)] }

/-- A dup is reported and counted. -/
def Blocks.countDup (fk : Blocks) (blk : Nat) : Blocks :=
  { fk.blkerr "DUP" blk with dupblk := fk.dupblk + 1 }

/-- Enter a block in `duplist`: among the multiple dups if it is not one. -/
def Blocks.enterDup (fk : Blocks) (blk : Nat) : Blocks :=
  if blk ∈ fk.dups.take fk.muldup then { fk with dups := fk.dups ++ [blk] }
  else
    let rest := fk.dups.drop fk.muldup
    { fk with
      dups := fk.dups.take fk.muldup ++ blk :: (rest.tail ++ rest.head?.toList)
      muldup := fk.muldup + 1 }

/-- A block that is out of range or in an inode area. -/
def badBlock (fk : Blocks) (blk : Nat) : Blocks × Ret :=
  let fk := fk.blkerr "BAD" blk
  let fk := { fk with badblk := fk.badblk + 1 }
  if maxbad ≤ fk.badblk then (fk, .stop) else (fk, .skip)

/-- The block function of Phase 1; `CONTINUE` is always answered yes. -/
def pass1 : BlockFn Blocks := fun fk blk =>
  if outrange sb blk then badBlock fk blk
  else if fk.blkmap blk then
    if dataBlock sb blk then
      let fk := fk.countDup blk
      if maxdup ≤ fk.dupblk then (fk, .stop)
      else if duptblsize ≤ fk.dups.length then (fk, .stop)
      else
        let fk := fk.enterDup blk
        ({ fk with filsize := fk.filsize + 1 }, .keepon)
    else badBlock fk blk
  else
    ({ fk with
        nBlks := fk.nBlks + 1
        blkmap := Bits.fill true fk.blkmap blk 1
        filsize := fk.filsize + 1 }, .keepon)

/-- The block function of Phase 1b: a multiple dup that comes up again is one
    no longer. -/
def pass1b : BlockFn Blocks := fun fk blk =>
  if outrange sb blk then (fk, .skip)
  else
    match (fk.dups.take fk.muldup).idxOf? blk with
    | some j =>
        let fk := fk.blkerr "DUP" blk
        let last := fk.dups.getD (fk.muldup - 1) 0
        ({ fk with dups := (fk.dups.set j last).set (fk.muldup - 1) blk, muldup := fk.muldup - 1 },
          if fk.muldup - 1 = 0 then .stop else .keepon)
    | none => (fk, .keepon)

/-- The block function of clearing: one claim less. -/
def pass4 : BlockFn Blocks := fun fk blk =>
  if outrange sb blk then (fk, .skip)
  else if fk.blkmap blk then
    match fk.dups.idxOf? blk with
    | some j =>
        ({ fk with dups := (fk.dups.set j (fk.dups.getLastD 0)).dropLast }, .keepon)
    | none =>
        ({ fk with blkmap := Bits.fill false fk.blkmap blk 1, nBlks := fk.nBlks - 1 }, .keepon)
  else (fk, .keepon)

/-- busy out the inodes, bitmap, and superblock. -/
def initBmap (fk : Blocks) : Blocks :=
  let below := Bits.fill true fk.blkmap 0 sb.fsFirstcg
  { fk with
    blkmap := (List.range sb.fsNcg).foldl
      (fun map cgno => Bits.fill true map (sb.cgimin cgno) sb.fsCgisize) below }

end Code

/-! ## What one call does -/

/-- The inode areas are busy. -/
def Busy (sb : Layout) (fk : Blocks) : Prop :=
  ∀ b, outrange sb b = false → dataBlock sb b = false → fk.blkmap b = true

/-- The blocks Phase 1 takes for data. -/
def keeps (sb : Layout) (b : Nat) : Bool := !outrange sb b && dataBlock sb b

/-- `b` is a block of the inode area of some group. -/
def InodeArea (sb : Layout) (b : Nat) : Prop :=
  ∃ cgno < sb.fsNcg, sb.cgimin cgno ≤ b ∧ b < sb.cgimin cgno + sb.fsCgisize

instance (sb : Layout) (b : Nat) : Decidable (InodeArea sb b) := by
  unfold InodeArea
  infer_instance

section Start

variable {sb : Layout} {fk : Blocks} {b : Nat}

theorem fill_groups (n : Nat) (map : Bits.Map) :
    (List.range n).foldl (fun map cgno => Bits.fill true map (sb.cgimin cgno) sb.fsCgisize) map b =
        true ↔
      map b = true ∨ ∃ cgno < n, sb.cgimin cgno ≤ b ∧ b < sb.cgimin cgno + sb.fsCgisize := by
  induction n with
  | zero => simp
  | succ n ih =>
      rw [List.range_succ, List.foldl_append, List.foldl_cons, List.foldl_nil]
      by_cases here : sb.cgimin n ≤ b ∧ b < sb.cgimin n + sb.fsCgisize
      · rw [Bits.fill_inside here.1 here.2]
        exact iff_of_true rfl (Or.inr ⟨n, Nat.lt_succ_self n, here⟩)
      · rw [Bits.fill_outside (by omega), ih]
        constructor
        · rintro (was | ⟨cgno, before, inside⟩)
          · exact Or.inl was
          · exact Or.inr ⟨cgno, Nat.lt_succ_of_lt before, inside⟩
        · rintro (was | ⟨cgno, before, inside⟩)
          · exact Or.inl was
          · rcases Nat.lt_succ_iff_lt_or_eq.mp before with less | rfl
            · exact Or.inr ⟨cgno, less, inside⟩
            · exact absurd inside here

/-- The bits that are set before any inode is looked at. -/
theorem initBmap_blkmap :
    (initBmap sb fk).blkmap b = true ↔
      fk.blkmap b = true ∨ b < sb.fsFirstcg ∨ InodeArea sb b := by
  unfold initBmap InodeArea
  dsimp only
  rw [fill_groups, ← or_assoc]
  refine or_congr_left ?_
  unfold Bits.fill
  split
  next low => exact iff_of_true rfl (Or.inr (by omega))
  next high =>
    constructor
    · exact Or.inl
    · rintro (was | low)
      · exact was
      · exact absurd ⟨Nat.zero_le _, by omega⟩ high

/-- A block in range that is no data block lies in the inode area of a group. -/
theorem inodeArea_iff (inside : outrange sb b = false) :
    dataBlock sb b = false ↔ InodeArea sb b := by
  have fit := sb.inodes_fit
  simp only [outrange, Bool.or_eq_false_iff, decide_eq_false_iff_not] at inside
  simp only [dataBlock, Bool.or_eq_false_iff, decide_eq_false_iff_not, Nat.not_le]
  constructor
  · rintro ⟨place, group⟩
    have parts := Nat.div_add_mod (b - sb.fsFirstcg) sb.fsCgfsize
    refine ⟨_, group, ?_⟩
    simp only [Layout.cgimin]
    rw [Nat.mul_comm] at parts
    omega
  · rintro ⟨cgno, group, low, high⟩
    simp only [Layout.cgimin] at low high
    obtain ⟨r, place⟩ : ∃ r, b - sb.fsFirstcg = r + sb.fsCgfsize * cgno := by
      refine ⟨b - (sb.fsFirstcg + cgno * sb.fsCgfsize), ?_⟩
      rw [Nat.mul_comm sb.fsCgfsize]
      omega
    have small : r < sb.fsCgisize := by
      rw [Nat.mul_comm] at place
      omega
    rw [place, Nat.add_mul_mod_self_left, Nat.mod_eq_of_lt (Nat.lt_trans small fit),
      Nat.add_mul_div_left _ _ (Nat.zero_lt_of_lt fit),
      Nat.div_eq_of_lt (Nat.lt_trans small fit), Nat.zero_add]
    exact ⟨small, group⟩

/-- The blocks Phase 1 takes for data are those of the data areas. -/
theorem keeps_iff : keeps sb b = true ↔ ∃ g, sb.InArea g b := by
  have fit := sb.inodes_fit
  constructor
  · intro kept
    simp only [keeps, Bool.and_eq_true, Bool.not_eq_true'] at kept
    obtain ⟨inside, data⟩ := kept
    have range := inside
    simp only [outrange, Bool.or_eq_false_iff, decide_eq_false_iff_not] at range
    have size := sb.size_eq
    have positive : 0 < sb.fsCgfsize := Nat.zero_lt_of_lt fit
    have group : (b - sb.fsFirstcg) / sb.fsCgfsize < sb.fsNcg := by
      rw [Nat.div_lt_iff_lt_mul positive]
      omega
    have parts := Nat.div_add_mod (b - sb.fsFirstcg) sb.fsCgfsize
    have rest := Nat.mod_lt (b - sb.fsFirstcg) positive
    simp only [dataBlock, Bool.or_eq_true, decide_eq_true_eq] at data
    have place := data.resolve_right (Nat.not_le_of_lt group)
    rw [Nat.mul_comm] at parts
    refine ⟨_, group, ?_, ?_⟩
    · simp only [Layout.dataStart, Layout.cgimin]
      omega
    · rw [sb.dataEnd]
      simp only [Layout.cgimin]
      omega
  · rintro ⟨g, area⟩
    have inside : outrange sb b = false := by
      have low := area.firstcg_le
      have high := area.lt_size
      simp only [outrange, Bool.or_eq_false_iff, decide_eq_false_iff_not]
      omega
    have data : dataBlock sb b ≠ false := by
      intro none
      obtain ⟨cgno, before, low, high⟩ := (inodeArea_iff inside).mp none
      have here : sb.bbtocg b = cgno := sb.bbtocg_eq low (by omega)
      rw [area.bbtocg] at here
      have start := area.2.1
      rw [here, Layout.dataStart] at start
      omega
    simp only [keeps, inside, Bool.not_false, Bool.true_and]
    exact Bool.eq_true_of_not_eq_false data

theorem initBmap_busy (sb : Layout) (fk : Blocks) : Busy sb (initBmap sb fk) :=
  fun _ inside area => initBmap_blkmap.mpr (Or.inr (Or.inr ((inodeArea_iff inside).mp area)))

end Start

section Pass1

variable {sb : Layout} {fk : Blocks} {b : Nat}

theorem badBlock_cases (fk : Blocks) (b : Nat) :
    (badBlock fk b).1.blkmap = fk.blkmap ∧ (badBlock fk b).1.nBlks = fk.nBlks ∧
      (badBlock fk b).1.dups = fk.dups ∧ (badBlock fk b).1.muldup = fk.muldup ∧
      (badBlock fk b).1.dupblk = fk.dupblk ∧
      (badBlock fk b).1.badblk = fk.badblk + 1 ∧
      (badBlock fk b).1.blkerrs = fk.blkerrs ++ [("BAD", b)] ∧
      (badBlock fk b).2 = if maxbad ≤ fk.badblk + 1 then .stop else .skip := by
  unfold badBlock
  dsimp only [Blocks.blkerr]
  split <;> exact ⟨rfl, rfl, rfl, rfl, rfl, rfl, rfl, rfl⟩

/-- A block of the data areas that nobody has claimed. -/
theorem pass1_fresh (data : keeps sb b = true) (clear : fk.blkmap b = false) :
    pass1 sb fk b = ({ fk with
      nBlks := fk.nBlks + 1
      blkmap := Bits.fill true fk.blkmap b 1
      filsize := fk.filsize + 1 }, .keepon) := by
  simp only [keeps, Bool.and_eq_true, Bool.not_eq_true'] at data
  unfold pass1
  rw [data.1, clear]
  rfl

theorem pass1_bad (busy : Busy sb fk) (bad : keeps sb b = false) : pass1 sb fk b = badBlock fk b := by
  simp only [keeps, Bool.and_eq_false_iff, Bool.not_eq_false'] at bad
  unfold pass1
  by_cases out : outrange sb b = true
  · rw [if_pos out]
  · have area := bad.resolve_left out
    rw [if_neg out, if_pos (busy b (Bool.eq_false_of_not_eq_true out) area), area]
    rfl

/-- A block of the data areas that has been claimed before. -/
theorem pass1_dup (data : keeps sb b = true) (set : fk.blkmap b = true) :
    pass1 sb fk b =
      if maxdup ≤ (fk.countDup b).dupblk ∨ duptblsize ≤ (fk.countDup b).dups.length then
        (fk.countDup b, .stop)
      else
        ({ (fk.countDup b).enterDup b with
          filsize := ((fk.countDup b).enterDup b).filsize + 1 }, .keepon) := by
  simp only [keeps, Bool.and_eq_true, Bool.not_eq_true'] at data
  unfold pass1
  rw [data.1, set, data.2]
  simp only [Bool.false_eq_true, if_false, if_true]
  by_cases dups : maxdup ≤ (fk.countDup b).dupblk
  · rw [if_pos dups, if_pos (Or.inl dups)]
  · rw [if_neg dups]
    by_cases full : duptblsize ≤ (fk.countDup b).dups.length
    · rw [if_pos full, if_pos (Or.inr full)]
    · rw [if_neg full, if_neg (fun either => either.elim dups full)]

@[simp] theorem countDup_blkmap (fk : Blocks) (b : Nat) : (fk.countDup b).blkmap = fk.blkmap := rfl

@[simp] theorem enterDup_blkmap (fk : Blocks) (b : Nat) : (fk.enterDup b).blkmap = fk.blkmap := by
  unfold Blocks.enterDup
  split <;> rfl

@[simp] theorem enterDup_blkerrs (fk : Blocks) (b : Nat) : (fk.enterDup b).blkerrs = fk.blkerrs := by
  unfold Blocks.enterDup
  split <;> rfl

/-- No call clears a bit, and one that prints nothing does not stop. -/
theorem pass1_reports (busy : Busy sb fk) (b : Nat) :
    (∀ a, fk.blkmap a = true → (pass1 sb fk b).1.blkmap a = true) ∧
      fk.blkerrs.length ≤ (pass1 sb fk b).1.blkerrs.length ∧
      ((pass1 sb fk b).2 = .stop → fk.blkerrs.length < (pass1 sb fk b).1.blkerrs.length) := by
  cases data : keeps sb b with
  | false =>
      rw [pass1_bad busy data]
      obtain ⟨blkmap, _, _, _, _, _, blkerrs, _⟩ := badBlock_cases fk b
      rw [blkmap, blkerrs, List.length_append]
      exact ⟨fun _ set => set, Nat.le_succ _, fun _ => Nat.lt_succ_self _⟩
  | true =>
      cases set : fk.blkmap b with
      | false =>
          rw [pass1_fresh data set]
          refine ⟨fun a was => ?_, Nat.le_refl _, fun stop => by cases stop⟩
          dsimp only
          unfold Bits.fill
          split
          · rfl
          · exact was
      | true =>
          rw [pass1_dup data set]
          split
          · refine ⟨fun _ was => was, ?_, fun _ => ?_⟩ <;> simp [Blocks.countDup, Blocks.blkerr]
          · refine ⟨fun a was => ?_, ?_, fun stop => by cases stop⟩
            · simpa using was
            · simp [Blocks.countDup, Blocks.blkerr]

theorem pass1_decides (sb : Layout) : Decides (pass1 sb) (Busy sb) (keeps sb) where
  kept := fun fk busy b => fun a inside area => (pass1_reports busy b).1 a (busy a inside area)
  ret := fun fk busy b => by
    cases data : keeps sb b with
    | false =>
        rw [pass1_bad busy data]
        obtain ⟨_, _, _, _, _, _, _, ret⟩ := badBlock_cases fk b
        rw [ret]
        split
        · exact Or.inl rfl
        · exact Or.inr rfl
    | true =>
        cases set : fk.blkmap b with
        | false =>
            rw [pass1_fresh data set]
            exact Or.inr rfl
        | true =>
            rw [pass1_dup data set]
            split
            · exact Or.inl rfl
            · exact Or.inr rfl

end Pass1

end Irix.Fsck
