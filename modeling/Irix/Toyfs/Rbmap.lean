import Irix.Toyfs.Dkalloc
import Mathlib.Data.List.TakeWhile

/-! # Reading the block map

`efs_bmap_read` of the toy filesystem library: the map of an inode, its extents
in the inode itself or behind its indirect extents, and what adding an extent
or making one longer does to a map.
-/

namespace Irix.Toyfs

open Lib ExtentFs

/-- The extents of `struct efs_toyinode`: their number, and the array in the
    inode, of which `efsDirectextents` are there. -/
structure Toyinode where
  diNx : Nat
  diXp : Scatter.Store Extent

/-- given a list of extents, map a logical block number to a physical block
    number; 0 for hole; -1 for EOF. -/
def efsMapext (lbn : Nat) : List Extent → Int
  | [] => -1
  | xp :: xps =>
      let exoff : Int := lbn - xp.exOffset
      if exoff < 0 then 0
      else if exoff < xp.exLength then xp.exBn + exoff
      else efsMapext lbn xps

/-- The loop of `efs_ixmapext` over the indirect extents. -/
def efsIxmapext (disk : Scatter.Store Extent) (lbn : Nat) : List Extent → (nx : Nat) → Int
  | [], _ => -1
  | xp :: xps, nx =>
      if nx = 0 then -1
      else
        let bnx := min (xp.exLength * extsPerbb) nx
        let bn := efsMapext lbn (Scatter.get disk (xp.exBn * extsPerbb) bnx)
        if 0 ≤ bn then bn else efsIxmapext disk lbn xps (nx - bnx)

def efsBmapRead (disk : Scatter.Store Extent) (dip : Toyinode) (lbn : Nat) : Int :=
  if dip.diNx ≤ efsDirectextents then efsMapext lbn (Scatter.get dip.diXp 0 dip.diNx)
  else efsIxmapext disk lbn (Scatter.get dip.diXp 0 efsDirectextents) dip.diNx

/-- The cells of the indirect extents. -/
def Toyinode.chunks (dip : Toyinode) : List (Nat × Nat) :=
  chunksOf (Scatter.get dip.diXp 0 efsDirectextents)

/-- The extents of an inode, wherever they are. -/
def Toyinode.extents (dip : Toyinode) (disk : Scatter.Store Extent) : List Extent :=
  if dip.diNx ≤ efsDirectextents then Scatter.get dip.diXp 0 dip.diNx
  else Scatter.gather disk dip.chunks dip.diNx

section Map

variable {disk : Scatter.Store Extent} {dip : Toyinode} {lbn b : Nat} {front rest l l' : List Extent}
  {x ex : Extent}

theorem efsMapext_append : efsMapext b (l ++ l') =
    if 0 ≤ efsMapext b l then efsMapext b l else efsMapext b l' := by
  induction l with
  | nil => simp only [List.nil_append, efsMapext, Int.reduceNeg, Int.reduceLE, if_false]
  | cons xp xps ih =>
      simp only [List.cons_append, efsMapext, ih]
      grind

theorem efsIxmapext_eq (iex : List Extent) (nx : Nat) :
    efsIxmapext disk lbn iex nx = efsMapext lbn (Scatter.gather disk (chunksOf iex) nx) := by
  induction iex generalizing nx with
  | nil => rfl
  | cons ie iex ih =>
      have chunks : chunksOf (ie :: iex) =
          (ie.exBn * extsPerbb, ie.exLength * extsPerbb) :: chunksOf iex := rfl
      have less : nx - min (ie.exLength * extsPerbb) nx = nx - ie.exLength * extsPerbb := by omega
      simp only [efsIxmapext, ih, less]
      split
      next none =>
        rw [none, Scatter.gather_zero]
        rfl
      next =>
        rw [chunks, Scatter.gather, efsMapext_append]

/-- A file is read through the list of its extents. -/
theorem efsBmapRead_eq (disk : Scatter.Store Extent) (dip : Toyinode) (lbn : Nat) :
    efsBmapRead disk dip lbn = efsMapext lbn (dip.extents disk) := by
  simp only [efsBmapRead, Toyinode.extents]
  split
  next => rfl
  next => exact efsIxmapext_eq _ _

/-- Extents that end at or before a block have no part in its place. -/
theorem efsMapext_past (past : ∀ ex ∈ front, ex.exOffset + ex.exLength ≤ b) :
    efsMapext b (front ++ l) = efsMapext b l := by
  induction front with
  | nil => rfl
  | cons ex front ih =>
      have here := past ex (List.mem_cons_self ..)
      have rest := ih fun other mem => past other (List.mem_cons_of_mem ex mem)
      simp only [List.cons_append, efsMapext, rest]
      rw [if_neg (by omega), if_neg (by omega)]

/-- Extents that begin after a block do not give it a place. -/
theorem efsMapext_ahead (ahead : ∀ ex ∈ rest, b < ex.exOffset) :
    (efsMapext b (front ++ rest)).toNat = (efsMapext b front).toNat := by
  induction front with
  | nil =>
      cases rest with
      | nil => rfl
      | cons ex rest =>
          have here := ahead ex (List.mem_cons_self ..)
          simp only [List.nil_append, efsMapext]
          rw [if_pos (by omega)]
          rfl
  | cons ex front ih =>
      simp only [List.cons_append, efsMapext]
      split
      next => rfl
      next =>
        split
        next => rfl
        next => exact ih

theorem efsMapext_congr (same : efsMapext b l = efsMapext b l') :
    efsMapext b (front ++ l) = efsMapext b (front ++ l') := by
  simp only [efsMapext_append, same]

/-- One extent ends before the other begins. -/
def Before (ex ex' : Extent) : Prop := ex.exOffset + ex.exLength ≤ ex'.exOffset

/-- The list of extents is sorted, and no two of them overlap. -/
def Sorted (l : List Extent) : Prop := l.Pairwise Before

theorem sorted_append : Sorted (front ++ rest) ↔
    Sorted front ∧ Sorted rest ∧ ∀ ex ∈ front, ∀ ex' ∈ rest, Before ex ex' := List.pairwise_append

theorem sorted_cons : Sorted (ex :: rest) ↔ (∀ ex' ∈ rest, Before ex ex') ∧ Sorted rest :=
  List.pairwise_cons

/-! ## A new extent -/

section Insert

variable (past : ∀ ex ∈ front, ex.exOffset + ex.exLength ≤ lbn) (ahead : ∀ ex ∈ rest, lbn < ex.exOffset)
  (one : x.exLength = 1)
include past ahead one

omit ahead in
theorem insert_here (place : x.exOffset = lbn) :
    efsMapext lbn (front ++ x :: rest) = x.exBn := by
  rw [efsMapext_past past]
  simp only [efsMapext, place, one]
  rw [if_neg (by omega), if_pos (by omega)]
  omega

theorem insert_others (place : x.exOffset = lbn) (other : b ≠ lbn) :
    (efsMapext b (front ++ x :: rest)).toNat = (efsMapext b (front ++ rest)).toNat := by
  rcases Nat.lt_or_gt_of_ne other with below | above
  · have without : ∀ ex ∈ rest, b < ex.exOffset := fun ex mem => Nat.lt_trans below (ahead ex mem)
    have with' : ∀ ex ∈ x :: rest, b < ex.exOffset := by
      intro ex mem
      rcases List.mem_cons.mp mem with rfl | mem
      · rw [place]
        exact below
      · exact without ex mem
    rw [efsMapext_ahead with', efsMapext_ahead without]
  · have past' : ∀ ex ∈ front, ex.exOffset + ex.exLength ≤ b := fun ex mem =>
      Nat.le_trans (past ex mem) (Nat.le_of_lt above)
    rw [efsMapext_past past', efsMapext_past past']
    simp only [efsMapext, place, one]
    rw [if_neg (by omega), if_neg (by omega)]

theorem insert_sorted (place : x.exOffset = lbn) (sorted : Sorted (front ++ rest)) :
    Sorted (front ++ x :: rest) := by
  rw [sorted_append] at sorted ⊢
  obtain ⟨first, last, between⟩ := sorted
  refine ⟨first, sorted_cons.mpr ⟨fun ex mem => ?_, last⟩, fun ex mem ex' mem' => ?_⟩
  · have later := ahead ex mem
    simp only [Before, place, one]
    omega
  · rcases List.mem_cons.mp mem' with rfl | mem'
    · have earlier := past ex mem
      simp only [Before, place]
      exact earlier
    · exact between ex mem ex' mem'

/-- An extent whose offset came out too small does not hold the block. -/
theorem insert_misplaced (low : x.exOffset < lbn) :
    (efsMapext lbn (front ++ x :: rest)).toNat = 0 := by
  rw [efsMapext_past past]
  have none := @efsMapext_ahead lbn [] rest ahead
  simp only [List.nil_append] at none
  simp only [efsMapext, one]
  rw [if_neg (by omega), if_neg (by omega), none]
  rfl

end Insert

/-! ## A longer extent -/

section Extend

/-- The extent with one more block. -/
def longer (ex : Extent) : Extent := { ex with exLength := ex.exLength + 1 }

@[simp] theorem longer_exOffset : (longer ex).exOffset = ex.exOffset := rfl

@[simp] theorem longer_exLength : (longer ex).exLength = ex.exLength + 1 := rfl

@[simp] theorem longer_exBn : (longer ex).exBn = ex.exBn := rfl

variable (ends : ex.exOffset + ex.exLength = lbn) (ahead : ∀ ex' ∈ rest, lbn < ex'.exOffset)
include ends

theorem extend_others (other : b ≠ lbn) :
    efsMapext b (front ++ longer ex :: rest) = efsMapext b (front ++ ex :: rest) := by
  have offset := @longer_exOffset ex
  have length := @longer_exLength ex
  apply efsMapext_congr
  simp only [efsMapext]
  rcases Nat.lt_or_gt_of_ne other with below | above
  · rw [offset, longer_exBn]
    split
    next => rfl
    next => rw [if_pos (by omega), if_pos (by omega)]
  · rw [if_neg (by omega), if_neg (by omega), if_neg (by omega), if_neg (by omega)]

theorem extend_here (sorted : Sorted (front ++ ex :: rest)) :
    efsMapext lbn (front ++ longer ex :: rest) = ex.exBn + ex.exLength := by
  have past : ∀ ex' ∈ front, ex'.exOffset + ex'.exLength ≤ lbn := by
    intro ex' mem
    have before := (sorted_append.mp sorted).2.2 ex' mem ex (List.mem_cons_self ..)
    simp only [Before] at before
    omega
  have offset := @longer_exOffset ex
  have length := @longer_exLength ex
  rw [efsMapext_past past]
  simp only [efsMapext]
  rw [if_neg (by omega), if_pos (by omega), longer_exBn]
  omega

include ahead

theorem extend_sorted (sorted : Sorted (front ++ ex :: rest)) :
    Sorted (front ++ longer ex :: rest) := by
  rw [sorted_append, sorted_cons] at sorted ⊢
  obtain ⟨first, ⟨_, last⟩, between⟩ := sorted
  refine ⟨first, ⟨fun ex' mem => ?_, last⟩, fun ex₁ mem ex₂ mem' => ?_⟩
  · have later := ahead ex' mem
    simp only [Before, longer]
    omega
  · rcases List.mem_cons.mp mem' with rfl | mem'
    · exact between ex₁ mem ex (List.mem_cons_self ..)
    · exact between ex₁ mem ex₂ (List.mem_cons_of_mem _ mem')

end Extend

/-! ## The place of a block -/

/-- The list parted where the extents stop to end at or before a block. -/
structure Parted (l : List Extent) (lbn : Nat) (front rest : List Extent) : Prop where
  eq : l = front ++ rest
  past : ∀ ex ∈ front, ex.exOffset + ex.exLength ≤ lbn
  stop : ∀ ex ∈ rest.head?, lbn < ex.exOffset + ex.exLength

/-- An extent holds the block. -/
def Mapped (l : List Extent) (lbn : Nat) : Prop :=
  ∃ ex ∈ l, ex.exOffset ≤ lbn ∧ lbn < ex.exOffset + ex.exLength

theorem exists_parted (l : List Extent) (lbn : Nat) : ∃ front rest, Parted l lbn front rest := by
  let ends : Extent → Bool := fun ex => decide (ex.exOffset + ex.exLength ≤ lbn)
  refine ⟨l.takeWhile ends, l.dropWhile ends, List.takeWhile_append_dropWhile.symm, ?_, ?_⟩
  · intro ex mem
    have here : ends ex = true := List.mem_takeWhile_imp mem
    simpa [ends] using here
  · intro ex mem
    have stop := List.head?_dropWhile_not ends l
    rw [Option.mem_def.mp mem] at stop
    simpa [ends] using stop

theorem Parted.behind {l : List Extent} (parted : Parted l lbn front rest) (sorted : Sorted l)
    (mem : ex ∈ rest) : lbn < ex.exOffset + ex.exLength := by
  cases rest with
  | nil => cases mem
  | cons first others =>
      have head := parted.stop first rfl
      rcases List.mem_cons.mp mem with rfl | mem
      · exact head
      · rw [parted.eq] at sorted
        have before := (sorted_cons.mp (sorted_append.mp sorted).2.1).1 ex mem
        simp only [Before] at before
        omega

/-- A block no extent holds is before all that follow. -/
theorem Parted.ahead {l : List Extent} (parted : Parted l lbn front rest) (sorted : Sorted l)
    (unmapped : ¬ Mapped l lbn) : ∀ ex ∈ rest, lbn < ex.exOffset := by
  intro ex mem
  have behind := parted.behind sorted mem
  by_contra low
  apply unmapped
  refine ⟨ex, ?_, Nat.le_of_not_lt low, behind⟩
  rw [parted.eq]
  exact List.mem_append_right front mem

/-- The place of a block that an extent holds. -/
theorem Parted.mapped {l : List Extent} (parted : Parted l lbn front rest) (sorted : Sorted l)
    (mapped : Mapped l lbn) : ∃ ex others, rest = ex :: others ∧ ex.exOffset ≤ lbn ∧
      efsMapext lbn l = ex.exBn + ((lbn : Int) - ex.exOffset) := by
  obtain ⟨ex, mem, low, high⟩ := mapped
  rw [parted.eq] at mem sorted
  have mem' : ex ∈ rest := by
    rcases List.mem_append.mp mem with first | last
    · have past := parted.past ex first
      omega
    · exact last
  cases rest with
  | nil => cases mem'
  | cons first others =>
      have head := parted.stop first rfl
      have same : ex = first := by
        rcases List.mem_cons.mp mem' with same | later
        · exact same
        · have before := (sorted_cons.mp (sorted_append.mp sorted).2.1).1 ex later
          simp only [Before] at before
          omega
      subst same
      refine ⟨ex, others, rfl, low, ?_⟩
      rw [parted.eq, efsMapext_past parted.past]
      simp only [efsMapext]
      rw [if_neg (by omega), if_pos (by omega)]

/-- An extent that ends where the block is wanted is the last one before it. -/
theorem Parted.last {l : List Extent} (parted : Parted l lbn front rest) (sorted : Sorted l)
    (real : ∀ ex ∈ l, 0 < ex.exLength) (mem : ex ∈ l) (ends : ex.exOffset + ex.exLength = lbn) :
    ∃ others, front = others ++ [ex] := by
  have first : ex ∈ front := by
    have here := mem
    rw [parted.eq] at here
    rcases List.mem_append.mp here with first | later
    · exact first
    · have behind := parted.behind sorted later
      omega
  obtain ⟨others, after, rfl⟩ := List.append_of_mem first
  rw [parted.eq, List.append_assoc, List.cons_append] at sorted
  refine ⟨others, ?_⟩
  cases after with
  | nil => rfl
  | cons next after =>
      have before := (sorted_cons.mp (sorted_append.mp sorted).2.1).1 next (List.mem_cons_self ..)
      have past := parted.past next
        (List.mem_append_right others (List.mem_cons_of_mem ex (List.mem_cons_self ..)))
      have some := real next (by rw [parted.eq]; simp)
      simp only [Before] at before
      omega

end Map

end Irix.Toyfs
