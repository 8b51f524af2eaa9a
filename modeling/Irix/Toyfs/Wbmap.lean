import Irix.Toyfs.Rbmap
import Mathlib.Logic.Function.Basic

/-! # Writing the block map

`efs_bmap_write` of the toy filesystem library: a block gets a place by making
the extent before it longer or by putting a new extent between the others, in
the inode, in its indirect extent, or in a larger one.  Buffers are written out
when they are released.
-/

namespace Irix.Toyfs

open Lib ExtentFs

/-- patchable maximum extent length -/
def efsMaxext : Nat := 255

/-- The extents in an inode. -/
abbrev extsPerInode : Nat := efsDirectextents

/-- What is found at block `bn`, read as an array of extents. -/
def nbread (disk : Scatter.Store Extent) (bn : Nat) : Scatter.Store Extent :=
  fun i => disk (bn * extsPerbb + i)

/-- Write a buffer of `n` extents to block `bn`. -/
def bwrite (disk : Scatter.Store Extent) (bn n : Nat) (b : Scatter.Store Extent) :
    Scatter.Store Extent :=
  Scatter.put disk (bn * extsPerbb) (Scatter.get b 0 n)

/-- Copy `n` extents. -/
def bcopy (xp b : Scatter.Store Extent) (n : Nat) : Scatter.Store Extent :=
  fun i => if i < n then xp i else b i

/-- shove everything past the new extent -/
def shoveLoop (x : Extent) : (nxa p : Nat) → Scatter.Store Extent → Scatter.Store Extent
  | 0, p, xp => Function.update xp p x
  | nxa + 1, p, xp => shoveLoop x nxa (p - 1) (Function.update xp p (xp (p - 1)))

def efsShove (xp : Scatter.Store Extent) (nx wx : Nat) (x : Extent) : Scatter.Store Extent :=
  shoveLoop x (nx - wx) nx xp

/-- find the extent for a given logical block, and the offset from it, from
    extent `i` on.  There is no result if the loop leaves the array. -/
def efsFindext (nx lbn : Nat) : (i : Nat) → List Extent → Option (Nat × Int)
  | i, [] => if i < nx then none else some (i, 0)
  | i, xp :: xps =>
      let exoff : Int := lbn - xp.exOffset
      if exoff < xp.exLength then some (i, exoff) else efsFindext nx lbn (i + 1) xps

/-- What `efs_noshove_map` comes back with: the block or -1, `*_wx`, and what it
    leaves behind. -/
structure Noshove where
  bn : Int
  wx : Nat
  esp : EfsToyfs
  xp : Scatter.Store Extent

/-- try to map the block without shoving anything.  The array has room for
    `room` extents. -/
def efsNoshoveMap (core : Nat → Bool) (esp : EfsToyfs) (room : Nat) (xp : Scatter.Store Extent)
    (nx lbn : Nat) : Option Noshove :=
  (efsFindext nx lbn 0 (Scatter.get xp 0 (min room nx))).map fun (wx, exoff) =>
    if wx < nx ∧ 0 ≤ exoff then ⟨(xp wx).exBn + exoff, wx, esp, xp⟩
    else
      let wxp := xp (wx - 1)
      if 0 < nx ∧ 0 < wx ∧ wxp.exOffset + wxp.exLength = lbn ∧ wxp.exLength < efsMaxext then
        let xb := wxp.exBn + wxp.exLength
        match efsAdjDkalloc core esp xb with
        | (true, esp) =>
            let kluge := wxp.exLength + 1
            ⟨xb, wx, esp, Function.update xp (wx - 1) { wxp with exLength := bits8 kluge }⟩
        | (false, esp) => ⟨-1, wx, esp, xp⟩
      else ⟨-1, wx, esp, xp⟩

/-- transition from direct to indirect inode. -/
def efsTshove (core : Nat → Bool) (esp : EfsToyfs) (dip : Toyinode) (wx : Nat) (wxp : Extent) :
    Bool × EfsToyfs × Toyinode :=
  let (bn, esp) := efsDkalloc core esp 1
  let x : Extent := ⟨0, bits24 bn, 1, 0⟩
  if x.exBn = 0 then (false, esp, dip)
  else if !toyNgetblk core bbsize then (false, esp, dip)
  else
    let b := bcopy dip.diXp (nbread esp.disk x.exBn) efsDirectextents
    let b := efsShove b dip.diNx wx wxp
    (true, { esp with disk := bwrite esp.disk x.exBn extsPerbb b },
      ⟨dip.diNx + 1, Function.update (fun _ => Extent.null) 0 x⟩)

/-- expand an indirect extent!  There is no result if it reads or writes past
    the end of a buffer. -/
def efsIexpand (core : Nat → Bool) (esp : EfsToyfs) (dip : Toyinode) (wx : Nat) (wxp : Extent) :
    Option (Bool × EfsToyfs × Toyinode) :=
  let xp := dip.diXp 0
  let nx := dip.diNx
  let length := bits8 (xp.exLength + 1)
  let bp := nbread esp.disk xp.exBn
  let (bn, esp) := efsDkalloc core esp length
  let x : Extent := ⟨0, bits24 bn, length, 0⟩
  if x.exBn = 0 then some (false, esp, dip)
  else if !toyNgetblk core (bcount x.exLength) then some (false, esp, dip)
  else if xp.exLength * extsPerbb < nx ∨ x.exLength * extsPerbb < nx ∨
      x.exLength * extsPerbb ≤ wx then none
  else
    let wbp := bcopy bp (nbread esp.disk x.exBn) nx
    let wbp := efsShove wbp wx nx wxp
    let esp := { esp with disk := bwrite esp.disk x.exBn (x.exLength * extsPerbb) wbp }
    let esp := efsDkfree esp xp.exBn xp.exLength
    some (true, esp, ⟨nx + 1, Function.update dip.diXp 0 x⟩)

/-- What `efs_bmap_write` comes to: it returns -1, or it reads or writes past the
    end of a buffer, or it returns a block. -/
inductive Outcome where
  | fails
  | overruns
  | maps (bn : Int)
  deriving Repr, DecidableEq

/-- map a logical block number within a file to a physical block number on its
    volume. -/
def efsBmapWrite (core : Nat → Bool) (esp : EfsToyfs) (dip : Toyinode) (lbn : Nat) :
    Outcome × EfsToyfs × Toyinode :=
  let nx := dip.diNx
  if nx ≤ extsPerInode then
    match efsNoshoveMap core esp efsDirectextents dip.diXp nx lbn with
    | none => (.overruns, esp, dip)
    | some r =>
        let dip := { dip with diXp := r.xp }
        if 0 < r.bn then (.maps r.bn, r.esp, dip)
        else
          let (bn, esp) := efsDkalloc core r.esp 1
          if bn = 0 then (.fails, esp, dip)
          else
            let x : Extent := ⟨0, bits24 bn, 1, bits24 lbn⟩
            if nx < extsPerInode then
              (.maps bn, esp, ⟨nx + 1, efsShove dip.diXp nx r.wx x⟩)
            else
              match efsTshove core esp dip r.wx x with
              | (false, esp, dip) => (.fails, esp, dip)
              | (true, esp, dip) => (.maps bn, esp, dip)
  else
    let xp := dip.diXp 0
    let room := xp.exLength * extsPerbb
    match efsNoshoveMap core esp room (nbread esp.disk xp.exBn) nx lbn with
    | none => (.overruns, esp, dip)
    | some r =>
        if 0 < r.bn then
          (.maps r.bn, { r.esp with disk := bwrite r.esp.disk xp.exBn room r.xp }, dip)
        else
          let (bn, esp) := efsDkalloc core r.esp 1
          if bn = 0 then (.fails, esp, dip)
          else
            let x : Extent := ⟨0, bits24 bn, 1, bits24 lbn⟩
            if nx * sizeofExtent < bbtob xp.exLength then
              (.maps bn, { esp with disk := bwrite esp.disk xp.exBn room (efsShove r.xp nx r.wx x) },
                { dip with diNx := nx + 1 })
            else
              match efsIexpand core esp dip r.wx x with
              | none => (.overruns, esp, dip)
              | some (false, esp, dip) => (.fails, esp, dip)
              | some (true, esp, dip) => (.maps bn, esp, dip)

/-! ## Arrays of extents -/

section Arrays

variable {xp : Scatter.Store Extent} {disk : Scatter.Store Extent} {front rest l : List Extent}
  {x : Extent} {nx lbn : Nat}

theorem shoveLoop_apply (nxa wx i : Nat) : shoveLoop x nxa (wx + nxa) xp i =
    if i < wx then xp i else if i = wx then x else if i ≤ wx + nxa then xp (i - 1) else xp i := by
  induction nxa generalizing xp with
  | zero =>
      simp only [shoveLoop, Function.update_apply, Nat.add_zero]
      grind
  | succ nxa ih =>
      rw [shoveLoop, show wx + (nxa + 1) - 1 = wx + nxa by omega, ih]
      simp only [Function.update_apply]
      grind

/-- The new extent between those it was shoved between. -/
theorem get_efsShove (here : Scatter.get xp 0 nx = front ++ rest) :
    Scatter.get (efsShove xp nx front.length x) 0 (nx + 1) = front ++ x :: rest := by
  have count : nx = front.length + rest.length := by
    rw [← List.length_append, ← here, Scatter.length_get]
  have cell : ∀ i (inside : i < (front ++ rest).length), (front ++ rest)[i] = xp i := by
    rw [← here]
    intro i inside
    rw [Scatter.getElem_get, Nat.zero_add]
  have shoved : ∀ i, efsShove xp nx front.length x i = if i < front.length then xp i
      else if i = front.length then x else if i ≤ nx then xp (i - 1) else xp i := by
    intro i
    have loop := @shoveLoop_apply xp x rest.length front.length i
    rw [← count] at loop
    rw [efsShove, show nx - front.length = rest.length by omega, loop]
  apply List.ext_getElem
  · rw [Scatter.length_get, List.length_append, List.length_cons]
    omega
  · intro i inside inside'
    rw [Scatter.getElem_get, Nat.zero_add, shoved, List.getElem_append]
    rw [Scatter.length_get] at inside
    split
    next before =>
      rw [← cell i (by rw [List.length_append]; omega), List.getElem_append_left before]
    next behind =>
      rcases Nat.lt_or_eq_of_le (Nat.le_of_not_lt behind) with after | same
      · obtain ⟨k, rfl⟩ : ∃ k, i = front.length + k + 1 := ⟨i - front.length - 1, by omega⟩
        have old := cell (front.length + k) (by rw [List.length_append]; omega)
        rw [List.getElem_append_right (Nat.le_add_right _ _)] at old
        rw [if_neg (by omega), if_pos (by omega), Nat.add_sub_cancel, ← old]
        simp only [show front.length + k + 1 - front.length = k + 1 by omega, List.getElem_cons_succ,
          Nat.add_sub_cancel_left]
      · simp only [← same, if_true, Nat.sub_self, List.getElem_cons_zero]

/-- One cell of an array changed. -/
theorem get_update {n : Nat} (here : Scatter.get xp 0 n ++ l = front ++ x :: rest)
    (inside : front.length < n) (x' : Extent) :
    Scatter.get (Function.update xp front.length x') 0 n ++ l = front ++ x' :: rest := by
  have changed : Scatter.get (Function.update xp front.length x') 0 n =
      (Scatter.get xp 0 n).set front.length x' := by
    apply List.ext_getElem
    · rw [List.length_set, Scatter.length_get, Scatter.length_get]
    · intro i low high
      rw [Scatter.getElem_get, List.getElem_set, Scatter.getElem_get, Nat.zero_add,
        Function.update_apply]
      simp only [eq_comm]
  rw [changed, ← List.set_append_left _ _ (by rw [Scatter.length_get]; exact inside), here,
    List.set_append_right _ _ (Nat.le_refl _), Nat.sub_self, List.set_cons_zero]

theorem get_nbread (disk : Scatter.Store Extent) (bn n : Nat) :
    Scatter.get (nbread disk bn) 0 n = Scatter.get disk (bn * extsPerbb) n := by
  simp only [Scatter.get, nbread, Nat.zero_add]

theorem bwrite_nbread (disk : Scatter.Store Extent) (bn n : Nat) :
    bwrite disk bn n (nbread disk bn) = disk := by
  rw [bwrite, get_nbread, Scatter.put_get]

theorem get_bwrite {bn n k : Nat} (b : Scatter.Store Extent) (le : k ≤ n) :
    Scatter.get (bwrite disk bn n b) (bn * extsPerbb) k = Scatter.get b 0 k := by
  have whole := Scatter.get_put disk (bn * extsPerbb) (Scatter.get b 0 n)
  rw [Scatter.length_get] at whole
  rw [bwrite, ← Scatter.take_get _ _ le, whole, Scatter.take_get _ _ le]

theorem bwrite_outside {bn n i : Nat} (b : Scatter.Store Extent)
    (out : i < bn * extsPerbb ∨ bn * extsPerbb + n ≤ i) : bwrite disk bn n b i = disk i :=
  Scatter.put_outside (by rw [Scatter.length_get]; exact out)

theorem efsFindext_past (past : ∀ ex ∈ front, ex.exOffset + ex.exLength ≤ lbn) (i : Nat) :
    efsFindext nx lbn i (front ++ l) = efsFindext nx lbn (i + front.length) l := by
  induction front generalizing i with
  | nil => rfl
  | cons ex front ih =>
      have here := past ex (List.mem_cons_self ..)
      have rest := ih (fun other mem => past other (List.mem_cons_of_mem ex mem)) (i + 1)
      simp only [List.cons_append, efsFindext, rest, List.length_cons]
      rw [if_neg (by omega), Nat.add_right_comm, Nat.add_assoc]

end Arrays

/-! ## efs_noshove_map -/

/-- An extent that can take the block as one more of its own: it ends there, is
    not of maximum size, and the next block on the volume is to be had. -/
structure Extends (core : Nat → Bool) (esp : EfsToyfs) (l : List Extent) (lbn : Nat) (prev : Extent) :
    Prop where
  mem : prev ∈ l
  ends : prev.exOffset + prev.exLength = lbn
  short : prev.exLength < efsMaxext
  free : esp.bbitmap (prev.exBn + prev.exLength) = true
  buffer : toyNgetblk core bbsize = true

/-- Extents that hold something, in order. -/
structure Real (l : List Extent) : Prop where
  sorted : Sorted l
  bn : ∀ ex ∈ l, 0 < ex.exBn
  length : ∀ ex ∈ l, 0 < ex.exLength

/-- The array holds the list, as far as there is room. -/
structure Held (xp : Scatter.Store Extent) (room nx : Nat) (l : List Extent) : Prop where
  length : l.length = nx
  take : Scatter.get xp 0 (min room nx) = l.take (min room nx)

section Noshove

variable {core : Nat → Bool} {esp : EfsToyfs} {xp : Scatter.Store Extent} {room nx lbn : Nat}
  {l front rest : List Extent} (held : Held xp room nx l) (parted : Parted l lbn front rest)
include held parted

omit parted in
theorem Held.cell {i : Nat} (inside : i < min room nx) {before after : List Extent} {ex : Extent}
    (eq : l = before ++ ex :: after) (count : before.length = i) : xp i = ex := by
  subst count
  have here : (Scatter.get xp 0 (min room nx))[before.length]? = some (xp before.length) := by
    rw [List.getElem?_eq_getElem (by rw [Scatter.length_get]; exact inside), Scatter.getElem_get,
      Nat.zero_add]
  rw [held.take, List.getElem?_take_of_lt inside, eq,
    List.getElem?_append_right (Nat.le_refl _), Nat.sub_self, List.getElem?_cons_zero] at here
  exact (Option.some.inj here).symm

/-- The search leaves the array if it is not at rest when there is no more room. -/
theorem efsFindext_none (far : room ≤ front.length) (more : room < nx) :
    efsFindext nx lbn 0 (Scatter.get xp 0 (min room nx)) = none := by
  rw [held.take, parted.eq, List.take_append_of_le_length (by omega)]
  have past : ∀ ex ∈ front.take (min room nx), ex.exOffset + ex.exLength ≤ lbn := fun ex mem =>
    parted.past ex (List.mem_of_mem_take mem)
  have walk := @efsFindext_past (front.take (min room nx)) [] nx lbn past 0
  rw [List.append_nil] at walk
  rw [walk]
  simp only [efsFindext, List.length_take]
  rw [if_pos (by omega)]

/-- Where the search comes to rest. -/
theorem efsFindext_some (inside : nx ≤ room ∨ front.length < room) :
    ∃ exoff, efsFindext nx lbn 0 (Scatter.get xp 0 (min room nx)) = some (front.length, exoff) ∧
      ∀ ex ∈ rest.head?, exoff = (lbn : Int) - ex.exOffset := by
  have count : front.length + rest.length = nx := by
    rw [← held.length, parted.eq, List.length_append]
  have cut : l.take (min room nx) = front ++ rest.take (min room nx - front.length) := by
    rw [parted.eq, List.take_append, List.take_of_length_le (by omega)]
  rw [held.take, cut, efsFindext_past parted.past, Nat.zero_add]
  cases rest with
  | nil =>
      refine ⟨0, ?_, fun ex mem => nomatch mem⟩
      simp only [List.take_nil, efsFindext]
      rw [if_neg (by simp only [List.length_nil] at count; omega)]
  | cons ex rest =>
      have stop := parted.stop ex rfl
      obtain ⟨k, more⟩ : ∃ k, min room nx - front.length = k + 1 := by
        simp only [List.length_cons] at count
        exact ⟨min room nx - front.length - 1, by omega⟩
      refine ⟨(lbn : Int) - ex.exOffset, ?_, fun ex' mem => ?_⟩
      · rw [more, List.take_succ_cons]
        simp only [efsFindext]
        rw [if_pos (by omega)]
      · cases mem
        rfl

theorem efsNoshoveMap_overruns (far : room ≤ front.length) (more : room < nx) :
    efsNoshoveMap core esp room xp nx lbn = none := by
  simp only [efsNoshoveMap, efsFindext_none held parted far more, Option.map_none]

variable (inside : nx ≤ room ∨ front.length < room) (real : Real l)
include inside real

theorem efsNoshoveMap_mapped (mapped : Mapped l lbn) :
    efsNoshoveMap core esp room xp nx lbn = some ⟨efsMapext lbn l, front.length, esp, xp⟩ ∧
      0 < efsMapext lbn l := by
  obtain ⟨exoff, found, offset⟩ := efsFindext_some held parted inside
  obtain ⟨ex, others, rfl, low, place⟩ := parted.mapped real.sorted mapped
  have count : front.length + (others.length + 1) = nx := by
    rw [← held.length, parted.eq, List.length_append, List.length_cons]
  have cell : xp front.length = ex := held.cell (by omega) parted.eq rfl
  have here := offset ex rfl
  have positive := real.bn ex (by rw [parted.eq]; simp)
  simp only [efsNoshoveMap, found, Option.map_some, cell]
  rw [if_pos ⟨by omega, by omega⟩, place, here]
  exact ⟨rfl, by omega⟩

/-- What `efs_noshove_map` does about a block no extent holds. -/
theorem efsNoshoveMap_unmapped (unmapped : ¬ Mapped l lbn) :
    efsNoshoveMap core esp room xp nx lbn =
      (let wxp := xp (front.length - 1)
      if 0 < nx ∧ 0 < front.length ∧ wxp.exOffset + wxp.exLength = lbn ∧ wxp.exLength < efsMaxext then
        match efsAdjDkalloc core esp (wxp.exBn + wxp.exLength) with
        | (true, esp) => some ⟨(wxp.exBn + wxp.exLength : Nat), front.length, esp,
            Function.update xp (front.length - 1) { wxp with exLength := bits8 (wxp.exLength + 1) }⟩
        | (false, esp) => some ⟨-1, front.length, esp, xp⟩
      else some ⟨-1, front.length, esp, xp⟩) := by
  obtain ⟨exoff, found, offset⟩ := efsFindext_some held parted inside
  have none : ¬ (front.length < nx ∧ 0 ≤ exoff) := by
    rintro ⟨before, nonneg⟩
    cases rest with
    | nil =>
        rw [← held.length, parted.eq, List.append_nil] at before
        exact absurd before (Nat.lt_irrefl _)
    | cons ex rest =>
        have here := offset ex rfl
        have ahead := parted.ahead real.sorted unmapped ex (List.mem_cons_self ..)
        omega
  simp only [efsNoshoveMap, found, Option.map_some, if_neg none]
  split
  next =>
    generalize efsAdjDkalloc core esp _ = out
    obtain ⟨b, esp'⟩ := out
    cases b <;> rfl
  next => rfl

theorem efsNoshoveMap_extends (unmapped : ¬ Mapped l lbn) {prev : Extent}
    (joins : Extends core esp l lbn prev) :
    ∃ others esp', front = others ++ [prev] ∧ Taken esp esp' ∧
      efsNoshoveMap core esp room xp nx lbn = some ⟨(prev.exBn + prev.exLength : Nat), front.length, esp',
        Function.update xp others.length (longer prev)⟩ := by
  obtain ⟨others, rfl⟩ := parted.last real.sorted real.length joins.mem joins.ends
  have eq : l = others ++ prev :: rest := by
    rw [parted.eq, List.append_assoc, List.singleton_append]
  have count : others.length + 1 + rest.length = nx := by
    rw [← held.length, parted.eq, List.length_append, List.length_append, List.length_singleton]
  have wx : (others ++ [prev]).length = others.length + 1 := by
    rw [List.length_append, List.length_singleton]
  rw [wx] at inside
  have cell : xp others.length = prev := held.cell (by omega) eq rfl
  have short := joins.short
  have fits : bits8 (prev.exLength + 1) = prev.exLength + 1 :=
    bits8_fits (by simp only [efsMaxext] at short; omega)
  have taken := @efsAdjDkalloc_taken core esp (prev.exBn + prev.exLength)
  have grant : (efsAdjDkalloc core esp (prev.exBn + prev.exLength)).1 = true := by
    simp only [efsAdjDkalloc, joins.free, joins.buffer, if_true]
  rw [efsNoshoveMap_unmapped held parted (by rw [wx]; exact inside) real unmapped]
  simp only [wx, Nat.add_sub_cancel, cell]
  rw [if_pos ⟨by omega, Nat.succ_pos _, joins.ends, short⟩, fits]
  generalize efsAdjDkalloc core esp (prev.exBn + prev.exLength) = out at taken grant
  obtain ⟨b, esp'⟩ := out
  simp only at grant
  subst grant
  exact ⟨others, esp', rfl, taken, rfl⟩

theorem efsNoshoveMap_shoves (unmapped : ¬ Mapped l lbn) (none : ¬ ∃ prev, Extends core esp l lbn prev) :
    ∃ esp', Taken esp esp' ∧
      efsNoshoveMap core esp room xp nx lbn = some ⟨-1, front.length, esp', xp⟩ := by
  rw [efsNoshoveMap_unmapped held parted inside real unmapped]
  simp only
  split
  next fits =>
    obtain ⟨_, before, ends, short⟩ := fits
    obtain ⟨others, prev, rfl⟩ : ∃ others prev, front = others ++ [prev] := by
      rcases List.eq_nil_or_concat front with rfl | ⟨others, prev, eq⟩
      · exact absurd before (Nat.lt_irrefl 0)
      · exact ⟨others, prev, by rw [eq, List.concat_eq_append]⟩
    have eq : l = others ++ prev :: rest := by
      rw [parted.eq, List.append_assoc, List.singleton_append]
    have count : others.length + 1 + rest.length = nx := by
      rw [← held.length, parted.eq, List.length_append, List.length_append, List.length_singleton]
    have wx : (others ++ [prev]).length = others.length + 1 := by
      rw [List.length_append, List.length_singleton]
    rw [wx] at inside
    have cell : xp others.length = prev := held.cell (by omega) eq rfl
    simp only [wx, Nat.add_sub_cancel, cell] at ends short ⊢
    have taken := @efsAdjDkalloc_taken core esp (prev.exBn + prev.exLength)
    have refused : (efsAdjDkalloc core esp (prev.exBn + prev.exLength)).1 = false := by
      by_contra grant
      apply none
      refine ⟨prev, by rw [eq]; simp, ends, short, ?_, ?_⟩
      · by_contra used
        apply grant
        simp only [efsAdjDkalloc, used, if_false]
      · by_contra noBuffer
        apply grant
        simp only [efsAdjDkalloc, noBuffer, if_false]
        split <;> rfl
    generalize efsAdjDkalloc core esp (prev.exBn + prev.exLength) = out at taken refused
    obtain ⟨b, esp'⟩ := out
    simp only at refused
    subst refused
    exact ⟨esp', taken, rfl⟩
  next => exact ⟨esp, .refl esp, rfl⟩

end Noshove

/-! ## The map of an inode -/

/-- An inode of a volume that is in order: its extents are, its indirect extents
    have room for them, in different blocks that are in use, and the numbers
    fit the fields they are kept in. -/
structure Sane (esp : EfsToyfs) (dip : Toyinode) : Prop where
  real : Real (dip.extents esp.disk)
  room : efsDirectextents < dip.diNx → dip.diNx ≤ Scatter.capacity dip.chunks
  apart : efsDirectextents < dip.diNx → (dip.chunks.flatMap Scatter.cells).Nodup
  used : efsDirectextents < dip.diNx →
    ∀ i ∈ dip.chunks.flatMap Scatter.cells, esp.bbitmap (i / extsPerbb) = false
  field : (dip.diXp 0).exLength < 256
  addressable : esp.nbbitmap ≤ 2 ^ 24

/-- The map has grown by one block at most: `lbn` is at `bn`, everything else is
    where it was, and the extents are ones the kernel takes. -/
structure Grown (disk disk' : Scatter.Store Extent) (dip dip' : Toyinode) (lbn : Nat) (bn : Int) :
    Prop where
  here : efsBmapRead disk' dip' lbn = bn
  others : ∀ b, b ≠ lbn → (efsBmapRead disk' dip' b).toNat = (efsBmapRead disk dip b).toNat
  sorted : Sorted (dip'.extents disk')
  legal : ∀ ex ∈ dip'.extents disk', ex.exLength ≤ efsMaxextentlen

/-- `efs_bmap_write` comes back with a block, and the map has grown by it. -/
def GrowsMap (core : Nat → Bool) (esp : EfsToyfs) (dip : Toyinode) (lbn : Nat) : Prop :=
  ∃ bn esp' dip', efsBmapWrite core esp dip lbn = (.maps bn, esp', dip') ∧
    Grown esp.disk esp'.disk dip dip' lbn bn

/-- The extents the first indirect extent has room for. -/
def Toyinode.indirectRoom (dip : Toyinode) : Nat := (dip.diXp 0).exLength * extsPerbb

/-- When `efs_bmap_write` keeps the map in order. -/
structure Keeps (core : Nat → Bool) (esp : EfsToyfs) (dip : Toyinode) (lbn : Nat) : Prop where
  legal : ∀ ex ∈ dip.extents esp.disk, ex.exLength ≤ efsMaxextentlen
  -- the search ends within the first indirect extent
  within : efsDirectextents < dip.diNx → dip.diNx ≤ dip.indirectRoom ∨
    ∃ ex ∈ (dip.extents esp.disk).take dip.indirectRoom, lbn < ex.exOffset + ex.exLength
  step : Mapped (dip.extents esp.disk) lbn ∨
    (∃ prev, Extends core esp (dip.extents esp.disk) lbn prev ∧ prev.exLength < efsMaxextentlen) ∨
    (¬ ∃ prev, Extends core esp (dip.extents esp.disk) lbn prev) ∧ lbn < 2 ^ 24 ∧
      (efsDirectextents < dip.diNx → dip.diNx < dip.indirectRoom ∨
        dip.diNx = dip.indirectRoom ∧ (dip.diXp 0).exLength < 255 ∧
          ∀ ex ∈ dip.extents esp.disk, ex.exOffset + ex.exLength ≤ lbn)

section Grow

variable {disk disk' : Scatter.Store Extent} {dip dip' : Toyinode} {lbn : Nat} {bn : Int}
  {l front rest : List Extent} (real : Real (dip.extents disk))

/-- Nothing has changed. -/
theorem grown_same (real : Real (dip.extents disk)) (same : dip'.extents disk' = dip.extents disk) :
    Grown disk disk' dip dip' lbn (efsMapext lbn (dip.extents disk)) ↔
      ∀ ex ∈ dip.extents disk, ex.exLength ≤ efsMaxextentlen := by
  constructor
  · intro grown
    rw [← same]
    exact grown.legal
  · intro legal
    refine ⟨?_, fun b _ => ?_, ?_, ?_⟩
    · rw [efsBmapRead_eq, same]
    · rw [efsBmapRead_eq, efsBmapRead_eq, same]
    · rw [same]
      exact real.sorted
    · rw [same]
      exact legal

theorem grown_longer {others : List Extent} {prev : Extent} (real : Real (dip.extents disk))
    (eq : dip.extents disk = others ++ prev :: rest) (eq' : dip'.extents disk' = others ++ longer prev :: rest)
    (ends : prev.exOffset + prev.exLength = lbn) (ahead : ∀ ex ∈ rest, lbn < ex.exOffset) :
    Grown disk disk' dip dip' lbn (prev.exBn + prev.exLength : Nat) ↔
      (∀ ex ∈ dip.extents disk, ex.exLength ≤ efsMaxextentlen) ∧ prev.exLength < efsMaxextentlen := by
  have sorted := real.sorted
  rw [eq] at sorted
  constructor
  · intro grown
    have legal := grown.legal
    rw [eq'] at legal
    have last := legal (longer prev) (by simp)
    rw [longer_exLength] at last
    refine ⟨fun ex mem => ?_, last⟩
    rw [eq] at mem
    rcases List.mem_append.mp mem with mem | mem
    · exact legal ex (List.mem_append_left _ mem)
    · rcases List.mem_cons.mp mem with rfl | mem
      · exact Nat.le_of_lt last
      · exact legal ex (List.mem_append_right _ (List.mem_cons_of_mem _ mem))
  · rintro ⟨legal, short⟩
    refine ⟨?_, fun b other => ?_, ?_, fun ex mem => ?_⟩
    · rw [efsBmapRead_eq, eq', extend_here ends sorted]
      exact (Int.natCast_add _ _).symm
    · rw [efsBmapRead_eq, efsBmapRead_eq, eq, eq', extend_others ends other]
    · rw [eq']
      exact extend_sorted ends ahead sorted
    · rw [eq'] at mem
      rw [eq] at legal
      rcases List.mem_append.mp mem with mem | mem
      · exact legal ex (List.mem_append_left _ mem)
      · rcases List.mem_cons.mp mem with rfl | mem
        · exact short
        · exact legal ex (List.mem_append_right _ (List.mem_cons_of_mem _ mem))

/-- The extent made for a block. -/
def blockExtent (bn lbn : Nat) : Extent := ⟨0, bits24 bn, 1, bits24 lbn⟩

theorem grown_shoved {bn : Nat} (real : Real (dip.extents disk))
    (parted : Parted (dip.extents disk) lbn front rest)
    (unmapped : ¬ Mapped (dip.extents disk) lbn) (positive : 0 < bn) (fits : bn < 2 ^ 24)
    (eq' : dip'.extents disk' = front ++ blockExtent bn lbn :: rest) :
    Grown disk disk' dip dip' lbn bn ↔
      (∀ ex ∈ dip.extents disk, ex.exLength ≤ efsMaxextentlen) ∧ lbn < 2 ^ 24 := by
  have sorted := real.sorted
  have ahead := parted.ahead sorted unmapped
  have one : (blockExtent bn lbn).exLength = 1 := rfl
  have number : (blockExtent bn lbn).exBn = bn := bits24_fits fits
  constructor
  · intro grown
    constructor
    · intro ex mem
      apply grown.legal
      rw [parted.eq] at mem
      rw [eq']
      rcases List.mem_append.mp mem with mem | mem
      · exact List.mem_append_left _ mem
      · exact List.mem_append_right _ (List.mem_cons_of_mem _ mem)
    · by_contra far
      have here := grown.here
      have low : (blockExtent bn lbn).exOffset < lbn := by
        simp only [blockExtent, bits24]
        omega
      have lost := insert_misplaced parted.past ahead one low
      rw [efsBmapRead_eq, eq'] at here
      rw [here] at lost
      omega
  · rintro ⟨legal, near⟩
    have place : (blockExtent bn lbn).exOffset = lbn := bits24_fits near
    refine ⟨?_, fun b other => ?_, ?_, fun ex mem => ?_⟩
    · rw [efsBmapRead_eq, eq', insert_here parted.past one place, number]
    · rw [efsBmapRead_eq, efsBmapRead_eq, eq', parted.eq, insert_others parted.past ahead one place other]
    · rw [eq']
      rw [parted.eq] at sorted
      exact insert_sorted parted.past ahead one place sorted
    · rw [eq'] at mem
      rw [parted.eq] at legal
      rcases List.mem_append.mp mem with mem | mem
      · exact legal ex (List.mem_append_left _ mem)
      · rcases List.mem_cons.mp mem with rfl | mem
        · rw [one]
          decide
        · exact legal ex (List.mem_append_right _ mem)

/-- An extent that another one was written upon is lost. -/
theorem not_grown_overwritten {bn : Nat} {lost x : Extent} (real : Real (dip.extents disk))
    (parted : Parted (dip.extents disk) lbn front (lost :: rest))
    (unmapped : ¬ Mapped (dip.extents disk) lbn) (one : x.exLength = 1) (low : x.exOffset ≤ lbn)
    (eq' : dip'.extents disk' = front ++ x :: rest ++ [Extent.null]) :
    ¬ Grown disk disk' dip dip' lbn bn := by
  intro grown
  have sorted := real.sorted
  have ahead := parted.ahead sorted unmapped lost (List.mem_cons_self ..)
  have mem : lost ∈ dip.extents disk := by
    rw [parted.eq]
    simp
  have other := grown.others lost.exOffset (Nat.ne_of_gt ahead)
  have past : ∀ ex ∈ front, ex.exOffset + ex.exLength ≤ lost.exOffset := fun ex mem =>
    Nat.le_trans (parted.past ex mem) (Nat.le_of_lt ahead)
  have before : efsMapext lost.exOffset (dip.extents disk) = lost.exBn := by
    have some := real.length lost mem
    rw [parted.eq, efsMapext_past past]
    simp only [efsMapext]
    rw [if_neg (by omega), if_pos (by omega)]
    omega
  have after : (efsMapext lost.exOffset (dip'.extents disk')).toNat = 0 := by
    have behind : ∀ ex ∈ rest, lost.exOffset < ex.exOffset := by
      intro ex mem'
      have some := real.length lost mem
      rw [parted.eq] at sorted
      have before := (sorted_cons.mp (sorted_append.mp sorted).2.1).1 ex mem'
      simp only [Before] at before
      omega
    rw [eq', List.append_assoc, efsMapext_past past]
    simp only [List.cons_append, efsMapext, one]
    rw [if_neg (by omega), if_neg (by omega)]
    cases rest with
    | nil =>
        simp only [List.nil_append, efsMapext, Extent.null]
        rw [if_neg (by omega), if_neg (by omega)]
        rfl
    | cons ex rest =>
        have first := behind ex (List.mem_cons_self ..)
        simp only [List.cons_append, efsMapext]
        rw [if_pos (by omega)]
        rfl
  have positive := real.bn lost mem
  rw [efsBmapRead_eq, efsBmapRead_eq, before, after] at other
  omega

end Grow

section Keep

variable {core : Nat → Bool} {esp : EfsToyfs} {dip : Toyinode} {lbn : Nat} {front rest : List Extent}

theorem growsMap_iff {bn : Int} {esp' : EfsToyfs} {dip' : Toyinode}
    (out : efsBmapWrite core esp dip lbn = (.maps bn, esp', dip')) :
    GrowsMap core esp dip lbn ↔ Grown esp.disk esp'.disk dip dip' lbn bn := by
  constructor
  · rintro ⟨bn', esp₁, dip₁, out', grown⟩
    rw [out] at out'
    cases out'
    exact grown
  · intro grown
    exact ⟨bn, esp', dip', out, grown⟩

theorem not_growsMap {esp' : EfsToyfs} {dip' : Toyinode}
    (out : efsBmapWrite core esp dip lbn = (.overruns, esp', dip')) : ¬ GrowsMap core esp dip lbn := by
  rintro ⟨bn, esp₁, dip₁, out', _⟩
  rw [out] at out'
  cases out'

/-- The condition where the block has a place. -/
theorem keeps_mapped (mapped : Mapped (dip.extents esp.disk) lbn)
    (within : efsDirectextents < dip.diNx → dip.diNx ≤ dip.indirectRoom ∨
      ∃ ex ∈ (dip.extents esp.disk).take dip.indirectRoom, lbn < ex.exOffset + ex.exLength) :
    Keeps core esp dip lbn ↔ ∀ ex ∈ dip.extents esp.disk, ex.exLength ≤ efsMaxextentlen :=
  ⟨fun keeps => keeps.legal, fun legal => ⟨legal, within, Or.inl mapped⟩⟩

/-- The condition where an extent is made longer. -/
theorem keeps_extends {prev : Extent} (real : Real (dip.extents esp.disk))
    (unmapped : ¬ Mapped (dip.extents esp.disk) lbn)
    (joins : Extends core esp (dip.extents esp.disk) lbn prev)
    (within : efsDirectextents < dip.diNx → dip.diNx ≤ dip.indirectRoom ∨
      ∃ ex ∈ (dip.extents esp.disk).take dip.indirectRoom, lbn < ex.exOffset + ex.exLength) :
    Keeps core esp dip lbn ↔
      (∀ ex ∈ dip.extents esp.disk, ex.exLength ≤ efsMaxextentlen) ∧ prev.exLength < efsMaxextentlen := by
  constructor
  · intro keeps
    refine ⟨keeps.legal, ?_⟩
    rcases keeps.step with mapped | ⟨prev', joins', short⟩ | ⟨none, _⟩
    · exact absurd mapped unmapped
    · obtain ⟨front, rest, parted⟩ := exists_parted (dip.extents esp.disk) lbn
      obtain ⟨others, eq⟩ := parted.last real.sorted real.length joins.mem joins.ends
      obtain ⟨others', eq'⟩ := parted.last real.sorted real.length joins'.mem joins'.ends
      rw [eq] at eq'
      rw [(List.append_inj' eq' rfl).2 |> List.singleton_inj.mp]
      exact short
    · exact absurd ⟨prev, joins⟩ none
  · rintro ⟨legal, short⟩
    exact ⟨legal, within, Or.inr (Or.inl ⟨prev, joins, short⟩)⟩

/-- The condition where there has to be a new extent. -/
theorem keeps_shoves (unmapped : ¬ Mapped (dip.extents esp.disk) lbn)
    (none : ¬ ∃ prev, Extends core esp (dip.extents esp.disk) lbn prev) :
    Keeps core esp dip lbn ↔
      ((∀ ex ∈ dip.extents esp.disk, ex.exLength ≤ efsMaxextentlen) ∧ lbn < 2 ^ 24) ∧
        (efsDirectextents < dip.diNx → dip.diNx < dip.indirectRoom ∨
          dip.diNx = dip.indirectRoom ∧ (dip.diXp 0).exLength < 255 ∧
            ∀ ex ∈ dip.extents esp.disk, ex.exOffset + ex.exLength ≤ lbn) := by
  constructor
  · intro keeps
    rcases keeps.step with mapped | ⟨prev, joins, _⟩ | ⟨_, near, room⟩
    · exact absurd mapped unmapped
    · exact absurd ⟨prev, joins⟩ none
    · exact ⟨⟨keeps.legal, near⟩, room⟩
  · rintro ⟨⟨legal, near⟩, room⟩
    refine ⟨legal, fun many => ?_, Or.inr (Or.inr ⟨none, near, room⟩)⟩
    rcases room many with more | ⟨full, _⟩
    · exact Or.inl (Nat.le_of_lt more)
    · exact Or.inl (Nat.le_of_eq full)

end Keep

/-! ## Extents in the inode -/

theorem extents_direct (dip : Toyinode) (disk : Scatter.Store Extent)
    (direct : dip.diNx ≤ efsDirectextents) : dip.extents disk = Scatter.get dip.diXp 0 dip.diNx := by
  rw [Toyinode.extents, if_pos direct]

theorem chunks_cons (dip : Toyinode) : dip.chunks =
    ((dip.diXp 0).exBn * extsPerbb, dip.indirectRoom) ::
      chunksOf (Scatter.get dip.diXp 1 (efsDirectextents - 1)) := by
  rw [Toyinode.chunks, show efsDirectextents = 1 + (efsDirectextents - 1) from rfl, Scatter.get_add]
  rfl

/-- Extents that are all in the first indirect extent. -/
theorem extents_first (dip : Toyinode) (disk : Scatter.Store Extent)
    (many : efsDirectextents < dip.diNx) (fits : dip.diNx ≤ dip.indirectRoom) :
    dip.extents disk = Scatter.get disk ((dip.diXp 0).exBn * extsPerbb) dip.diNx := by
  rw [Toyinode.extents, if_neg (Nat.not_le_of_lt many), chunks_cons, Scatter.gather_first fits]

/-- A block that `efs_dkalloc` grants has a number that fits in an extent. -/
theorem granted_fits {core : Nat → Bool} {esp esp' : EfsToyfs} {l bn : Nat} (some : 1 ≤ l)
    (addressable : esp.nbbitmap ≤ 2 ^ 24) (out : efsDkalloc core esp l = (bn, esp')) (found : bn ≠ 0) :
    bn < 2 ^ 24 := by
  have run := (efsDkalloc_taken some out found).2.1
  have high := run.high
  omega

theorem efsTshove_extents {core : Nat → Bool} {esp esp' : EfsToyfs} {dip dip' : Toyinode}
    {front rest : List Extent} {x : Extent} (full : dip.diNx = efsDirectextents)
    (eq : Scatter.get dip.diXp 0 dip.diNx = front ++ rest)
    (out : efsTshove core esp dip front.length x = (true, esp', dip')) :
    dip'.extents esp'.disk = front ++ x :: rest := by
  simp only [efsTshove] at out
  split at out
  next => cases out
  next =>
    split at out
    next => cases out
    next =>
      cases out
      rw [extents_first]
      · simp only [Function.update_self]
        rw [get_bwrite _ (by rw [full]; decide)]
        apply get_efsShove
        rw [← eq]
        apply Scatter.get_congr
        intro k inside
        rw [full] at inside
        simp only [bcopy, Nat.zero_add, inside, if_true]
      · simp only [full]
        exact Nat.lt_succ_self _
      · simp only [full, Toyinode.indirectRoom, Function.update_self]
        decide

section Direct

variable {core : Nat → Bool} {esp : EfsToyfs} {dip : Toyinode} {lbn : Nat} {front rest : List Extent}
  (sane : Sane esp dip) (direct : dip.diNx ≤ efsDirectextents)
  (parted : Parted (dip.extents esp.disk) lbn front rest)

theorem held_direct (disk : Scatter.Store Extent) (direct : dip.diNx ≤ efsDirectextents) :
    Held dip.diXp efsDirectextents dip.diNx (dip.extents disk) := by
  rw [extents_direct dip disk direct]
  refine ⟨Scatter.length_get _ _ _, ?_⟩
  rw [Nat.min_eq_right direct, Scatter.take_get _ _ (Nat.le_refl _)]

include sane direct parted

theorem direct_mapped_iff (mapped : Mapped (dip.extents esp.disk) lbn) :
    GrowsMap core esp dip lbn ↔ Keeps core esp dip lbn := by
  have held := held_direct esp.disk direct
  obtain ⟨noshove, positive⟩ :=
    @efsNoshoveMap_mapped core esp _ _ _ _ _ _ _ held parted (Or.inl direct) sane.real mapped
  have out : efsBmapWrite core esp dip lbn =
      (.maps (efsMapext lbn (dip.extents esp.disk)), esp, dip) := by
    simp only [efsBmapWrite, direct, if_true, noshove, positive]
  rw [growsMap_iff out, keeps_mapped mapped fun many => absurd direct (Nat.not_le_of_lt many)]
  exact grown_same sane.real rfl

theorem direct_extends_iff (unmapped : ¬ Mapped (dip.extents esp.disk) lbn) {prev : Extent}
    (joins : Extends core esp (dip.extents esp.disk) lbn prev) :
    GrowsMap core esp dip lbn ↔ Keeps core esp dip lbn := by
  have held := held_direct esp.disk direct
  obtain ⟨others, esp', last, taken, noshove⟩ :=
    efsNoshoveMap_extends held parted (Or.inl direct) sane.real unmapped joins
  have ahead := parted.ahead sane.real.sorted unmapped
  have parts : dip.extents esp.disk = others ++ prev :: rest := by
    rw [parted.eq, last, List.append_assoc, List.singleton_append]
  have some := sane.real.bn prev joins.mem
  have out : efsBmapWrite core esp dip lbn = (.maps (prev.exBn + prev.exLength : Nat), esp',
      { dip with diXp := Function.update dip.diXp others.length (longer prev) }) := by
    simp only [efsBmapWrite, direct, if_true, noshove]
    rw [if_pos (by omega)]
  have before : Scatter.get dip.diXp 0 dip.diNx ++ [] = others ++ prev :: rest := by
    rw [List.append_nil, ← extents_direct dip esp.disk direct, parts]
  have room : others.length < dip.diNx := by
    rw [← held.length, parts, List.length_append, List.length_cons]
    omega
  have after : (⟨dip.diNx, Function.update dip.diXp others.length (longer prev)⟩ : Toyinode).extents
      esp'.disk = others ++ longer prev :: rest := by
    have whole := extents_direct ⟨dip.diNx, Function.update dip.diXp others.length (longer prev)⟩
      esp'.disk direct
    rw [whole, ← get_update before room (longer prev), List.append_nil]
  rw [growsMap_iff out,
    keeps_extends sane.real unmapped joins fun many => absurd direct (Nat.not_le_of_lt many)]
  exact grown_longer sane.real parts after joins.ends ahead

theorem direct_shoves_iff (unmapped : ¬ Mapped (dip.extents esp.disk) lbn)
    (none : ¬ ∃ prev, Extends core esp (dip.extents esp.disk) lbn prev)
    (ran : (efsBmapWrite core esp dip lbn).1 ≠ .fails) :
    GrowsMap core esp dip lbn ↔ Keeps core esp dip lbn := by
  have held := held_direct esp.disk direct
  have few : ¬ efsDirectextents < dip.diNx := Nat.not_lt_of_le direct
  have refused : ¬ (0 : Int) < -1 := by decide
  have here : Scatter.get dip.diXp 0 dip.diNx = front ++ rest := by
    rw [← extents_direct dip esp.disk direct, parted.eq]
  obtain ⟨esp', taken, noshove⟩ :=
    efsNoshoveMap_shoves held parted (Or.inl direct) sane.real unmapped none
  obtain ⟨bn, esp'', grant⟩ : ∃ bn esp'', efsDkalloc core esp' 1 = (bn, esp'') := ⟨_, _, rfl⟩
  have run : efsBmapWrite core esp dip lbn =
      if bn = 0 then (.fails, esp'', dip)
      else if dip.diNx < extsPerInode then
        (.maps bn, esp'', ⟨dip.diNx + 1, efsShove dip.diXp dip.diNx front.length (blockExtent bn lbn)⟩)
      else
        match efsTshove core esp'' dip front.length (blockExtent bn lbn) with
        | (false, esp, dip) => (.fails, esp, dip)
        | (true, esp, dip) => (.maps bn, esp, dip) := by
    simp only [efsBmapWrite, direct, if_true, noshove, refused, if_false, grant, blockExtent]
  rw [keeps_shoves unmapped none]
  simp only [few, false_implies, and_true]
  by_cases found : bn = 0
  · rw [run, if_pos found] at ran
    exact absurd rfl ran
  · have fits : bn < 2 ^ 24 :=
      granted_fits (Nat.le_refl 1) (by rw [taken.nbbitmap]; exact sane.addressable) grant found
    have positive := Nat.pos_of_ne_zero found
    rw [if_neg found] at run
    by_cases room : dip.diNx < efsDirectextents
    · rw [if_pos room] at run
      rw [growsMap_iff run]
      apply grown_shoved sane.real parted unmapped positive fits
      rw [extents_direct ⟨_, _⟩ _ room]
      exact get_efsShove here
    · rw [if_neg room] at run
      have full : dip.diNx = efsDirectextents := Nat.le_antisymm direct (Nat.le_of_not_lt room)
      obtain ⟨done, esp₁, dip₁, shoved⟩ : ∃ done esp₁ dip₁,
          efsTshove core esp'' dip front.length (blockExtent bn lbn) = (done, esp₁, dip₁) :=
        ⟨_, _, _, rfl⟩
      rw [shoved] at run
      cases done with
      | false =>
          rw [run] at ran
          exact absurd rfl ran
      | true =>
          rw [growsMap_iff run]
          exact grown_shoved sane.real parted unmapped positive fits (efsTshove_extents full here shoved)

end Direct

/-! ## Extents behind the inode -/

section Iexpand

variable {core : Nat → Bool} {esp : EfsToyfs} {dip : Toyinode} {wx : Nat} {x : Extent}

/-- What is left of a buffer that was to be expanded. -/
theorem efsIexpand_none (out : efsIexpand core esp dip wx x = none) :
    dip.indirectRoom < dip.diNx ∨ bits8 ((dip.diXp 0).exLength + 1) * extsPerbb < dip.diNx ∨
      bits8 ((dip.diXp 0).exLength + 1) * extsPerbb ≤ wx := by
  simp only [efsIexpand] at out
  split at out
  next => cases out
  next =>
    split at out
    next => cases out
    next =>
      split at out
      next past => exact past
      next => cases out

/-- An indirect extent one block larger, with the new extent written at `wx` in it. -/
theorem efsIexpand_true {esp₁ : EfsToyfs} {dip₁ : Toyinode}
    (out : efsIexpand core esp dip wx x = some (true, esp₁, dip₁)) :
    ∃ bn esp', efsDkalloc core esp (bits8 ((dip.diXp 0).exLength + 1)) = (bn, esp') ∧
      bits24 bn ≠ 0 ∧ dip.diNx ≤ dip.indirectRoom ∧
      dip.diNx ≤ bits8 ((dip.diXp 0).exLength + 1) * extsPerbb ∧
      esp₁.disk = bwrite esp'.disk (bits24 bn) (bits8 ((dip.diXp 0).exLength + 1) * extsPerbb)
        (efsShove (bcopy (nbread esp.disk (dip.diXp 0).exBn) (nbread esp'.disk (bits24 bn)) dip.diNx)
          wx dip.diNx x) ∧
      dip₁ = ⟨dip.diNx + 1,
        Function.update dip.diXp 0 ⟨0, bits24 bn, bits8 ((dip.diXp 0).exLength + 1), 0⟩⟩ := by
  obtain ⟨bn, esp', grant⟩ : ∃ bn esp', efsDkalloc core esp (bits8 ((dip.diXp 0).exLength + 1)) =
    (bn, esp') := ⟨_, _, rfl⟩
  simp only [efsIexpand, grant] at out
  split at out
  next => cases out
  next found =>
    split at out
    next => cases out
    next =>
      split at out
      next => cases out
      next room =>
        cases out
        refine ⟨bn, esp', grant, found, ?_, ?_, rfl, rfl⟩
        · exact Nat.le_of_not_lt fun less => room (Or.inl less)
        · exact Nat.le_of_not_lt fun less => room (Or.inr (Or.inl less))

end Iexpand

section Indirect

variable {core : Nat → Bool} {esp : EfsToyfs} {dip : Toyinode} {lbn : Nat} {front rest : List Extent}
  (sane : Sane esp dip) (many : efsDirectextents < dip.diNx)

/-- The extents of the first indirect extent, and those of the others. -/
theorem extents_indirect (dip : Toyinode) (disk : Scatter.Store Extent)
    (many : efsDirectextents < dip.diNx) : dip.extents disk =
      Scatter.get (nbread disk (dip.diXp 0).exBn) 0 (min dip.indirectRoom dip.diNx) ++
        Scatter.gather disk (chunksOf (Scatter.get dip.diXp 1 (efsDirectextents - 1)))
          (dip.diNx - dip.indirectRoom) := by
  rw [Toyinode.extents, if_neg (Nat.not_le_of_lt many), chunks_cons, Scatter.gather, get_nbread]

/-- With the first indirect extent written anew, and allocations made meanwhile. -/
theorem extents_bwrite {esp' : EfsToyfs} (sane : Sane esp dip) (many : efsDirectextents < dip.diNx)
    (taken : Taken esp esp') (b : Scatter.Store Extent) :
    dip.extents (bwrite esp'.disk (dip.diXp 0).exBn dip.indirectRoom b) =
      Scatter.get b 0 (min dip.indirectRoom dip.diNx) ++
        Scatter.gather esp.disk (chunksOf (Scatter.get dip.diXp 1 (efsDirectextents - 1)))
          (dip.diNx - dip.indirectRoom) := by
  rw [extents_indirect dip _ many, get_nbread, get_bwrite b (Nat.min_le_left _ _)]
  congr 1
  apply Scatter.gather_congr
  intro i mem
  have apart := sane.apart many
  have used := sane.used many i
  rw [chunks_cons, List.flatMap_cons] at apart used
  have out : i ∉ Scatter.cells ((dip.diXp 0).exBn * extsPerbb, dip.indirectRoom) := fun here =>
    (List.nodup_append'.mp apart).2.2 here mem
  rw [Scatter.cells, List.mem_range'_1] at out
  rw [bwrite_outside b (by omega), taken.disk i (used (List.mem_append_right _ mem))]

theorem held_indirect (sane : Sane esp dip) (many : efsDirectextents < dip.diNx) :
    Held (nbread esp.disk (dip.diXp 0).exBn) dip.indirectRoom dip.diNx (dip.extents esp.disk) := by
  constructor
  · rw [Toyinode.extents, if_neg (Nat.not_le_of_lt many), Scatter.length_gather _ (sane.room many)]
  · rw [extents_indirect dip esp.disk many, List.take_left' (Scatter.length_get _ _ _)]

/-- Allocations leave what is in the first indirect extent. -/
theorem nbread_taken {esp' : EfsToyfs} (sane : Sane esp dip) (many : efsDirectextents < dip.diNx)
    (taken : Taken esp esp') {n : Nat} (le : n ≤ dip.indirectRoom) :
    Scatter.get (nbread esp'.disk (dip.diXp 0).exBn) 0 n =
      Scatter.get (nbread esp.disk (dip.diXp 0).exBn) 0 n := by
  apply Scatter.get_congr
  intro k inside
  have used := sane.used many
  rw [chunks_cons, List.flatMap_cons] at used
  simp only [nbread, Nat.zero_add]
  apply taken.disk
  apply used
  apply List.mem_append_left
  exact List.mem_range'_1.mpr (by omega)

variable (parted : Parted (dip.extents esp.disk) lbn front rest)
include sane many parted

/-- The search comes to rest in the first indirect extent. -/
theorem within_of_inside (inside : dip.diNx ≤ dip.indirectRoom ∨ front.length < dip.indirectRoom) :
    efsDirectextents < dip.diNx → dip.diNx ≤ dip.indirectRoom ∨
      ∃ ex ∈ (dip.extents esp.disk).take dip.indirectRoom, lbn < ex.exOffset + ex.exLength := by
  intro _
  rcases inside with all | before
  · exact Or.inl all
  · rcases Nat.lt_or_ge dip.indirectRoom dip.diNx with more | all
    · have count := (held_indirect sane many).length
      rw [parted.eq, List.length_append] at count
      cases rest with
      | nil =>
          rw [List.length_nil] at count
          omega
      | cons ex rest =>
          apply Or.inr
          refine ⟨ex, ?_, parted.stop ex rfl⟩
          obtain ⟨k, left⟩ : ∃ k, dip.indirectRoom - front.length = k + 1 :=
            ⟨dip.indirectRoom - front.length - 1, by omega⟩
          rw [parted.eq, List.take_append, left, List.take_succ_cons]
          simp
    · exact Or.inl all

theorem indirect_overruns_iff (far : dip.indirectRoom ≤ front.length) (more : dip.indirectRoom < dip.diNx) :
    GrowsMap core esp dip lbn ↔ Keeps core esp dip lbn := by
  have noshove := @efsNoshoveMap_overruns core esp _ _ _ _ _ _ _ (held_indirect sane many) parted far more
  have out : efsBmapWrite core esp dip lbn = (.overruns, esp, dip) := by
    simp only [Toyinode.indirectRoom] at noshove
    simp only [efsBmapWrite, Nat.not_le_of_lt many, if_false, noshove]
  have lost : ¬ Keeps core esp dip lbn := by
    intro keeps
    rcases keeps.within many with all | ⟨ex, mem, high⟩
    · omega
    · rw [parted.eq, List.take_append_of_le_length far] at mem
      have past := parted.past ex (List.mem_of_mem_take mem)
      omega
  exact iff_of_false (not_growsMap out) lost

variable (inside : dip.diNx ≤ dip.indirectRoom ∨ front.length < dip.indirectRoom)
include inside

theorem indirect_mapped_iff (mapped : Mapped (dip.extents esp.disk) lbn) :
    GrowsMap core esp dip lbn ↔ Keeps core esp dip lbn := by
  obtain ⟨noshove, positive⟩ := @efsNoshoveMap_mapped core esp _ _ _ _ _ _ _ (held_indirect sane many)
    parted inside sane.real mapped
  have out : efsBmapWrite core esp dip lbn =
      (.maps (efsMapext lbn (dip.extents esp.disk)), esp, dip) := by
    simp only [Toyinode.indirectRoom] at noshove
    simp only [efsBmapWrite, Nat.not_le_of_lt many, if_false, noshove, positive, if_true, bwrite_nbread]
  rw [growsMap_iff out, keeps_mapped mapped (within_of_inside sane many parted inside)]
  exact grown_same sane.real rfl

theorem indirect_extends_iff (unmapped : ¬ Mapped (dip.extents esp.disk) lbn) {prev : Extent}
    (joins : Extends core esp (dip.extents esp.disk) lbn prev) :
    GrowsMap core esp dip lbn ↔ Keeps core esp dip lbn := by
  obtain ⟨others, esp', last, taken, noshove⟩ :=
    efsNoshoveMap_extends (held_indirect sane many) parted inside sane.real unmapped joins
  have ahead := parted.ahead sane.real.sorted unmapped
  have parts : dip.extents esp.disk = others ++ prev :: rest := by
    rw [parted.eq, last, List.append_assoc, List.singleton_append]
  have some := sane.real.bn prev joins.mem
  have count := (held_indirect sane many).length
  have wx : front.length = others.length + 1 := by
    rw [last, List.length_append, List.length_singleton]
  have room : others.length < min dip.indirectRoom dip.diNx := by
    rw [parted.eq, List.length_append] at count
    omega
  have out : efsBmapWrite core esp dip lbn = (.maps (prev.exBn + prev.exLength : Nat),
      { esp' with
        disk := bwrite esp'.disk (dip.diXp 0).exBn dip.indirectRoom
          (Function.update (nbread esp.disk (dip.diXp 0).exBn) others.length (longer prev)) }, dip) := by
    simp only [Toyinode.indirectRoom] at noshove ⊢
    simp only [efsBmapWrite, Nat.not_le_of_lt many, if_false, noshove]
    rw [if_pos (by omega)]
  have before := extents_indirect dip esp.disk many
  rw [parts] at before
  have after := extents_bwrite sane many taken
    (Function.update (nbread esp.disk (dip.diXp 0).exBn) others.length (longer prev))
  rw [get_update before.symm room] at after
  rw [growsMap_iff out,
    keeps_extends sane.real unmapped joins (within_of_inside sane many parted inside)]
  exact grown_longer sane.real parts after joins.ends ahead

omit parted inside in
/-- The extents after the expansion: the new one stands where it was to go, and
    what stood there is gone. -/
theorem efsIexpand_extents {esp₀ esp₁ : EfsToyfs} {dip₁ : Toyinode} {x : Extent}
    (taken : Taken esp esp₀) (parts : dip.extents esp.disk = front ++ rest)
    (length : (dip.diXp 0).exLength < 255)
    (out : efsIexpand core esp₀ dip front.length x = some (true, esp₁, dip₁)) :
    dip₁.extents esp₁.disk = front ++ x :: (rest ++ [Extent.null]).tail := by
  obtain ⟨bn, esp', grant, found, room, more, disk, rfl⟩ := efsIexpand_true out
  have len : bits8 ((dip.diXp 0).exLength + 1) = (dip.diXp 0).exLength + 1 := bits8_fits (by omega)
  rw [len] at grant more disk ⊢
  have some : bn ≠ 0 := fun zero => found (by rw [zero]; rfl)
  have fits : bits24 bn = bn :=
    bits24_fits (granted_fits (Nat.succ_pos _) (by rw [taken.nbbitmap]; exact sane.addressable) grant some)
  rw [fits] at disk ⊢
  have clear := (efsDkalloc_taken (Nat.succ_pos _) grant some).2.2
  rw [slots_fits (by omega)] at clear
  simp only [Toyinode.indirectRoom, extsPerbb] at room
  have whole := extents_first ⟨dip.diNx + 1, Function.update dip.diXp 0 ⟨0, bn, (dip.diXp 0).exLength + 1, 0⟩⟩
    esp₁.disk (Nat.lt_succ_of_lt many)
    (by simp only [Toyinode.indirectRoom, Function.update_self, extsPerbb]; omega)
  simp only [Function.update_self] at whole
  have here : Scatter.get (nbread esp₀.disk (dip.diXp 0).exBn) 0 dip.diNx = front ++ rest := by
    have fits : dip.diNx ≤ dip.indirectRoom := room
    rw [nbread_taken sane many taken fits, get_nbread, ← extents_first dip esp.disk many fits, parts]
  have count : dip.diNx = front.length + rest.length := by
    rw [← List.length_append, ← here, Scatter.length_get]
  have copied : Scatter.get (bcopy (nbread esp₀.disk (dip.diXp 0).exBn) (nbread esp'.disk bn) dip.diNx) 0
      (dip.diNx + 1) = front ++ (rest ++ [Extent.null]) := by
    rw [Scatter.get_add, ← List.append_assoc, ← here]
    congr 1
    · apply Scatter.get_congr
      intro k inside
      simp only [bcopy, Nat.zero_add, inside, if_true]
    · have last := clear dip.diNx (by simp only [extsPerbb]; omega)
      simp only [Scatter.get, List.range_one, List.map_cons, List.map_nil, Nat.zero_add, Nat.add_zero,
        bcopy, Nat.lt_irrefl, if_false, nbread, last]
  -- the arguments come in the other order here, and nothing is shoved
  have written : ∀ xp : Scatter.Store Extent,
      efsShove xp front.length dip.diNx x = Function.update xp front.length x := by
    intro xp
    rw [efsShove, show front.length - dip.diNx = 0 by omega]
    rfl
  rw [whole, disk, get_bwrite _ (by simp only [extsPerbb]; omega), written]
  obtain ⟨old, after, eq⟩ : ∃ old after, rest ++ [Extent.null] = old :: after := by
    cases rest with
    | nil => exact ⟨_, _, rfl⟩
    | cons ex rest => exact ⟨_, _, rfl⟩
  rw [eq, ← List.append_nil (Scatter.get _ _ _)] at copied
  rw [eq, List.tail_cons, ← get_update copied (by omega) x, List.append_nil]

/-- A new extent where there is room for it. -/
theorem indirect_shoves_iff (unmapped : ¬ Mapped (dip.extents esp.disk) lbn)
    (none : ¬ ∃ prev, Extends core esp (dip.extents esp.disk) lbn prev)
    (ran : (efsBmapWrite core esp dip lbn).1 ≠ .fails) :
    GrowsMap core esp dip lbn ↔ Keeps core esp dip lbn := by
  have refused : ¬ (0 : Int) < -1 := by decide
  obtain ⟨esp', taken, noshove⟩ :=
    efsNoshoveMap_shoves (held_indirect sane many) parted inside sane.real unmapped none
  obtain ⟨bn, esp'', grant⟩ : ∃ bn esp'', efsDkalloc core esp' 1 = (bn, esp'') := ⟨_, _, rfl⟩
  have run : efsBmapWrite core esp dip lbn =
      if bn = 0 then (.fails, esp'', dip)
      else if dip.diNx < dip.indirectRoom then
        (.maps bn, { esp'' with
          disk := bwrite esp''.disk (dip.diXp 0).exBn dip.indirectRoom
            (efsShove (nbread esp.disk (dip.diXp 0).exBn) dip.diNx front.length (blockExtent bn lbn)) },
          { dip with diNx := dip.diNx + 1 })
      else
        match efsIexpand core esp'' dip front.length (blockExtent bn lbn) with
        | Option.none => (.overruns, esp'', dip)
        | some (false, esp, dip) => (.fails, esp, dip)
        | some (true, esp, dip) => (.maps bn, esp, dip) := by
    have less : dip.diNx * sizeofExtent < bbtob (dip.diXp 0).exLength ↔ dip.diNx < dip.indirectRoom := by
      simp only [sizeofExtent, bbtob, Toyinode.indirectRoom, extsPerbb]
      omega
    simp only [Toyinode.indirectRoom] at noshove less ⊢
    simp only [efsBmapWrite, Nat.not_le_of_lt many, if_false, noshove, refused, grant, less, blockExtent]
    rfl
  rw [keeps_shoves unmapped none]
  simp only [many, true_implies]
  by_cases found : bn = 0
  · rw [run, if_pos found] at ran
    exact absurd rfl ran
  · have fits : bn < 2 ^ 24 :=
      granted_fits (Nat.le_refl 1) (by rw [taken.nbbitmap]; exact sane.addressable) grant found
    have positive := Nat.pos_of_ne_zero found
    rw [if_neg found] at run
    by_cases room : dip.diNx < dip.indirectRoom
    · rw [if_pos room] at run
      rw [growsMap_iff run, and_iff_left (Or.inl room)]
      apply grown_shoved sane.real parted unmapped positive fits
      have here := extents_indirect dip esp.disk many
      rw [Nat.sub_eq_zero_of_le (Nat.le_of_lt room), Scatter.gather_zero, List.append_nil,
        Nat.min_eq_right (Nat.le_of_lt room), parted.eq] at here
      have whole := extents_first { dip with diNx := dip.diNx + 1 } (bwrite esp''.disk (dip.diXp 0).exBn
        dip.indirectRoom
        (efsShove (nbread esp.disk (dip.diXp 0).exBn) dip.diNx front.length (blockExtent bn lbn)))
        (Nat.lt_succ_of_lt many) room
      rw [get_bwrite _ room] at whole
      rw [whole]
      exact get_efsShove here.symm
    · rw [if_neg room] at run
      cases expanded : efsIexpand core esp'' dip front.length (blockExtent bn lbn) with
      | none =>
          rw [expanded] at run
          apply iff_of_false (not_growsMap run)
          rintro ⟨_, more | ⟨full, length, _⟩⟩
          · exact room more
          · have past := efsIexpand_none expanded
            have count := (held_indirect sane many).length
            rw [parted.eq, List.length_append] at count
            rw [bits8_fits (by omega)] at past
            simp only [Toyinode.indirectRoom, extsPerbb] at full past
            omega
      | some result =>
          obtain ⟨done, esp₁, dip₁⟩ := result
          rw [expanded] at run
          cases done with
          | false =>
              rw [run] at ran
              exact absurd rfl ran
          | true =>
              have full : dip.diNx = dip.indirectRoom := by
                obtain ⟨_, _, _, _, le, _⟩ := efsIexpand_true expanded
                omega
              have length : (dip.diXp 0).exLength < 255 := by
                obtain ⟨_, _, _, _, _, le, _⟩ := efsIexpand_true expanded
                have field := sane.field
                by_contra long
                rw [show (dip.diXp 0).exLength = 255 by omega] at le
                simp only [bits8] at le
                omega
              have taken' := taken.trans (efsDkalloc_taken (Nat.le_refl 1) grant found).1
              have after := efsIexpand_extents sane many taken' parted.eq length expanded
              rw [growsMap_iff run]
              cases rest with
              | nil =>
                  rw [grown_shoved sane.real parted unmapped positive fits after]
                  refine (and_iff_left (Or.inr ⟨full, length, fun ex mem => ?_⟩)).symm
                  rw [parted.eq, List.append_nil] at mem
                  exact parted.past ex mem
              | cons lost rest =>
                  apply iff_of_false
                  · apply not_grown_overwritten sane.real parted unmapped (x := blockExtent bn lbn) rfl
                    · exact Nat.mod_le _ _
                    · rw [after]
                      simp only [List.cons_append, List.tail_cons, List.append_assoc]
                  · rintro ⟨_, more | ⟨_, _, all⟩⟩
                    · exact room more
                    · have ends := all lost (by rw [parted.eq]; simp)
                      have stop := parted.stop lost rfl
                      omega

end Indirect

/-- Whatever the block, `efs_bmap_write` that does not fail keeps the map in order
    exactly where it extends no extent of the kernel's maximum length, needs no
    extent beyond the first indirect one, and expands that only at its end. -/
theorem efsBmapWrite_grows_iff (core : Nat → Bool) (esp : EfsToyfs) (dip : Toyinode) (lbn : Nat)
    (sane : Sane esp dip) (ran : (efsBmapWrite core esp dip lbn).1 ≠ .fails) :
    GrowsMap core esp dip lbn ↔ Keeps core esp dip lbn := by
  obtain ⟨front, rest, parted⟩ := exists_parted (dip.extents esp.disk) lbn
  rcases Nat.lt_or_ge efsDirectextents dip.diNx with many | direct
  · by_cases inside : dip.diNx ≤ dip.indirectRoom ∨ front.length < dip.indirectRoom
    · by_cases mapped : Mapped (dip.extents esp.disk) lbn
      · exact indirect_mapped_iff sane many parted inside mapped
      · by_cases any : ∃ prev, Extends core esp (dip.extents esp.disk) lbn prev
        · obtain ⟨prev, joins⟩ := any
          exact indirect_extends_iff sane many parted inside mapped joins
        · exact indirect_shoves_iff sane many parted inside mapped any ran
    · exact indirect_overruns_iff sane many parted (by omega) (by omega)
  · by_cases mapped : Mapped (dip.extents esp.disk) lbn
    · exact direct_mapped_iff sane direct parted mapped
    · by_cases any : ∃ prev, Extends core esp (dip.extents esp.disk) lbn prev
      · obtain ⟨prev, joins⟩ := any
        exact direct_extends_iff sane direct parted mapped joins
      · exact direct_shoves_iff sane direct parted mapped any ran

/-- A file of one extent of the kernel's maximum length, at block 100. -/
def fullExtent : Toyinode := ⟨1, fun _ => ⟨0, 100, 248, 0⟩⟩

/-- Its volume, with the blocks from 348 to 359 free. -/
def fullVolume : EfsToyfs where
  fsFirstcg := 4
  fsTfree := 12
  bbitmap := fun i => decide (348 ≤ i ∧ i < 360)
  nbbitmap := 360
  brotor := 340
  disk := fun _ => Extent.null

theorem fullExtent_sane : Sane fullVolume fullExtent where
  real := by
    have list : fullExtent.extents fullVolume.disk = [⟨0, 100, 248, 0⟩] := rfl
    rw [list]
    exact ⟨List.pairwise_singleton _ _, by decide, by decide⟩
  room := fun many => absurd many (by decide)
  apart := fun many => absurd many (by decide)
  used := fun many => absurd many (by decide)
  field := by decide
  addressable := by decide

theorem efsBmapWrite_grows_iff_fullExtent : Sane fullVolume fullExtent ∧
    (efsBmapWrite (fun _ => true) fullVolume fullExtent 300).1 = .maps 348 ∧
    (GrowsMap (fun _ => true) fullVolume fullExtent 300 ↔
      Keeps (fun _ => true) fullVolume fullExtent 300) :=
  ⟨fullExtent_sane, by decide,
    efsBmapWrite_grows_iff _ _ _ 300 fullExtent_sane (by decide)⟩

/-- The next block of the file makes its extent one that the kernel does not take. -/
theorem efsBmapWrite_too_long : Sane fullVolume fullExtent ∧
    (efsBmapWrite (fun _ => true) fullVolume fullExtent 248).1 = .maps 348 ∧
    ¬ GrowsMap (fun _ => true) fullVolume fullExtent 248 := by
  refine ⟨fullExtent_sane, by decide, ?_⟩
  rintro ⟨bn, esp', dip', out, grown⟩
  have longest : (efsBmapWrite (fun _ => true) fullVolume fullExtent 248).2.2.extents esp'.disk =
      [⟨0, 100, 249, 0⟩] := by
    rfl
  rw [out] at longest
  have legal := grown.legal ⟨0, 100, 249, 0⟩
  rw [longest] at legal
  exact absurd (legal (List.mem_singleton.mpr rfl)) (by decide)

end Irix.Toyfs
