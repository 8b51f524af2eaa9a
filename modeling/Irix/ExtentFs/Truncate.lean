import Irix.ExtentFs.DiskFull
import Irix.ExtentFs.Ownership

/-! # What a truncation releases

The loops of `efs_dotrunc` hand a list of extents to `efs_free`.  Their blocks
and those of the extents that stay are the blocks of the old list, in order;
and a volume on which the old extents are in order has just these blocks free
afterwards.
-/

namespace Irix.ExtentFs

open Lib

/-- The extents that go when a list is cut to `n` blocks. -/
def tailFrom : Nat → List Extent → List Extent
  | 0, exts => exts
  | _ + 1, [] => []
  | n + 1, ex :: exts =>
      if n + 1 < ex.exLength then
        ⟨0, bits24 (ex.exBn + (n + 1)), bits8 (ex.exLength - (n + 1)), 0⟩ :: exts
      else tailFrom (n + 1 - ex.exLength) exts

/-- The numbers of the extent fit the fields they are kept in. -/
structure Extent.Fits (ex : Extent) : Prop where
  length : ex.exLength < 256
  blocks : ex.exBn + ex.exLength ≤ 16777216

/-! ## The extents that are freed -/

section Loop

variable {n newsizebb o : Nat} {vol : Volume} {exts : List Extent} {ex : Extent}

/-- A loop past the new end frees every extent. -/
theorem dotruncIndir_all (vol : Volume) (exts : List Extent) (past : newsizebb ≤ o) :
    (dotruncIndir newsizebb vol o exts).vol = exts.foldl Volume.free vol := by
  induction exts generalizing o vol with
  | nil => rfl
  | cons ex exts ih =>
      simp only [dotruncIndir, cutExtent, if_pos past, List.foldl_cons]
      exact ih _ (Nat.le_trans past (Nat.le_add_right ..))

theorem dotruncIndir_frees (newsizebb o : Nat) (vol : Volume) (exts : List Extent) :
    (dotruncIndir newsizebb vol o exts).vol =
      (tailFrom (newsizebb - o) exts).foldl Volume.free vol := by
  induction exts generalizing o with
  | nil => cases newsizebb - o <;> rfl
  | cons ex exts ih =>
      by_cases past : newsizebb ≤ o
      · simp only [dotruncIndir_all vol _ past, Nat.sub_eq_zero_of_le past, tailFrom]
      · obtain ⟨n, room⟩ : ∃ n, newsizebb - o = n + 1 := ⟨newsizebb - o - 1, by omega⟩
        by_cases less : newsizebb < o + ex.exLength
        · have partly : n + 1 < ex.exLength := by omega
          simp only [dotruncIndir, cutExtent, if_neg past, if_pos less, room, tailFrom,
            if_pos partly, List.foldl_cons]
          exact dotruncIndir_all _ _ (Nat.le_of_lt less)
        · have whole : ¬ n + 1 < ex.exLength := by omega
          have later : newsizebb - (o + ex.exLength) = n + 1 - ex.exLength := by omega
          simp only [dotruncIndir, cutExtent, if_neg past, if_neg less, room, tailFrom,
            if_neg whole, ih, later]

/-- An extent is the piece before a cut and the piece behind it. -/
theorem Extent.Fits.cut (fits : ex.Fits) (less : n < ex.exLength) :
    ex.blocks = ({ ex with exLength := n } : Extent).blocks ++
      (⟨0, bits24 (ex.exBn + n), bits8 (ex.exLength - n), 0⟩ : Extent).blocks := by
  have length := fits.length
  have blocks := fits.blocks
  have bn : bits24 (ex.exBn + n) = ex.exBn + n := bits24_fits (by omega)
  have rest : bits8 (ex.exLength - n) = ex.exLength - n := bits8_fits (by omega)
  simp only [Extent.blocks, bn, rest, List.range'_append_1, Nat.add_sub_cancel' (Nat.le_of_lt less)]

/-- What stays and what goes is what there was. -/
theorem blocksOf_cut (n : Nat) (exts : List Extent) (fits : ∀ ex ∈ exts, ex.Fits) :
    blocksOf exts = blocksOf (cutTo n exts) ++ blocksOf (tailFrom n exts) := by
  induction exts generalizing n with
  | nil => cases n <;> rfl
  | cons ex exts ih =>
      cases n with
      | zero => rfl
      | succ n =>
          have first := fits ex (List.mem_cons_self ..)
          have others : ∀ ex ∈ exts, ex.Fits := fun ex mem => fits ex (List.mem_cons_of_mem _ mem)
          by_cases partly : n + 1 < ex.exLength
          · simp only [cutTo, tailFrom, if_pos partly, blocksOf_cons, blocksOf_nil,
              List.append_nil, ← List.append_assoc, ← first.cut partly]
          · simp only [cutTo, tailFrom, if_neg partly, blocksOf_cons, List.append_assoc,
              ← ih (n + 1 - ex.exLength) others]

theorem blocksOf_tailFrom (n : Nat) (fits : ∀ ex ∈ exts, ex.Fits) :
    blocksOf (tailFrom n exts) = (blocksOf exts).drop n := by
  have parts := blocksOf_cut n exts fits
  rw [blocksOf_cutTo] at parts
  have same : (blocksOf exts).take n ++ (blocksOf exts).drop n =
      (blocksOf exts).take n ++ blocksOf (tailFrom n exts) := by
    rw [List.take_append_drop, ← parts]
  exact (List.append_cancel_left same).symm

end Loop

/-! ## The bit map -/

section Free

variable {fs : Efs} {ex other : Extent}

/-- Freeing a good extent. -/
theorem efsFree_valid (valid : ValidExtent fs ex) (sane : fs.fsCorrupted = false) :
    (efsFree fs ex).toGeometry = fs.toGeometry ∧ (efsFree fs ex).fsCorrupted = false ∧
      (efsFree fs ex).fsDmap = Bits.fill true fs.fsDmap ex.exBn ex.exLength ∧
      (efsFree fs ex).fsTfree = fs.fsTfree + ex.exLength := by
  have accepted := badExtent_eq_false.mpr valid
  simp only [efsFree, efsBadextent, sane, accepted, bfset_eq]
  exact ⟨rfl, sane, rfl, rfl⟩

/-- An extent with none of the freed blocks is as good as before. -/
theorem ValidExtent.after (valid : ValidExtent fs ex) (sane : fs.fsCorrupted = false)
    (kept : ValidExtent fs other) (apart : List.Disjoint ex.blocks other.blocks) :
    ValidExtent (efsFree fs ex) other := by
  obtain ⟨geometry, -, dmap, -⟩ := efsFree_valid valid sane
  constructor
  · rw [geometry]
    exact kept.toInData
  · intro i inside
    rw [dmap, Bits.fill_outside]
    · exact kept.used i inside
    · by_contra within
      exact apart (mem_blocks.mpr (by omega)) (mem_blocks.mpr (by omega : other.exBn ≤ _ ∧ other.exBn + i < _))

/-- Good extents without a block in common are all freed, and nothing else. -/
theorem freeAll_exact {vol : Volume} {exts : List Extent} (sane : vol.efs.fsCorrupted = false)
    (valid : ∀ ex ∈ exts, ValidExtent vol.efs ex) (nodup : (blocksOf exts).Nodup) :
    (∀ b, (exts.foldl Volume.free vol).efs.fsDmap b =
        if b ∈ blocksOf exts then true else vol.efs.fsDmap b) ∧
      (exts.foldl Volume.free vol).efs.fsTfree = vol.efs.fsTfree + lengthOf exts ∧
      (exts.foldl Volume.free vol).efs.fsCorrupted = false := by
  induction exts generalizing vol with
  | nil => simp [sane]
  | cons ex exts ih =>
      have first := valid ex (List.mem_cons_self ..)
      obtain ⟨-, sane', dmap, tfree⟩ := efsFree_valid first sane
      rw [blocksOf_cons] at nodup
      have apart := List.disjoint_of_nodup_append nodup
      have rest := @ih (vol.free ex) sane' (fun other mem =>
        first.after sane (valid other (List.mem_cons_of_mem _ mem)) fun b here there =>
          apart here (List.mem_flatMap.mpr ⟨other, mem, there⟩)) nodup.of_append_right
      obtain ⟨map, total, still⟩ := rest
      refine ⟨fun b => ?_, ?_, still⟩
      · rw [List.foldl_cons, map b, blocksOf_cons]
        simp only [Volume.free, dmap, List.mem_append, mem_blocks, Bits.fill]
        by_cases later : b ∈ blocksOf exts
        · simp only [later, or_true, if_true]
        · simp only [later, or_false, if_false]
      · rw [List.foldl_cons, total, lengthOf_cons]
        simp only [Volume.free, tfree, Nat.cast_add]
        omega

theorem ValidExtent.fits (valid : ValidExtent fs ex) : ex.Fits := by
  have within := fs.dataEnd_le_size valid.inside
  have limit := fs.fsSize_lt
  have high := valid.high
  exact ⟨Nat.lt_of_le_of_lt valid.length (by decide), by omega⟩

/-- The piece behind a cut is good as well. -/
theorem ValidExtent.cut {n : Nat} (valid : ValidExtent fs ex) (less : n < ex.exLength) :
    ValidExtent fs ⟨0, bits24 (ex.exBn + n), bits8 (ex.exLength - n), 0⟩ := by
  have length := valid.fits.length
  have blocks := valid.fits.blocks
  have low := valid.low
  have high := valid.high
  have short := valid.length
  have area : fs.InArea (fs.bbtocg ex.exBn) (ex.exBn + n) := ⟨valid.inside, by omega, by omega⟩
  have group : fs.bbtocg (ex.exBn + n) = fs.bbtocg ex.exBn := area.bbtocg
  have bn : bits24 (ex.exBn + n) = ex.exBn + n := bits24_fits (by omega)
  have rest : bits8 (ex.exLength - n) = ex.exLength - n := bits8_fits (by omega)
  rw [bn, rest]
  constructor
  · constructor
    all_goals simp only [group]
    · exact valid.inside
    all_goals omega
  · intro i inside
    have used := valid.used (n + i) (Nat.add_lt_of_lt_sub' inside)
    rwa [← Nat.add_assoc] at used

theorem tailFrom_valid {exts : List Extent} (n : Nat) (valid : ∀ ex ∈ exts, ValidExtent fs ex) :
    ∀ ex ∈ tailFrom n exts, ValidExtent fs ex := by
  induction exts generalizing n with
  | nil =>
      intro ex mem
      cases n <;> cases mem
  | cons first exts ih =>
      have others : ∀ ex ∈ exts, ValidExtent fs ex :=
        fun ex mem => valid ex (List.mem_cons_of_mem _ mem)
      cases n with
      | zero => exact valid
      | succ n =>
          by_cases partly : n + 1 < first.exLength
          · simp only [tailFrom, if_pos partly, List.mem_cons, forall_eq_or_imp]
            exact ⟨(valid first (List.mem_cons_self ..)).cut partly, others⟩
          · simp only [tailFrom, if_neg partly]
            exact ih _ others

end Free

/-! ## The truncation -/

/-- The blocks of indirect extents that `n` extents need. -/
def indirBlocks (n : Nat) : Nat :=
  if efsDirectextents < n then btobb (n * sizeofExtent) else 0

/-- The blocks a truncation to `newsizebb` blocks releases. -/
def releasedBlocks (newsizebb : Nat) (ip : Inode) : List Nat :=
  (blocksOf ip.iiExtents).drop newsizebb ++
    (blocksOf ip.iiIndir).drop (indirBlocks (cutTo newsizebb ip.iiExtents).length)

/-- What is left of an inode that is cut to `newsizebb` blocks, and what is released. -/
structure Released (newsizebb : Nat) (vol : Volume) (ip : Inode) (out : Volume × Inode) : Prop where
  exts : out.2.iiExtents = cutTo newsizebb ip.iiExtents
  contig : Contig 0 out.2.iiExtents
  total : lengthOf out.2.iiExtents = min newsizebb (lengthOf ip.iiExtents)
  blocks : blocksOf out.2.iiExtents = (blocksOf ip.iiExtents).take newsizebb
  indir : blocksOf out.2.iiIndir =
    (blocksOf ip.iiIndir).take (indirBlocks out.2.iiExtents.length)
  direct : out.2.iiExtents.length ≤ efsDirectextents → out.2.iiIndir = []
  counted : out.2.iiIndirbytes = bbtob (lengthOf out.2.iiIndir)
  enough : efsDirectextents < out.2.iiExtents.length →
    out.2.iiExtents.length * sizeofExtent ≤ out.2.iiIndirbytes
  frees : ∃ gone, out.1 = gone.foldl Volume.free vol ∧
    blocksOf gone = releasedBlocks newsizebb ip
  freed : vol.efs.fsCorrupted = false → (∀ ex ∈ ip.owned, ValidExtent vol.efs ex) →
    (blocksOf ip.owned).Nodup →
    (∀ b, out.1.efs.fsDmap b = if b ∈ releasedBlocks newsizebb ip then true else vol.efs.fsDmap b) ∧
      out.1.efs.fsTfree = vol.efs.fsTfree + (releasedBlocks newsizebb ip).length

section Dotrunc

variable {vol : Volume} {ip : Inode} {newsize : Nat}

/-- The two loops at work. -/
theorem efsDotrunc_eq (mapped : ip.iFtype.mapped = true) (shorter : newsize ≤ ip.iSize)
    (flagged : ip.iiTrunc = true) (contig : Contig 0 ip.iiExtents)
    (small : ∀ ex ∈ ip.owned, ex.exLength < 256) :
    efsDotrunc vol ip newsize =
      ((tailFrom (btobb newsize) ip.iiExtents ++
          tailFrom (indirBlocks (cutTo (btobb newsize) ip.iiExtents).length) ip.iiIndir).foldl
            Volume.free vol,
        { ip with
          iiExtents := cutTo (btobb newsize) ip.iiExtents
          iiIndir := cutTo (indirBlocks (cutTo (btobb newsize) ip.iiExtents).length) ip.iiIndir
          iiIndirbytes :=
            if cutTo (indirBlocks (cutTo (btobb newsize) ip.iiExtents).length) ip.iiIndir = [] ∧
                ip.iiIndir ≠ [] then 0
            else ip.iiIndirbytes - bbtob
              (lengthOf ip.iiIndir - indirBlocks (cutTo (btobb newsize) ip.iiExtents).length)
          iSize := newsize
          iiTrunc := false }) := by
  have direct := dotruncIndir_cut (btobb newsize) 0 vol fun ex (mem : ex ∈ ip.iiExtents) =>
    small ex (List.mem_append_left _ mem)
  rw [efsDotrunc, if_neg (by simp [mapped, flagged, shorter]), dotruncExtents_eq _ contig]
  simp only [Nat.sub_zero] at direct
  simp only [direct.2.1, dotruncIndir_frees, Nat.sub_zero]
  have indirect := dotruncIndir_cut (indirBlocks (cutTo (btobb newsize) ip.iiExtents).length) 0
    ((tailFrom (btobb newsize) ip.iiExtents).foldl Volume.free vol)
    fun ex (mem : ex ∈ ip.iiIndir) => small ex (List.mem_append_right _ mem)
  simp only [Nat.sub_zero] at indirect
  simp only [List.foldl_append]
  rw [← indirect.2.1, ← indirect.2.2]
  rfl

/-- The count of the indirect bytes goes along with the indirect extents. -/
theorem indirbytes_cutTo {bytes : Nat} (k : Nat) (indir : List Extent)
    (counted : bytes = bbtob (lengthOf indir)) :
    (if cutTo k indir = [] ∧ indir ≠ [] then 0 else bytes - bbtob (lengthOf indir - k)) =
      bbtob (lengthOf (cutTo k indir)) := by
  split
  next gone => simp only [gone.1, lengthOf_nil, bbtob, Nat.zero_mul]
  next =>
    simp only [cutTo_lengthOf, counted, bbtob]
    omega

theorem indirBlocks_enough {n m len : Nat} (many : efsDirectextents < n) (fewer : n ≤ m)
    (enough : m * sizeofExtent ≤ bbtob len) : n * sizeofExtent ≤ bbtob (min (indirBlocks n) len) := by
  have own : n * sizeofExtent ≤ bbtob (indirBlocks n) := by
    simp only [indirBlocks, if_pos many]
    exact le_bbtob_btobb _
  have others : n * sizeofExtent ≤ bbtob len :=
    Nat.le_trans (Nat.mul_le_mul_right _ fewer) enough
  rcases Nat.le_total (indirBlocks n) len with less | more
  · simp only [Nat.min_eq_left less, own]
  · simp only [Nat.min_eq_right more, others]

/-- The released extents are among the blocks of the inode. -/
theorem releasedBlocks_nodup (newsizebb : Nat) (nodup : (blocksOf ip.owned).Nodup) :
    (releasedBlocks newsizebb ip).Nodup := by
  rw [Inode.owned, blocksOf_append] at nodup
  rw [releasedBlocks]
  generalize indirBlocks (cutTo newsizebb ip.iiExtents).length = k
  exact nodup.sublist (List.Sublist.append (List.drop_sublist _ _) (List.drop_sublist k _))

end Dotrunc

/-- A truncation leaves the first blocks of a file, and the indirect blocks its extents still
    need, and releases all others. -/
theorem dotrunc_exact (vol : Volume) (ip : Inode) (newsize : Nat)
    (mapped : ip.iFtype.mapped = true) (shorter : newsize ≤ ip.iSize) (flagged : ip.iiTrunc = true)
    (contig : Contig 0 ip.iiExtents) (fits : ∀ ex ∈ ip.owned, ex.Fits)
    (counted : ip.iiIndirbytes = bbtob (lengthOf ip.iiIndir))
    (covered : efsDirectextents < ip.iiExtents.length →
      ip.iiExtents.length * sizeofExtent ≤ ip.iiIndirbytes) :
    Released (btobb newsize) vol ip (efsDotrunc vol ip newsize) ∧
      (efsDotrunc vol ip newsize).2.iSize = newsize := by
  have direct : ∀ ex ∈ ip.iiExtents, ex.Fits := fun ex mem => fits ex (List.mem_append_left _ mem)
  have indirect : ∀ ex ∈ ip.iiIndir, ex.Fits := fun ex mem => fits ex (List.mem_append_right _ mem)
  have fewer := cutTo_length_le (btobb newsize) ip.iiExtents
  rw [efsDotrunc_eq mapped shorter flagged contig fun ex mem => (fits ex mem).length]
  have bytes := indirbytes_cutTo (indirBlocks (cutTo (btobb newsize) ip.iiExtents).length)
    ip.iiIndir counted
  have gone : blocksOf (tailFrom (btobb newsize) ip.iiExtents ++
      tailFrom (indirBlocks (cutTo (btobb newsize) ip.iiExtents).length) ip.iiIndir) =
        releasedBlocks (btobb newsize) ip := by
    simp only [releasedBlocks, blocksOf_append, blocksOf_tailFrom _ direct,
      blocksOf_tailFrom _ indirect]
  constructor
  · constructor
    case exts => rfl
    case contig => exact cutTo_contig contig
    case total => exact cutTo_lengthOf _ _
    case blocks => exact blocksOf_cutTo _ _
    case indir => exact blocksOf_cutTo _ _
    case counted => exact bytes
    case frees => exact ⟨_, rfl, gone⟩
    case direct =>
      intro few
      simp only [indirBlocks, if_neg (Nat.not_lt.mpr few), cutTo_zero]
    case enough =>
      intro many
      dsimp only
      rw [bytes, cutTo_lengthOf]
      apply indirBlocks_enough many fewer
      rw [← counted]
      exact covered (Nat.lt_of_lt_of_le many fewer)
    case freed =>
      intro sane valid nodup
      have whole : ∀ ex ∈ tailFrom (btobb newsize) ip.iiExtents ++
          tailFrom (indirBlocks (cutTo (btobb newsize) ip.iiExtents).length) ip.iiIndir,
          ValidExtent vol.efs ex := by
        intro ex mem
        rcases List.mem_append.mp mem with file | area
        · exact tailFrom_valid _ (fun ex mem => valid ex (List.mem_append_left _ mem)) ex file
        · exact tailFrom_valid _ (fun ex mem => valid ex (List.mem_append_right _ mem)) ex area
      have all := freeAll_exact sane whole (gone ▸ releasedBlocks_nodup _ nodup)
      rw [← blocksOf_length, gone] at all
      exact ⟨all.1, all.2.1⟩
  · rfl

/-- A file of four blocks in two extents. -/
def fourBlocks : Inode :=
  ⟨5, .ifreg, 2048, 0, 0, true, 0, [], [⟨0, 10, 1, 0⟩, ⟨0, 21, 3, 1⟩]⟩

def mountedVolume : Volume :=
  ⟨efsMountany production fiveAndTen, fun _ => 0, fun _ _ => 0, 0, Extent.null⟩

theorem dotrunc_exact_four :
    Released (btobb 600) mountedVolume fourBlocks (efsDotrunc mountedVolume fourBlocks 600) ∧
      (efsDotrunc mountedVolume fourBlocks 600).2.iSize = 600 :=
  dotrunc_exact mountedVolume fourBlocks 600 rfl (by decide) rfl (by decide)
    (by
      intro ex mem
      simp only [fourBlocks, Inode.owned, List.append_nil, List.mem_cons, List.not_mem_nil,
        or_false] at mem
      rcases mem with rfl | rfl
      · exact ⟨by decide, by decide⟩
      · exact ⟨by decide, by decide⟩)
    rfl (by decide)

/-- The size of an inode says more than its extents hold. -/
theorem dotrunc_beyond_extents : ¬ lengthOf
    (efsDotrunc mountedVolume { fourBlocks with iiExtents := [] } 512).2.iiExtents = btobb 512 :=
  Nat.noConfusion

end Irix.ExtentFs
