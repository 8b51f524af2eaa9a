import Irix.Fsck.Phase1

/-! # Clearing inodes

An inode that is cleared withdraws its claims: a repeat is taken out of
`duplist`, and the bit goes with the last claim.  `pass4` does not look whether
a block lies in an inode area, as `pass1` does.
-/

namespace Irix.Fsck

open Lib ExtentFs

section Code

variable (im : Image)

/-- `zapino`: the inode is cleared on the disk. -/
def zapino (inum : Nat) (fk : Scan) : Scan :=
  { fk with
    inodes := Function.update fk.inodes inum ⟨.none, 0, 0, List.replicate efsDirectextents Extent.null⟩ }

/-- quietly clear inode -/
def clrinode (fk : Scan) (inum : Nat) : Scan :=
  let fk := { fk with nFiles := fk.nFiles - 1 }
  zapino inum (ckaddr im (pass4 im.sb) inum fk).1

/-- Phase 1, and some inodes cleared after it. -/
def Image.cleared (inums : List Nat) : Scan := inums.foldl (clrinode im) (phase1 im)

end Code

/-- The block map and `duplist` tally the claims that are left; the order in
    `duplist` does not matter any more. -/
structure Remains (sb : Layout) (claims : List Nat) (fk : Blocks) : Prop where
  tally : Tally (fun b => keeps sb b = true) fk.blkmap fk.dups claims fk.nBlks
  other : ∀ b, keeps sb b = false → fk.blkmap b = (initBmap sb blank).blkmap b

section Withdraw

variable {sb : Layout} {claims blks : List Nat} {fk : Blocks} {b : Nat}

/-- Taking the last dup for the one found. -/
theorem dropDup_perm {dups : List Nat} {j : Nat} (found : dups.idxOf? b = some j) :
    dups.Perm (b :: (dups.set j (dups.getLastD 0)).dropLast) := by
  obtain ⟨within, here, _⟩ := List.idxOf?_eq_some_iff.mp found
  rcases List.eq_nil_or_concat' dups with none | ⟨init, last, concat⟩
  · rw [none] at within
    exact absurd within (Nat.not_lt_zero j)
  · subst concat
    have lastD : (init ++ [last]).getLastD 0 = last := by
      rw [List.getLastD_eq_getLast?, List.getLast?_concat]
      rfl
    rw [List.length_append, List.length_singleton] at within
    rw [lastD]
    rcases Nat.lt_or_ge j init.length with inside | end_
    · rw [List.getElem_append_left inside] at here
      have moved : (init.set j last).Perm (last :: init.eraseIdx j) :=
        List.set_perm_cons_eraseIdx inside last
      have back : (b :: init.eraseIdx j).Perm init := by
        rw [← here]
        exact List.getElem_cons_eraseIdx_perm inside
      rw [List.set_append_left j last inside, List.dropLast_concat]
      refine (List.perm_append_singleton last init).trans ?_
      refine ((back.symm.cons last).trans (List.Perm.swap b last _)).trans ?_
      exact (moved.symm).cons b
    · have equal : j = init.length := by omega
      subst equal
      rw [List.getElem_append_right (Nat.le_refl _)] at here
      simp only [Nat.sub_self, List.getElem_cons_zero] at here
      rw [List.set_append_right init.length last (Nat.le_refl _), Nat.sub_self,
        List.set_cons_zero, List.dropLast_concat, here]
      exact List.perm_append_singleton b init

/-- `pass4` withdraws one claim. -/
theorem Remains.pass4 (remains : Remains sb claims fk) (clean : keeps sb b = true ∨ outrange sb b = true) :
    Remains sb (claims.erase b) (pass4 sb fk b).1 := by
  have tally := remains.tally
  unfold Fsck.pass4
  by_cases out : outrange sb b = true
  · have none : b ∉ claims := fun mem => by
      have data := tally.inside b mem
      simp only [keeps, out, Bool.not_true, Bool.false_and, Bool.false_eq_true] at data
    rw [if_pos out, List.erase_of_not_mem none]
    exact remains
  have data : keeps sb b = true := clean.resolve_right out
  rw [if_neg out]
  by_cases set : fk.blkmap b = true
  · rw [if_pos set]
    cases found : fk.dups.idxOf? b with
    | some j =>
        have perm := dropDup_perm found
        have mem : b ∈ fk.dups := perm.symm.subset (List.mem_cons_self ..)
        exact ⟨tally.less mem perm, remains.other⟩
    | none =>
        refine ⟨tally.last data set (List.idxOf?_eq_none_iff.mp found), fun a other => ?_⟩
        have apart : a ≠ b := fun equal => by
          rw [equal, data] at other
          cases other
        have same : Bits.fill false fk.blkmap b 1 a = fk.blkmap a := Bits.fill_outside (by omega)
        exact same.trans (remains.other a other)
  · rw [if_neg set, tally.absent data (Bool.eq_false_of_not_eq_true set)]
    exact remains

theorem Remains.feed (remains : Remains sb claims fk)
    (clean : ∀ b ∈ blks, keeps sb b = true ∨ outrange sb b = true) :
    Remains sb (claims.diff blks) (feed (Fsck.pass4 sb) blks fk) := by
  induction blks generalizing claims fk with
  | nil => exact remains
  | cons b blks ih =>
      rw [List.diff_cons]
      exact ih (remains.pass4 (clean b (List.mem_cons_self ..)))
        fun a mem => clean a (List.mem_cons_of_mem _ mem)

theorem pass4_ret (fk : Blocks) (b : Nat) :
    (Fsck.pass4 sb fk b).2 = if !outrange sb b then .keepon else .skip := by
  unfold Fsck.pass4
  cases out : outrange sb b with
  | true => rfl
  | false =>
      simp only [Bool.false_eq_true, if_false, Bool.not_false, if_true]
      split
      · split <;> rfl
      · rfl

theorem pass4_decides (sb : Layout) :
    Decides (Fsck.pass4 sb) (fun _ => True) (fun b => !outrange sb b) :=
  ⟨fun _ _ _ => trivial, fun fk _ b => Or.inr (pass4_ret fk b)⟩

/-- Nothing stops the traversal of an inode that is cleared. -/
theorem pass4_going (blks : List Nat) (fk : Blocks) : (visit (Fsck.pass4 sb) blks fk).2 ≠ .stop := by
  intro stop
  obtain ⟨pre, b, _, _, _, stops, _⟩ := visit_cut stop
  rw [pass4_ret] at stops
  split at stops <;> cases stops

end Withdraw

section Volume

variable {im : Image} {fk : Scan} {seen : List Nat}

/-- An inode that claims no block of an inode area is seen alike in Phase 1 and
    when it is cleared. -/
theorem clrinode_remains {claims : List Nat} (remains : Remains im.sb claims fk.blocks) {inum : Nat}
    (same : fk.inodes inum = im.inodes inum)
    (clean : ∀ b ∈ im.claims inum, ¬InodeArea im.sb b) :
    Remains im.sb (claims.diff (im.claims inum)) (clrinode im fk inum).blocks := by
  have placed : ∀ b ∈ im.claims inum, keeps im.sb b = true ∨ outrange im.sb b = true := by
    intro b mem
    cases out : outrange im.sb b with
    | true => exact Or.inr rfl
    | false =>
        have data : dataBlock im.sb b ≠ false := fun none => clean b mem ((inodeArea_iff out).mp none)
        refine Or.inl ?_
        simp only [keeps, out, Bool.not_false, Bool.true_and]
        exact Bool.eq_true_of_not_eq_false data
  have alike : Fsck.claims (fun b => !outrange im.sb b) (outrange im.sb) im.disk (im.inodes inum) =
      im.claims inum := by
    refine claims_congr fun b mem => ?_
    rcases placed b mem with data | out
    · simp only [keeps, Bool.and_eq_true] at data
      rw [data.1]
      simp only [keeps, data.1, data.2, Bool.and_self]
    · simp only [keeps, out, Bool.not_true, Bool.false_and]
  obtain ⟨fed, _, _⟩ : Fed (pass4 im.sb) _ fk.blocks _ _ ∧ _ ∧ _ :=
    ckinode_follows (pass4_decides im.sb) (outrange im.sb) im.disk (im.inodes inum) trivial
  have full := fed.full fun stop => pass4_going _ _ (fed.stops.mp stop)
  rw [alike] at full
  unfold clrinode zapino ckaddr
  dsimp only
  rw [same, full]
  exact remains.feed placed

/-- Clearing some inodes withdraws their claims. -/
theorem clrinode_loop {claims inums : List Nat} (nodup : inums.Nodup)
    (remains : Remains im.sb claims fk.blocks) (same : ∀ i ∈ inums, fk.inodes i = im.inodes i)
    (clean : ∀ i ∈ inums, ∀ b ∈ im.claims i, ¬InodeArea im.sb b) :
    Remains im.sb (claims.diff (inums.flatMap im.claims)) (inums.foldl (clrinode im) fk).blocks := by
  induction inums generalizing claims fk with
  | nil => exact remains
  | cons inum inums ih =>
      obtain ⟨apart, others⟩ := List.nodup_cons.mp nodup
      rw [List.flatMap_cons, List.diff_append, List.foldl_cons]
      refine ih others ?_ (fun i mem => ?_) fun i mem => clean i (List.mem_cons_of_mem _ mem)
      · exact clrinode_remains remains (same inum (List.mem_cons_self ..))
          (clean inum (List.mem_cons_self ..))
      · have different : i ≠ inum := fun equal => apart (equal ▸ mem)
        have left : (clrinode im fk inum).inodes i = fk.inodes i :=
          Function.update_of_ne different _ _
        exact left.trans (same i (List.mem_cons_of_mem _ mem))

theorem Image.scanned_nodup (im : Image) : im.scanned.Nodup := by
  unfold Image.scanned
  apply List.Nodup.filter
  exact List.nodup_range'

/-- Where only the inodes `inums` claim a block, they have all its claims. -/
theorem claims_count {im : Image} {inums scanned : List Nat} {b : Nat} (nodup : scanned.Nodup)
    (only : ∀ i ∈ scanned, b ∈ im.claims i → i ∈ inums) :
    (scanned.flatMap im.claims).count b ≤ (inums.flatMap im.claims).count b := by
  induction scanned generalizing inums with
  | nil => exact Nat.zero_le _
  | cons i scanned ih =>
      obtain ⟨apart, others⟩ := List.nodup_cons.mp nodup
      rw [List.flatMap_cons, List.count_append]
      by_cases claimed : b ∈ im.claims i
      · have mem : i ∈ inums := only i (List.mem_cons_self ..) claimed
        have fewer : ∀ j ∈ scanned, b ∈ im.claims j → j ∈ inums.erase i := by
          intro j among hit
          refine (List.mem_erase_of_ne ?_).mpr (only j (List.mem_cons_of_mem _ among) hit)
          rintro rfl
          exact apart among
        have rest := ih others fewer
        have whole : ((inums.flatMap im.claims)).Perm
            (im.claims i ++ (inums.erase i).flatMap im.claims) :=
          (List.perm_cons_erase mem).flatMap_right im.claims
        rw [whole.count_eq, List.count_append]
        omega
      · rw [List.count_eq_zero_of_not_mem claimed, Nat.zero_add]
        exact ih others fun j among => only j (List.mem_cons_of_mem _ among)

/-- After Phase 1 and the clearing of inodes that claim no block of an inode
    area, a data block has its bit set if Phase 1 entered more of its claims
    than the cleared inodes have; for a block all of whose claims were entered,
    if some inode still claims it.  The bits of the inode areas and below them
    stay set, and `n_blks` counts the data blocks whose bit is set. -/
theorem counted_exactly (im : Image) (inums : List Nat) (nodup : inums.Nodup)
    (scanned : inums ⊆ im.scanned)
    (clean : ∀ i ∈ inums, ∀ b ∈ im.claims i, ¬InodeArea im.sb b) :
    let fk := (im.cleared inums).blocks
    (∀ b, keeps im.sb b = true →
      (fk.blkmap b = true ↔ (inums.flatMap im.claims).count b < im.entered.count b)) ∧
    (∀ b, keeps im.sb b = true → im.entered.count b = (im.scanned.flatMap im.claims).count b →
      (fk.blkmap b = true ↔ ∃ i ∈ im.scanned, i ∉ inums ∧ b ∈ im.claims i)) ∧
    (∀ b, b < im.sb.fsFirstcg ∨ InodeArea im.sb b → fk.blkmap b = true) ∧
    fk.nBlks =
      ((Finset.range im.sb.fsSize).filter fun b => keeps im.sb b = true ∧ fk.blkmap b = true).card := by
  intro fk
  obtain ⟨start, same⟩ := phase1_entered im
  have remains : Remains im.sb (im.entered.diff (inums.flatMap im.claims)) fk :=
    clrinode_loop nodup ⟨start.tally, start.other⟩ (fun i _ => by rw [same]) clean
  have bits : ∀ b, keeps im.sb b = true →
      (fk.blkmap b = true ↔ (inums.flatMap im.claims).count b < im.entered.count b) := by
    intro b data
    rw [remains.tally.bits b data, ← List.count_pos_iff, List.count_diff]
    omega
  refine ⟨bits, fun b data whole => ?_, fun b area => ?_, ?_⟩
  · rw [bits b data, whole]
    constructor
    · intro more
      by_contra none
      have only : ∀ i ∈ im.scanned, b ∈ im.claims i → i ∈ inums := fun i mem claimed =>
        by_contra fun left => none ⟨i, mem, left, claimed⟩
      have all := claims_count im.scanned_nodup only
      omega
    · rintro ⟨i, mem, left, claimed⟩
      have apart : (i :: inums).Nodup := List.nodup_cons.mpr ⟨left, nodup⟩
      have some : ((i :: inums).flatMap im.claims).count b ≤ (im.scanned.flatMap im.claims).count b :=
        claims_count apart fun j among _ => by
          rcases List.mem_cons.mp among with rfl | old
          · exact mem
          · exact scanned old
      have positive := List.count_pos_iff.mpr claimed
      rw [List.flatMap_cons, List.count_append] at some
      omega
  · have other : keeps im.sb b = false := by
      apply Bool.eq_false_of_not_eq_true
      intro data
      simp only [keeps, Bool.and_eq_true, Bool.not_eq_true'] at data
      rcases area with low | inodes
      · have inside := data.1
        simp only [outrange, Bool.or_eq_false_iff, decide_eq_false_iff_not] at inside
        omega
      · have none := (inodeArea_iff data.1).mpr inodes
        rw [data.2] at none
        cases none
    rw [remains.other b other]
    exact initBmap_blkmap.mpr (Or.inr area)
  · refine remains.tally.card_bits fun b data => ?_
    simp only [keeps, outrange, Bool.and_eq_true, Bool.not_eq_true', Bool.or_eq_false_iff,
      decide_eq_false_iff_not] at data
    omega

end Volume

/-- A volume with two files, inodes 2 and 3. -/
def twoFiles (two three : List Extent) : Image where
  sb := oneFree.toLayout
  disk := fun _ => Extent.null
  inodes := fun i =>
    if i = 2 then ⟨.ifreg, 1024, two.length, two⟩
    else if i = 3 then ⟨.ifreg, 1024, three.length, three⟩
    else ⟨.none, 0, 0, []⟩

theorem counted_exactly_shared :
    let im := twoFiles [⟨0, 5, 2, 0⟩] [⟨0, 6, 2, 0⟩]
    let fk := (im.cleared [3]).blocks
    (∀ b, keeps im.sb b = true →
      (fk.blkmap b = true ↔ ([3].flatMap im.claims).count b < im.entered.count b)) ∧
    (∀ b, keeps im.sb b = true → im.entered.count b = (im.scanned.flatMap im.claims).count b →
      (fk.blkmap b = true ↔ ∃ i ∈ im.scanned, i ∉ [3] ∧ b ∈ im.claims i)) ∧
    (∀ b, b < im.sb.fsFirstcg ∨ InodeArea im.sb b → fk.blkmap b = true) ∧
    fk.nBlks =
      ((Finset.range im.sb.fsSize).filter fun b => keeps im.sb b = true ∧ fk.blkmap b = true).card :=
  counted_exactly (twoFiles [⟨0, 5, 2, 0⟩] [⟨0, 6, 2, 0⟩]) [3] (by decide) (by decide)
    (by decide)

/-- Phase 1 gives up on an inode at its tenth bad block: what it claims after
    that is not marked, although no inode is cleared. -/
theorem excessive_bad_unmarked :
    let im := twoFiles [⟨0, 20, 10, 0⟩, ⟨0, 5, 1, 10⟩] []
    let fk := (im.cleared []).blocks
    ¬∀ b, keeps im.sb b = true →
      (fk.blkmap b = true ↔ ∃ i ∈ im.scanned, i ∉ ([] : List Nat) ∧ b ∈ im.claims i) := by
  intro im fk exact_
  have data : keeps im.sb 5 = true := by decide
  have clear : fk.blkmap 5 = false := by decide
  have claimed : ∃ i ∈ im.scanned, i ∉ ([] : List Nat) ∧ 5 ∈ im.claims i := by decide
  rw [(exact_ 5 data).mpr claimed] at clear
  cases clear

-- Clearing an inode that claims the inode area of a group marks that free.
example : ((twoFiles [⟨0, 4, 2, 0⟩] []).cleared [2]).blocks.blkmap 4 = false ∧
    ((twoFiles [⟨0, 4, 2, 0⟩] []).cleared [2]).blocks.nBlks = -1 := by
  decide

end Irix.Fsck
