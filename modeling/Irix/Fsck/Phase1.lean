import Irix.Fsck.Blocks
import Irix.Lib.Tally

/-! # Phase 1

Every allocated inode is traversed, and a second time for the blocks that turned
out to be claimed more than once.  The block map and `duplist` together tally
the claims that Phase 1 enters: of each inode those up to the block on which it
gives up.
-/

namespace Irix.Fsck

open Lib ExtentFs

abbrev firstino : Nat := 1

/-- `EFS_INOPBB` -/
abbrev inopbb : Nat := 4

/-- A volume as fsck finds it. -/
structure Image where
  sb : Layout
  disk : Scatter.Store Extent
  inodes : Nat → Dinode

/-- What fsck works on. -/
structure Scan where
  blocks : Blocks
  inodes : Nat → Dinode
  nFiles : Int
  lastino : Nat
  reports : List (Nat × Report)

/-- `ALLOC` -/
def alloc (dp : Dinode) : Bool := dp.diFtype ≠ .none

section Code

variable (im : Image)

/-- `max_inodes`.  It and the inode numbers are `ushort`; this is for volumes of fewer
    than 65536 inodes, where they do not wrap. -/
def Image.maxInodes : Nat := im.sb.fsCgisize * im.sb.fsNcg * inopbb - 1

/-- `ckinode(dp, ADDR)` with `pfunc` set to `func`. -/
def ckaddr (func : BlockFn Blocks) (inum : Nat) (fk : Scan) : Scan × Ret :=
  let (w, r) := ckinode func (outrange im.sb) im.disk (fk.inodes inum) fk.blocks
  ({ fk with blocks := w.st, reports := fk.reports ++ w.reports.map fun s => (inum, s) }, r)

/-- One turn of the loop of `Phase1`. -/
def phase1Inode (fk : Scan) (inum : Nat) : Scan :=
  if alloc (fk.inodes inum) then
    let fk := { fk with
      lastino := inum
      nFiles := fk.nFiles + 1
      blocks := { fk.blocks with badblk := 0, dupblk := 0, filsize := 0 } }
    (ckaddr im (pass1 im.sb) inum fk).1
  else fk

/-- The rescan for more dups, until there are none to look for. -/
def phase1b : List Nat → Scan → Scan
  | [], fk => fk
  | inum :: inums, fk =>
      if alloc (fk.inodes inum) then
        match ckaddr im (pass1b im.sb) inum fk with
        | (fk, .stop) => fk
        | (fk, _) => phase1b inums fk
      else phase1b inums fk

def phase1 : Scan :=
  let fk : Scan := ⟨initBmap im.sb blank, im.inodes, 0, 0, []⟩
  let fk := (List.range' firstino im.maxInodes).foldl (phase1Inode im) fk
  if fk.blocks.dups ≠ [] then phase1b im (List.range' firstino fk.lastino) fk else fk

end Code

/-! ## What is entered -/

/-- Phase 1 does not give up on the blocks `pre` of an inode: less than ten are
    bad, less than ten are dups, and `duplist` does not overflow.  Of the inodes
    before, `seen` has been entered. -/
def Fits (sb : Layout) (seen pre : List Nat) : Prop :=
  (pre.filter fun b => !keeps sb b).length < maxbad ∧
    surplus (seen ++ pre.filter (keeps sb)) < surplus seen + maxdup ∧
    surplus (seen ++ pre.filter (keeps sb)) ≤ duptblsize

instance (sb : Layout) (seen pre : List Nat) : Decidable (Fits sb seen pre) := by
  unfold Fits
  infer_instance

/-- The blocks of an inode that are entered. -/
def entered (sb : Layout) (seen blks : List Nat) : List Nat :=
  (blks.take (Nat.findGreatest (fun k => Fits sb seen (blks.take k)) blks.length)).filter (keeps sb)

section Image

variable (im : Image)

/-- The blocks an inode claims. -/
def Image.claims (inum : Nat) : List Nat :=
  Fsck.claims (keeps im.sb) (outrange im.sb) im.disk (im.inodes inum)

def Image.allocated (inum : Nat) : Bool := alloc (im.inodes inum)

/-- The inodes Phase 1 traverses. -/
def Image.scanned : List Nat := (List.range' firstino im.maxInodes).filter im.allocated

/-- The blocks entered for a list of inodes, after those in `seen`. -/
def Image.enter (seen : List Nat) (inums : List Nat) : List Nat :=
  inums.foldl (fun seen inum => seen ++ Fsck.entered im.sb seen (im.claims inum)) seen

def Image.entered : List Nat := im.enter [] im.scanned

end Image

section Fits

variable {sb : Layout} {seen pre post blks : List Nat} {b : Nat}

theorem Fits.before (fits : Fits sb seen (pre ++ post)) : Fits sb seen pre := by
  obtain ⟨bad, dup, total⟩ := fits
  rw [List.filter_append, List.length_append] at bad
  rw [List.filter_append, ← List.append_assoc] at dup total
  have fewer := surplus_append (seen ++ pre.filter (keeps sb)) (post.filter (keeps sb))
  exact ⟨by omega, by omega, by omega⟩

theorem Fits.none (small : surplus seen ≤ duptblsize) : Fits sb seen [] := by
  refine ⟨Nat.succ_pos _, ?_, ?_⟩ <;> rw [List.filter_nil, List.append_nil]
  · exact Nat.lt_add_of_pos_right (Nat.succ_pos _)
  · exact small

theorem entered_fits (small : surplus seen ≤ duptblsize) :
    surplus (seen ++ entered sb seen blks) ≤ duptblsize := by
  have greatest : Fits sb seen
      (blks.take (Nat.findGreatest (fun k => Fits sb seen (blks.take k)) blks.length)) :=
    Nat.findGreatest_spec (P := fun k => Fits sb seen (blks.take k)) (Nat.zero_le _) (Fits.none small)
  exact greatest.2.2

/-- All blocks fit. -/
theorem entered_all (fits : Fits sb seen pre) : entered sb seen pre = pre.filter (keeps sb) := by
  have all : Nat.findGreatest (fun k => Fits sb seen (pre.take k)) pre.length = pre.length :=
    Nat.findGreatest_eq_iff.mpr
      ⟨Nat.le_refl _, fun _ => by rwa [List.take_length], fun n more most => by omega⟩
  rw [entered, all, List.take_length]

/-- The blocks fit up to one that is too many. -/
theorem entered_upto (fits : Fits sb seen pre) (beyond : ¬Fits sb seen (pre ++ [b])) :
    entered sb seen (pre ++ b :: post) = pre.filter (keeps sb) := by
  have upto : Nat.findGreatest (fun k => Fits sb seen ((pre ++ b :: post).take k))
      (pre ++ b :: post).length = pre.length := by
    refine Nat.findGreatest_eq_iff.mpr ⟨?_, fun _ => ?_, fun n more _ late => beyond ?_⟩
    · rw [List.length_append]
      exact Nat.le_add_right _ _
    · rwa [List.take_left]
    · obtain ⟨d, rfl⟩ : ∃ d, n = pre.length + (d + 1) := ⟨n - pre.length - 1, by omega⟩
      rw [List.take_length_add_append, List.take_succ_cons] at late
      rw [List.append_cons] at late
      exact late.before
  rw [entered, upto, List.take_left]

end Fits

/-! ## One inode -/

/-- The block map and `duplist` tally the claims in `seen`, and the blocks that
    are no data blocks are as at the start. -/
structure Entered (sb : Layout) (seen : List Nat) (fk : Blocks) : Prop where
  tally : Tally (fun b => keeps sb b = true) fk.blkmap fk.dups seen fk.nBlks
  other : ∀ b, keeps sb b = false → fk.blkmap b = (initBmap sb blank).blkmap b
  order : fk.muldup ≤ fk.dups.length

/-- An inode is under way, its blocks `pre` have been looked at. -/
structure Under (sb : Layout) (seen pre : List Nat) (fk : Blocks) : Prop where
  entered : Entered sb (seen ++ pre.filter (keeps sb)) fk
  bad : fk.badblk = (pre.filter fun b => !keeps sb b).length
  dup : surplus seen + fk.dupblk = surplus (seen ++ pre.filter (keeps sb))

section Inode

variable {sb : Layout} {seen pre : List Nat} {fk : Blocks} {b : Nat}

theorem Entered.busy (entered : Entered sb seen fk) : Busy sb fk := by
  intro b inside area
  have other : keeps sb b = false := by
    unfold keeps
    rw [inside, area]
    rfl
  rw [entered.other b other]
  exact initBmap_busy sb blank b inside area

/-- Only the map, its count and the list matter. -/
theorem Entered.of_same {fk' : Blocks} (entered : Entered sb seen fk) (blkmap : fk'.blkmap = fk.blkmap)
    (nBlks : fk'.nBlks = fk.nBlks) (dups : fk'.dups = fk.dups) (muldup : fk'.muldup = fk.muldup) :
    Entered sb seen fk' := by
  constructor
  · rw [blkmap, nBlks, dups]
    exact entered.tally
  · rw [blkmap]
    exact entered.other
  · rw [dups, muldup]
    exact entered.order

theorem enterDup_perm (fk : Blocks) (b : Nat) : (fk.enterDup b).dups.Perm (b :: fk.dups) := by
  unfold Blocks.enterDup
  split
  · exact List.perm_append_singleton b fk.dups
  · have parts : (fk.dups.drop fk.muldup).tail ++ (fk.dups.drop fk.muldup).head?.toList |>.Perm
        (fk.dups.drop fk.muldup) := by
      cases fk.dups.drop fk.muldup with
      | nil => exact List.Perm.refl _
      | cons a rest => exact List.perm_append_singleton a rest
    have middle := List.Perm.append_left (fk.dups.take fk.muldup) (parts.cons b)
    have front : (fk.dups.take fk.muldup ++ b :: fk.dups.drop fk.muldup).Perm (b :: fk.dups) := by
      refine List.perm_middle.trans ?_
      rw [List.take_append_drop]
    exact middle.trans front

theorem enterDup_muldup (fk : Blocks) (b : Nat) (order : fk.muldup ≤ fk.dups.length) :
    (fk.enterDup b).muldup ≤ (fk.enterDup b).dups.length := by
  rw [(enterDup_perm fk b).length_eq, List.length_cons]
  unfold Blocks.enterDup
  split
  · exact Nat.le_succ_of_le order
  · exact Nat.succ_le_succ order

theorem enterDup_dupblk (fk : Blocks) (b : Nat) :
    (fk.enterDup b).dupblk = fk.dupblk ∧ (fk.enterDup b).badblk = fk.badblk ∧
      (fk.enterDup b).nBlks = fk.nBlks := by
  unfold Blocks.enterDup
  split <;> exact ⟨rfl, rfl, rfl⟩

/-- Phase 1 looks at one more block: it goes on if that one fits too, and else
    it stops and enters nothing. -/
theorem Under.step (under : Under sb seen pre fk) (fits : Fits sb seen pre) (b : Nat) :
    if Fits sb seen (pre ++ [b]) then
      (pass1 sb fk b).2 ≠ .stop ∧ Under sb seen (pre ++ [b]) (pass1 sb fk b).1
    else (pass1 sb fk b).2 = .stop ∧
      Entered sb (seen ++ pre.filter (keeps sb)) (pass1 sb fk b).1 := by
  obtain ⟨entered, bad, dup⟩ := under
  have tally := entered.tally
  cases data : keeps sb b with
  | false =>
      rw [pass1_bad entered.busy data]
      obtain ⟨blkmap, nBlks, dups, muldup, dupblk, badblk, _, ret⟩ := badBlock_cases fk b
      have same := entered.of_same blkmap nBlks dups muldup
      have kept : (pre ++ [b]).filter (keeps sb) = pre.filter (keeps sb) := by
        rw [List.filter_append, List.filter_cons_of_neg (by rw [data]; exact Bool.false_ne_true),
          List.filter_nil, List.append_nil]
      have more : ((pre ++ [b]).filter fun b => !keeps sb b).length = fk.badblk + 1 := by
        rw [List.filter_append, List.length_append, ← bad,
          List.filter_cons_of_pos (by rw [data]; rfl)]
        rfl
      have fits_iff : Fits sb seen (pre ++ [b]) ↔ fk.badblk + 1 < maxbad := by
        unfold Fits
        rw [more, kept]
        exact and_iff_left fits.2
      rw [ret]
      by_cases few : fk.badblk + 1 < maxbad
      · rw [if_pos (fits_iff.mpr few), if_neg (Nat.not_le_of_lt few)]
        refine ⟨fun stop => (by cases stop), ?_, ?_, ?_⟩
        · rw [kept]
          exact same
        · rw [more, badblk]
        · rw [kept, dupblk]
          exact dup
      · rw [if_neg (fun fits => few (fits_iff.mp fits)), if_pos (Nat.le_of_not_lt few)]
        exact ⟨rfl, same⟩
  | true =>
      have kept : (pre ++ [b]).filter (keeps sb) = pre.filter (keeps sb) ++ [b] := by
        rw [List.filter_append, List.filter_cons_of_pos data, List.filter_nil]
      have same : ((pre ++ [b]).filter fun b => !keeps sb b).length =
          (pre.filter fun b => !keeps sb b).length := by
        rw [List.filter_append,
          List.filter_cons_of_neg (l := []) (by rw [data]; exact Bool.false_ne_true),
          List.filter_nil, List.append_nil]
      have others : ∀ v a, keeps sb a = false → Bits.fill v fk.blkmap b 1 a = fk.blkmap a := by
        intro v a other
        refine Bits.fill_outside ?_
        have apart : a ≠ b := fun equal => by
          rw [equal, data] at other
          cases other
        omega
      have counted := surplus_concat (seen ++ pre.filter (keeps sb)) b
      rw [List.append_assoc, ← kept] at counted
      cases set : fk.blkmap b with
      | false =>
          rw [pass1_fresh data set]
          have fresh : b ∉ seen ++ pre.filter (keeps sb) := fun mem => by
            rw [(tally.bits b data).mpr mem] at set
            cases set
          rw [if_neg fresh, Nat.add_zero] at counted
          have fits' : Fits sb seen (pre ++ [b]) := by
            unfold Fits
            rw [same, counted]
            exact fits
          rw [if_pos fits']
          refine ⟨fun stop => (by cases stop), ?_, ?_, ?_⟩
          · rw [kept, ← List.append_assoc]
            exact ⟨tally.first data set, fun a other => (others true a other).trans (entered.other a other),
              entered.order⟩
          · rw [same]
            exact bad
          · rw [counted]
            exact dup
      | true =>
          rw [pass1_dup data set]
          have old : b ∈ seen ++ pre.filter (keeps sb) := (tally.bits b data).mp set
          rw [if_pos old] at counted
          have listed := tally.length_repeats
          have full : Fits sb seen (pre ++ [b]) ↔
              ¬(maxdup ≤ (fk.countDup b).dupblk ∨ duptblsize ≤ (fk.countDup b).dups.length) := by
            show _ ↔ ¬(maxdup ≤ fk.dupblk + 1 ∨ duptblsize ≤ fk.dups.length)
            unfold Fits
            rw [same, counted, listed]
            have bads := fits.1
            omega
          by_cases fits' : Fits sb seen (pre ++ [b])
          · rw [if_pos fits', if_neg (full.mp fits')]
            obtain ⟨dupblk, badblk, nBlks⟩ := enterDup_dupblk (fk.countDup b) b
            refine ⟨fun stop => (by cases stop), ⟨?_, ?_, ?_⟩, ?_, ?_⟩
            · dsimp only
              rw [kept, ← List.append_assoc, enterDup_blkmap, nBlks]
              exact tally.again data set (enterDup_perm (fk.countDup b) b)
            · dsimp only
              rw [enterDup_blkmap]
              exact entered.other
            · exact enterDup_muldup (fk.countDup b) b entered.order
            · dsimp only
              rw [same, badblk]
              exact bad
            · dsimp only
              rw [dupblk, counted]
              show surplus seen + (fk.dupblk + 1) = _
              omega
          · rw [if_neg fits', if_pos (not_not.mp (fun free => fits' (full.mpr free)))]
            exact ⟨rfl, entered.of_same rfl rfl rfl rfl⟩

/-- Phase 1 enters of an inode what fits. -/
theorem Under.visit (under : Under sb seen pre fk) (fits : Fits sb seen pre) (post : List Nat) :
    Entered sb (seen ++ Fsck.entered sb seen (pre ++ post)) (visit (pass1 sb) post fk).1 := by
  induction post generalizing pre fk with
  | nil =>
      rw [List.append_nil, entered_all fits]
      exact under.entered
  | cons b post ih =>
      have step := under.step fits b
      rw [visit_cons]
      by_cases more : Fits sb seen (pre ++ [b])
      · rw [if_pos more] at step
        rw [if_neg step.1, List.append_cons]
        exact ih step.2 more
      · rw [if_neg more] at step
        rw [if_pos step.1, entered_upto fits more]
        exact step.2

/-- Moving a multiple dup out of the first part of `duplist`. -/
theorem pass1b_entered (entered : Entered sb seen fk) (b : Nat) :
    Entered sb seen (pass1b sb fk b).1 := by
  unfold pass1b
  by_cases out : outrange sb b = true
  · rw [if_pos out]
    exact entered
  rw [if_neg out]
  cases found : (fk.dups.take fk.muldup).idxOf? b with
  | none => exact entered
  | some j =>
      obtain ⟨within, here, _⟩ := List.idxOf?_eq_some_iff.mp found
      rw [List.length_take] at within
      rw [List.getElem_take] at here
      have order := entered.order
      have last : fk.muldup - 1 < fk.dups.length := by omega
      have value : fk.dups.getD (fk.muldup - 1) 0 = fk.dups[fk.muldup - 1] := by
        rw [List.getD_eq_getElem?_getD, List.getElem?_eq_getElem last]
        rfl
      have swapped : ((fk.dups.set j fk.dups[fk.muldup - 1]).set (fk.muldup - 1) fk.dups[j]).Perm
          fk.dups := List.set_set_perm (by omega) last
      rw [here, ← value] at swapped
      refine ⟨entered.tally.reorder swapped, entered.other, ?_⟩
      have same : fk.muldup - 1 ≤
          ((fk.dups.set j (fk.dups.getD (fk.muldup - 1) 0)).set (fk.muldup - 1) b).length := by
        rw [swapped.length_eq]
        omega
      exact same

theorem pass1b_decides (sb : Layout) (seen : List Nat) :
    Decides (pass1b sb) (Entered sb seen) (fun b => !outrange sb b) where
  kept := fun _ entered b => pass1b_entered entered b
  ret := fun fk _ b => by
    unfold pass1b
    cases out : outrange sb b with
    | true => exact Or.inr rfl
    | false =>
        simp only [Bool.false_eq_true, if_false, Bool.not_false, if_true]
        cases (fk.dups.take fk.muldup).idxOf? b with
        | none => exact Or.inr rfl
        | some j =>
            dsimp only
            split
            · exact Or.inl rfl
            · exact Or.inr rfl

end Inode

/-! ## The volume -/

section Volume

variable {im : Image} {fk : Scan} {seen : List Nat}

/-- A traversal leaves the inodes as they are. -/
theorem ckaddr_inodes (im : Image) (func : BlockFn Blocks) (inum : Nat) (fk : Scan) :
    (ckaddr im func inum fk).1.inodes = fk.inodes := rfl

theorem phase1Inode_entered (entered : Entered im.sb seen fk.blocks) (small : surplus seen ≤ duptblsize)
    (inodes : fk.inodes = im.inodes) {inum : Nat} (allocated : alloc (im.inodes inum) = true) :
    Entered im.sb (seen ++ Fsck.entered im.sb seen (im.claims inum)) (phase1Inode im fk inum).blocks := by
  unfold phase1Inode
  rw [inodes, if_pos allocated]
  dsimp only
  unfold ckaddr
  dsimp only
  generalize start : ({ fk.blocks with badblk := 0, dupblk := 0, filsize := 0 } : Blocks) = blocks
  have fresh : Under im.sb seen [] blocks := by
    rw [← start]
    refine ⟨?_, rfl, ?_⟩
    · rw [List.filter_nil, List.append_nil]
      exact entered.of_same rfl rfl rfl rfl
    · rw [List.filter_nil, List.append_nil]
      rfl
  have busy : Busy im.sb blocks := by
    rw [← start]
    exact entered.busy
  obtain ⟨fed, _, _⟩ := ckinode_follows (pass1_decides im.sb) (outrange im.sb) im.disk
    (im.inodes inum) busy
  rw [fed.ends]
  exact fresh.visit (Fits.none small) (im.claims inum)

/-- The loop of Phase 1 enters the allocated inodes. -/
theorem phase1_loop (inums : List Nat) (entered : Entered im.sb seen fk.blocks)
    (small : surplus seen ≤ duptblsize) (inodes : fk.inodes = im.inodes) :
    let done := inums.foldl (phase1Inode im) fk
    Entered im.sb (im.enter seen (inums.filter im.allocated)) done.blocks ∧
      done.inodes = im.inodes := by
  induction inums generalizing fk seen with
  | nil => exact ⟨entered, inodes⟩
  | cons inum inums ih =>
      rw [List.foldl_cons]
      by_cases allocated : im.allocated inum = true
      · rw [List.filter_cons_of_pos allocated]
        refine ih (phase1Inode_entered entered small inodes allocated) (entered_fits small) ?_
        unfold phase1Inode
        rw [inodes, if_pos (show alloc (im.inodes inum) = true from allocated)]
        rfl
      · rw [List.filter_cons_of_neg allocated]
        have same : phase1Inode im fk inum = fk := by
          unfold phase1Inode
          rw [inodes]
          exact if_neg allocated
        rw [same]
        exact ih entered small inodes

theorem phase1b_entered (inums : List Nat) (entered : Entered im.sb seen fk.blocks) :
    Entered im.sb seen (phase1b im inums fk).blocks ∧ (phase1b im inums fk).inodes = fk.inodes := by
  induction inums generalizing fk with
  | nil => exact ⟨entered, rfl⟩
  | cons inum inums ih =>
      unfold phase1b
      split
      · have next : Entered im.sb seen (ckaddr im (pass1b im.sb) inum fk).1.blocks :=
          (ckinode_follows (pass1b_decides im.sb seen) (outrange im.sb) im.disk (fk.inodes inum) entered).2.1
        have same := ckaddr_inodes im (pass1b im.sb) inum fk
        generalize ckaddr im (pass1b im.sb) inum fk = out at next same
        obtain ⟨fk', r⟩ := out
        cases r with
        | stop => exact ⟨next, same⟩
        | keepon | skip =>
            have rest := ih next
            exact ⟨rest.1, rest.2.trans same⟩
      · exact ih entered

theorem initBmap_entered (sb : Layout) : Entered sb [] (initBmap sb blank) := by
  refine ⟨Tally.empty fun b data => ?_, fun _ _ => rfl, Nat.le_refl 0⟩
  simp only [keeps, Bool.and_eq_true, Bool.not_eq_true'] at data
  apply Bool.eq_false_of_not_eq_true
  intro set
  rcases initBmap_blkmap.mp set with zero | low | area
  · cases zero
  · have inside := data.1
    simp only [outrange, Bool.or_eq_false_iff, decide_eq_false_iff_not] at inside
    omega
  · have inodes := (inodeArea_iff data.1).mpr area
    rw [data.2] at inodes
    cases inodes

/-- After Phase 1 and 1b the block map and `duplist` tally what was entered. -/
theorem phase1_entered (im : Image) :
    Entered im.sb im.entered (phase1 im).blocks ∧ (phase1 im).inodes = im.inodes := by
  obtain ⟨first, hfirst⟩ : ∃ first : Scan, first = ⟨initBmap im.sb blank, im.inodes, 0, 0, []⟩ := ⟨_, rfl⟩
  have start : Entered im.sb [] first.blocks := by
    rw [hfirst]
    exact initBmap_entered im.sb
  have inodes : first.inodes = im.inodes := by rw [hfirst]
  have loop := phase1_loop (List.range' firstino im.maxInodes) start (Nat.zero_le _) inodes
  unfold phase1
  rw [← hfirst]
  dsimp only at loop ⊢
  generalize List.foldl (phase1Inode im) first (List.range' firstino im.maxInodes) = done at loop ⊢
  split
  · have rescan := phase1b_entered (List.range' firstino done.lastino) loop.1
    exact ⟨rescan.1, rescan.2.trans loop.2⟩
  · exact loop

end Volume

end Irix.Fsck
