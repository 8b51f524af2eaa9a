import Irix.ExtentFs.Owners
import Irix.Lib.Growing

/-! # The content of a file

Reading and writing through `efs_bmap`.  A file is an array of bytes that grows
under writes and is cut by truncations; behind the end of the last block its
blocks hold zeros, but the rest of that block holds what was there before.
-/

namespace Irix.ExtentFs

open Lib

/-! ## com_rdwr -/

/-- `iomove` out of the buffer of a run of blocks -/
def Volume.load (vol : Volume) (addr n : Nat) : List UInt8 :=
  (List.range n).map fun k => vol.disk (addr + k)

/-- `iomove` into the buffer of a run of blocks, which is written back.  What of
    it is not moved keeps its bytes: the buffer was read unless all of it is. -/
def Volume.store (vol : Volume) (addr : Nat) (data : List UInt8) : Volume :=
  { vol with
    disk := fun a =>
      if addr ≤ a ∧ a < addr + data.length then data.getD (a - addr) 0 else vol.disk a }

/-- `com_rdwr` for reading: what is moved to the user -/
def comRdwrRead (t : Tune) (vol : Volume) : (fuel : Nat) → Inode → (uOffset uCount : Nat) →
    Inode × Except Errno (List UInt8)
  | 0, ip, _, _ => (ip, .error .hang)
  | fuel + 1, ip, uOffset, uCount =>
      match efsBmapRead t ip uOffset uCount with
      | (ip, .error e) => (ip, .error e)
      | (ip, .ok none) => (ip, .ok [])
      | (ip, .ok (some bmap)) =>
          let n := bmap.uPbsize
          let data := vol.load (bbtob bmap.iex.bn + bmap.uPboff) n
          if uCount - n ≠ 0 ∧ n ≠ 0 then
            match comRdwrRead t vol fuel ip (uOffset + n) (uCount - n) with
            | (ip, .error e) => (ip, .error e)
            | (ip, .ok rest) => (ip, .ok (data ++ rest))
          else (ip, .ok data)

/-- `com_rdwr` for writing; `uLimit` is in blocks. -/
def comRdwrWrite (t : Tune) (uLimit : Nat) : (fuel : Nat) → Volume → Inode → (uOffset : Nat) →
    List UInt8 → Volume × Inode × Except Errno Unit
  | 0, vol, ip, _, _ => (vol, ip, .error .hang)
  | fuel + 1, vol, ip, uOffset, data =>
      if uLimit ≤ btobb uOffset then (vol, ip, .error .EFBIG)
      else
        match efsBmapWrite t vol ip uOffset data.length with
        | (vol, ip, .error e) => (vol, ip, .error e)
        | (vol, ip, .ok bmap) =>
            if bmap.iex.length = 0 then (vol, ip, .ok ())
            else
              let n := bmap.uPbsize
              let vol := vol.store (bbtob bmap.iex.bn + bmap.uPboff) (data.take n)
              let ip := { ip with iSize := if ip.iSize < uOffset + n then uOffset + n else ip.iSize }
              if data.length - n ≠ 0 ∧ n ≠ 0 then
                comRdwrWrite t uLimit fuel vol ip (uOffset + n) (data.drop n)
              else (vol, ip, .ok ())

/-- `com_readi` of a regular file -/
def comReadi (t : Tune) (vol : Volume) (ip : Inode) (uOffset uCount : Nat) :
    Inode × Except Errno (List UInt8) :=
  if uCount = 0 then (ip, .ok []) else comRdwrRead t vol uCount ip uOffset uCount

/-- `com_writei` of a regular file -/
def comWritei (t : Tune) (uLimit : Nat) (vol : Volume) (ip : Inode) (uOffset : Nat)
    (data : List UInt8) : Volume × Inode × Except Errno Unit :=
  if data = [] then (vol, ip, .ok ())
  else if bbtob uLimit ≤ uOffset then (vol, ip, .error .EFBIG)
  else comRdwrWrite t uLimit data.length vol ip uOffset data

/-! ## Where the bytes of a file lie -/

/-- The place on the volume of byte `p` of a file. -/
def Inode.addr (ip : Inode) (p : Nat) : Nat :=
  bbtob ((blocksOf ip.iiExtents).getD (btobbt p) 0) + p % 512

def Inode.byte (vol : Volume) (ip : Inode) (p : Nat) : UInt8 := vol.disk (ip.addr p)

section Place

variable {ip ip' : Inode} {vol : Volume} {p q : Nat}

theorem btobbt_addr (ip : Inode) (p : Nat) :
    btobbt (ip.addr p) = (blocksOf ip.iiExtents).getD (btobbt p) 0 := by
  unfold Inode.addr btobbt bbtob
  omega

theorem addr_mem (inside : p < bbtob (lengthOf ip.iiExtents)) :
    btobbt (ip.addr p) ∈ blocksOf ip.iiExtents := by
  rw [btobbt_addr]
  have within : btobbt p < (blocksOf ip.iiExtents).length := by
    rw [blocksOf_length]
    exact btobbt_lt.mpr inside
  rw [List.getD_eq_getElem _ _ within]
  exact List.getElem_mem within

/-- No two bytes of a file lie in one place. -/
theorem addr_inj (nodup : (blocksOf ip.iiExtents).Nodup) (left : p < bbtob (lengthOf ip.iiExtents))
    (right : q < bbtob (lengthOf ip.iiExtents)) (same : ip.addr p = ip.addr q) : p = q := by
  have blocks := congrArg btobbt same
  rw [btobbt_addr, btobbt_addr] at blocks
  have here : btobbt p < (blocksOf ip.iiExtents).length := by
    rw [blocksOf_length]
    exact btobbt_lt.mpr left
  have there : btobbt q < (blocksOf ip.iiExtents).length := by
    rw [blocksOf_length]
    exact btobbt_lt.mpr right
  have parts := same
  unfold Inode.addr at parts
  rw [blocks] at parts
  rw [List.getD_eq_getElem _ _ here, List.getD_eq_getElem _ _ there] at blocks
  have index := (List.Nodup.getElem_inj_iff nodup).mp blocks
  unfold btobbt at index
  omega

/-- Blocks behind those of a file move none of its bytes. -/
theorem addr_append {new : List Nat}
    (grown : blocksOf ip'.iiExtents = blocksOf ip.iiExtents ++ new)
    (inside : p < bbtob (lengthOf ip.iiExtents)) : ip'.addr p = ip.addr p := by
  unfold Inode.addr
  rw [grown, List.getD_append]
  rw [blocksOf_length]
  exact btobbt_lt.mpr inside

/-- The blocks of one extent, found in the file. -/
theorem blocksOf_getD {o k i : Nat} {exts : List Extent} (contig : Contig o exts)
    (here : i < exts.length) (low : exts[i].exOffset ≤ o + k)
    (high : o + k < exts[i].exOffset + exts[i].exLength) :
    (blocksOf exts).getD k 0 = exts[i].exBn + (o + k - exts[i].exOffset) := by
  induction exts generalizing o k i with
  | nil => exact absurd here (Nat.not_lt_zero i)
  | cons ex exts ih =>
      have start : ex.exOffset = o := contig.1
      rw [blocksOf_cons]
      cases i with
      | zero =>
          simp only [List.getElem_cons_zero, start] at low high ⊢
          rw [List.getD_append _ _ _ _ (by rw [Extent.blocks, List.length_range']; omega),
            Extent.blocks, List.getD_eq_getElem _ _ (by rw [List.length_range']; omega),
            List.getElem_range']
          omega
      | succ i =>
          simp only [List.getElem_cons_succ] at low high ⊢
          have inside := Nat.lt_of_succ_lt_succ here
          have after := contig.2.offset inside
          have length : ex.blocks.length = ex.exLength := List.length_range' ..
          rw [List.getD_append_right _ _ _ _ (by rw [length]; omega), length]
          have rest := ih contig.2 inside (k := k - ex.exLength) (by omega) (by omega)
          rw [rest]
          omega

end Place

/-! ## One call of efs_bmap -/

/-- The run of blocks of an i/o lies inside its extent, around the block asked
    for. -/
theorem bmapPart_inside {t : Tune} {ex : Extent} {bb pos : Nat} {iex : Bmapval}
    (covers : ex.covers bb = true) (part : bmapPart t ex (bb / t.efsBbsperlb) = (iex, pos)) :
    ex.exOffset ≤ pos ∧ pos ≤ bb ∧ bb < pos + iex.length ∧
      pos + iex.length ≤ ex.exOffset + ex.exLength ∧ iex.bn + ex.exOffset = ex.exBn + pos := by
  have within := covers_iff.mp covers
  have positive := t.efsBbsperlb_pos
  unfold bmapPart at part
  generalize t.efsBbsperlb = lb at positive part
  have low := Nat.div_mul_le_self bb lb
  have high := Nat.lt_div_mul_add (a := bb) positive
  have upLow := Nat.lt_div_mul_add (a := ex.exOffset + lb - 1) positive
  dsimp only at part
  by_cases starts : (ex.exOffset + lb - 1) / lb ≤ bb / lb
  · have order := Nat.mul_le_mul_right lb starts
    rw [if_pos starts] at part
    cases part
    dsimp only
    omega
  · have order := Nat.mul_le_mul_right lb (Nat.lt_of_not_le starts)
    rw [Nat.succ_mul] at order
    rw [if_neg starts] at part
    cases part
    dsimp only
    omega

/-- What a call of `efs_bmap` that succeeds tells its caller: the `sz` bytes of
    the file from `uOffset` on lie in one run, from `uPboff` on. -/
structure Piece (ip : Inode) (uOffset uCount : Nat) (bmap : Bmap) : Prop where
  some : 0 < uCount → 0 < bmap.uPbsize
  fits : bmap.uPbsize ≤ uCount
  solid : 0 < bmap.iex.length
  covered : uOffset + bmap.uPbsize ≤ bbtob (lengthOf ip.iiExtents)
  addr : ∀ p, uOffset ≤ p → p < uOffset + bmap.uPbsize →
    ip.addr p = bbtob bmap.iex.bn + bmap.uPboff + (p - uOffset)

/-- The run found in an extent that covers the offset. -/
theorem Piece.of_part {t : Tune} {ip : Inode} {uOffset uCount i pos sz : Nat} {iex rex : Bmapval}
    (contig : Contig 0 ip.iiExtents) (here : i < ip.iiExtents.length)
    (covers : ip.iiExtents[i].covers (btobbt uOffset) = true)
    (part : bmapPart t ip.iiExtents[i] (btobbt uOffset / t.efsBbsperlb) = (iex, pos))
    (small : sz ≤ min (bbtob iex.length - (uOffset - bbtob pos)) uCount)
    (positive : 0 < uCount → 0 < sz) : Piece ip uOffset uCount ⟨iex, rex, uOffset - bbtob pos, sz⟩ := by
  obtain ⟨low, start, stop, high, bn⟩ := bmapPart_inside covers part
  have ends : ip.iiExtents[i].exOffset + ip.iiExtents[i].exLength ≤ lengthOf ip.iiExtents := by
    have whole := lengthOf_take_mono ip.iiExtents (k := ip.iiExtents.length) (Nat.succ_le_of_lt here)
    rw [List.take_length, lengthOf_take_succ here] at whole
    rw [contig.offset here]
    omega
  refine ⟨positive, ?_, ?_, ?_, fun p after before => ?_⟩
  · exact Nat.le_trans small (Nat.min_le_right _ _)
  · show 0 < iex.length
    omega
  · show uOffset + sz ≤ bbtob (lengthOf ip.iiExtents)
    unfold bbtob btobbt at *
    omega
  · have before' : p < uOffset + sz := before
    have block : btobbt p < pos + iex.length := by
      unfold bbtob btobbt at *
      omega
    have after' : pos ≤ btobbt p := by
      unfold btobbt at *
      omega
    have found := blocksOf_getD contig here (k := btobbt p) (by omega) (by omega)
    unfold Inode.addr
    rw [found]
    show _ = bbtob iex.bn + (uOffset - bbtob pos) + (p - uOffset)
    unfold bbtob btobbt at *
    omega

/-- What a successful call of `efs_bmap` for writing does: the bytes of the file
    stay, and new blocks hold zeros outside of what is about to be written. -/
structure Mapped (vol : Volume) (ip : Inode) (uOffset uCount : Nat) (vol' : Volume) (ip' : Inode)
    (bmap : Bmap) : Prop where
  ok : ip'.Ok false vol'.efs
  frame : ip.Frame ip'
  piece : Piece ip' uOffset uCount bmap
  longer : lengthOf ip.iiExtents ≤ lengthOf ip'.iiExtents
  keeps : ∀ p < bbtob (lengthOf ip.iiExtents), ip'.byte vol' p = ip.byte vol p
  fresh : ∀ p, bbtob (lengthOf ip.iiExtents) ≤ p → p < bbtob (lengthOf ip'.iiExtents) →
    p < uOffset ∨ uOffset + bmap.uPbsize ≤ p → ip'.byte vol' p = 0

section Write

variable {t : Tune} {vol vol' : Volume} {ip ip' : Inode} {uOffset uCount : Nat} {bmap : Bmap}

/-- The last block of a file lies in the run behind its blocks before. -/
theorem last_run {blks zeroed : List Nat} {wex : Bmapval} {k n : Nat}
    (grown : blks = zeroed ++ List.range' wex.bn wex.length) (nodup : blks.Nodup)
    (inside : n < blks.length) (some : 0 < wex.length) (start : blks.getD n 0 = wex.bn)
    (within : k < blks.length) (member : blks.getD k 0 ∈ List.range' wex.bn wex.length) :
    n ≤ k ∧ k < n + wex.length := by
  have length : blks.length = zeroed.length + wex.length := by
    rw [grown, List.length_append, List.length_range']
  have first : blks.getD zeroed.length 0 = wex.bn := by
    rw [grown, List.getD_append_right _ _ _ _ (Nat.le_refl _), Nat.sub_self,
      List.getD_eq_getElem _ _ (by rw [List.length_range']; exact some), List.getElem_range']
    rfl
  have here : zeroed.length = n := by
    rw [← start] at first
    rw [List.getD_eq_getElem _ _ (by omega), List.getD_eq_getElem _ _ inside] at first
    exact (List.Nodup.getElem_inj_iff nodup).mp first
  refine ⟨?_, by omega⟩
  by_contra before
  rw [grown, List.getD_append _ _ _ _ (by omega), List.getD_eq_getElem _ _ (by omega)] at member
  rw [grown] at nodup
  exact List.disjoint_of_nodup_append nodup (List.getElem_mem _) member

/-- The piece that was just allocated is cleared before the caller writes to it,
    unless all of it is written. -/
theorem clear_or_overwritten (vol : Volume) (wex iex : Bmapval) (uPboff sz : Nat) :
    let vol' := if wex.bn ≠ iex.bn ∨ wex.length ≠ iex.length ∨ uPboff ≠ 0 ∨ sz ≠ bbtob iex.length then
      vol.clear wex.bn wex.length else vol
    vol'.efs = vol.efs ∧
      (∀ a, btobbt a ∉ List.range' wex.bn wex.length → vol'.disk a = vol.disk a) ∧
      ((∀ a, btobbt a ∈ List.range' wex.bn wex.length → vol'.disk a = 0) ∨
        (wex = iex ∧ uPboff = 0 ∧ sz = bbtob iex.length)) := by
  intro vol'
  by_cases part : wex.bn ≠ iex.bn ∨ wex.length ≠ iex.length ∨ uPboff ≠ 0 ∨ sz ≠ bbtob iex.length
  · have same : vol' = vol.clear wex.bn wex.length := if_pos part
    rw [same]
    refine ⟨rfl, fun a out => ?_, Or.inl fun a mem => ?_⟩
    · rw [List.mem_range'_1] at out
      exact vol.clear_outside (by omega)
    · rw [List.mem_range'_1] at mem
      exact vol.clear_inside mem.1 mem.2
  · have same : vol' = vol := if_neg part
    rw [same]
    simp only [ne_eq, not_or, not_not] at part
    obtain ⟨bn, length, start, whole⟩ := part
    refine ⟨rfl, fun _ _ => rfl, Or.inr ⟨?_, start, whole⟩⟩
    obtain ⟨_, _⟩ := wex
    obtain ⟨_, _⟩ := iex
    simp only at bn length
    rw [bn, length]

theorem efsBmapWrite_mapped (ok : ip.Ok false vol.efs)
    (done : efsBmapWrite t vol ip uOffset uCount = (vol', ip', .ok bmap)) :
    Mapped vol ip uOffset uCount vol' ip' bmap := by
  have located : Located false (btobbt uOffset) vol ip
      (bmapLocate t (btobbt uOffset) (btobbt uOffset + 2) vol ip) :=
    bmapLocate_ok ok (fun sure => by cases sure) (Nat.succ_pos _) (by omega)
  unfold efsBmapWrite at done
  dsimp only at done
  generalize bmapLocate t (btobbt uOffset) (btobbt uOffset + 2) vol ip = out at located done
  obtain ⟨mid, ip'', r⟩ := out
  cases r with
  | error e => cases done
  | ok found =>
      obtain ⟨i, wex⟩ := found
      obtain ⟨⟨here, covers⟩, zeroed, grown, zeros⟩ := located.found i wex rfl
      have goes := located.goes
      have shape := located.shape
      have frame := located.frame
      dsimp only at here covers grown zeros done goes shape frame
      obtain ⟨tail, parts, tail_some, tail_none⟩ : ∃ tail,
          blocksOf ip''.iiExtents = blocksOf ip.iiExtents ++ zeroed ++ tail ∧
          (∀ w, wex = some w → tail = List.range' w.bn w.length) ∧ (wex = none → tail = []) := by
        cases wex with
        | none => exact ⟨[], grown, fun w none => (by cases none), fun _ => rfl⟩
        | some w => exact ⟨_, grown, fun w' equal => (by cases equal; rfl), fun none => by cases none⟩
      have get : ip''.iiExtents.getD i Extent.null = ip''.iiExtents[i] := List.getD_eq_getElem _ _ here
      rw [get] at done
      cases part : bmapPart t ip''.iiExtents[i] (btobbt uOffset / t.efsBbsperlb) with
      | mk iex pos =>
          rw [part] at done
          dsimp only at done
          obtain ⟨low, start, stop, high, bn⟩ := bmapPart_inside covers part
          have nodup : (blocksOf ip''.iiExtents).Nodup := by
            have all := goes.goes.holds.own.1
            rw [Inode.owned, blocksOf_append] at all
            exact List.Nodup.of_append_left all
          -- the volume after the last piece has been cleared, or not
          obtain ⟨final, same, efs, spared, dealt⟩ : ∃ final, vol' = final ∧ final.efs = mid.efs ∧
              (∀ a, (∀ w, wex = some w → btobbt a ∉ List.range' w.bn w.length) →
                final.disk a = mid.disk a) ∧
              ∀ w, wex = some w → (∀ a, btobbt a ∈ List.range' w.bn w.length → final.disk a = 0) ∨
                (w = iex ∧ uOffset - bbtob pos = 0 ∧
                  min (bbtob iex.length - (uOffset - bbtob pos)) uCount = bbtob iex.length) := by
            cases wex with
            | none =>
                dsimp only at done
                have same : vol' = mid := (congrArg Prod.fst done).symm
                exact ⟨mid, same, rfl, fun _ _ => rfl, fun w none => by cases none⟩
            | some w =>
                dsimp only at done
                have same := (congrArg Prod.fst done).symm
                obtain ⟨efs, spared, dealt⟩ := clear_or_overwritten mid w iex (uOffset - bbtob pos)
                  (min (bbtob iex.length - (uOffset - bbtob pos)) uCount)
                refine ⟨_, same, efs, fun a out => spared a (out w rfl), fun w' equal => ?_⟩
                cases equal
                exact dealt
          have inode : ip' = ip'' := (congrArg (fun out => out.2.1) done).symm
          have result : bmap = ⟨iex, ⟨0, 0⟩, uOffset - bbtob pos,
              min (bbtob iex.length - (uOffset - bbtob pos)) uCount⟩ := by
            have third := congrArg (fun out => out.2.2) done
            exact (Except.ok.inj third).symm
          subst same inode result
          have whole : blocksOf ip'.iiExtents = blocksOf ip.iiExtents ++ (zeroed ++ tail) := by
            rw [parts, List.append_assoc]
          have apart : ∀ a w, wex = some w → btobbt a ∈ blocksOf ip.iiExtents ++ zeroed →
              btobbt a ∉ List.range' w.bn w.length := by
            intro a w is before last
            rw [parts, tail_some w is] at nodup
            exact List.disjoint_of_nodup_append nodup before last
          refine ⟨⟨?_, shape⟩, frame, ?_, ?_, fun p inside => ?_, fun p after inside out => ?_⟩
          · rw [efs]
            exact goes.goes.holds
          · refine Piece.of_part shape.contig here covers part (Nat.le_refl _) fun some => ?_
            unfold bbtob btobbt at *
            omega
          · rw [← blocksOf_length, ← blocksOf_length, whole, List.length_append]
            exact Nat.le_add_right _ _
          · unfold Inode.byte
            have old := addr_mem inside
            rw [addr_append whole inside,
              spared _ fun w is => apart _ w is (List.mem_append_left _ old)]
            exact goes.keeps _ old
          · have block : btobbt (ip'.addr p) ∈ zeroed ++ tail := by
              rw [btobbt_addr, whole]
              have late : (blocksOf ip.iiExtents).length ≤ btobbt p := by
                rw [blocksOf_length]
                exact Nat.le_of_not_lt fun less => absurd (btobbt_lt.mp less) (Nat.not_lt_of_le after)
              rw [List.getD_append_right _ _ _ _ late]
              have within : btobbt p < (blocksOf ip'.iiExtents).length := by
                rw [blocksOf_length]
                exact btobbt_lt.mpr inside
              rw [whole, List.length_append] at within
              rw [List.getD_eq_getElem _ _ (by omega)]
              exact List.getElem_mem _
            rcases List.mem_append.mp block with cleared | last
            · unfold Inode.byte
              rw [spared _ fun w is => apart _ w is (List.mem_append_right _ cleared)]
              exact zeros _ cleared
            · cases wex with
              | none =>
                  rw [tail_none rfl] at last
                  cases last
              | some w =>
                  rw [tail_some w rfl] at last parts
                  rcases dealt w rfl with clear | ⟨rfl, begins, all⟩
                  · exact clear _ last
                  · have covered : ip'.iiExtents[i].exOffset + ip'.iiExtents[i].exLength ≤
                        (blocksOf ip'.iiExtents).length := by
                      have upto := lengthOf_take_mono ip'.iiExtents (k := ip'.iiExtents.length)
                        (Nat.succ_le_of_lt here)
                      rw [List.take_length, lengthOf_take_succ here] at upto
                      rw [blocksOf_length, shape.contig.offset here]
                      omega
                    have first := blocksOf_getD shape.contig here (k := pos) (by omega) (by omega)
                    have within : btobbt p < (blocksOf ip'.iiExtents).length := by
                      rw [blocksOf_length]
                      exact btobbt_lt.mpr inside
                    rw [btobbt_addr] at last
                    have run := last_run parts nodup (n := pos) (by omega) (by omega) (by omega) within last
                    have reach : uOffset + min (bbtob w.length - (uOffset - bbtob pos)) uCount =
                        bbtob pos + bbtob w.length := by
                      rw [all]
                      unfold bbtob btobbt at *
                      omega
                    dsimp only at out
                    rw [reach] at out
                    unfold bbtob btobbt at *
                    omega

end Write

/-! ## A file is an array of bytes -/

/-- The file holds the bytes of `l`, and zeros behind the block in which it
    ends.  In that block there may be anything behind its end. -/
structure Refines (vol : Volume) (ip : Inode) (l : List UInt8) : Prop where
  ok : ip.Ok false vol.efs
  mapped : ip.iFtype.mapped = true
  size : ip.iSize = l.length
  covered : ip.iSize ≤ bbtob (lengthOf ip.iiExtents)
  bytes : ∀ p < l.length, ip.byte vol p = l.getD p 0
  zeros : ∀ p, bbtob (btobb ip.iSize) ≤ p → p < bbtob (lengthOf ip.iiExtents) → ip.byte vol p = 0

/-- From the end of the file up to `off`, the block in which the file ends holds
    zeros. -/
def OverZeros (vol : Volume) (ip : Inode) (off : Nat) : Prop :=
  ∀ p < bbtob (btobb ip.iSize), ip.iSize ≤ p → p < off → ip.byte vol p = 0

instance (vol : Volume) (ip : Inode) (off : Nat) : Decidable (OverZeros vol ip off) := by
  unfold OverZeros
  infer_instance

section Refine

variable {t : Tune} {vol vol' : Volume} {ip ip' : Inode} {off n uLimit : Nat} {bmap : Bmap}
  {l data : List UInt8}

/-- An inode with the same extents is in the same order. -/
theorem Inode.Ok.alike {fs : Efs} (ok : ip.Ok false fs) (exts : ip'.iiExtents = ip.iiExtents)
    (indir : ip'.iiIndir = ip.iiIndir) (bytes : ip'.iiIndirbytes = ip.iiIndirbytes) :
    ip'.Ok false fs := by
  have owned : ip'.owned = ip.owned := by rw [Inode.owned, exts, indir, Inode.owned]
  refine ⟨owned ▸ ok.holds, ?_, ?_, ?_, ?_, ?_, fun many => ?_⟩
  · rw [exts]
    exact ok.shape.contig
  · rw [exts]
    exact ok.shape.each
  · rw [exts]
    exact ok.shape.few
  · rw [indir]
    exact ok.shape.vector
  · rw [indir, exts]
    exact ok.shape.needed
  · rw [exts] at many ⊢
    have area := ok.shape.indirect many
    exact ⟨by rw [bytes, indir]; exact area.counted, by rw [bytes]; exact area.enough,
      by rw [indir]; exact area.solid⟩

theorem Inode.Ok.nodup {fs : Efs} (ok : ip.Ok false fs) : (blocksOf ip.iiExtents).Nodup := by
  have all := ok.holds.own.1
  rw [Inode.owned, blocksOf_append] at all
  exact List.Nodup.of_append_left all

/-- Where a piece of a file has been written, its bytes are the new ones. -/
theorem byte_store {addr : Nat} (nodup : (blocksOf ip.iiExtents).Nodup)
    (piece : ∀ p, off ≤ p → p < off + data.length → ip.addr p = addr + (p - off))
    (covered : off + data.length ≤ bbtob (lengthOf ip.iiExtents)) {p : Nat}
    (inside : p < bbtob (lengthOf ip.iiExtents)) :
    ip.byte (vol.store addr data) p =
      if off ≤ p ∧ p < off + data.length then data.getD (p - off) 0 else ip.byte vol p := by
  unfold Inode.byte Volume.store
  dsimp only
  by_cases here : off ≤ p ∧ p < off + data.length
  · rw [if_pos here, piece p here.1 here.2, if_pos (by omega), Nat.add_sub_cancel_left]
  · rw [if_neg here, if_neg]
    rintro ⟨low, high⟩
    have same : ip.addr (off + (ip.addr p - addr)) = ip.addr p := by
      rw [piece _ (by omega) (by omega)]
      omega
    have equal := addr_inj nodup (by omega) inside same
    omega

/-- One round of the loop of `com_rdwr`. -/
theorem Refines.round (refines : Refines vol ip l) (zeros : OverZeros vol ip off)
    (mapped : Mapped vol ip off data.length vol' ip' bmap) :
    Refines (vol'.store (bbtob bmap.iex.bn + bmap.uPboff) (data.take bmap.uPbsize))
      { ip' with iSize := if ip'.iSize < off + bmap.uPbsize then off + bmap.uPbsize else ip'.iSize }
      (Growing.overwrite 0 l off (data.take bmap.uPbsize)) := by
  obtain ⟨_, fits, _, covered, addr⟩ := mapped.piece
  have fresh := mapped.fresh
  generalize bmap.uPbsize = n at fits covered addr fresh ⊢
  generalize bbtob bmap.iex.bn + bmap.uPboff = place at addr ⊢
  have taken : (data.take n).length = n := by rw [List.length_take, Nat.min_eq_left fits]
  have nodup := mapped.ok.nodup
  have before := refines.covered
  have size := refines.size
  have longer : bbtob (lengthOf ip.iiExtents) ≤ bbtob (lengthOf ip'.iiExtents) :=
    Nat.mul_le_mul_right 512 mapped.longer
  have grown : (if ip'.iSize < off + n then off + n else ip'.iSize) = max l.length (off + n) := by
    rw [mapped.frame.iSize, size]
    split <;> omega
  have stored : ∀ p < bbtob (lengthOf ip'.iiExtents),
      ip'.byte (vol'.store place (data.take n)) p =
        if off ≤ p ∧ p < off + n then (data.take n).getD (p - off) 0 else ip'.byte vol' p := by
    intro p inside
    have one : ip'.byte (vol'.store place (data.take n)) p =
        if off ≤ p ∧ p < off + (data.take n).length then (data.take n).getD (p - off) 0
        else ip'.byte vol' p :=
      byte_store nodup (by rw [taken]; exact addr) (by rw [taken]; exact covered) inside
    rwa [taken] at one
  refine ⟨mapped.ok.alike rfl rfl rfl, ?_, ?_, ?_, fun p inside => ?_, fun p after inside => ?_⟩
  · rw [← refines.mapped, ← mapped.frame.iFtype]
  · dsimp only
    rw [grown, Growing.length_overwrite, taken]
  · dsimp only
    rw [grown]
    omega
  · rw [Growing.length_overwrite, taken] at inside
    refine (stored p (by omega)).trans ?_
    rw [Growing.getD_overwrite 0 (by rw [taken]; exact inside), taken]
    by_cases here : off ≤ p ∧ p < off + n
    · rw [if_pos here, if_pos here]
    · rw [if_neg here, if_neg here]
      rcases Nat.lt_or_ge p l.length with kept | behind
      · rw [mapped.keeps p (by omega)]
        exact refines.bytes p kept
      · -- only a gap before the write is behind the end of the file
        have gap : p < off := by omega
        rw [List.getD_eq_default _ _ behind]
        rcases Nat.lt_or_ge p (bbtob (lengthOf ip.iiExtents)) with had | new
        · rw [mapped.keeps p had]
          rcases Nat.lt_or_ge p (bbtob (btobb ip.iSize)) with tail | far
          · exact zeros p tail (by omega) gap
          · exact refines.zeros p far had
        · exact fresh p new (by omega) (Or.inl gap)
  · dsimp only at after inside
    rw [grown] at after
    have far : max l.length (off + n) ≤ p := Nat.le_trans (le_bbtob_btobb _) after
    refine (stored p inside).trans ?_
    rw [if_neg (by omega)]
    rcases Nat.lt_or_ge p (bbtob (lengthOf ip.iiExtents)) with had | new
    · rw [mapped.keeps p had]
      refine refines.zeros p ?_ had
      have mono : btobb ip.iSize ≤ btobb (max l.length (off + n)) := by
        rw [btobb_le, size]
        exact Nat.le_trans (Nat.le_max_left _ _) (le_bbtob_btobb _)
      exact Nat.le_trans (Nat.mul_le_mul_right 512 mono) after
    · exact fresh p new inside (Or.inr (by omega))

theorem OverZeros.inside (within : off ≤ ip.iSize) : OverZeros vol ip off := by
  intro p _ behind before
  omega

/-- A write that succeeds overwrites the bytes of the file. -/
theorem comRdwrWrite_refines {fuel : Nat} (refines : Refines vol ip l) (zeros : OverZeros vol ip off)
    (some : 0 < data.length)
    (done : comRdwrWrite t uLimit fuel vol ip off data = (vol', ip', .ok ())) :
    Refines vol' ip' (Growing.overwrite 0 l off data) := by
  induction fuel generalizing vol ip l off data with
  | zero => cases done
  | succ fuel ih =>
      unfold comRdwrWrite at done
      split at done
      · cases done
      cases called : efsBmapWrite t vol ip off data.length with
      | mk vol₁ rest =>
          obtain ⟨ip₁, r⟩ := rest
          rw [called] at done
          cases r with
          | error e => cases done
          | ok bmap =>
              have mapped := efsBmapWrite_mapped refines.ok called
              have round := refines.round zeros mapped
              have moved := mapped.piece.some some
              dsimp only at done
              rw [if_neg (Nat.ne_of_gt mapped.piece.solid)] at done
              by_cases more : data.length - bmap.uPbsize ≠ 0 ∧ bmap.uPbsize ≠ 0
              · rw [if_pos more] at done
                have left : 0 < (data.drop bmap.uPbsize).length := by
                  rw [List.length_drop]
                  omega
                have all := ih round (OverZeros.inside (by dsimp only; split <;> omega)) left done
                have taken : (data.take bmap.uPbsize).length = bmap.uPbsize := by
                  rw [List.length_take]
                  omega
                have joined := Growing.overwrite_append (0 : UInt8) l off (data.take bmap.uPbsize)
                  (data.drop bmap.uPbsize)
                rw [taken, List.take_append_drop] at joined
                rwa [joined] at all
              · rw [if_neg more] at done
                have whole : data.take bmap.uPbsize = data := List.take_of_length_le (by omega)
                rw [whole] at round
                cases done
                rw [whole]
                exact round

/-- A write comes to an end. -/
theorem comRdwrWrite_returns {fuel : Nat} (ok : ip.Ok false vol.efs) (enough : data.length ≤ fuel)
    (some : 0 < data.length) :
    (comRdwrWrite t uLimit fuel vol ip off data).2.2 ≠ .error .hang := by
  induction fuel generalizing vol ip off data with
  | zero => omega
  | succ fuel ih =>
      unfold comRdwrWrite
      split
      · intro hang
        cases hang
      have located : Located false (btobbt off) vol ip
          (bmapLocate t (btobbt off) (btobbt off + 2) vol ip) :=
        bmapLocate_ok ok (fun sure => by cases sure) (Nat.succ_pos _) (by omega)
      cases called : efsBmapWrite t vol ip off data.length with
      | mk vol₁ rest =>
          obtain ⟨ip₁, r⟩ := rest
          cases r with
          | error e =>
              unfold efsBmapWrite at called
              dsimp only at called
              generalize bmapLocate t (btobbt off) (btobbt off + 2) vol ip = out at located called
              obtain ⟨vol₂, ip₂, r⟩ := out
              cases r with
              | error e' =>
                  cases called
                  intro hang
                  cases hang
                  exact located.hang rfl
              | ok found => cases called
          | ok bmap =>
              have mapped := efsBmapWrite_mapped ok called
              have moved := mapped.piece.some some
              dsimp only
              rw [if_neg (Nat.ne_of_gt mapped.piece.solid)]
              split
              · refine ih (mapped.ok.alike rfl rfl rfl) ?_ ?_
                · rw [List.length_drop]
                  omega
                · rw [List.length_drop]
                  omega
              · intro hang
                cases hang

/-- Where reading does not come to the end of the file, `efs_bmap` finds a piece
    of it. -/
theorem efsBmapRead_piece {uCount : Nat} (refines : Refines vol ip l) (inside : off < l.length)
    (some : 0 < uCount) :
    ∃ a b bmap, efsBmapRead t ip off uCount =
        ({ ip with ciLastbn := a, ciLastlen := b }, .ok (.some bmap)) ∧
      Piece ip off uCount bmap ∧ off + bmap.uPbsize ≤ l.length ∧ 0 < bmap.uPbsize := by
  have shape := refines.ok.shape
  have covered := refines.covered
  have size := refines.size
  obtain ⟨i, here, found, covers⟩ := bmapSearch_inside shape.contig shape.some
    (btobbt_lt.mpr (show off < bbtob (lengthOf ip.iiExtents) by omega))
  unfold efsBmapRead
  dsimp only
  rw [found]
  dsimp only
  have get : ip.iiExtents.getD i Extent.null = ip.iiExtents[i] := List.getD_eq_getElem _ _ here
  rw [get]
  cases part : bmapPart t ip.iiExtents[i] (btobbt off / t.efsBbsperlb) with
  | mk iex pos =>
      obtain ⟨_, start, stop, _, _⟩ := bmapPart_inside covers part
      dsimp only
      have positive : 0 < min (min (bbtob iex.length - (off - bbtob pos)) uCount) (ip.iSize - off) := by
        unfold bbtob btobbt at *
        omega
      rw [if_neg (Nat.ne_of_gt positive)]
      refine ⟨_, _, _, rfl, ?_, ?_, positive⟩
      · exact Piece.of_part shape.contig here covers part (Nat.min_le_left _ _) fun _ => positive
      · dsimp only
        omega

/-- Behind the end of the file there is nothing to read. -/
theorem efsBmapRead_end {uCount : Nat} (refines : Refines vol ip l) (past : l.length ≤ off) :
    ∃ a b, efsBmapRead t ip off uCount = ({ ip with ciLastbn := a, ciLastlen := b }, .ok none) := by
  have shape := refines.ok.shape
  have size := refines.size
  unfold efsBmapRead
  dsimp only
  rcases Nat.lt_or_ge (btobbt off) (lengthOf ip.iiExtents) with inside | beyond
  · obtain ⟨i, here, found, _⟩ := bmapSearch_inside shape.contig shape.some inside
    rw [found]
    dsimp only
    cases bmapPart t (ip.iiExtents.getD i Extent.null) (btobbt off / t.efsBbsperlb) with
    | mk iex pos =>
        dsimp only
        have none : min (min (bbtob iex.length - (off - bbtob pos)) uCount) (ip.iSize - off) = 0 := by
          omega
        rw [if_pos none]
        exact ⟨_, _, rfl⟩
  · obtain ⟨pos, len, found, _⟩ := bmapSearch_past shape.contig beyond
    rw [found]
    exact ⟨ip.ciLastbn, ip.ciLastlen, rfl⟩

/-- What is moved from a piece of the file. -/
theorem load_piece {uCount : Nat} (refines : Refines vol ip l) (piece : Piece ip off uCount bmap)
    (inside : off + bmap.uPbsize ≤ l.length) :
    vol.load (bbtob bmap.iex.bn + bmap.uPboff) bmap.uPbsize = (l.drop off).take bmap.uPbsize := by
  apply Growing.ext_getD 0
  · rw [Volume.load, List.length_map, List.length_range, List.length_take, List.length_drop]
    omega
  · intro k within
    rw [Volume.load, List.length_map, List.length_range] at within
    have byte := refines.bytes (off + k) (by omega)
    unfold Inode.byte at byte
    rw [piece.addr (off + k) (by omega) (by omega), Nat.add_sub_cancel_left] at byte
    rw [List.getD_eq_getElem?_getD, Volume.load, List.getElem?_map, List.getElem?_range within]
    refine byte.trans ?_
    rw [List.getD_eq_getElem?_getD, List.getD_eq_getElem?_getD, List.getElem?_take_of_lt within,
      List.getElem?_drop]

/-- Reading moves what is in the file, and moves nothing in it. -/
theorem comRdwrRead_returns {fuel uCount : Nat} (refines : Refines vol ip l)
    (enough : uCount ≤ fuel) (some : 0 < uCount) :
    ∃ a b, comRdwrRead t vol fuel ip off uCount =
      ({ ip with ciLastbn := a, ciLastlen := b }, .ok ((l.drop off).take uCount)) := by
  induction fuel generalizing ip off uCount with
  | zero => omega
  | succ fuel ih =>
      unfold comRdwrRead
      rcases Nat.lt_or_ge off l.length with inside | past
      · obtain ⟨a, b, bmap, called, piece, within, moved⟩ :=
          efsBmapRead_piece (t := t) refines inside some
        rw [called]
        dsimp only
        rw [load_piece refines piece within]
        have fits := piece.fits
        by_cases more : uCount - bmap.uPbsize ≠ 0 ∧ bmap.uPbsize ≠ 0
        · rw [if_pos more]
          have refines' : Refines vol { ip with ciLastbn := a, ciLastlen := b } l :=
            ⟨refines.ok.alike rfl rfl rfl, refines.mapped, refines.size, refines.covered, refines.bytes,
              refines.zeros⟩
          have fewer : uCount - bmap.uPbsize ≤ fuel := by omega
          obtain ⟨a', b', rest⟩ := ih refines' fewer (by omega)
          rw [rest]
          refine ⟨a', b', ?_⟩
          have joined : (l.drop off).take bmap.uPbsize ++
              (l.drop (off + bmap.uPbsize)).take (uCount - bmap.uPbsize) = (l.drop off).take uCount := by
            rw [← List.drop_drop, ← List.take_add]
            congr 1
            omega
          dsimp only
          rw [joined]
        · rw [if_neg more]
          have whole : bmap.uPbsize = uCount := by omega
          rw [whole]
          exact ⟨a, b, rfl⟩
      · obtain ⟨a, b, called⟩ : ∃ a b, efsBmapRead t ip off uCount = _ := efsBmapRead_end refines past
        rw [called, List.drop_of_length_le past, List.take_nil]
        exact ⟨a, b, rfl⟩

theorem comReadi_returns (t : Tune) (refines : Refines vol ip l) (off uCount : Nat) :
    ∃ a b, comReadi t vol ip off uCount =
      ({ ip with ciLastbn := a, ciLastlen := b }, .ok ((l.drop off).take uCount)) := by
  unfold comReadi
  by_cases none : uCount = 0
  · rw [if_pos none, none, List.take_zero]
    exact ⟨ip.ciLastbn, ip.ciLastlen, rfl⟩
  · rw [if_neg none]
    exact comRdwrRead_returns refines (Nat.le_refl _) (Nat.pos_of_ne_zero none)

/-! ## Truncation -/

/-- A truncation leaves the first bytes of the file. -/
theorem Refines.truncated (refines : Refines vol ip l) (shorter : n ≤ ip.iSize)
    (cut : Truncated false (blocksOf ip.iiExtents) n vol ip (vol', ip')) : Refines vol' ip' (l.take n) := by
  have size := refines.size
  have covered := refines.covered
  have exts : ip'.iiExtents = cutTo (btobb n) ip.iiExtents := cut.exts
  have blocks : blocksOf ip'.iiExtents = (blocksOf ip.iiExtents).take (btobb n) := by
    rw [exts, blocksOf_cutTo]
  have reach : btobb n ≤ lengthOf ip.iiExtents := btobb_le.mpr (by omega)
  have length : lengthOf ip'.iiExtents = btobb n := by
    rw [exts, cutTo_lengthOf, Nat.min_eq_left reach]
  have iSize : ip'.iSize = n := cut.iSize
  have grown : blocksOf ip.iiExtents = blocksOf ip'.iiExtents ++ (blocksOf ip.iiExtents).drop (btobb n) := by
    rw [blocks, List.take_append_drop]
  refine ⟨⟨cut.goes.goes.holds, cut.shape⟩, ?_, ?_, ?_, fun p inside => ?_, fun p after inside => ?_⟩
  · have same : ip'.iFtype = ip.iFtype := cut.iFtype
    rw [same]
    exact refines.mapped
  · rw [iSize, List.length_take]
    omega
  · rw [iSize, length]
    exact le_bbtob_btobb n
  · rw [List.length_take] at inside
    have within : p < bbtob (lengthOf ip'.iiExtents) := by
      rw [length]
      exact Nat.lt_of_lt_of_le (by omega) (le_bbtob_btobb n)
    have byte := refines.bytes p (by omega)
    unfold Inode.byte at byte ⊢
    rw [← addr_append grown within, cut.goes.keeps _ (addr_mem (by omega)), byte,
      List.getD_eq_getElem?_getD, List.getD_eq_getElem?_getD, List.getElem?_take_of_lt (by omega)]
  · rw [iSize] at after
    rw [length] at inside
    omega

theorem Refines.flag (refines : Refines vol ip l) : Refines vol { ip with iiTrunc := true } l :=
  ⟨refines.ok.alike rfl rfl rfl, refines.mapped, refines.size, refines.covered, refines.bytes,
    refines.zeros⟩

theorem efsDotrunc_refines (refines : Refines vol ip l) (n : Nat) :
    Refines (efsDotrunc vol { ip with iiTrunc := true } n).1
      (efsDotrunc vol { ip with iiTrunc := true } n).2 (l.take n) := by
  have flagged := refines.flag
  rcases Nat.lt_or_ge ip.iSize n with longer | shorter
  · have idle : efsDotrunc vol { ip with iiTrunc := true } n = (vol, { ip with iiTrunc := true }) := by
      rw [efsDotrunc, if_pos (by simp [longer])]
    have size := refines.size
    rw [idle, List.take_of_length_le (by omega)]
    exact flagged
  · exact flagged.truncated shorter (efsDotrunc_ok flagged.ok refines.mapped shorter rfl)

theorem efsSetsize_refines (refines : Refines vol ip l) (n : Nat) :
    Refines (efsSetsize vol ip n).1 (efsSetsize vol ip n).2 (l.take n) := by
  unfold efsSetsize
  split
  · exact efsDotrunc_refines refines n
  next idle =>
    have size := refines.size
    have same : n = ip.iSize := by
      simp only [refines.mapped, Bool.and_true, Bool.or_eq_true, decide_eq_true_eq, not_or, ne_eq,
        not_not] at idle
      exact idle.2
    rw [List.take_of_length_le (by omega)]
    exact refines

theorem efsItrunc_refines (refines : Refines vol ip l) :
    Refines (efsItrunc vol ip).1 (efsItrunc vol ip).2 [] := by
  unfold efsItrunc
  rw [if_pos refines.mapped]
  exact efsDotrunc_refines refines 0

end Refine

/-! ## Runs -/

/-- A regular file on its volume. -/
structure File where
  vol : Volume
  ip : Inode

/-- What is done with a file. -/
inductive FileIo where
  | write (uOffset : Nat) (data : List UInt8)
  | read (uOffset uCount : Nat)
  | setsize (newsize : Nat)
  | itrunc
  deriving Repr, DecidableEq

/-- What it means for an array of bytes. -/
def FileIo.spec (l : List UInt8) : FileIo → List UInt8
  | .write uOffset data => if data = [] then l else Growing.overwrite 0 l uOffset data
  | .read _ _ => l
  | .setsize newsize => l.take newsize
  | .itrunc => []

namespace File

section Code

variable (t : Tune) (uLimit : Nat)

def io (f : File) : FileIo → File × Except Errno (List UInt8)
  | .write uOffset data =>
      let (vol, ip, r) := comWritei t uLimit f.vol f.ip uOffset data
      (⟨vol, ip⟩, r.map fun _ => [])
  | .read uOffset uCount =>
      let (ip, r) := comReadi t f.vol f.ip uOffset uCount
      (⟨f.vol, ip⟩, r)
  | .setsize newsize =>
      let (vol, ip) := efsSetsize f.vol f.ip newsize
      (⟨vol, ip⟩, .ok [])
  | .itrunc =>
      let (vol, ip) := efsItrunc f.vol f.ip
      (⟨vol, ip⟩, .ok [])

def step (f : File) (op : FileIo) : File := (f.io t uLimit op).1

/-- The operation returns without error. -/
def Succeeds (f : File) (op : FileIo) : Prop := (f.io t uLimit op).2.isOk = true

instance (f : File) (op : FileIo) : Decidable (f.Succeeds t uLimit op) :=
  inferInstanceAs (Decidable ((f.io t uLimit op).2.isOk = true))

end Code

/-- A write behind the end of the file finds zeros in the block in which the
    file ends. -/
def FindsZeros (f : File) : FileIo → Prop
  | .write uOffset data => data ≠ [] → OverZeros f.vol f.ip uOffset
  | _ => True

instance (f : File) (op : FileIo) : Decidable (f.FindsZeros op) := by
  cases op <;> unfold FindsZeros <;> infer_instance

/-- A regular file with nothing in it. -/
structure Empty (f : File) : Prop where
  ok : f.ip.Ok false f.vol.efs
  regular : f.ip.iFtype = .ifreg
  size : f.ip.iSize = 0
  none : f.ip.iiExtents = []

section

variable {t : Tune} {uLimit : Nat} {f : File} {op : FileIo} {l : List UInt8}

theorem Empty.refines (empty : f.Empty) : Refines f.vol f.ip [] := by
  refine ⟨empty.ok, by rw [empty.regular]; rfl, empty.size, ?_, fun p none => ?_, fun p _ inside => ?_⟩
  · rw [empty.size]
    exact Nat.zero_le _
  · exact absurd none (Nat.not_lt_zero p)
  · rw [empty.none] at inside
    exact absurd inside (Nat.not_lt_zero p)

theorem step_refines (refines : Refines f.vol f.ip l) (succeeds : f.Succeeds t uLimit op)
    (zeros : f.FindsZeros op) :
    Refines (f.step t uLimit op).vol (f.step t uLimit op).ip (op.spec l) := by
  unfold step
  cases op with
  | write uOffset data =>
      unfold Succeeds at succeeds
      unfold FindsZeros at zeros
      unfold io comWritei at succeeds ⊢
      unfold FileIo.spec
      dsimp only at succeeds ⊢
      by_cases none : data = []
      · rw [if_pos none, if_pos none]
        exact refines
      · rw [if_neg none] at succeeds ⊢
        rw [if_neg none]
        by_cases far : bbtob uLimit ≤ uOffset
        · rw [if_pos far] at succeeds
          cases succeeds
        · rw [if_neg far] at succeeds ⊢
          have some : 0 < data.length := List.length_pos_iff.mpr none
          cases done : comRdwrWrite t uLimit data.length f.vol f.ip uOffset data with
          | mk vol rest =>
              obtain ⟨ip, r⟩ := rest
              rw [done] at succeeds
              cases r with
              | error e => cases succeeds
              | ok u => exact comRdwrWrite_refines refines (zeros none) some done
  | read uOffset uCount =>
      obtain ⟨a, b, done⟩ := comReadi_returns t refines uOffset uCount
      unfold io
      dsimp only
      rw [done]
      exact ⟨refines.ok.alike rfl rfl rfl, refines.mapped, refines.size, refines.covered,
        refines.bytes, refines.zeros⟩
  | setsize newsize => exact efsSetsize_refines refines newsize
  | itrunc => exact efsItrunc_refines refines

end

end File

/-- After a run in which no write leaves a gap over old bytes in the block the
    file ends in, reading returns what an array of bytes would hold. -/
theorem file_reads_back (t : Tune) (uLimit : Nat) (f : File) (ops : List FileIo) (empty : f.Empty)
    (along : Run.Along (File.step t uLimit)
      (fun f op => f.Succeeds t uLimit op ∧ f.FindsZeros op) f ops) :
    let f' := Run.exec (File.step t uLimit) f ops
    let l := Run.exec FileIo.spec [] ops
    f'.ip.iSize = l.length ∧
      ∀ off uCount, (comReadi t f'.vol f'.ip off uCount).2 = .ok ((l.drop off).take uCount) := by
  intro f' l
  have keep : ∀ (f : File) (l : List UInt8) (op : FileIo), Refines f.vol f.ip l →
      f.Succeeds t uLimit op ∧ f.FindsZeros op →
      Refines (f.step t uLimit op).vol (f.step t uLimit op).ip (op.spec l) :=
    fun f l op refines fine => File.step_refines refines fine.1 fine.2
  have refines : Refines f'.vol f'.ip l := Run.simulation keep empty.refines along
  refine ⟨refines.size, fun off uCount => ?_⟩
  obtain ⟨a, b, done⟩ := comReadi_returns t refines off uCount
  rw [done]

/-- An empty file on a volume whose blocks hold old bytes. -/
def emptyFile : File := ⟨vacant.vol, vacant.inodes 2⟩

theorem emptyFile_empty : emptyFile.Empty :=
  ⟨vacant_consistent.tidy.ok 2, rfl, rfl, rfl⟩

theorem file_reads_back_gap :
    let ops := [FileIo.write 0 [65, 65], .setsize 2, .write 5 [66], .read 1 4]
    let f' := Run.exec (File.step production 100) emptyFile ops
    let l := Run.exec FileIo.spec [] ops
    f'.ip.iSize = l.length ∧
      ∀ off uCount, (comReadi production f'.vol f'.ip off uCount).2 = .ok ((l.drop off).take uCount) :=
  file_reads_back production 100 emptyFile [.write 0 [65, 65], .setsize 2, .write 5 [66], .read 1 4]
    emptyFile_empty (by decide +kernel)

/-- A byte cut off comes up again when the file grows over it. -/
theorem cut_byte_returns : emptyFile.Empty ∧
    let ops := [FileIo.write 0 [65, 65], .setsize 1, .write 5 [66]]
    let f' := Run.exec (File.step production 100) emptyFile ops
    Run.Along (File.step production 100) (fun f op => f.Succeeds production 100 op) emptyFile ops ∧
      Run.exec FileIo.spec [] ops = [65, 0, 0, 0, 0, 66] ∧
      (comReadi production f'.vol f'.ip 0 6).2.toOption = some [65, 65, 0, 0, 0, 66] :=
  ⟨emptyFile_empty, by decide⟩

end Irix.ExtentFs
