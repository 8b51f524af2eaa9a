import Irix.ExtentFs.Accounting
import Irix.ExtentFs.Shape
import Irix.Lib.Ledger
import Mathlib.Data.List.Perm.Subperm

/-! # Who owns a block

An inode owns the blocks of its direct and its indirect extents.  The routines
that grow and cut an inode are followed as moves between the bit map and that
list.  All of them are sure moves but one: `efs_expand` forgets the indirect
extents of an inode that has exactly as many extents as fit in it.
-/

namespace Irix.ExtentFs

open Lib

def Extent.blocks (ex : Extent) : List Nat := List.range' ex.exBn ex.exLength

/-- All extents an inode owns. -/
def Inode.owned (ip : Inode) : List Extent := ip.iiExtents ++ ip.iiIndir

/-- The blocks of a list of extents. -/
def blocksOf (exts : List Extent) : List Nat := exts.flatMap Extent.blocks

@[simp] theorem blocksOf_nil : blocksOf [] = [] := rfl

@[simp] theorem blocksOf_cons (ex : Extent) (exts : List Extent) :
    blocksOf (ex :: exts) = ex.blocks ++ blocksOf exts := List.flatMap_cons

@[simp] theorem blocksOf_append (exts exts' : List Extent) :
    blocksOf (exts ++ exts') = blocksOf exts ++ blocksOf exts' := List.flatMap_append

theorem blocksOf_perm {exts exts' : List Extent} (perm : exts.Perm exts') :
    (blocksOf exts).Perm (blocksOf exts') := perm.flatMap_right _

theorem mem_blocks {ex : Extent} {b : Nat} :
    b ∈ ex.blocks ↔ ex.exBn ≤ b ∧ b < ex.exBn + ex.exLength := List.mem_range'_1

/-- A list of extents with no block twice, on used blocks of the data areas.
    Unless `sure`, extents read through a null pointer may be among them, and
    the volume may be marked corrupted. -/
structure Holds (sure : Bool) (fs : Efs) (exts : List Extent) : Prop where
  sound : fs.Sound
  own : Ledger.Own fs.fsDmap (blocksOf exts)
  data : ∀ ex ∈ exts, InData fs.toGeometry ex ∨ (sure = false ∧ ex.exLength = 0)
  sane : sure = true → fs.fsCorrupted = false

/-- From one list of extents to another, by moves between the list and the bit
    map. -/
structure Goes (sure : Bool) (fs : Efs) (exts : List Extent) (fs' : Efs) (exts' : List Extent) :
    Prop where
  geometry : fs'.toGeometry = fs.toGeometry
  moves : Ledger.Moves (!sure) fs.fsDmap (blocksOf exts) fs'.fsDmap (blocksOf exts')
  holds : Holds sure fs' exts'

section Primitives

variable {sure : Bool} {fs fs' fs'' : Efs} {exts exts' exts'' : List Extent} {ex : Extent}

theorem Goes.trans (first : Goes sure fs exts fs' exts') (second : Goes sure fs' exts' fs'' exts'') :
    Goes sure fs exts fs'' exts'' :=
  ⟨second.geometry.trans first.geometry, first.moves.trans second.moves, second.holds⟩

theorem Holds.perm (holds : Holds sure fs exts) (perm : exts.Perm exts') :
    Holds sure fs exts' where
  sound := holds.sound
  own :=
    have moves : Ledger.Moves false fs.fsDmap _ fs.fsDmap _ := .keep (blocksOf_perm perm)
    moves.alone holds.own
  data := fun ex mem => holds.data ex (perm.mem_iff.mpr mem)
  sane := holds.sane

theorem Goes.perm (holds : Holds sure fs exts) (perm : exts.Perm exts') :
    Goes sure fs exts fs exts' :=
  ⟨rfl, .keep (blocksOf_perm perm), holds.perm perm⟩

theorem Goes.refl (holds : Holds sure fs exts) : Goes sure fs exts fs exts :=
  Goes.perm holds (List.Perm.refl exts)

/-- An extent of a list that holds passes every test of `efs_badextent`. -/
theorem Holds.valid (holds : Holds sure fs (ex :: exts)) (some : 0 < ex.exLength) :
    ValidExtent fs ex := by
  refine ⟨(holds.data ex (List.mem_cons_self ..)).resolve_right (by omega), fun i inside => ?_⟩
  refine holds.own.2 _ ?_
  rw [blocksOf_cons]
  exact List.mem_append_left _ (mem_blocks.mpr (by omega))

theorem Changed.area {v : Bool} {g bn len : Nat} (changed : Changed v fs fs' g bn len)
    (some : 0 < len) : fs.InArea g bn :=
  ⟨changed.inside, changed.low, by have := changed.high; omega⟩

theorem Changed.bits24 {v : Bool} {g bn len : Nat} (changed : Changed v fs fs' g bn len)
    (some : 0 < len) : bits24 bn = bn :=
  bits24_fits (Nat.lt_trans (changed.area some).lt_size fs.fsSize_lt)

/-- Blocks just allocated become a new extent. -/
theorem Goes.take {g bn len : Nat} (holds : Holds sure fs exts)
    (changed : Changed false fs fs' g bn len) (some : 0 < len) (short : len ≤ efsMaxextentlen)
    (magic offset : Nat) : Goes sure fs exts fs' (exts ++ [⟨magic, bn, len, offset⟩]) := by
  have moves : Ledger.Moves (!sure) fs.fsDmap (blocksOf exts) fs'.fsDmap
      (blocksOf (exts ++ [⟨magic, bn, len, offset⟩])) := by
    rw [changed.dmap]
    refine .take changed.whole ?_
    simp only [blocksOf_append, blocksOf_cons, blocksOf_nil, List.append_nil, Extent.blocks]
    exact List.Perm.refl _
  refine ⟨changed.geometry, moves, changed.sound, moves.alone holds.own, ?_, ?_⟩
  · intro other mem
    rw [changed.geometry]
    rcases List.mem_append.mp mem with old | new
    · exact holds.data other old
    · rw [List.mem_singleton] at new
      rw [new]
      have group : fs.bbtocg bn = g := (changed.area some).bbtocg
      refine Or.inl ⟨?_, ?_, ?_, some, short⟩ <;> rw [group]
      · exact changed.inside
      · exact changed.low
      · exact changed.high
  · intro sure_
    rw [changed.corrupted]
    exact holds.sane sure_

/-- Blocks just allocated behind an extent lengthen it. -/
theorem Goes.extend {n : Nat} (holds : Holds sure fs (ex :: exts)) (valid : ValidExtent fs ex)
    (changed : Changed false fs fs' (fs.bbtocg ex.exBn) (ex.exBn + ex.exLength) n)
    (fits : ex.exLength + n ≤ efsMaxextentlen) :
    Goes sure fs (ex :: exts) fs' ({ ex with exLength := ex.exLength + n } :: exts) := by
  have moves : Ledger.Moves (!sure) fs.fsDmap (blocksOf (ex :: exts)) fs'.fsDmap
      (blocksOf ({ ex with exLength := ex.exLength + n } :: exts)) := by
    rw [changed.dmap]
    refine .take changed.whole ?_
    simp only [blocksOf_cons, Extent.blocks, ← List.range'_append_1, List.append_assoc]
    exact List.Perm.append_left _ List.perm_append_comm
  refine ⟨changed.geometry, moves, changed.sound, moves.alone holds.own, ?_, ?_⟩
  · intro other mem
    rw [changed.geometry]
    rcases List.mem_cons.mp mem with rfl | old
    · have := valid.positive
      have := changed.high
      refine Or.inl ⟨valid.inside, valid.low, ?_, ?_, fits⟩ <;> dsimp only <;> omega
    · exact holds.data other (List.mem_cons_of_mem _ old)
  · intro sure_
    rw [changed.corrupted]
    exact holds.sane sure_

/-- Nothing but summaries changed. -/
theorem Goes.resummarized (holds : Holds sure fs exts) (same : Resummarized fs fs')
    (sound : fs'.Sound) : Goes sure fs exts fs' exts := by
  obtain ⟨_, _, rfl⟩ := same
  exact ⟨rfl, .rfl, sound, holds.own, holds.data, holds.sane⟩

/-- Marking the volume corrupted happens only where nothing is sure. -/
theorem Goes.corrupt (holds : Holds sure fs exts) (unsure : sure = false) :
    Goes sure fs exts { fs with fsCorrupted := true } exts :=
  ⟨rfl, .rfl, holds.sound, holds.own, holds.data, fun sure_ => by rw [unsure] at sure_; cases sure_⟩

/-- Blocks dropped without being freed. -/
theorem Goes.lose {lost : List Extent} (holds : Holds sure fs (lost ++ exts))
    (unsure : sure = false) : Goes sure fs (lost ++ exts) fs exts := by
  have moves : Ledger.Moves (!sure) fs.fsDmap (blocksOf (lost ++ exts)) fs.fsDmap
      (blocksOf exts) := by
    rw [blocksOf_append]
    exact .lose (by rw [unsure]; rfl) List.perm_append_comm
  exact ⟨rfl, moves, holds.sound, moves.alone holds.own,
    fun ex mem => holds.data ex (List.mem_append_right _ mem), holds.sane⟩

/-- Freeing an extent of the list. -/
theorem Goes.free (holds : Holds sure fs (ex :: exts)) :
    Goes sure fs (ex :: exts) (efsFree fs ex) exts := by
  have ends := efsFree_ok ex holds.sound
  generalize efsFree fs ex = fs' at ends
  cases ends with
  | corrupted already =>
      have unsure : sure = false := by
        cases sure with
        | false => rfl
        | true =>
            rw [holds.sane rfl] at already
            cases already
      have dropped : Goes sure fs ([ex] ++ exts) fs exts := Goes.lose holds unsure
      exact dropped
  | bad invalid =>
      have none : ex.exLength = 0 := by
        by_contra some
        exact invalid (holds.valid (Nat.pos_of_ne_zero some))
      have unsure : sure = false := by
        rcases holds.data ex (List.mem_cons_self ..) with data | null
        · have := data.positive
          omega
        · exact null.1
      have dropped : Goes sure fs ([ex] ++ exts) fs exts := Goes.lose holds unsure
      exact dropped.trans (Goes.corrupt dropped.holds unsure)
  | freed valid changed =>
      have moves : Ledger.Moves (!sure) fs.fsDmap (blocksOf (ex :: exts)) fs'.fsDmap
          (blocksOf exts) := by
        rw [changed.dmap, blocksOf_cons]
        exact .give List.perm_append_comm
      refine ⟨changed.geometry, moves, changed.sound, moves.alone holds.own, ?_, ?_⟩
      · intro other mem
        rw [changed.geometry]
        exact holds.data other (List.mem_cons_of_mem _ mem)
      · intro sure_
        rw [changed.corrupted]
        exact holds.sane sure_

/-- An extent cut in two is still held. -/
theorem Holds.split {newlen : Nat} (holds : Holds sure fs (ex :: exts)) (some : 0 < newlen)
    (less : newlen < ex.exLength) :
    Goes sure fs (ex :: exts) fs
      (⟨0, bits24 (ex.exBn + newlen), bits8 (ex.exLength - newlen), 0⟩ ::
        { ex with exLength := bits8 newlen } :: exts) := by
  have data := (holds.valid (by omega)).toInData
  have limit := fs.fsSize_lt
  have within := fs.dataEnd_le_size data.inside
  have high := data.high
  have low := data.low
  have short := data.length
  have small : ex.exLength < 256 := Nat.lt_of_le_of_lt short (by decide)
  have inData : ∀ bn len, ex.exBn ≤ bn → bn + len ≤ ex.exBn + ex.exLength → 0 < len →
      ∀ magic offset, InData fs.toGeometry ⟨magic, bn, len, offset⟩ := by
    intro bn len start stop positive magic offset
    have area : fs.InArea (fs.bbtocg ex.exBn) bn := ⟨data.inside, by omega, by omega⟩
    have group : fs.bbtocg bn = fs.bbtocg ex.exBn := area.bbtocg
    refine ⟨?_, ?_, ?_, positive, ?_⟩ <;> dsimp only
    · rw [group]
      exact data.inside
    · rw [group]
      omega
    · rw [group]
      omega
    · omega
  rw [bits24_fits (by omega), bits8_fits (by omega), bits8_fits (by omega)]
  have perm : (blocksOf (ex :: exts)).Perm
      (blocksOf (⟨0, ex.exBn + newlen, ex.exLength - newlen, 0⟩ ::
        { ex with exLength := newlen } :: exts)) := by
    simp only [blocksOf_cons, Extent.blocks, ← List.append_assoc]
    refine List.Perm.append_right _ ?_
    have whole : List.range' ex.exBn ex.exLength =
        List.range' ex.exBn newlen ++ List.range' (ex.exBn + newlen) (ex.exLength - newlen) := by
      rw [List.range'_append_1, Nat.add_sub_cancel' (by omega)]
    rw [whole]
    exact List.perm_append_comm
  have moves : Ledger.Moves (!sure) fs.fsDmap _ fs.fsDmap _ := .keep perm
  refine ⟨rfl, moves, holds.sound, moves.alone holds.own, ?_, holds.sane⟩
  intro other mem
  simp only [List.mem_cons] at mem
  rcases mem with rfl | rfl | old
  · exact Or.inl (inData _ _ (by omega) (by omega) (by omega) _ _)
  · exact Or.inl (inData _ _ (by omega) (by omega) some _ _)
  · exact holds.data other (List.mem_cons_of_mem _ old)

/-- Null extents own nothing. -/
theorem Goes.nulls (holds : Holds sure fs exts) (n : Nat) (unsure : sure = false ∨ n = 0) :
    Goes sure fs exts fs (exts ++ List.replicate n Extent.null) := by
  have none : blocksOf (List.replicate n Extent.null) = [] := by
    rw [blocksOf, List.flatMap_eq_nil_iff]
    intro ex mem
    rw [(List.mem_replicate.mp mem).2]
    rfl
  have moves : Ledger.Moves (!sure) fs.fsDmap (blocksOf exts) fs.fsDmap
      (blocksOf (exts ++ List.replicate n Extent.null)) := by
    rw [blocksOf_append, none, List.append_nil]
    exact .rfl
  refine ⟨rfl, moves, holds.sound, moves.alone holds.own, fun ex mem => ?_, holds.sane⟩
  rcases List.mem_append.mp mem with old | null
  · exact holds.data ex old
  · have := List.mem_replicate.mp null
    exact Or.inr ⟨unsure.resolve_right this.1, by rw [this.2]; rfl⟩

end Primitives

/-! ## The volume -/

/-- As `Goes`, on volumes: and the blocks of `kept` keep their bytes. -/
structure VGoes (sure : Bool) (kept : List Nat) (vol : Volume) (exts : List Extent)
    (vol' : Volume) (exts' : List Extent) : Prop where
  goes : Goes sure vol.efs exts vol'.efs exts'
  keeps : ∀ a, btobbt a ∈ kept → vol'.disk a = vol.disk a

section Volume

variable {sure : Bool} {kept : List Nat} {t : Tune} {vol vol' vol'' : Volume}
  {exts exts' exts'' : List Extent} {ex : Extent}

theorem VGoes.trans (first : VGoes sure kept vol exts vol' exts')
    (second : VGoes sure kept vol' exts' vol'' exts'') : VGoes sure kept vol exts vol'' exts'' :=
  ⟨first.goes.trans second.goes, fun a mem => (second.keeps a mem).trans (first.keeps a mem)⟩

theorem VGoes.of_goes {fs' : Efs} (goes : Goes sure vol.efs exts fs' exts') :
    VGoes sure kept vol exts { vol with efs := fs' } exts' :=
  ⟨goes, fun _ _ => rfl⟩

theorem VGoes.perm (holds : Holds sure vol.efs exts) (perm : exts.Perm exts') :
    VGoes sure kept vol exts vol exts' := .of_goes (Goes.perm holds perm)

/-- Clearing blocks that are not among the kept ones. -/
theorem VGoes.clear {bn length : Nat} (holds : Holds sure vol.efs exts)
    (apart : ∀ b ∈ kept, b < bn ∨ bn + length ≤ b) :
    VGoes sure kept vol exts (vol.clear bn length) exts :=
  ⟨Goes.refl holds, fun a mem => vol.clear_outside (apart (btobbt a) mem)⟩

/-- Blocks that were free are not among the kept ones. -/
theorem Changed.apart {fs fs' : Efs} {g bn len : Nat} (changed : Changed false fs fs' g bn len)
    (holds : Holds sure fs exts) (among : kept ⊆ blocksOf exts) :
    ∀ b ∈ kept, b < bn ∨ bn + len ≤ b := by
  intro b mem
  by_contra inside
  have free := changed.whole (b - bn) (by omega)
  rw [Nat.add_sub_cancel' (by omega), holds.own.2 b (among mem)] at free
  exact Bool.false_ne_true free

theorem VGoes.expose {fs' : Efs} {bn length : Nat} (goes : Goes sure vol.efs exts fs' exts')
    (apart : ∀ b ∈ kept, b < bn ∨ bn + length ≤ b) :
    VGoes sure kept vol exts (({ vol with efs := fs' } : Volume).expose bn length) exts' :=
  ⟨goes, fun a mem => Volume.expose_outside _ (apart (btobbt a) mem)⟩

/-- What an allocation of one extent does. -/
structure Taken (sure : Bool) (kept : List Nat) (vol : Volume) (exts : List Extent) (vol' : Volume)
    (wex : Bmapval) (desiredlen : Nat) (musthave : Bool) : Prop where
  goes : ∀ magic offset,
    VGoes sure kept vol exts vol' (exts ++ [⟨magic, wex.bn, wex.length, offset⟩])
  positive : 0 < wex.length
  le : wex.length ≤ desiredlen
  enough : musthave = true → wex.length = desiredlen
  bn : bits24 wex.bn = wex.bn
  length : bits8 wex.length = wex.length
  apart : ∀ b ∈ kept, b < wex.bn ∨ wex.bn + wex.length ≤ b

theorem Volume.alloc_cases (holds : Holds sure vol.efs exts) (among : kept ⊆ blocksOf exts)
    (inum desiredlen : Nat) (musthave : Bool) (some : 0 < desiredlen)
    (short : desiredlen ≤ efsMaxextentlen) :
    (∃ vol', vol.alloc t inum desiredlen musthave = (vol', none) ∧
      VGoes sure kept vol exts vol' exts) ∨
    ∃ vol' wex, vol.alloc t inum desiredlen musthave = (vol', Option.some wex) ∧
      Taken sure kept vol exts vol' wex desiredlen musthave := by
  have ends : AllocOk vol.efs desiredlen musthave (efsAlloc t vol.efs inum desiredlen musthave) :=
    efsAlloc_ok inum holds.sound
  rw [Volume.alloc]
  generalize efsAlloc t vol.efs inum desiredlen musthave = out at ends
  cases ends with
  | noMoreRoom same sound => exact Or.inl ⟨_, rfl, .of_goes (Goes.resummarized holds same sound)⟩
  | corruption _ same sound =>
      exact Or.inl ⟨_, rfl, .of_goes (Goes.resummarized holds same sound)⟩
  | @found fs' g bn len changed le positive enough =>
      have apart := changed.apart holds among
      refine Or.inr ⟨_, ⟨bn, len⟩, rfl, fun magic offset => ?_, positive some, le, enough,
        changed.bits24 (positive some), bits8_fits ?_, apart⟩
      · exact .expose (Goes.take holds changed (positive some) (Nat.le_trans le short) magic offset)
          apart
      · exact Nat.lt_of_le_of_lt (Nat.le_trans le short) (by decide)

theorem Volume.allocCleared_cases (holds : Holds sure vol.efs exts)
    (among : kept ⊆ blocksOf exts) (inum desiredlen : Nat) (musthave : Bool)
    (some : 0 < desiredlen) (short : desiredlen ≤ efsMaxextentlen) :
    (∃ vol', vol.allocCleared t inum desiredlen musthave = (vol', none) ∧
      VGoes sure kept vol exts vol' exts) ∨
    ∃ vol' wex, vol.allocCleared t inum desiredlen musthave = (vol', Option.some wex) ∧
      Taken sure kept vol exts vol' wex desiredlen musthave := by
  rw [Volume.allocCleared]
  rcases vol.alloc_cases (t := t) holds among inum desiredlen musthave some short with
    ⟨vol', out, goes⟩ | ⟨vol', wex, out, taken⟩
  · rw [out]
    exact Or.inl ⟨vol', rfl, goes⟩
  · rw [out]
    refine Or.inr ⟨_, wex, rfl, { taken with goes := fun magic offset => ?_ }⟩
    have first := taken.goes magic offset
    exact first.trans (VGoes.clear first.goes.holds taken.apart)

/-- What growing the first extent of a list does. -/
structure Lengthened (sure : Bool) (kept : List Nat) (vol : Volume) (ex : Extent)
    (exts : List Extent) (vol' : Volume) (wex : Bmapval) (len : Nat) : Prop where
  goes : VGoes sure kept vol (ex :: exts) vol'
    ({ ex with exLength := ex.exLength + wex.length } :: exts)
  bn : wex.bn = ex.exBn + ex.exLength
  positive : 0 < wex.length
  le : wex.length ≤ len
  short : ex.exLength + wex.length ≤ efsMaxextentlen
  apart : ∀ b ∈ kept, b < wex.bn ∨ wex.bn + wex.length ≤ b

theorem Volume.grow_cases (holds : Holds sure vol.efs (ex :: exts))
    (among : kept ⊆ blocksOf (ex :: exts)) (len : Nat) :
    (∃ vol', vol.grow ex len = (vol', ex, none) ∧
      VGoes sure kept vol (ex :: exts) vol' (ex :: exts)) ∨
    ∃ vol' wex, vol.grow ex len =
        (vol', { ex with exLength := ex.exLength + wex.length }, some wex) ∧
      Lengthened sure kept vol ex exts vol' wex len := by
  have ends : GrowOk vol.efs ex len (efsGrow vol.efs ex len) := efsGrow_ok ex len holds.sound
  generalize out : efsGrow vol.efs ex len = grown at ends
  cases ends with
  | bad invalid =>
      have unsure : sure = false := by
        rcases holds.data ex (List.mem_cons_self ..) with data | null
        · exact absurd (holds.valid data.positive) invalid
        · exact null.1
      exact Or.inl ⟨_, Volume.grow_none out, .of_goes (Goes.corrupt holds unsure)⟩
  | none valid _ =>
      exact Or.inl ⟨vol, Volume.grow_none out, VGoes.perm holds (List.Perm.refl _)⟩
  | @grown fs' n valid changed positive le fits =>
      have apart := changed.apart holds among
      refine Or.inr ⟨_, ⟨_, n⟩, Volume.grow_some out positive, ?_, rfl, positive, le, fits, apart⟩
      exact .expose (Goes.extend holds valid changed fits) apart

theorem Volume.growCleared_cases (holds : Holds sure vol.efs (ex :: exts))
    (among : kept ⊆ blocksOf (ex :: exts)) (len : Nat) :
    (∃ vol', vol.growCleared ex len = (vol', ex, none) ∧
      VGoes sure kept vol (ex :: exts) vol' (ex :: exts)) ∨
    ∃ vol' wex, vol.growCleared ex len =
        (vol', { ex with exLength := ex.exLength + wex.length }, some wex) ∧
      Lengthened sure kept vol ex exts vol' wex len := by
  unfold Volume.growCleared
  rcases vol.grow_cases holds among len with ⟨vol', out, goes⟩ | ⟨vol', wex, out, longer⟩
  · rw [out]
    exact Or.inl ⟨vol', rfl, goes⟩
  · rw [out]
    exact Or.inr ⟨_, wex, rfl,
      { longer with goes := longer.goes.trans (VGoes.clear longer.goes.goes.holds longer.apart) }⟩

theorem VGoes.free (holds : Holds sure vol.efs (ex :: exts)) :
    VGoes sure kept vol (ex :: exts) (vol.free ex) exts := .of_goes (Goes.free holds)

/-- Freeing a whole list of extents. -/
theorem VGoes.freeAll (gone : List Extent) (holds : Holds sure vol.efs (gone ++ exts)) :
    VGoes sure kept vol (gone ++ exts) (gone.foldl Volume.free vol) exts := by
  induction gone generalizing vol with
  | nil => exact VGoes.perm holds (List.Perm.refl _)
  | cons ex gone ih =>
      have first : VGoes sure kept vol (ex :: (gone ++ exts)) (vol.free ex) (gone ++ exts) :=
        VGoes.free holds
      exact first.trans (ih first.goes.holds)

end Volume

/-! ## Growing -/

/-- An inode in order on a volume in order. -/
structure Inode.Ok (sure : Bool) (fs : Efs) (ip : Inode) : Prop where
  holds : Holds sure fs ip.owned
  shape : ip.Shape

/-- The state in which `efs_expand` forgets an indirect extent. -/
def Inode.Leaks (ip : Inode) : Prop :=
  ip.iiExtents.length = efsDirectextents ∧ ip.iiIndir ≠ []

instance (ip : Inode) : Decidable ip.Leaks := by
  unfold Inode.Leaks
  infer_instance

/-- What `efs_expand` does to an inode, successful or not. -/
structure Expanded (sure : Bool) (vol : Volume) (ip : Inode)
    (out : Volume × Inode × Except Errno Unit) : Prop where
  only : ∃ indir bytes, out.2.1 = { ip with iiIndir := indir, iiIndirbytes := bytes }
  goes : VGoes sure (blocksOf ip.iiExtents) vol ip.owned out.1 out.2.1.owned
  shape : out.2.1.Shape
  error : out.2.2 ≠ .error .hang
  room : out.2.2 = .ok () → out.2.1.Room

section Expand

variable {sure : Bool} {t : Tune} {vol : Volume} {ip : Inode}

theorem kept_direct (ip : Inode) : blocksOf ip.iiExtents ⊆ blocksOf ip.owned := by
  rw [Inode.owned, blocksOf_append]
  exact List.subset_append_left _ _

/-- Dropping the indirect extents, which a sure inode does not have. -/
theorem VGoes.dropIndir {kept : List Nat} {exts indir new : List Extent}
    (holds : Holds sure vol.efs (exts ++ indir ++ new)) (fine : sure = true → indir = []) :
    VGoes sure kept vol (exts ++ indir ++ new) vol (exts ++ new) := by
  cases sure with
  | true =>
      rw [fine rfl, List.append_nil] at holds ⊢
      exact VGoes.perm holds (List.Perm.refl _)
  | false =>
      have perm : (exts ++ indir ++ new).Perm (indir ++ (exts ++ new)) := by
        rw [← List.append_assoc]
        exact List.perm_append_comm.append_right new
      have front : VGoes false kept vol _ vol _ := VGoes.perm holds perm
      exact front.trans (.of_goes (Goes.lose front.goes.holds rfl))

theorem expandFirst_ok (ok : ip.Ok sure vol.efs) (fine : sure = true → ip.iiIndir = [])
    (direct : ip.iiExtents.length = efsDirectextents) :
    Expanded sure vol ip (expandFirst t vol ip) := by
  have shape := ok.shape
  rw [expandFirst]
  rcases vol.allocCleared_cases (t := t) ok.holds (kept_direct ip) ip.iNumber 1 true
    (by decide) (by decide) with ⟨vol', out, goes⟩ | ⟨vol', wex, out, taken⟩
  · rw [out]
    refine ⟨⟨_, _, rfl⟩, ?_, ⟨shape.contig, shape.each, shape.few, ?_, fun _ => Nat.le_of_eq direct.symm, ?_⟩,
      fun hang => (by cases hang), fun done => (by cases done)⟩
    · have dropped : VGoes sure (blocksOf ip.iiExtents) vol' (ip.iiExtents ++ ip.iiIndir ++ [])
          vol' (ip.iiExtents ++ []) :=
        VGoes.dropIndir (by rw [List.append_nil]; exact goes.goes.holds) fine
      rw [List.append_nil, List.append_nil] at dropped
      refine (goes.trans dropped).trans (.of_goes (Goes.nulls dropped.goes.holds _ ?_))
      cases sure with
      | false => exact Or.inl rfl
      | true => exact Or.inr (by rw [fine rfl]; rfl)
    · simpa using shape.vector
    · intro many
      exact absurd direct (Nat.ne_of_gt many)
  · have length : wex.length = 1 := taken.enough rfl
    rw [out]
    dsimp only
    rw [taken.bn, taken.length]
    have room : (efsDirectextents + 1) * sizeofExtent ≤ bbsize := by decide
    have single : [(⟨0, wex.bn, wex.length, 0⟩ : Extent)].length ≤ efsDirectextents := by
      rw [List.length_singleton]
      decide
    refine ⟨⟨_, _, rfl⟩, ?_, ⟨shape.contig, shape.each, shape.few, single,
        fun _ => Nat.le_of_eq direct.symm, ?_⟩,
      fun hang => (by cases hang), fun _ => ⟨by rw [direct]; decide,
        fun _ => ⟨?_, by rw [direct]; exact room, ?_⟩⟩⟩
    · have first := taken.goes 0 0
      exact first.trans (VGoes.dropIndir first.goes.holds fine)
    · intro many
      exact absurd direct (Nat.ne_of_gt many)
    · rw [lengthOf_cons, lengthOf_nil, length, Nat.add_zero, bbtob_one]
    · intro ex mem
      rw [List.mem_singleton.mp mem]
      exact taken.positive

theorem expandAnother_ok (ok : ip.Ok sure vol.efs) (many : efsDirectextents < ip.iiExtents.length)
    (few : ip.iiExtents.length < efsMaxextents) : Expanded sure vol ip (expandAnother t vol ip) := by
  have shape := ok.shape
  have same : VGoes sure (blocksOf ip.iiExtents) vol ip.owned vol ip.owned :=
    VGoes.perm ok.holds (List.Perm.refl _)
  rw [expandAnother]
  split
  next => exact ⟨⟨_, _, rfl⟩, same, shape, fun hang => (by cases hang), fun done => (by cases done)⟩
  next room =>
    rcases vol.allocCleared_cases (t := t) ok.holds (kept_direct ip) ip.iNumber 1 true
      (by decide) (by decide) with ⟨vol', out, goes⟩ | ⟨vol', wex, out, taken⟩
    · rw [out]
      exact ⟨⟨_, _, rfl⟩, goes, shape, fun hang => (by cases hang), fun done => (by cases done)⟩
    · have length : wex.length = 1 := taken.enough rfl
      have counted := shape.indirect many
      have vector := shape.vector
      rw [out]
      dsimp only
      rw [taken.bn, taken.length]
      have bytes : ip.iiIndirbytes + bbsize =
          bbtob (lengthOf (ip.iiIndir ++
            [{ vol'.heap with exBn := wex.bn, exLength := wex.length }])) := by
        rw [counted.counted, lengthOf_append, lengthOf_cons, lengthOf_nil, bbtob_add, length, Nat.add_zero,
          bbtob_one]
      have enough : (ip.iiExtents.length + 1) * sizeofExtent ≤ ip.iiIndirbytes + bbsize := by
        rw [Nat.add_one_mul]
        exact Nat.add_le_add counted.enough (by decide)
      have solid : ∀ ex ∈ ip.iiIndir ++ [{ vol'.heap with exBn := wex.bn, exLength := wex.length }],
          0 < ex.exLength := by
        intro ex mem
        rcases List.mem_append.mp mem with old | new
        · exact counted.solid ex old
        · rw [List.mem_singleton.mp new]
          exact taken.positive
      refine ⟨⟨_, _, rfl⟩, ?_, ⟨shape.contig, shape.each, shape.few, ?_, fun _ => Nat.le_of_lt many,
        fun _ => ⟨bytes, ?_, solid⟩⟩,
        fun hang => (by cases hang), fun _ => ⟨few, fun _ => ⟨bytes, enough, solid⟩⟩⟩
      · have first := taken.goes vol'.heap.exMagic vol'.heap.exOffset
        rw [Inode.owned, List.append_assoc] at first
        exact first
      · dsimp only
        rw [List.length_append, List.length_singleton]
        omega
      · exact Nat.le_trans (Nat.mul_le_mul_right _ (Nat.le_succ _)) enough

theorem expandIndir_ok (ok : ip.Ok sure vol.efs) (many : efsDirectextents < ip.iiExtents.length)
    (few : ip.iiExtents.length < efsMaxextents) :
    Expanded sure vol ip (expandIndir t vol ip ((ip.iiExtents.length + 1) * sizeofExtent)) := by
  have shape := ok.shape
  have counted := shape.indirect many
  obtain ⟨init, last, hindir⟩ : ∃ init last, ip.iiIndir = init ++ [last] := by
    rcases List.eq_nil_or_concat' ip.iiIndir with none | some
    · have counted := counted.counted
      have enough := (shape.indirect many).enough
      rw [none, lengthOf_nil] at counted
      have : 0 < ip.iiExtents.length * sizeofExtent := Nat.mul_pos (by omega) (by decide)
      have : bbtob 0 = 0 := rfl
      omega
    · exact some
  have front : (last :: (ip.iiExtents ++ init)).Perm ip.owned := by
    rw [Inode.owned, hindir, ← List.append_assoc]
    exact List.perm_append_singleton last (ip.iiExtents ++ init) |>.symm
  have holds : Holds sure vol.efs (last :: (ip.iiExtents ++ init)) := ok.holds.perm front.symm
  have among : blocksOf ip.iiExtents ⊆ blocksOf (last :: (ip.iiExtents ++ init)) :=
    List.Subset.trans (kept_direct ip) (blocksOf_perm front.symm).subset
  have start : VGoes sure (blocksOf ip.iiExtents) vol ip.owned vol _ :=
    VGoes.perm ok.holds front.symm
  have looked : ip.iiIndir.getLastD Extent.null = last := by
    rw [hindir, List.getLastD_concat]
  unfold expandIndir
  rw [looked]
  rcases vol.growCleared_cases holds among 1 with ⟨vol', out, goes⟩ | ⟨vol', wex, out, longer⟩
  · -- replace them all by one extent, or else add another
    rw [out]
    dsimp only
    have goes := (start.trans goes).trans (VGoes.perm goes.goes.holds front)
    have ok' : ip.Ok sure vol'.efs := ⟨goes.goes.holds, shape⟩
    have want := btobb_indirect few
    rcases vol'.allocCleared_cases (t := t) ok'.holds (kept_direct ip) ip.iNumber _ true want.1 want.2
      with ⟨vol'', out, rest⟩ | ⟨vol'', wex, out, taken⟩
    · rw [out]
      have ok'' : ip.Ok sure vol''.efs := ⟨rest.goes.holds, shape⟩
      have another := expandAnother_ok (t := t) ok'' many few
      exact ⟨another.only, (goes.trans rest).trans another.goes, another.shape, another.error,
        another.room⟩
    · rw [out]
      dsimp only
      rw [taken.bn, taken.length]
      have length : wex.length = btobb ((ip.iiExtents.length + 1) * sizeofExtent) := taken.enough rfl
      have perm : (ip.owned ++ [(⟨0, wex.bn, wex.length, 0⟩ : Extent)]).Perm
          (ip.iiIndir ++ (ip.iiExtents ++ [(⟨0, wex.bn, wex.length, 0⟩ : Extent)])) := by
        rw [Inode.owned, ← List.append_assoc]
        exact List.perm_append_comm.append_right _
      have new := goes.trans (taken.goes 0 0)
      have first := new.trans (VGoes.perm new.goes.holds perm)
      have bytes : bbtob wex.length = bbtob (lengthOf [⟨0, wex.bn, wex.length, 0⟩]) := by
        rw [lengthOf_cons, lengthOf_nil, Nat.add_zero]
      have enough : (ip.iiExtents.length + 1) * sizeofExtent ≤ bbtob wex.length := by
        rw [length]
        exact le_bbtob_btobb _
      have single : [(⟨0, wex.bn, wex.length, 0⟩ : Extent)].length ≤ efsDirectextents := by
        rw [List.length_singleton]
        decide
      have solid : ∀ ex ∈ [(⟨0, wex.bn, wex.length, 0⟩ : Extent)], 0 < ex.exLength := by
        intro ex mem
        rw [List.mem_singleton.mp mem]
        exact taken.positive
      exact ⟨⟨_, _, rfl⟩, first.trans (VGoes.freeAll _ first.goes.holds),
        ⟨shape.contig, shape.each, shape.few, single, fun _ => Nat.le_of_lt many, fun _ => ⟨bytes,
          Nat.le_trans (Nat.mul_le_mul_right _ (Nat.le_succ _)) enough, solid⟩⟩,
        fun hang => (by cases hang), fun _ => ⟨few, fun _ => ⟨bytes, enough, solid⟩⟩⟩
  · rw [out]
    dsimp only
    have one : wex.length = 1 := by
      have := longer.le
      have := longer.positive
      omega
    have goes := longer.goes
    rw [one] at goes ⊢
    have dropped : ip.iiIndir.dropLast = init := by rw [hindir, List.dropLast_concat]
    rw [dropped]
    have bytes : ip.iiIndirbytes + bbsize =
        bbtob (lengthOf (init ++ [{ last with exLength := last.exLength + 1 }])) := by
      rw [counted.counted, hindir]
      simp only [lengthOf_append, lengthOf_cons, lengthOf_nil, bbtob_add, bbtob_one, Nat.add_zero,
        Nat.add_assoc]
    have enough : (ip.iiExtents.length + 1) * sizeofExtent ≤ ip.iiIndirbytes + bbsize := by
      rw [Nat.add_one_mul]
      exact Nat.add_le_add counted.enough (by decide)
    have solid : ∀ ex ∈ init ++ [{ last with exLength := last.exLength + 1 }], 0 < ex.exLength := by
      intro ex mem
      rcases List.mem_append.mp mem with old | new
      · exact counted.solid ex (by rw [hindir]; exact List.mem_append_left _ old)
      · rw [List.mem_singleton.mp new]
        exact Nat.succ_pos _
    refine ⟨⟨_, _, rfl⟩, ?_, ⟨shape.contig, shape.each, shape.few, ?_, fun _ => Nat.le_of_lt many,
        fun _ => ⟨bytes, ?_, solid⟩⟩,
      fun hang => (by cases hang), fun _ => ⟨few, fun _ => ⟨bytes, enough, solid⟩⟩⟩
    · refine (start.trans goes).trans (VGoes.perm goes.goes.holds ?_)
      rw [Inode.owned, ← List.append_assoc]
      exact (List.perm_append_singleton _ (ip.iiExtents ++ init)).symm
    · have vector := shape.vector
      rw [hindir] at vector
      simpa using vector
    · exact Nat.le_trans (Nat.mul_le_mul_right _ (Nat.le_succ _)) enough

/-- `efs_expand` moves blocks in order, unless it forgets an indirect extent. -/
theorem efsExpand_ok (ok : ip.Ok sure vol.efs) (fine : sure = true → ¬ip.Leaks) :
    Expanded sure vol ip (efsExpand t vol ip) := by
  have same : VGoes sure (blocksOf ip.iiExtents) vol ip.owned vol ip.owned :=
    VGoes.perm ok.holds (List.Perm.refl _)
  rw [efsExpand]
  dsimp only
  split
  next =>
    exact ⟨⟨_, _, rfl⟩, same, ok.shape, fun hang => (by cases hang), fun done => (by cases done)⟩
  next few =>
    split
    next direct =>
      refine expandFirst_ok ok (fun sure_ => ?_) direct
      by_contra some
      exact fine sure_ ⟨direct, some⟩
    next other =>
      split
      next grow => exact expandIndir_ok ok grow.1 (Nat.lt_of_not_le few)
      next enough =>
        refine ⟨⟨_, _, rfl⟩, same, ok.shape, fun hang => (by cases hang),
          fun _ => ⟨Nat.lt_of_not_le few, fun many => ?_⟩⟩
        have more : efsDirectextents < ip.iiExtents.length := Nat.lt_of_le_of_ne many (Ne.symm other)
        have area := ok.shape.indirect more
        exact ⟨area.counted, Nat.le_of_not_lt fun less => enough ⟨more, less⟩, area.solid⟩

end Expand

theorem blocksOf_length (exts : List Extent) : (blocksOf exts).length = lengthOf exts := by
  induction exts with
  | nil => rfl
  | cons ex exts ih =>
      rw [blocksOf_cons, List.length_append, ih, lengthOf_cons, Extent.blocks, List.length_range']

/-- A file is no longer than the volume. -/
theorem Holds.lengthOf_le {sure : Bool} {fs : Efs} {exts : List Extent}
    (holds : Holds sure fs exts) : lengthOf exts ≤ fs.fsSize := by
  have within : blocksOf exts ⊆ List.range fs.fsSize := by
    intro b mem
    obtain ⟨ex, among, inside⟩ := List.mem_flatMap.mp mem
    have range := mem_blocks.mp inside
    rcases holds.data ex among with data | null
    · have := fs.dataEnd_le_size data.inside
      have := data.high
      exact List.mem_range.mpr (by omega)
    · omega
  have counted := (List.subperm_of_subset holds.own.1 within).length_le
  rwa [blocksOf_length, List.length_range] at counted

/-- Growing leaves alone what is not about extents. -/
structure Inode.Frame (ip ip' : Inode) : Prop where
  iNumber : ip'.iNumber = ip.iNumber
  iFtype : ip'.iFtype = ip.iFtype
  iSize : ip'.iSize = ip.iSize
  ciLastbn : ip'.ciLastbn = ip.ciLastbn
  ciLastlen : ip'.ciLastlen = ip.ciLastlen

theorem Inode.Frame.refl (ip : Inode) : ip.Frame ip := ⟨rfl, rfl, rfl, rfl, rfl⟩

theorem Inode.Frame.trans {ip ip' ip'' : Inode} (first : ip.Frame ip') (second : ip'.Frame ip'') :
    ip.Frame ip'' :=
  ⟨second.iNumber.trans first.iNumber, second.iFtype.trans first.iFtype,
    second.iSize.trans first.iSize, second.ciLastbn.trans first.ciLastbn,
    second.ciLastlen.trans first.ciLastlen⟩

/-- What one round of growing does to an inode, successful or not. -/
structure Grown (sure : Bool) (vol : Volume) (ip : Inode)
    (out : Volume × Inode × Except Errno Bmapval) : Prop where
  frame : ip.Frame out.2.1
  goes : VGoes sure (blocksOf ip.iiExtents) vol ip.owned out.1 out.2.1.owned
  shape : out.2.1.Shape
  failed : ∀ e, out.2.2 = .error e → e ≠ .hang ∧ out.2.1.iiExtents = ip.iiExtents
  grew : ∀ wex, out.2.2 = .ok wex → 0 < wex.length ∧
    blocksOf out.2.1.iiExtents = blocksOf ip.iiExtents ++ List.range' wex.bn wex.length ∧
    ∃ init last, out.2.1.iiExtents = init ++ [last] ∧ last.exOffset ≤ lengthOf ip.iiExtents

section Grow

variable {sure : Bool} {t : Tune} {vol : Volume} {ip : Inode} {pos len rem : Nat}

theorem bmapAppend_ok (ok : ip.Ok sure vol.efs) (fine : sure = true → ¬ip.Leaks)
    (here : pos + len = lengthOf ip.iiExtents) (some : 0 < rem) (short : rem ≤ efsMaxextentlen) :
    Grown sure vol ip (bmapAppend t vol ip pos len rem) := by
  have expanded := efsExpand_ok (t := t) ok fine
  rw [bmapAppend]
  generalize efsExpand t vol ip = out at expanded
  obtain ⟨vol', ip', r⟩ := out
  obtain ⟨⟨indir, bytes, only⟩, goes, shape, error, room⟩ := expanded
  dsimp only at only goes shape room error
  have exts : ip'.iiExtents = ip.iiExtents := by rw [only]
  have frame : ip.Frame ip' := by
    rw [only]
    exact ⟨rfl, rfl, rfl, rfl, rfl⟩
  cases r with
  | error e =>
      refine ⟨frame, goes, shape, ?_,
        fun wex none => (by cases none)⟩
      intro e' same
      cases same
      exact ⟨fun hang => error (by rw [hang]), exts⟩
  | ok =>
      have among : blocksOf ip.iiExtents ⊆ blocksOf ip'.owned := by
        rw [← exts]
        exact kept_direct ip'
      dsimp only
      rcases vol'.alloc_cases (t := t) goes.goes.holds among ip'.iNumber rem false some short with
        ⟨vol'', out, rest⟩ | ⟨vol'', wex, out, taken⟩
      · rw [out]
        refine ⟨frame, goes.trans rest, shape, ?_,
          fun wex none => (by cases none)⟩
        intro e same
        cases same
        exact ⟨fun hang => (by cases hang), exts⟩
      · rw [out]
        dsimp only
        have roomy := room rfl
        have limit : bits24 (pos + len) = lengthOf ip.iiExtents := by
          have bound := ok.holds.lengthOf_le
          rw [Inode.owned, lengthOf_append] at bound
          have := vol.efs.fsSize_lt
          rw [here, bits24_fits (by omega)]
        rw [taken.bn, taken.length, limit, exts]
        refine ⟨⟨frame.1, frame.2, frame.3, frame.4, frame.5⟩, ?_, ?_, fun e none => (by cases none), ?_⟩
        · have new := taken.goes 0 (lengthOf ip.iiExtents)
          refine (goes.trans new).trans (VGoes.perm new.goes.holds ?_)
          rw [Inode.owned, Inode.owned, exts, List.append_assoc, List.append_assoc]
          exact List.Perm.append_left _ List.perm_append_comm
        · have contig := shape.contig
          have each := shape.each
          have few := roomy.few
          have indirect := roomy.indirect
          rw [exts] at contig each few indirect
          have grown : (ip.iiExtents ++
              [(⟨0, wex.bn, wex.length, lengthOf ip.iiExtents⟩ : Extent)]).length =
              ip.iiExtents.length + 1 := by
            rw [List.length_append, List.length_singleton]
          refine ⟨contig_append.mpr ⟨contig, (Nat.zero_add _).symm, trivial⟩, ?_, ?_, shape.vector, ?_, ?_⟩
          · intro ex mem
            rcases List.mem_append.mp mem with old | new
            · exact each ex old
            · rw [List.mem_singleton] at new
              rw [new]
              exact ⟨rfl, taken.positive, Nat.le_trans taken.le short⟩
          · rw [grown]
            exact few
          · intro some
            have needed := shape.needed some
            rw [exts] at needed
            rw [grown]
            exact Nat.le_succ_of_le needed
          · rw [grown]
            intro many
            have area := indirect (Nat.le_of_lt_succ many)
            exact ⟨area.counted, area.enough, area.solid⟩
        · intro wex' same
          cases same
          refine ⟨taken.positive, ?_, _, _, rfl, Nat.le_refl _⟩
          simp only [blocksOf_append, blocksOf_cons, blocksOf_nil, List.append_nil, Extent.blocks]

/-- `efs_extend` fails, so that the inode must be expanded to grow. -/
def extendFails (vol : Volume) (ip : Inode) (rem : Nat) : Bool :=
  match ip.iiExtents.getLast? with
  | none => true
  | some ex => (vol.grow ex rem).2.2.isNone

theorem bmapGrow_ok (ok : ip.Ok sure vol.efs)
    (fine : sure = true → extendFails vol ip rem = true → ¬ip.Leaks)
    (here : pos + len = lengthOf ip.iiExtents) (some : 0 < rem) (short : rem ≤ efsMaxextentlen) :
    Grown sure vol ip (bmapGrow t vol ip pos len rem) := by
  have shape := ok.shape
  rw [extendFails] at fine
  rw [bmapGrow]
  rcases List.eq_nil_or_concat' ip.iiExtents with none | ⟨init, last, concat⟩
  · have unlisted : ip.iiExtents.getLast? = Option.none := by rw [none]; rfl
    rw [unlisted] at fine ⊢
    exact bmapAppend_ok ok (fun sure_ => fine sure_ rfl) here some short
  · have listed : ip.iiExtents.getLast? = Option.some last := by
      rw [concat, List.getLast?_concat]
    rw [listed] at fine ⊢
    dsimp only at fine ⊢
    have front : (last :: (init ++ ip.iiIndir)).Perm ip.owned := by
      rw [Inode.owned, concat]
      exact (List.perm_append_singleton last init).symm.append_right _
    have start : VGoes sure (blocksOf ip.iiExtents) vol ip.owned vol (last :: (init ++ ip.iiIndir)) :=
      VGoes.perm ok.holds front.symm
    have among : blocksOf ip.iiExtents ⊆ blocksOf (last :: (init ++ ip.iiIndir)) :=
      List.Subset.trans (kept_direct ip) (blocksOf_perm front.symm).subset
    rcases vol.grow_cases start.goes.holds among rem with ⟨vol', out, goes⟩ | ⟨vol', wex, out, longer⟩
    · rw [out] at fine ⊢
      have back := (start.trans goes).trans (VGoes.perm goes.goes.holds front)
      have ok' : ip.Ok sure vol'.efs := ⟨back.goes.holds, shape⟩
      have append := bmapAppend_ok (t := t) ok' (fun sure_ => fine sure_ rfl) here some short
      exact ⟨append.frame, back.trans append.goes, append.shape, append.failed, append.grew⟩
    · rw [out]
      dsimp only
      have dropped : ip.iiExtents.dropLast = init := by rw [concat, List.dropLast_concat]
      have contig := shape.contig
      have each := shape.each
      have few := shape.few
      have needed := shape.needed
      have indirect := shape.indirect
      rw [concat] at contig each few needed indirect
      rw [dropped]
      refine ⟨⟨rfl, rfl, rfl, rfl, rfl⟩, ?_, ⟨?_, ?_, ?_, shape.vector, ?_, ?_⟩,
        fun e none => (by cases none), ?_⟩
      · refine (start.trans longer.goes).trans (VGoes.perm longer.goes.goes.holds ?_)
        rw [Inode.owned]
        exact (List.perm_append_singleton _ init).symm.append_right _
      · have parts := contig_append.mp contig
        exact contig_append.mpr ⟨parts.1, parts.2.1, trivial⟩
      · intro ex mem
        rcases List.mem_append.mp mem with old | new
        · exact each ex (List.mem_append_left _ old)
        · rw [List.mem_singleton] at new
          have was := each last (List.mem_append_right _ (List.mem_singleton_self last))
          rw [new]
          exact ⟨was.1, Nat.add_pos_left was.2.1 _, longer.short⟩
      · simpa using few
      · simpa using needed
      · rw [List.length_append, List.length_singleton] at indirect ⊢
        intro many
        have area := indirect many
        exact ⟨area.counted, area.enough, area.solid⟩
      · intro wex' same
        cases same
        have offset : last.exOffset = 0 + lengthOf init := (contig_append.mp contig).2.1
        refine ⟨longer.positive, ?_, _, _, rfl, ?_⟩
        · rw [concat, longer.bn]
          simp only [blocksOf_append, blocksOf_cons, blocksOf_nil, List.append_nil, Extent.blocks,
            ← List.range'_append_1, List.append_assoc]
        · rw [concat, lengthOf_append]
          dsimp only
          omega

end Grow

/-- What locating a block for writing does to an inode, successful or not.
    The blocks it added hold zeros, but for a last piece `wex` left to the
    caller. -/
structure Located (sure : Bool) (newposbb : Nat) (vol : Volume) (ip : Inode)
    (out : Volume × Inode × Except Errno (Nat × Option Bmapval)) : Prop where
  frame : ip.Frame out.2.1
  goes : VGoes sure (blocksOf ip.iiExtents) vol ip.owned out.1 out.2.1.owned
  shape : out.2.1.Shape
  hang : out.2.2 ≠ .error .hang
  found : ∀ i w, out.2.2 = .ok (i, w) →
    (∃ here : i < out.2.1.iiExtents.length, out.2.1.iiExtents[i].covers newposbb = true) ∧
    ∃ zeroed, blocksOf out.2.1.iiExtents = blocksOf ip.iiExtents ++ zeroed ++
        (match w with | none => [] | some wex => List.range' wex.bn wex.length) ∧
      ∀ a, btobbt a ∈ zeroed → out.1.disk a = 0

/-- On the way to block `newposbb` the inode is expanded where it leaks. -/
def bmapLeaks (t : Tune) (newposbb : Nat) : (fuel : Nat) → Volume → Inode → Bool
  | 0, _, _ => false
  | fuel + 1, vol, ip =>
      match bmapSearch ip.iiExtents newposbb with
      | some (.past pos len) =>
          let rem := t.efsBbsperlb - newposbb % t.efsBbsperlb
          (extendFails vol ip rem && decide ip.Leaks) ||
            match bmapGrow t vol ip pos len rem with
            | (vol, ip, .ok wex) =>
                !(ip.iiExtents.getLastD Extent.null).covers newposbb &&
                  bmapLeaks t newposbb fuel (vol.clear wex.bn wex.length) ip
            | (_, _, .error _) => false
      | _ => false

section Locate

variable {sure : Bool} {t : Tune}

theorem VGoes.fewer {kept kept' : List Nat} {vol vol' : Volume} {exts exts' : List Extent}
    (goes : VGoes sure kept' vol exts vol' exts') (fewer : kept ⊆ kept') :
    VGoes sure kept vol exts vol' exts' :=
  ⟨goes.goes, fun a mem => goes.keeps a (fewer mem)⟩

theorem bmapLocate_ok {newposbb fuel : Nat} {vol : Volume} {ip : Inode} (ok : ip.Ok sure vol.efs)
    (fine : sure = true → bmapLeaks t newposbb fuel vol ip = false)
    (room : 0 < fuel) (enough : newposbb < fuel + lengthOf ip.iiExtents) :
    Located sure newposbb vol ip (bmapLocate t newposbb fuel vol ip) := by
  induction fuel generalizing vol ip with
  | zero => exact absurd room (Nat.lt_irrefl 0)
  | succ fuel ih =>
      have shape := ok.shape
      rw [bmapLocate]
      rw [bmapLeaks] at fine
      rcases Nat.lt_or_ge newposbb (lengthOf ip.iiExtents) with inside | past
      · obtain ⟨i, here, found, covers⟩ := bmapSearch_inside shape.contig shape.some inside
        rw [found]
        refine ⟨Inode.Frame.refl ip, VGoes.perm ok.holds (List.Perm.refl _), shape,
          fun hang => (by cases hang), ?_⟩
        intro k w same
        cases same
        refine ⟨⟨here, covers⟩, [], ?_, fun a none => (by cases none)⟩
        rw [List.append_nil, List.append_nil]
      · obtain ⟨pos, len, found, total⟩ := bmapSearch_past shape.contig past
        have perlb := t.efsBbsperlb_pos
        have limit := t.efsBbsperlb_le
        have offset := Nat.mod_lt newposbb perlb
        have short : t.efsBbsperlb - newposbb % t.efsBbsperlb ≤ efsMaxextentlen :=
          Nat.le_trans (Nat.le_trans (Nat.sub_le _ _) limit) (by decide)
        have grown : Grown sure vol ip (bmapGrow t vol ip pos len _) :=
          bmapGrow_ok ok (fun sure_ fails => by
            have dry := fine sure_
            rw [found] at dry
            simp only [fails, Bool.true_and, Bool.or_eq_false_iff, decide_eq_false_iff_not] at dry
            exact dry.1) total (by omega) short
        rw [found] at fine ⊢
        dsimp only at fine ⊢
        generalize bmapGrow t vol ip pos len (t.efsBbsperlb - newposbb % t.efsBbsperlb) = out
          at grown fine ⊢
        obtain ⟨vol', ip', r⟩ := out
        cases r with
        | error e =>
            have failed := grown.failed e rfl
            exact ⟨grown.frame, grown.goes, grown.shape,
              fun hang => failed.1 (by injection hang), fun i w none => (by cases none)⟩
        | ok wex =>
            obtain ⟨positive, blocks, init, last, concat, offset⟩ := grown.grew wex rfl
            have goes := grown.goes
            have shape' := grown.shape
            dsimp only at blocks concat goes shape' fine ⊢
            have looked : ip'.iiExtents.getLastD Extent.null = last := by
              rw [concat, List.getLastD_concat]
            have longer : lengthOf ip'.iiExtents = lengthOf ip.iiExtents + wex.length := by
              rw [← blocksOf_length, blocks, List.length_append, blocksOf_length, List.length_range']
            have ends : last.exOffset + last.exLength = lengthOf ip'.iiExtents := by
              have contig := shape'.contig
              rw [concat] at contig ⊢
              have start : last.exOffset = 0 + lengthOf init := (contig_append.mp contig).2.1
              rw [lengthOf_append, lengthOf_cons, lengthOf_nil]
              omega
            rw [looked] at fine ⊢
            by_cases covers : last.covers newposbb = true
            · rw [if_pos covers]
              refine ⟨grown.frame, goes, shape', fun hang => (by cases hang), ?_⟩
              intro i w same
              cases same
              refine ⟨⟨by simp [concat], ?_⟩, [], ?_, fun a none => (by cases none)⟩
              · simpa [concat] using covers
              · rw [List.append_nil]
                exact blocks
            · rw [if_neg covers]
              have beyond : lengthOf ip'.iiExtents ≤ newposbb := by
                by_contra inside
                exact covers (covers_iff.mpr (by omega))
              have fresh : ∀ b ∈ blocksOf ip.iiExtents, b < wex.bn ∨ wex.bn + wex.length ≤ b := by
                intro b mem
                have nodup := goes.goes.holds.own.1
                rw [Inode.owned, blocksOf_append, blocks] at nodup
                have apart : b ∉ List.range' wex.bn wex.length :=
                  List.disjoint_of_nodup_append (List.Nodup.of_append_left nodup) mem
                rw [List.mem_range'_1] at apart
                omega
              have ok' : ip'.Ok sure (vol'.clear wex.bn wex.length).efs := ⟨goes.goes.holds, shape'⟩
              have rest := ih ok'
                (fun sure_ => by
                  have dry := fine sure_
                  simp only [covers, Bool.or_eq_false_iff, Bool.not_false, Bool.true_and] at dry
                  exact dry.2)
                (by omega) (by omega)
              have kept : blocksOf ip.iiExtents ⊆ blocksOf ip'.iiExtents := by
                rw [blocks]
                exact List.subset_append_left _ _
              refine ⟨grown.frame.trans rest.frame,
                (goes.trans (VGoes.clear goes.goes.holds fresh)).trans (rest.goes.fewer kept),
                rest.shape, rest.hang, ?_⟩
              intro i w same
              obtain ⟨here, zeroed, more, zeros⟩ := rest.found i w same
              refine ⟨here, List.range' wex.bn wex.length ++ zeroed, ?_, ?_⟩
              · rw [more, blocks]
                simp only [List.append_assoc]
              · intro a mem
                rcases List.mem_append.mp mem with piece | later
                · rw [rest.goes.keeps a (by rw [blocks]; exact List.mem_append_right _ piece)]
                  rw [List.mem_range'_1] at piece
                  exact Volume.clear_inside _ piece.1 piece.2
                · exact zeros a later

end Locate

/-! ## Cutting -/

section Cut

variable {sure : Bool} {kept : List Nat} {vol : Volume} {ip : Inode}

/-- The truncation loops free what they cut off. -/
theorem dotruncIndir_goes (newsizebb o : Nat) {exts others : List Extent}
    (holds : Holds sure vol.efs (exts ++ others)) :
    VGoes sure kept vol (exts ++ others) (dotruncIndir newsizebb vol o exts).vol
      (cutTo (newsizebb - o) exts ++ others) := by
  induction exts generalizing o vol others with
  | nil =>
      have none : cutTo (newsizebb - o) [] = [] := by cases newsizebb - o <;> rfl
      rw [none]
      exact VGoes.perm holds (List.Perm.refl _)
  | cons ex exts ih =>
      by_cases past : newsizebb ≤ o
      · rw [dotruncIndir, cutExtent, if_pos past, Nat.sub_eq_zero_of_le past, cutTo_zero]
        have first : VGoes sure kept vol (ex :: (exts ++ others)) (vol.free ex) (exts ++ others) :=
          VGoes.free holds
        have rest := ih (o + ex.exLength) first.goes.holds
        rw [Nat.sub_eq_zero_of_le (by omega), cutTo_zero] at rest
        exact first.trans rest
      · obtain ⟨n, room⟩ : ∃ n, newsizebb - o = n + 1 := ⟨newsizebb - o - 1, by omega⟩
        rw [dotruncIndir, cutExtent, if_neg past, room, cutTo]
        by_cases less : newsizebb < o + ex.exLength
        · rw [if_pos less, if_pos (by omega)]
          dsimp only
          have small : ex.exLength ≤ efsMaxextentlen := (holds.valid (by omega)).length
          have fits : bits8 (n + 1) = n + 1 := by
            refine bits8_fits (Nat.lt_of_le_of_lt ?_ (show efsMaxextentlen < 256 by decide))
            omega
          have split : VGoes sure kept vol (ex :: (exts ++ others)) vol _ :=
            .of_goes (Holds.split holds (Nat.succ_pos n) (by omega))
          have first := split.trans (VGoes.free split.goes.holds)
          rw [fits] at first
          have moved : VGoes sure kept _ _ _ (exts ++ { ex with exLength := n + 1 } :: others) :=
            VGoes.perm first.goes.holds List.perm_middle.symm
          have rest := ih (o + ex.exLength) moved.goes.holds
          have none : newsizebb - (o + ex.exLength) = 0 := Nat.sub_eq_zero_of_le (by omega)
          rw [none, cutTo_zero] at rest
          exact (first.trans moved).trans rest
        · rw [if_neg less, if_neg (by omega)]
          dsimp only
          have moved : VGoes sure kept vol (ex :: (exts ++ others)) vol (exts ++ ex :: others) :=
            VGoes.perm holds List.perm_middle.symm
          have rest := ih (o + ex.exLength) moved.goes.holds
          rw [show newsizebb - (o + ex.exLength) = n + 1 - ex.exLength by omega] at rest
          exact (moved.trans rest).trans (VGoes.perm rest.goes.holds List.perm_middle)

theorem Holds.small {fs : Efs} {exts : List Extent} (holds : Holds sure fs exts) :
    ∀ ex ∈ exts, ex.exLength < 256 := by
  intro ex mem
  rcases holds.data ex mem with data | null
  · exact Nat.lt_of_le_of_lt data.length (by decide)
  · rw [null.2]
    decide

theorem blocksOf_cutTo (n : Nat) (exts : List Extent) :
    blocksOf (cutTo n exts) = (blocksOf exts).take n := by
  induction exts generalizing n with
  | nil => cases n <;> rfl
  | cons ex exts ih =>
      cases n with
      | zero => rfl
      | succ n =>
          have length : ex.blocks.length = ex.exLength := List.length_range' ..
          rw [cutTo, blocksOf_cons, List.take_append, length]
          by_cases short : n + 1 < ex.exLength
          · rw [if_pos short, blocksOf_cons, blocksOf_nil, List.append_nil, Nat.sub_eq_zero_of_le (by omega),
              List.take_zero, List.append_nil, Extent.blocks, Extent.blocks]
            exact (List.take_range'_of_length_ge (Nat.le_of_lt short)).symm
          · have whole : ex.blocks.take (n + 1) = ex.blocks :=
              List.take_of_length_le (by rw [length]; exact Nat.le_of_not_lt short)
            rw [if_neg short, blocksOf_cons, ih, whole]

/-- What a truncation that is carried out does. -/
structure Truncated (sure : Bool) (kept : List Nat) (newsize : Nat) (vol : Volume) (ip : Inode)
    (out : Volume × Inode) : Prop where
  goes : VGoes sure kept vol ip.owned out.1 out.2.owned
  shape : out.2.Shape
  exts : out.2.iiExtents = cutTo (btobb newsize) ip.iiExtents
  iNumber : out.2.iNumber = ip.iNumber
  iFtype : out.2.iFtype = ip.iFtype
  iSize : out.2.iSize = newsize

/-- The counted bytes of an indirect area that is cut to hold `n` extents. -/
theorem indirbytes_cut {n newsizebb : Nat} {indir : List Extent} {bytes : Nat}
    (counted : bytes = bbtob (lengthOf indir)) (enough : n * sizeofExtent ≤ bytes)
    (some : 0 < n) (size : newsizebb = btobb (n * sizeofExtent)) :
    (if cutTo newsizebb indir = [] ∧ indir ≠ [] then 0
      else bytes - bbtob (lengthOf indir - newsizebb)) = bbtob (lengthOf (cutTo newsizebb indir)) ∧
    n * sizeofExtent ≤ bbtob (lengthOf (cutTo newsizebb indir)) := by
  have positive : 0 < n * sizeofExtent := Nat.mul_pos some (by decide)
  have whole : n * sizeofExtent ≤ bbtob (min newsizebb (lengthOf indir)) := by
    rcases Nat.le_total newsizebb (lengthOf indir) with less | more
    · rw [Nat.min_eq_left less, size]
      exact le_bbtob_btobb _
    · rw [Nat.min_eq_right more, ← counted]
      exact enough
  have kept : cutTo newsizebb indir ≠ [] := by
    intro none
    have length := cutTo_lengthOf newsizebb indir
    rw [none, lengthOf_nil] at length
    rw [← length] at whole
    have : bbtob 0 = 0 := rfl
    omega
  rw [if_neg (fun both => kept both.1), cutTo_lengthOf]
  refine ⟨?_, whole⟩
  rw [counted]
  simp only [bbtob]
  omega

theorem cutTo_length_mono_shape {n : Nat} {exts : List Extent}
    (each : ∀ ex ∈ exts, ex.exMagic = 0 ∧ 0 < ex.exLength ∧ ex.exLength ≤ efsMaxextentlen) :
    ∀ ex ∈ cutTo n exts, ex.exMagic = 0 ∧ 0 < ex.exLength ∧ ex.exLength ≤ efsMaxextentlen := by
  intro ex mem
  obtain ⟨old, among, less, positive, same⟩ := cutTo_mem mem
  have was := each old among
  refine ⟨?_, positive was.2.1, Nat.le_trans less was.2.2⟩
  rw [same]
  exact was.1

theorem efsDotrunc_ok {newsize : Nat} (ok : ip.Ok sure vol.efs) (mapped : ip.iFtype.mapped = true)
    (shorter : newsize ≤ ip.iSize) (flagged : ip.iiTrunc = true) :
    Truncated sure kept newsize vol ip (efsDotrunc vol ip newsize) := by
  have shape := ok.shape
  have holds := ok.holds
  rw [efsDotrunc, if_neg (by simp [mapped, flagged, shorter]), dotruncExtents_eq _ shape.contig]
  dsimp only
  have direct := dotruncIndir_cut (btobb newsize) 0 vol fun ex (mem : ex ∈ ip.iiExtents) =>
    holds.small ex (List.mem_append_left _ mem)
  have goes : VGoes sure kept vol ip.owned _ _ := dotruncIndir_goes (btobb newsize) 0 holds
  rw [Nat.sub_zero] at direct goes
  rw [direct.2.1]
  generalize (dotruncIndir (btobb newsize) vol 0 ip.iiExtents).vol = vol' at goes ⊢
  obtain ⟨exts, hexts⟩ : ∃ exts, exts = cutTo (btobb newsize) ip.iiExtents := ⟨_, rfl⟩
  rw [← hexts] at goes ⊢
  obtain ⟨newsizebb, hsize⟩ : ∃ newsizebb, newsizebb =
    if efsDirectextents < exts.length then btobb (exts.length * sizeofExtent) else 0 := ⟨_, rfl⟩
  rw [← hsize]
  have swapped : VGoes sure kept vol' (exts ++ ip.iiIndir) vol' (ip.iiIndir ++ exts) :=
    VGoes.perm goes.goes.holds List.perm_append_comm
  have indirect := dotruncIndir_cut newsizebb 0 vol' fun ex (mem : ex ∈ ip.iiIndir) =>
    holds.small ex (List.mem_append_right _ mem)
  have cut : VGoes sure kept vol' _ _ _ := dotruncIndir_goes newsizebb 0 swapped.goes.holds
  rw [Nat.sub_zero] at indirect cut
  rw [indirect.2.1, indirect.2.2]
  have length : exts.length ≤ ip.iiExtents.length := hexts ▸ cutTo_length_le _ _
  refine ⟨?_, ⟨?_, ?_, ?_, ?_, fun some => ?_, fun many => ?_⟩, hexts, rfl, rfl, rfl⟩
  · exact (goes.trans swapped).trans
      (cut.trans (VGoes.perm cut.goes.holds List.perm_append_comm))
  · rw [hexts]
    exact cutTo_contig shape.contig
  · rw [hexts]
    exact cutTo_length_mono_shape shape.each
  · exact Nat.le_trans length shape.few
  · exact Nat.le_trans (cutTo_length_le _ _) shape.vector
  · by_contra few
    have direct : ¬efsDirectextents < exts.length := fun many => few (Nat.le_of_lt many)
    refine some ?_
    dsimp only
    rw [hsize, if_neg direct, cutTo_zero]
  · have was := shape.indirect (Nat.lt_of_lt_of_le many length)
    rw [if_pos many] at hsize
    have counted := indirbytes_cut was.counted
      (Nat.le_trans (Nat.mul_le_mul_right sizeofExtent length) was.enough) (Nat.zero_lt_of_lt many) hsize
    refine ⟨counted.1, by rw [counted.1]; exact counted.2, fun ex mem => ?_⟩
    obtain ⟨old, among, _, positive, _⟩ := cutTo_mem mem
    exact positive (was.solid old among)

/-- `efs_itrunc` and `efs_setsize` keep an inode in order, whatever they do. -/
theorem efsDotrunc_goes {newsize : Nat} (ok : ip.Ok sure vol.efs) :
    VGoes sure kept vol ip.owned (efsDotrunc vol ip newsize).1 (efsDotrunc vol ip newsize).2.owned ∧
      (efsDotrunc vol ip newsize).2.Shape := by
  by_cases idle : (!ip.iFtype.mapped || decide (ip.iSize < newsize) || !ip.iiTrunc) = true
  · rw [efsDotrunc, if_pos idle]
    exact ⟨VGoes.perm ok.holds (List.Perm.refl _), ok.shape⟩
  · simp only [Bool.or_eq_true, Bool.not_eq_true', decide_eq_true_eq, not_or,
      Bool.not_eq_false, Nat.not_lt] at idle
    have truncated : Truncated sure kept newsize vol ip (efsDotrunc vol ip newsize) :=
      efsDotrunc_ok ok idle.1.1 idle.1.2 idle.2
    exact ⟨truncated.goes, truncated.shape⟩

theorem Inode.Ok.flag (ok : ip.Ok sure vol.efs) (trunc : Bool) :
    Inode.Ok sure vol.efs { ip with iiTrunc := trunc } :=
  ⟨ok.holds, ok.shape.contig, ok.shape.each, ok.shape.few, ok.shape.vector, ok.shape.needed,
    fun many =>
      have area := ok.shape.indirect many
      ⟨area.counted, area.enough, area.solid⟩⟩

theorem efsSetsize_goes {newsize : Nat} (ok : ip.Ok sure vol.efs) :
    VGoes sure kept vol ip.owned (efsSetsize vol ip newsize).1 (efsSetsize vol ip newsize).2.owned ∧
      (efsSetsize vol ip newsize).2.Shape := by
  rw [efsSetsize]
  split
  next => exact efsDotrunc_goes (ok.flag true)
  next => exact ⟨VGoes.perm ok.holds (List.Perm.refl _), ok.shape⟩

theorem efsItrunc_goes (ok : ip.Ok sure vol.efs) :
    VGoes sure kept vol ip.owned (efsItrunc vol ip).1 (efsItrunc vol ip).2.owned ∧
      (efsItrunc vol ip).2.Shape := by
  rw [efsItrunc]
  split
  next => exact efsDotrunc_goes (ok.flag true)
  next => exact ⟨VGoes.perm ok.holds (List.Perm.refl _), ok.shape⟩

/-- Returning an inode to its group touches no block. -/
theorem efsIfree_goes {fs : Efs} {exts : List Extent} (holds : Holds sure fs exts) :
    Goes sure fs exts (efsIfree fs ip) exts := by
  rw [efsIfree]
  split
  next => exact Goes.refl holds
  next =>
    refine ⟨rfl, .rfl, fun g inside => ?_, holds.own, holds.data, holds.sane⟩
    have ok := holds.sound g inside
    by_cases here : g = fs.itocg ip.iNumber
    · rw [here] at ok ⊢
      simp only [Efs.setCg_same]
      exact ⟨ok.firstbn, ok.firstdbn, ok.dfree, ok.slots, ok.window, ok.nonneg⟩
    · simp only [Efs.setCg_other fs _ here]
      exact ok

theorem iputUnlinked_goes (ok : ip.Ok sure vol.efs) :
    VGoes sure kept vol ip.owned (iputUnlinked vol ip).1 (iputUnlinked vol ip).2.owned ∧
      (iputUnlinked vol ip).2.Shape := by
  have first : VGoes sure kept _ _ _ _ ∧ _ := efsItrunc_goes ok
  rw [iputUnlinked]
  generalize efsItrunc vol ip = out at first
  obtain ⟨vol', ip'⟩ := out
  obtain ⟨goes, shape⟩ := first
  exact ⟨goes.trans (.of_goes (efsIfree_goes goes.goes.holds)),
    shape.contig, shape.each, shape.few, shape.vector, shape.needed, fun many =>
      have area := shape.indirect many
      ⟨area.counted, area.enough, area.solid⟩⟩

end Cut

end Irix.ExtentFs
