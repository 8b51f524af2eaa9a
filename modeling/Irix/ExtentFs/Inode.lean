import Irix.ExtentFs.Alloc

/-! # Inodes of the extent filesystem

The in-core inode, `efs_bmap` and `efs_expand` that grow it, and `efs_dotrunc`
that cuts it.  Memory allocation always succeeds here.
-/

namespace Irix.ExtentFs

open Lib

/-- Error numbers.  `hang` is none of the source's: it stands for a loop that
    would not come to an end. -/
inductive Errno where
  | EFBIG
  | ENOSPC
  | EINVAL
  | eio
  | hang
  deriving Repr, DecidableEq

/-- The inode types; `none` is the type of a free inode. -/
inductive Ftype where
  | none
  | ififo
  | ifchr
  | ifdir
  | ifblk
  | ifreg
  | iflnk
  deriving Repr, DecidableEq

/-- The types whose blocks are mapped by extents. -/
def Ftype.mapped : Ftype → Bool
  | .ifreg | .ifdir | .iflnk => true
  | _ => false

/-- `struct inode` with its `struct efs_inode`.  The counts `ii_numextents` and
    `ii_numindirs` are the lengths of the lists; `iiTrunc` is `II_TRUNC`. -/
structure Inode where
  iNumber : Nat
  iFtype : Ftype
  iSize : Nat
  ciLastbn : Nat
  ciLastlen : Nat
  iiTrunc : Bool
  iiIndirbytes : Nat
  iiIndir : List Extent
  iiExtents : List Extent

/-- `struct bmapval` -/
structure Bmapval where
  bn : Nat
  length : Nat
  deriving Repr, DecidableEq

/-- What is read through the null pointer `efs_expand` may leave in `ii_indir`. -/
def Extent.null : Extent := ⟨0, 0, 0, 0⟩

/-! ## The volume under the inodes -/

/-- A mounted volume with what the buffer cache returns for each byte of it.
    A fresh allocation finds arbitrary old bytes in its blocks, the `allocs`-th
    of them those of `stale`; `heap` is what `realloc` leaves in a new element. -/
structure Volume where
  efs : Efs
  disk : Nat → UInt8
  stale : Nat → Nat → UInt8
  allocs : Nat
  heap : Extent

namespace Volume

/-- `getblk`, `clrbuf` and `bdwrite` on a run of blocks -/
def clear (vol : Volume) (bn length : Nat) : Volume :=
  { vol with
    disk := fun a => if bn ≤ btobbt a ∧ btobbt a < bn + length then 0 else vol.disk a }

/-- Old bytes come up in the blocks just allocated. -/
def expose (vol : Volume) (bn length : Nat) : Volume :=
  { vol with
    disk := fun a =>
      if bn ≤ btobbt a ∧ btobbt a < bn + length then vol.stale vol.allocs a else vol.disk a
    allocs := vol.allocs + 1 }

/-- `efs_alloc` for a caller that looks after the blocks itself -/
def alloc (t : Tune) (vol : Volume) (inum desiredlen : Nat) (musthave : Bool) :
    Volume × Option Bmapval :=
  match efsAlloc t vol.efs inum desiredlen musthave with
  | (fs, .found bn length) => (({ vol with efs := fs }).expose bn length, some ⟨bn, length⟩)
  | (fs, _) => ({ vol with efs := fs }, none)

/-- `efs_alloc` for a caller with no `wex`: the blocks are cleared. -/
def allocCleared (t : Tune) (vol : Volume) (inum desiredlen : Nat) (musthave : Bool) :
    Volume × Option Bmapval :=
  match vol.alloc t inum desiredlen musthave with
  | (vol, some wex) => (vol.clear wex.bn wex.length, some wex)
  | (vol, none) => (vol, none)

/-- `efs_grow` for a caller that looks after the blocks itself -/
def grow (vol : Volume) (ex : Extent) (len : Nat) : Volume × Extent × Option Bmapval :=
  match efsGrow vol.efs ex len with
  | (fs, ex', n) =>
      if n = 0 then ({ vol with efs := fs }, ex', none)
      else
        (({ vol with efs := fs }).expose (ex.exBn + ex.exLength) n, ex',
          some ⟨ex.exBn + ex.exLength, n⟩)

/-- `efs_grow` for a caller with no `wex` -/
def growCleared (vol : Volume) (ex : Extent) (len : Nat) : Volume × Extent × Option Bmapval :=
  match vol.grow ex len with
  | (vol, ex', some wex) => (vol.clear wex.bn wex.length, ex', some wex)
  | (vol, ex', none) => (vol, ex', none)

def free (vol : Volume) (ex : Extent) : Volume := { vol with efs := efsFree vol.efs ex }

section

attribute [local simp] grow

variable {vol : Volume} {fs : Efs} {ex ex' : Extent} {len n : Nat}

theorem grow_none (out : efsGrow vol.efs ex len = (fs, ex', 0)) :
    vol.grow ex len = ({ vol with efs := fs }, ex', none) := by
  simp [out]

theorem grow_some (out : efsGrow vol.efs ex len = (fs, ex', n)) (positive : 0 < n) :
    vol.grow ex len = (({ vol with efs := fs }).expose (ex.exBn + ex.exLength) n, ex',
      some ⟨ex.exBn + ex.exLength, n⟩) := by
  simp [out, Nat.ne_of_gt positive]

end

theorem clear_inside (vol : Volume) {bn length a : Nat} (low : bn ≤ btobbt a)
    (high : btobbt a < bn + length) : (vol.clear bn length).disk a = 0 :=
  if_pos ⟨low, high⟩

theorem clear_outside (vol : Volume) {bn length a : Nat}
    (out : btobbt a < bn ∨ bn + length ≤ btobbt a) :
    (vol.clear bn length).disk a = vol.disk a :=
  if_neg (by omega)

theorem expose_outside (vol : Volume) {bn length a : Nat}
    (out : btobbt a < bn ∨ bn + length ≤ btobbt a) :
    (vol.expose bn length).disk a = vol.disk a :=
  if_neg (by omega)

end Volume

/-! ## efs_expand -/

/-- The first indirect extent of an inode that has just run out of direct ones. -/
def expandFirst (t : Tune) (vol : Volume) (ip : Inode) : Volume × Inode × Except Errno Unit :=
  match vol.allocCleared t ip.iNumber 1 true with
  | (vol, none) =>
      -- the old vector is lost, and its count stays
      (vol, { ip with iiIndir := List.replicate ip.iiIndir.length Extent.null }, .error .ENOSPC)
  | (vol, some wex) =>
      (vol, { ip with
          iiIndir := [⟨0, bits24 wex.bn, bits8 wex.length, 0⟩]
          iiIndirbytes := bbsize }, .ok ())

/-- Another indirect extent behind the ones there are. -/
def expandAnother (t : Tune) (vol : Volume) (ip : Inode) : Volume × Inode × Except Errno Unit :=
  if ip.iiIndir.length = efsDirectextents then (vol, ip, .error .ENOSPC)
  else
    match vol.allocCleared t ip.iNumber 1 true with
    | (vol, none) => (vol, ip, .error .ENOSPC)
    | (vol, some wex) =>
        (vol, { ip with
            iiIndir := ip.iiIndir ++
              [{ vol.heap with exBn := bits24 wex.bn, exLength := bits8 wex.length }]
            iiIndirbytes := ip.iiIndirbytes + bbsize }, .ok ())

/-- The indirect area needs to grow: extend the last indirect extent, replace
    them all by one, or add another. -/
def expandIndir (t : Tune) (vol : Volume) (ip : Inode) (nb : Nat) :
    Volume × Inode × Except Errno Unit :=
  match vol.growCleared (ip.iiIndir.getLastD Extent.null) 1 with
  | (vol, ex, some _) =>
      (vol, { ip with
          iiIndir := ip.iiIndir.dropLast ++ [ex]
          iiIndirbytes := ip.iiIndirbytes + bbsize }, .ok ())
  | (vol, _, none) =>
      match vol.allocCleared t ip.iNumber (btobb nb) true with
      | (vol, some nindir) =>
          (ip.iiIndir.foldl Volume.free vol,
            { ip with
              iiIndir := [⟨0, bits24 nindir.bn, bits8 nindir.length, 0⟩]
              iiIndirbytes := bbtob (bits8 nindir.length) }, .ok ())
      | (vol, none) => expandAnother t vol ip

/-- expand the inode -/
def efsExpand (t : Tune) (vol : Volume) (ip : Inode) : Volume × Inode × Except Errno Unit :=
  let numextents := ip.iiExtents.length
  if efsMaxextents ≤ numextents then (vol, ip, .error .EFBIG)
  else
    let nb := (numextents + 1) * sizeofExtent
    if numextents = efsDirectextents then expandFirst t vol ip
    else if efsDirectextents < numextents ∧ ip.iiIndirbytes < nb then expandIndir t vol ip nb
    else (vol, ip, .ok ())

/-! ## efs_bmap -/

/-- Where the search through the extents ends: at an extent, or past all of
    them with `pos` and `len` of the extent looked at last. -/
inductive Probe where
  | gotit (i : Nat)
  | past (pos len : Nat)
  deriving Repr, DecidableEq

def Extent.covers (ex : Extent) (bb : Nat) : Bool :=
  ex.exOffset ≤ bb && bb < ex.exOffset + ex.exLength

/-- The binary search proper, at extent `i` with stride `j`. -/
def bmapProbe (exts : List Extent) (newposbb : Nat) : (fuel : Nat) → (i j : Nat) → Option Probe
  | 0, _, _ => none
  | fuel + 1, i, j =>
      let ex := exts.getD i Extent.null
      if ex.covers newposbb then some (.gotit i)
      else
        -- make sure we move
        let j := if j / 2 = 0 then 1 else j / 2
        if ex.exOffset < newposbb then
          if exts.length ≤ i + j then some (.past ex.exOffset ex.exLength)
          else bmapProbe exts newposbb fuel (i + j) j
        else if i < j then some (.past ex.exOffset ex.exLength)
        else bmapProbe exts newposbb fuel (i - j) j

/-- Do a binary search through the extents based on the file size and the
    extent offsets. -/
def bmapSearch (exts : List Extent) (newposbb : Nat) : Option Probe :=
  match exts.getLast? with
  | none => some (.past 0 0)
  | some ex =>
      if newposbb < ex.exOffset + ex.exLength then
        bmapProbe exts newposbb (2 * exts.length + 1) (exts.length / 2) (exts.length / 2)
      else some (.past ex.exOffset ex.exLength)

/-- Allocate a new extent at the end of the inode. -/
def bmapAppend (t : Tune) (vol : Volume) (ip : Inode) (pos len rem : Nat) :
    Volume × Inode × Except Errno Bmapval :=
  match efsExpand t vol ip with
  | (vol, ip, .error e) => (vol, ip, .error e)
  | (vol, ip, .ok ()) =>
      match vol.alloc t ip.iNumber rem false with
      | (vol, none) => (vol, ip, .error .ENOSPC)
      | (vol, some wex) =>
          (vol, { ip with
              iiExtents := ip.iiExtents ++
                [⟨0, bits24 wex.bn, bits8 wex.length, bits24 (pos + len)⟩]
              iiTrunc := true }, .ok wex)

/-- Inode is being written, and needs to grow: extend the last extent or
    allocate a new one. -/
def bmapGrow (t : Tune) (vol : Volume) (ip : Inode) (pos len rem : Nat) :
    Volume × Inode × Except Errno Bmapval :=
  match ip.iiExtents.getLast? with
  | none => bmapAppend t vol ip pos len rem
  | some ex =>
      -- efs_extend
      match vol.grow ex rem with
      | (vol, ex, some wex) =>
          (vol, { ip with iiExtents := ip.iiExtents.dropLast ++ [ex], iiTrunc := true }, .ok wex)
      | (vol, _, none) => bmapAppend t vol ip pos len rem

/-- Find the extent that holds `newposbb`, growing the inode until there is
    one.  Pieces before it are cleared (insuring zeros for un-written pieces);
    `wex` is the last piece if the inode has just grown. -/
def bmapLocate (t : Tune) (newposbb : Nat) :
    (fuel : Nat) → Volume → Inode → Volume × Inode × Except Errno (Nat × Option Bmapval)
  | 0, vol, ip => (vol, ip, .error .hang)
  | fuel + 1, vol, ip =>
      match bmapSearch ip.iiExtents newposbb with
      | none => (vol, ip, .error .hang)
      | some (.gotit i) => (vol, ip, .ok (i, none))
      | some (.past pos len) =>
          match bmapGrow t vol ip pos len (t.efsBbsperlb - newposbb % t.efsBbsperlb) with
          | (vol, ip, .error e) => (vol, ip, .error e)
          | (vol, ip, .ok wex) =>
              if (ip.iiExtents.getLastD Extent.null).covers newposbb then
                (vol, ip, .ok (ip.iiExtents.length - 1, some wex))
              else bmapLocate t newposbb fuel (vol.clear wex.bn wex.length) ip

/-- The part of the extent that i/o at logical block `newpos` uses, and the file
    position of its first block. -/
def bmapPart (t : Tune) (ex : Extent) (newpos : Nat) : Bmapval × Nat :=
  let lbpos := (ex.exOffset + t.efsBbsperlb - 1) / t.efsBbsperlb
  if lbpos ≤ newpos then
    let roff := newpos * t.efsBbsperlb - ex.exOffset
    (⟨ex.exBn + roff, min (ex.exLength - roff) t.efsBbsperlb⟩, ex.exOffset + roff)
  else
    (⟨ex.exBn, min ex.exLength (lbpos * t.efsBbsperlb - ex.exOffset)⟩, ex.exOffset)

/-- What `efs_bmap` hands to its caller: the block run of the i/o, the one to
    read ahead, and `u_pboff` and `u_pbsize`. -/
structure Bmap where
  iex : Bmapval
  rex : Bmapval
  uPboff : Nat
  uPbsize : Nat
  deriving Repr, DecidableEq

/-- `efs_bmap` for reading; `none` is the end of the file. -/
def efsBmapRead (t : Tune) (ip : Inode) (uOffset uCount : Nat) :
    Inode × Except Errno (Option Bmap) :=
  let newposbb := btobbt uOffset
  match bmapSearch ip.iiExtents newposbb with
  | none => (ip, .error .hang)
  | some (.past _ _) => (ip, .ok none)
  | some (.gotit i) =>
      let ex := ip.iiExtents.getD i Extent.null
      let (iex, pos) := bmapPart t ex (newposbb / t.efsBbsperlb)
      let rex : Bmapval :=
        let len := ex.exOffset + ex.exLength - (newposbb + iex.length)
        if ip.ciLastbn + ip.ciLastlen = newposbb ∧ 0 < len then
          ⟨iex.bn + iex.length, min len t.efsBbsperlb⟩
        else ⟨0, 0⟩
      let uPboff := uOffset - bbtob pos
      let sz := min (min (bbtob iex.length - uPboff) uCount) (ip.iSize - uOffset)
      let ip := { ip with ciLastbn := newposbb, ciLastlen := btobb sz }
      (ip, .ok (if sz = 0 then none else some ⟨iex, rex, uPboff, sz⟩))

/-- `efs_bmap` for writing -/
def efsBmapWrite (t : Tune) (vol : Volume) (ip : Inode) (uOffset uCount : Nat) :
    Volume × Inode × Except Errno Bmap :=
  let newposbb := btobbt uOffset
  match bmapLocate t newposbb (newposbb + 2) vol ip with
  | (vol, ip, .error e) => (vol, ip, .error e)
  | (vol, ip, .ok (i, wex)) =>
      let ex := ip.iiExtents.getD i Extent.null
      let (iex, pos) := bmapPart t ex (newposbb / t.efsBbsperlb)
      let uPboff := uOffset - bbtob pos
      let sz := min (bbtob iex.length - uPboff) uCount
      -- a write that exactly overlaps the new area need not have it cleared
      let vol :=
        match wex with
        | some wex =>
            if wex.bn ≠ iex.bn ∨ wex.length ≠ iex.length ∨ uPboff ≠ 0 ∨ sz ≠ bbtob iex.length then
              vol.clear wex.bn wex.length
            else vol
        | none => vol
      (vol, ip, .ok ⟨iex, ⟨0, 0⟩, uPboff, sz⟩)

/-! ## efs_dotrunc -/

/-- One extent of a truncation, at offset `o` of a file or of an indirect area
    cut to `newsizebb` blocks: the extent as it stays in place, the blocks freed
    from it, and whether all of it went. -/
def cutExtent (newsizebb : Nat) (vol : Volume) (o : Nat) (ex : Extent) :
    Volume × Extent × Nat × Bool :=
  if newsizebb ≤ o then (vol.free ex, ex, ex.exLength, true)
  else if newsizebb < o + ex.exLength then
    let newlen := newsizebb - o
    (vol.free ⟨0, bits24 (ex.exBn + newlen), bits8 (ex.exLength - newlen), 0⟩,
      { ex with exLength := bits8 newlen }, bits8 (ex.exLength - newlen), false)
  else (vol, ex, 0, false)

/-- What a truncation loop has done: the extents in place, how many of them
    are gone, and the blocks freed. -/
structure Cut where
  vol : Volume
  exts : List Extent
  gone : Nat
  freed : Nat

/-- Loop through each extent in the file. -/
def dotruncExtents (newsizebb : Nat) : Volume → List Extent → Cut
  | vol, [] => ⟨vol, [], 0, 0⟩
  | vol, ex :: exts =>
      let (vol, ex, freed, whole) := cutExtent newsizebb vol ex.exOffset ex
      let rest := dotruncExtents newsizebb vol exts
      ⟨rest.vol, ex :: rest.exts, rest.gone + whole.toNat, rest.freed + freed⟩

/-- Loop through the indirect extents. -/
def dotruncIndir (newsizebb : Nat) : Volume → (offset : Nat) → List Extent → Cut
  | vol, _, [] => ⟨vol, [], 0, 0⟩
  | vol, offset, ex :: exts =>
      let oldlen := ex.exLength
      let (vol, ex, freed, whole) := cutExtent newsizebb vol offset ex
      let rest := dotruncIndir newsizebb vol (offset + oldlen) exts
      ⟨rest.vol, ex :: rest.exts, rest.gone + whole.toNat, rest.freed + freed⟩

/-- Free extra disk blocks associated with the inode structure -/
def efsDotrunc (vol : Volume) (ip : Inode) (newsize : Nat) : Volume × Inode :=
  if !ip.iFtype.mapped || decide (ip.iSize < newsize) || !ip.iiTrunc then (vol, ip)
  else
    let direct := dotruncExtents (btobb newsize) vol ip.iiExtents
    let exts := direct.exts.take (ip.iiExtents.length - direct.gone)
    let newsizebb := if efsDirectextents < exts.length then btobb (exts.length * sizeofExtent) else 0
    let indirect := dotruncIndir newsizebb direct.vol 0 ip.iiIndir
    let indir := indirect.exts.take (ip.iiIndir.length - indirect.gone)
    let indirbytes := ip.iiIndirbytes - bbtob indirect.freed
    (indirect.vol, { ip with
        iiExtents := exts
        iiIndir := indir
        iiIndirbytes := if indir = [] ∧ ip.iiIndir ≠ [] then 0 else indirbytes
        iSize := newsize
        iiTrunc := false })

/-- Truncate an inode to zero length, freeing all its blocks -/
def efsItrunc (vol : Volume) (ip : Inode) : Volume × Inode :=
  if ip.iFtype.mapped then efsDotrunc vol { ip with iiTrunc := true } 0 else (vol, ip)

/-- Same as efs_itrunc, except truncate to a given size -/
def efsSetsize (vol : Volume) (ip : Inode) (newsize : Nat) : Volume × Inode :=
  if (ip.iiTrunc || decide (newsize ≠ ip.iSize)) && ip.iFtype.mapped then
    efsDotrunc vol { ip with iiTrunc := true } newsize
  else (vol, ip)

/-- `efs_ifree`: return the inode to its group -/
def efsIfree (fs : Efs) (ip : Inode) : Efs :=
  if fs.fsCorrupted then fs
  else
    let g := fs.itocg ip.iNumber
    let cg := fs.fsCgs g
    { fs.setCg g { cg with
          cgLowi := if ip.iNumber < cg.cgLowi then ip.iNumber else cg.cgLowi
          cgFulli := false } with
      fsFmod := true
      fsTinode := fs.fsTinode + 1 }

/-- The last reference to an unlinked inode goes away, in `com_iput`. -/
def iputUnlinked (vol : Volume) (ip : Inode) : Volume × Inode :=
  let (vol, ip) := efsItrunc vol ip
  let ip := { ip with iFtype := .none }
  ({ vol with efs := efsIfree vol.efs ip }, { ip with ciLastbn := 0, ciLastlen := 0 })

end Irix.ExtentFs
