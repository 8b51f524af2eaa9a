import Irix.ExtentFs.Summary

/-! # Allocation of data blocks

`efs_alloc`, `efs_grow` and `efs_free` over the superblock, its bit map and its
group summaries.  What these routines do to the blocks themselves (clearing
them, dropping them from the buffer cache) belongs to the volume, not here.
-/

namespace Irix.ExtentFs

/-! ## efs_alloc -/

/-- Where the search of `efs_alloc` came to rest: a group, one of its summary
    slots, and the flag `isfirstcgd`. -/
structure Pick where
  cg : Nat
  slot : Nat
  isfirstcgd : Bool
  deriving Repr, DecidableEq

/-- Remember this slot if it is larger than the previously saved one. -/
def savedCgd (dsum : Nat → Cgdmap) (savecgd : Option Nat) (j : Nat) : Nat :=
  match savecgd with
  | none => j
  | some s => if (dsum s).dLength < (dsum j).dLength then j else s

/-- Loop through `n` summary slots from `j` on: a slot big enough, or else the
    largest unused one. -/
def scanDsum (dsum : Nat → Cgdmap) (desiredlen : Nat) :
    (n j : Nat) → (savecgd : Option Nat) → Nat ⊕ Option Nat
  | 0, _, savecgd => .inr savecgd
  | n + 1, j, savecgd =>
      if (dsum j).dLength = 0 then scanDsum dsum desiredlen n (j + 1) savecgd
      else if (desiredlen : Int) ≤ (dsum j).dLength then .inl j
      else scanDsum dsum desiredlen n (j + 1) (some (savedCgd dsum savecgd j))

/-- One group of the first search. -/
def fastCg (t : Tune) (fs : Efs) (g desiredlen : Nat) (musthave : Bool) : Efs × Option Pick :=
  let cg := fs.fsCgs g
  if cg.cgDfree < desiredlen then (fs, none)
  else
    let cg := if cg.cgLastd ≤ cg.cgNextd then efsBuilddsum fs cg (desiredlen / 2) t.dontstop else cg
    let fs := fs.setCg g cg
    if cg.cgLastd ≤ cg.cgNextd then (fs, none)
    else
      match scanDsum cg.cgDsum desiredlen (cg.cgLastd - cg.cgNextd) cg.cgNextd none with
      | .inl j => (fs, some ⟨g, j, true⟩)
      | .inr none => (fs, none)
      | .inr (some j) =>
          if !musthave && decide (((desiredlen / 2 : Nat) : Int) ≤ (cg.cgDsum j).dLength) then
            (fs, some ⟨g, j, false⟩)
          else (fs, none)

/-- Search each cylinder group, starting at the inode's own. -/
def fastSearch (t : Tune) (desiredlen : Nat) (musthave : Bool) :
    (i g : Nat) → Efs → Efs × Option Pick
  | 0, _, fs => (fs, none)
  | i + 1, g, fs =>
      let g := if fs.fsNcg ≤ g then 0 else g
      match fastCg t fs g desiredlen musthave with
      | (fs, some pick) => (fs, some pick)
      | (fs, none) => fastSearch t desiredlen musthave i (g + 1) fs

/-- A slot the brute force search accepts. -/
def usable (desiredlen : Nat) (musthave : Bool) (cgd : Cgdmap) : Bool :=
  cgd.dLength ≠ 0 && (!musthave || decide ((desiredlen : Int) ≤ cgd.dLength))

/-- The first usable slot among `n` from `j` on. -/
def firstUsable (dsum : Nat → Cgdmap) (desiredlen : Nat) (musthave : Bool) :
    (n j : Nat) → Option Nat
  | 0, _ => none
  | n + 1, j =>
      if usable desiredlen musthave (dsum j) then some j
      else firstUsable dsum desiredlen musthave n (j + 1)

/-- One group of the brute force search. -/
def slowCg (t : Tune) (fs : Efs) (g desiredlen : Nat) (musthave : Bool) : Efs × Option Pick :=
  let cg := fs.fsCgs g
  let cg :=
    if cg.cgLastd ≤ cg.cgNextd then
      efsBuilddsum fs { cg with cgFirstdfree := cg.cgFirstdbn } 1 t.dontstop
    else cg
  if cg.cgLastd ≤ cg.cgNextd then (fs.setCg g cg, none)
  else if usable desiredlen musthave (cg.cgDsum cg.cgNextd) then
    (fs.setCg g cg, some ⟨g, cg.cgNextd, false⟩)
  else
    let cg := { cg with cgNextd := cg.cgNextd + 1 }
    (fs.setCg g cg,
      (firstUsable cg.cgDsum desiredlen musthave (cg.cgLastd - cg.cgNextd) cg.cgNextd).map
        (⟨g, ·, false⟩))

def slowSearch (t : Tune) (desiredlen : Nat) (musthave : Bool) :
    (i g : Nat) → Efs → Efs × Option Pick
  | 0, _, fs => (fs, none)
  | i + 1, g, fs =>
      match slowCg t fs g desiredlen musthave with
      | (fs, some pick) => (fs, some pick)
      | (fs, none) => slowSearch t desiredlen musthave i (g + 1) fs

/-- What `efs_alloc` comes back with.  Both failures return 0 with `ENOSPC`;
    the second prints "filesystem corruption during alloc" first. -/
inductive Grant where
  | noMoreRoom
  | corruption
  | found (bn length : Nat)
  deriving Repr, DecidableEq

/-- Lop off the amount being used from the summary piece.  No number of bits
    counted is the negative length of a run that has overflowed. -/
def takePick (fs : Efs) (pick : Pick) (desiredlen : Nat) : Efs × Grant :=
  let cg := fs.fsCgs pick.cg
  let cgd := cg.cgDsum pick.slot
  let length : Int := if cgd.dLength < desiredlen then cgd.dLength else desiredlen
  let desiredlen := length.toNat
  let last := cgd.dBn
  if (bftstset fs.fsDmap last desiredlen : Int) ≠ length then (fs, .corruption)
  else
    let cgd : Cgdmap := ⟨cgd.dBn + desiredlen, short (cgd.dLength - desiredlen)⟩
    let cg :=
      { cg with
        cgDsum := fun j => if j = pick.slot then cgd else cg.cgDsum j
        cgNextd := if cgd.dLength = 0 && pick.isfirstcgd then cg.cgNextd + 1 else cg.cgNextd
        cgDfree := short (cg.cgDfree - desiredlen) }
    ({ fs.setCg pick.cg cg with
        fsTfree := fs.fsTfree - desiredlen
        fsFmod := true
        fsDmap := bfclr fs.fsDmap last desiredlen },
      .found last desiredlen)

/-- The brute force search and what it finds, from `slow_search` on. -/
def bruteForce (t : Tune) (fs : Efs) (desiredlen : Nat) (musthave : Bool) : Efs × Grant :=
  match slowSearch t desiredlen musthave fs.fsNcg 0 fs with
  | (fs, some pick) => takePick fs pick desiredlen
  | (fs, none) => (fs, .noMoreRoom)

/-- allocate len worth of space on fs for inode ip; if we can't find len's
    worth, then return the amount we did find -/
def efsAlloc (t : Tune) (fs : Efs) (inum desiredlen : Nat) (musthave : Bool) : Efs × Grant :=
  if fs.fsCorrupted || decide (fs.fsTfree ≤ 0) then (fs, .noMoreRoom)
  else if fs.fsDiskfull then bruteForce t fs desiredlen musthave
  else
    match fastSearch t desiredlen musthave fs.fsNcg (fs.itocg inum) fs with
    | (fs, some pick) => takePick fs pick desiredlen
    | (fs, none) =>
        let fs := { fs with fsDiskfull := true }
        if musthave then (fs, .noMoreRoom)
        else bruteForce t fs desiredlen musthave

/-! ## efs_grow and efs_free -/

/-- Whether the extent overlaps anything except data blocks in use.  The tests
    that panic under `ASSERT` on a zero block or a zero length come out as bad
    extents. -/
def badExtent (fs : Efs) (ex : Extent) : Bool :=
  let bn := ex.exBn - fs.fsFirstcg
  let len := ex.exLength - 1
  ex.exBn < fs.fsFirstcg || ex.exLength == 0 || fs.fsSize < ex.exBn ||
    efsMaxextentlen < ex.exLength ||
    bn % fs.fsCgfsize < fs.fsCgisize ||
    bn / fs.fsCgfsize != (bn + len) / fs.fsCgfsize ||
    bftstclr fs.fsDmap ex.exBn ex.exLength != ex.exLength

/-- make sure that the extent doesn't overlap anything except data blocks, and
    mark the filesystem as corrupted if it does -/
def efsBadextent (fs : Efs) (ex : Extent) : Efs × Bool :=
  if badExtent fs ex then ({ fs with fsCorrupted := true }, true) else (fs, false)

/-- destroy cg summary info after an extend, if it overlaps the region -/
def efsCgdcheck (cg : Cg) (bn len : Nat) : Cg :=
  if (List.range' cg.cgNextd (cg.cgLastd - cg.cgNextd)).any fun j =>
      let cgd := cg.cgDsum j
      (decide (cgd.dBn ≤ bn) && decide ((bn : Int) < cgd.dBn + cgd.dLength)) ||
        (decide (bn ≤ cgd.dBn) && decide (cgd.dBn < bn + len))
  then { cg with cgNextd := cgDsums }
  else cg

/-- attempt to extend the given extent; returns the extent and how many blocks
    were added behind it -/
def efsGrow (fs : Efs) (ex : Extent) (len : Nat) : Efs × Extent × Nat :=
  match efsBadextent fs ex with
  | (fs, true) => (fs, ex, 0)
  | (fs, false) =>
      let g := fs.bbtocg ex.exBn
      let cg := fs.fsCgs g
      let firstbit := ex.exBn + ex.exLength
      let cgend := cg.cgFirstbn + fs.fsCgfsize
      let len := if cgend ≤ firstbit + len then cgend - firstbit else len
      let len := if efsMaxextentlen ≤ ex.exLength + len then efsMaxextentlen - ex.exLength else len
      if len = 0 then (fs, ex, 0)
      else
        let len := bftstset fs.fsDmap firstbit len
        if len = 0 then (fs, ex, 0)
        else
          let cg := { cg with cgDfree := short (cg.cgDfree - len) }
          let cg := if cg.cgNextd < cg.cgLastd then efsCgdcheck cg firstbit len else cg
          ({ fs.setCg g cg with
              fsTfree := fs.fsTfree - len
              fsFmod := true
              fsDmap := bfclr fs.fsDmap firstbit len },
            { ex with exLength := bits8 (ex.exLength + len) }, len)

section

attribute [local simp] efsGrow

theorem efsGrow_bad {fs : Efs} {ex : Extent} (bad : badExtent fs ex = true) (len : Nat) :
    efsGrow fs ex len = ({ fs with fsCorrupted := true }, ex, 0) := by
  simp [efsBadextent, bad]

end

/-- free the given extent -/
def efsFree (fs : Efs) (ex : Extent) : Efs :=
  if fs.fsCorrupted then fs
  else
    match efsBadextent fs ex with
    | (fs, true) => fs
    | (fs, false) =>
        let g := fs.bbtocg ex.exBn
        let cg := fs.fsCgs g
        { fs.setCg g { cg with
              cgNextd := cgDsums
              cgDfree := short (cg.cgDfree + ex.exLength) } with
          fsDiskfull := false
          fsTfree := fs.fsTfree + ex.exLength
          fsFmod := true
          fsDmap := bfset fs.fsDmap ex.exBn ex.exLength }

/-! ## Mounting -/

/-- What a mount takes from the volume besides its sizes. -/
structure Superblock extends Geometry where
  fsTfree : Int
  fsTinode : Int
  dmap : Lib.Bits.Map

/-- The fresh superblock of a mount, before its groups are summarized. -/
def Superblock.incore (sb : Superblock) : Efs where
  toGeometry := sb.toGeometry
  fsTfree := sb.fsTfree
  fsTinode := sb.fsTinode
  fsReadonly := false
  fsFmod := false
  fsCorrupted := false
  fsDiskfull := false
  -- EFS_INOPBB inodes a block
  fsIpcg := 4 * sb.fsCgisize
  fsDmap := sb.dmap
  fsCgs := fun g =>
    { cgFirstbn := sb.cgimin g
      cgFirstdbn := sb.dataStart g
      cgFirsti := g * (4 * sb.fsCgisize)
      cgLasti := g * (4 * sb.fsCgisize) + 4 * sb.fsCgisize - 1
      cgFulli := false
      cgLowi := g * (4 * sb.fsCgisize)
      cgDfree := 0
      cgFirstdfree := sb.dataStart g
      cgNextd := 0
      cgLastd := 0
      cgDsum := fun _ => ⟨0, 0⟩ }

/-- The group loop of `efs_mountany` for a volume mounted for writing. -/
def efsMountany (t : Tune) (sb : Superblock) : Efs :=
  let fs := sb.incore
  { fs with fsCgs := fun g => efsBuilddsum fs (fs.fsCgs g) t.efsBbsperlb true }

end Irix.ExtentFs
