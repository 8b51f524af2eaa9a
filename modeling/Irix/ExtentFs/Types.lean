import Irix.Lib.Bits
import Mathlib.Data.Int.Init
import Mathlib.Tactic.Ring

/-! # Data of the extent filesystem

The superblock and its cylinder groups as the kernel holds them after a mount,
and the extents an inode is made of.  Fields that are `short` in the source
are integers whose stores go through `short`; bit fields are naturals whose
stores go through `bits8` and `bits24`.
-/

namespace Irix.ExtentFs

/-- Size of a basic block in bytes. -/
abbrev bbsize : Nat := 512

/-- Bytes to basic blocks, rounded up. -/
def btobb (n : Nat) : Nat := (n + 511) / 512

/-- Bytes to basic blocks, truncated. -/
def btobbt (n : Nat) : Nat := n / 512

def bbtob (n : Nat) : Nat := n * 512

theorem bbtob_add (m n : Nat) : bbtob (m + n) = bbtob m + bbtob n := Nat.add_mul m n 512

theorem bbtob_one : bbtob 1 = bbsize := rfl

theorem btobb_le {n k : Nat} : btobb n ≤ k ↔ n ≤ bbtob k := by
  simp only [btobb, bbtob]
  omega

theorem le_bbtob_btobb (n : Nat) : n ≤ bbtob (btobb n) := btobb_le.mp (Nat.le_refl _)

theorem btobbt_lt {n k : Nat} : btobbt n < k ↔ n < bbtob k :=
  Nat.div_lt_iff_lt_mul (by decide)

/-- # of directly mappable extents -/
abbrev efsDirectextents : Nat := 12

/-- maximum extents per inode -/
abbrev efsMaxextents : Nat := 2048

/-- maximum length of an extent -/
abbrev efsMaxextentlen : Nat := 248

/-- summary slots of a cylinder group -/
abbrev cgDsums : Nat := 20

/-- The bytes of an extent on disk and in core. -/
abbrev sizeofExtent : Nat := 8

/-- What a 16-bit `short` holds after a value is stored into it. -/
def short (x : Int) : Int := Int.bmod x 65536

theorem short_fits {x : Int} (low : -32768 ≤ x) (high : x < 32768) : short x = x := by
  rw [short, Int.bmod_eq_of_le] <;> omega

/-- Counting on and storing again is the same as counting first. -/
theorem short_add (x y : Int) : short (short x + y) = short (x + y) := Int.bmod_add_bmod

theorem short_sub (x y : Int) : short (short x - y) = short (x - y) := Int.bmod_sub_bmod

theorem short_lt (x : Int) : short x < 32768 := Int.bmod_lt (by decide)

/-- A natural number is stored as one that is not larger. -/
theorem short_le (n : Nat) : short n ≤ n := by
  have stored : short n % 65536 = n % 65536 := Int.bmod_emod
  have least : short n < 32768 := short_lt n
  have low : -32768 ≤ short n := Int.le_bmod (by decide)
  omega

def bits8 (n : Nat) : Nat := n % 256

def bits24 (n : Nat) : Nat := n % 16777216

theorem bits8_fits {n : Nat} (fits : n < 256) : bits8 n = n := Nat.mod_eq_of_lt fits

theorem bits24_fits {n : Nat} (fits : n < 16777216) : bits24 n = n := Nat.mod_eq_of_lt fits

/-- `struct extent`: a run of basic blocks and its place in the file. -/
structure Extent where
  exMagic : Nat
  exBn : Nat
  exLength : Nat
  exOffset : Nat
  deriving Repr, DecidableEq, Inhabited

/-- `struct cgdmap`: a free run a cylinder group's summary knows. -/
structure Cgdmap where
  dBn : Nat
  dLength : Int
  deriving Repr, DecidableEq, Inhabited

/-- `struct cg`: the in-core summary of a cylinder group. -/
structure Cg where
  cgFirstbn : Nat
  cgFirstdbn : Nat
  cgFirsti : Nat
  cgLasti : Nat
  cgFulli : Bool
  cgLowi : Nat
  cgDfree : Int
  cgFirstdfree : Nat
  cgNextd : Nat
  cgLastd : Nat
  cgDsum : Nat → Cgdmap

/-- The sizing part of the superblock.  The fields that are proofs are what
    fsck's `sb_sizecheck` tests, and that a group has inodes: the inode macros
    divide by their number. -/
structure Layout where
  fsSize : Nat
  fsFirstcg : Nat
  fsCgfsize : Nat
  fsCgisize : Nat
  fsNcg : Nat
  fsBmsize : Nat
  size_eq : fsSize = fsFirstcg + fsNcg * fsCgfsize
  bitmap_covers : fsSize ≤ 8 * fsBmsize
  bitmap_before : 2 + btobb fsBmsize ≤ fsFirstcg
  inodes_some : 0 < fsCgisize
  inodes_fit : fsCgisize < fsCgfsize

/-- The sizes of a volume that can be mounted: `efs_mountany` limits the bit
    map. -/
structure Geometry extends Layout where
  bitmap_limit : fsBmsize ≤ 262144

namespace Layout

variable (geo : Layout)

/-- `EFS_CGIMIN`: the first block of a cylinder group. -/
def cgimin (cg : Nat) : Nat := geo.fsFirstcg + cg * geo.fsCgfsize

/-- `EFS_BBTOCG`: the cylinder group of a block. -/
def bbtocg (bb : Nat) : Nat := (bb - geo.fsFirstcg) / geo.fsCgfsize

/-- The first data block of a cylinder group. -/
def dataStart (cg : Nat) : Nat := geo.cgimin cg + geo.fsCgisize

/-- The number of data blocks of every cylinder group. -/
def dataLen : Nat := geo.fsCgfsize - geo.fsCgisize

/-- The data area of a group fits the `short`s that count its free blocks and
    the blocks of a free run.  `efs_mountany` mounts other volumes too. -/
def Short : Prop := geo.dataLen < 32768

instance : Decidable geo.Short := by
  unfold Short
  infer_instance

/-- `b` is a block of the data area of group `cg`. -/
def InArea (cg b : Nat) : Prop :=
  cg < geo.fsNcg ∧ geo.dataStart cg ≤ b ∧ b < geo.dataStart cg + geo.dataLen

instance (cg b : Nat) : Decidable (geo.InArea cg b) := by
  unfold InArea
  infer_instance

theorem dataEnd (cg : Nat) : geo.dataStart cg + geo.dataLen = geo.cgimin cg + geo.fsCgfsize := by
  have := geo.inodes_fit
  simp only [dataStart, dataLen]
  omega

theorem cgimin_succ (cg : Nat) : geo.cgimin (cg + 1) = geo.cgimin cg + geo.fsCgfsize := by
  simp only [cgimin]
  ring

theorem cgimin_mono {a b : Nat} (le : a ≤ b) : geo.cgimin a ≤ geo.cgimin b :=
  Nat.add_le_add_left (Nat.mul_le_mul_right _ le) _

theorem dataEnd_le {a b : Nat} (before : a < b) :
    geo.dataStart a + geo.dataLen ≤ geo.cgimin b := by
  rw [dataEnd, ← cgimin_succ]
  exact geo.cgimin_mono before

theorem dataEnd_le_size {cg : Nat} (inside : cg < geo.fsNcg) :
    geo.dataStart cg + geo.dataLen ≤ geo.fsSize := by
  rw [geo.size_eq]
  exact geo.dataEnd_le inside

theorem bbtocg_eq {cg b : Nat} (low : geo.cgimin cg ≤ b) (high : b < geo.cgimin cg + geo.fsCgfsize) :
    geo.bbtocg b = cg := by
  simp only [bbtocg, cgimin] at low high ⊢
  apply Nat.div_eq_of_lt_le
  · omega
  · rw [Nat.succ_mul]
    omega

theorem InArea.bbtocg {geo : Layout} {cg b : Nat} (area : geo.InArea cg b) :
    geo.bbtocg b = cg := by
  obtain ⟨_, low, high⟩ := area
  rw [dataEnd] at high
  exact geo.bbtocg_eq (le_trans (Nat.le_add_right _ _) low) high

theorem InArea.lt_size {geo : Layout} {cg b : Nat} (area : geo.InArea cg b) : b < geo.fsSize :=
  Nat.lt_of_lt_of_le area.2.2 (geo.dataEnd_le_size area.1)

theorem InArea.firstcg_le {geo : Layout} {cg b : Nat} (area : geo.InArea cg b) :
    geo.fsFirstcg ≤ b := by
  have := area.2.1
  simp only [dataStart, cgimin] at this
  omega

end Layout

theorem Geometry.fsSize_lt (geo : Geometry) : geo.fsSize < 16777216 := by
  have := geo.bitmap_covers
  have := geo.bitmap_limit
  omega

/-- `struct efs`: the superblock of a mounted volume with its bit map and its
    cylinder groups. -/
structure Efs extends Geometry where
  fsTfree : Int
  fsTinode : Int
  fsReadonly : Bool
  fsFmod : Bool
  fsCorrupted : Bool
  fsDiskfull : Bool
  fsIpcg : Nat
  fsDmap : Lib.Bits.Map
  fsCgs : Nat → Cg

/-- The patchable parameters of a kernel: `efs_lbtobbshift`, and whether the
    allocator's summary scans run on when their slots are full (they do when
    `ASSERT` is defined).  A logical block always fits one extent. -/
structure Tune where
  efsLbtobbshift : Nat
  dontstop : Bool
  lb_fits : efsLbtobbshift ≤ 7

/-- `efs_bbsperlb`: # of bb's per logical block -/
def Tune.efsBbsperlb (t : Tune) : Nat := 2 ^ t.efsLbtobbshift

theorem Tune.efsBbsperlb_pos (t : Tune) : 0 < t.efsBbsperlb := Nat.two_pow_pos _

theorem Tune.efsBbsperlb_le (t : Tune) : t.efsBbsperlb ≤ 128 :=
  Nat.pow_le_pow_right (by omega) t.lb_fits

namespace Efs

/-- `EFS_ITOCG`: the cylinder group of an inode. -/
def itocg (fs : Efs) (inum : Nat) : Nat := inum / fs.fsIpcg

def setCg (fs : Efs) (g : Nat) (cg : Cg) : Efs :=
  { fs with fsCgs := fun i => if i = g then cg else fs.fsCgs i }

@[simp] theorem setCg_same (fs : Efs) (g : Nat) (cg : Cg) : (fs.setCg g cg).fsCgs g = cg :=
  if_pos rfl

@[simp] theorem setCg_self (fs : Efs) (g : Nat) : fs.setCg g (fs.fsCgs g) = fs := by
  have same : (fun i => if i = g then fs.fsCgs g else fs.fsCgs i) = fs.fsCgs := by
    funext i
    split
    next here => rw [here]
    next => rfl
  simp only [setCg, same]

theorem setCg_other (fs : Efs) {g i : Nat} (cg : Cg) (other : i ≠ g) :
    (fs.setCg g cg).fsCgs i = fs.fsCgs i :=
  if_neg other

/-- The data blocks the bit map shows free, over all groups. -/
def dataFree (fs : Efs) : Nat :=
  ((List.range fs.fsNcg).map fun g => Lib.Bits.count fs.fsDmap (fs.dataStart g) fs.dataLen).sum

end Efs

end Irix.ExtentFs
