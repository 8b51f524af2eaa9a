import Irix.ExtentFs.Types

/-! # Inode chunks

Inodes are read a chunk at a time.  The length of a chunk in blocks is set up
by `efs_mountany` with a macro that reduces it modulo the inode blocks of a
group, so that it is short, or nothing, in small groups.
-/

namespace Irix.ExtentFs

/-- The sizes a mount takes from the superblock for the inode areas. -/
structure InodeLayout where
  fsFirstcg : Int
  fsCgfsize : Int
  fsCgisize : Nat
  fsNcg : Nat
  cgisize_pos : 0 < fsCgisize
  cgisize_short : fsCgisize < 32768

/-- What an `ino_t` holds after a value is stored into it. -/
def inoT (n : Nat) : Nat := n % 65536

/-- What a 32-bit `daddr_t` holds after a value is stored into it. -/
def daddrT (bn : Int) : Int := Int.bmod bn 4294967296

/-- The inodes of a cylinder group and where they are. -/
structure CgInodes where
  cgFirstbn : Int
  cgFirstdbn : Int
  cgFirsti : Nat
  deriving Repr, DecidableEq

/-- A buffer with the blocks `[bn, bn + len)`, and the place of an inode in it. -/
structure InodeBuf where
  bn : Int
  len : Int
  dinop : Nat
  deriving Repr, DecidableEq

namespace InodeLayout

variable (fs : InodeLayout)

/-- `EFS_INOPBB` inodes a block -/
abbrev efsInopbb : Nat := 4

/-- `sizeof(struct efs_dinode)` -/
abbrev sizeofDinode : Nat := 128

def fsIpcg : Nat := inoT (efsInopbb * fs.fsCgisize)

/-- `EFS_ITOCGBB`: inode number to bb, relative to cylinder group -/
def itocgbb (i : Nat) : Nat := (i >>> 2) % fs.fsCgisize

/-- `EFS_ITOO`: inode number to offset from bb base -/
def itoo (i : Nat) : Nat := i &&& 3

/-- `EFS_ITOCG`: inode number to cylinder group.  There are at least four inodes a group, so the
    number fits the `short` of the source. -/
def itocg (i : Nat) : Nat := i / fs.fsIpcg

/-- `EFS_ITOBB`: inode number to disk bb number -/
def itobb (i : Nat) : Int := daddrT (fs.fsFirstcg + fs.itocg i * fs.fsCgfsize + fs.itocgbb i)

/-- `EFS_INOPCHUNK` for pages of 4096 bytes, made sure that it is on a bb boundary -/
def fsInopchunk : Nat := ((4096 / sizeofDinode + efsInopbb - 1) >>> 2) <<< 2

def fsInopchunkbb : Nat := fs.itocgbb (fsInopchunk + efsInopbb - 1)

/-- The loop of `efs_mountany` over the groups. -/
def mountCgs : (n : Nat) → (inum : Nat) → (bn : Int) → List CgInodes
  | 0, _, _ => []
  | n + 1, inum, bn =>
      ⟨bn, daddrT (bn + fs.fsCgisize), inum⟩ ::
        mountCgs n (inoT (inum + fs.fsIpcg)) (daddrT (bn + fs.fsCgfsize))

def fsCgs : List CgInodes := fs.mountCgs fs.fsNcg 0 (daddrT fs.fsFirstcg)

/-- convert an inumber into a disk buffer containing the inode -/
def efsItobp (inum : Nat) : Option InodeBuf :=
  fs.fsCgs[fs.itocg inum]?.map fun cg =>
    let lowi := inoT ((inum - cg.cgFirsti) / fsInopchunk * fsInopchunk + cg.cgFirsti)
    let bn := fs.itobb lowi
    let len :=
      if cg.cgFirstdbn < daddrT (bn + fs.fsInopchunkbb) then daddrT (cg.cgFirstdbn - bn)
      else fs.fsInopchunkbb
    ⟨bn, len, inum - lowi⟩

/-- `EFS_CGIMIN` -/
def cgimin (cg : Nat) : Int := daddrT (fs.fsFirstcg + cg * fs.fsCgfsize)

/-- The first data block of a group, behind its inode area. -/
def dataBegin (cg : Nat) : Int := daddrT (fs.cgimin cg + fs.fsCgisize)

/-- The buffer lies in the inode area of the inode's group, and the inode in the buffer, at its
    place on the disk. -/
structure Covers (inum : Nat) (buf : InodeBuf) : Prop where
  some : 0 < buf.len
  low : fs.cgimin (fs.itocg inum) ≤ buf.bn
  high : buf.bn + buf.len ≤ fs.dataBegin (fs.itocg inum)
  inside : (sizeofDinode * (buf.dinop + 1) : Int) ≤ bbsize * buf.len
  place : (bbsize * buf.bn + sizeofDinode * buf.dinop : Int) =
    bbsize * fs.itobb inum + sizeofDinode * itoo inum

/-- The inode area of the group ends below the last block number, and so does a chunk from the
    start of the inode's chunk on. -/
def Fits (inum : Nat) : Prop :=
  fs.cgimin (fs.itocg inum) + fs.fsCgisize < 2147483648 ∧
    fs.cgimin (fs.itocg inum) + fs.itocgbb inum - (inum % fs.fsIpcg % fsInopchunk / 4 : Nat) +
      fs.fsInopchunkbb < 2147483648

instance (inum : Nat) : Decidable (fs.Fits inum) := by
  unfold Fits
  infer_instance

end InodeLayout

open InodeLayout

theorem daddrT_spec (bn : Int) :
    -2147483648 ≤ daddrT bn ∧ daddrT bn < 2147483648 ∧ daddrT bn % 4294967296 = bn % 4294967296 :=
  ⟨Int.le_bmod (by decide), Int.bmod_lt (by decide), Int.bmod_emod⟩

/-- A sum that is not too large is stored as it is, or overflows once. -/
theorem daddrT_once {bn : Int} (low : -2147483648 ≤ bn) (high : bn < 4294967296) :
    bn < 2147483648 ∧ daddrT bn = bn ∨ 2147483648 ≤ bn ∧ daddrT bn = bn - 4294967296 := by
  have stored := daddrT_spec bn
  omega

theorem daddrT_add (bn n : Int) : daddrT (daddrT bn + n) = daddrT (bn + n) :=
  Int.bmod_add_bmod

section Chunk

variable {fs : InodeLayout} {inum : Nat}

theorem mountCgs_getElem {n g i : Nat} {bn : Int} (inside : g < n) (small : i + g * fs.fsIpcg < 65536) :
    (fs.mountCgs n i (daddrT bn))[g]? =
      some ⟨daddrT (bn + g * fs.fsCgfsize), daddrT (bn + g * fs.fsCgfsize + fs.fsCgisize),
        i + g * fs.fsIpcg⟩ := by
  induction n generalizing g i bn with
  | zero => exact absurd inside (Nat.not_lt_zero g)
  | succ n ih =>
      cases g with
      | zero => simp [mountCgs, daddrT_add]
      | succ g =>
          have total : i + (g + 1) * fs.fsIpcg = i + fs.fsIpcg + g * fs.fsIpcg := by ring
          have fits : inoT (i + fs.fsIpcg) = i + fs.fsIpcg :=
            Nat.mod_eq_of_lt (by rw [total] at small; omega)
          have offset : bn + fs.fsCgfsize + (g : Int) * fs.fsCgfsize =
              bn + ((g + 1 : Nat) : Int) * fs.fsCgfsize := by
            push_cast
            ring
          simp only [mountCgs, List.getElem?_cons_succ, fits, daddrT_add]
          rw [ih (Nat.lt_of_succ_lt_succ inside) (by rw [← total]; exact small), total, offset]

/-- The block of an inode of group `g` in the inode area. -/
theorem itocgbb_group {g r : Nat} (inside : r < 4 * fs.fsCgisize) :
    fs.itocgbb (g * (4 * fs.fsCgisize) + r) = r / 4 := by
  have parts : (g * (4 * fs.fsCgisize) + r) / 4 = r / 4 + g * fs.fsCgisize := by
    rw [Nat.mul_left_comm, Nat.mul_add_div (by decide), Nat.add_comm]
  rw [itocgbb, Nat.shiftRight_eq_div_pow, show 2 ^ 2 = 4 from rfl, parts, Nat.add_mul_mod_self_right]
  exact Nat.mod_eq_of_lt (by omega)

/-- The block of an inode and that of the start of its chunk. -/
theorem itocgbb_chunk (known : inum < 65536) (some : 0 < fs.fsIpcg) :
    fs.itocgbb inum = fs.itocgbb (inum / fs.fsIpcg * fs.fsIpcg + inum % fs.fsIpcg / 32 * 32) +
      inum % fs.fsIpcg % 32 / 4 := by
  have whole := Nat.div_add_mod' inum fs.fsIpcg
  have inside := Nat.mod_lt inum some
  generalize inum / fs.fsIpcg = g at whole ⊢
  generalize inum % fs.fsIpcg = r at whole inside ⊢
  subst whole
  rcases Nat.lt_or_ge fs.fsCgisize 16384 with small | large
  · have ipcg : fs.fsIpcg = 4 * fs.fsCgisize := by
      change inoT (4 * fs.fsCgisize) = _
      exact Nat.mod_eq_of_lt (by omega)
    rw [ipcg] at inside ⊢
    rw [itocgbb_group inside, itocgbb_group (by omega)]
    omega
  · -- the inode numbers end before the blocks of the group do
    have ipcg : fs.fsIpcg = 4 * (fs.fsCgisize % 16384) := by
      change 4 * fs.fsCgisize % 65536 = _
      omega
    rw [ipcg, Nat.mul_left_comm] at known ⊢
    generalize g * (fs.fsCgisize % 16384) = start at known ⊢
    simp only [itocgbb, Nat.shiftRight_eq_div_pow]
    rw [Nat.mod_eq_of_lt (by omega), Nat.mod_eq_of_lt (by omega)]
    omega

/-- The start of the chunk of an inode is in the same group. -/
theorem itocg_chunk (some : 0 < fs.fsIpcg) :
    fs.itocg (inum / fs.fsIpcg * fs.fsIpcg + inum % fs.fsIpcg / 32 * 32) = fs.itocg inum := by
  have inside := Nat.mod_lt inum some
  have before := Nat.lt_of_le_of_lt (Nat.div_mul_le_self (inum % fs.fsIpcg) 32) inside
  rw [itocg, itocg, Nat.add_comm, Nat.add_mul_div_right _ _ some, Nat.div_eq_of_lt before,
    Nat.zero_add]

/-- The buffer of an inode: from the start of its chunk to the length of a chunk or the end of the
    area. -/
theorem efsItobp_eq (known : inum < 65536) (inside : inum < fs.fsIpcg * fs.fsNcg) :
    fs.efsItobp inum = some
      ⟨daddrT (fs.cgimin (fs.itocg inum) + fs.itocgbb inum - (inum % fs.fsIpcg % 32 / 4 : Nat)),
        if fs.dataBegin (fs.itocg inum) < daddrT (fs.cgimin (fs.itocg inum) + fs.itocgbb inum -
            (inum % fs.fsIpcg % 32 / 4 : Nat) + fs.fsInopchunkbb) then
          daddrT (fs.fsCgisize - (fs.itocgbb inum - (inum % fs.fsIpcg % 32 / 4 : Nat)))
        else fs.fsInopchunkbb,
        inum % fs.fsIpcg % 32⟩ := by
  have some : 0 < fs.fsIpcg := Nat.pos_of_ne_zero fun none => by
    rw [none, Nat.zero_mul] at inside
    exact Nat.not_lt_zero _ inside
  have group : fs.itocg inum < fs.fsNcg := Nat.div_lt_of_lt_mul inside
  have whole := Nat.div_add_mod' inum fs.fsIpcg
  have cg := @mountCgs_getElem fs fs.fsNcg (fs.itocg inum) 0 fs.fsFirstcg group
    (by rw [itocg]; omega)
  have chunk : (inum - inum / fs.fsIpcg * fs.fsIpcg) / 32 * 32 + inum / fs.fsIpcg * fs.fsIpcg =
      inum / fs.fsIpcg * fs.fsIpcg + inum % fs.fsIpcg / 32 * 32 := by
    rw [show inum - inum / fs.fsIpcg * fs.fsIpcg = inum % fs.fsIpcg by omega]
    exact Nat.add_comm ..
  have lowi : inoT (inum / fs.fsIpcg * fs.fsIpcg + inum % fs.fsIpcg / 32 * 32) =
      inum / fs.fsIpcg * fs.fsIpcg + inum % fs.fsIpcg / 32 * 32 :=
    Nat.mod_eq_of_lt (by omega)
  have blocks := itocgbb_chunk known some
  have size : fsInopchunk = 32 := rfl
  have rest : inum - (inum / fs.fsIpcg * fs.fsIpcg + inum % fs.fsIpcg / 32 * 32) =
      inum % fs.fsIpcg % 32 := by omega
  rw [efsItobp, fsCgs, cg]
  simp only [Option.map_some, Nat.zero_add, size]
  rw [show fs.itocg inum = inum / fs.fsIpcg from rfl, chunk, lowi, rest, itobb,
    itocg_chunk some, show fs.itocg inum = inum / fs.fsIpcg from rfl, blocks, dataBegin, cgimin]
  push_cast
  generalize fs.fsFirstcg + (inum : Int) / fs.fsIpcg * fs.fsCgfsize = start
  generalize (fs.itocgbb _ : Int) = first
  generalize ((inum : Int) % fs.fsIpcg % 32 / 4) = behind
  have from' : daddrT (daddrT start + (first + behind) - behind) = daddrT (start + first) := by
    rw [add_sub_assoc, daddrT_add, add_sub_cancel_right]
  have upTo : daddrT (daddrT start + (first + behind) - behind + fs.fsInopchunkbb) =
      daddrT (daddrT (start + first) + fs.fsInopchunkbb) := by
    rw [← from', daddrT_add]
  have left : daddrT (daddrT (start + fs.fsCgisize) - daddrT (start + first)) =
      daddrT (fs.fsCgisize - (first + behind - behind)) := by
    have a := daddrT_spec (start + fs.fsCgisize)
    have b := daddrT_spec (start + first)
    have c := daddrT_spec (daddrT (start + fs.fsCgisize) - daddrT (start + first))
    have d := daddrT_spec (fs.fsCgisize - (first + behind - behind))
    omega
  rw [from', upTo, left, daddrT_add start]

/-- No group has more blocks of inodes than its inode area. -/
theorem itocgbb_lt (fs : InodeLayout) (i : Nat) : fs.itocgbb i < fs.fsCgisize :=
  Nat.mod_lt _ fs.cgisize_pos

theorem fsInopchunkbb_eq (fs : InodeLayout) : fs.fsInopchunkbb = 8 % fs.fsCgisize := rfl

/-- A group of at most a chunk is one chunk. -/
theorem one_chunk (one : fs.fsCgisize ≤ 8) : inum % fs.fsIpcg % 32 / 4 = fs.itocgbb inum := by
  have some := fs.cgisize_pos
  have ipcg : fs.fsIpcg = 4 * fs.fsCgisize := by
    change inoT (4 * fs.fsCgisize) = _
    exact Nat.mod_eq_of_lt (by omega)
  have whole := Nat.div_add_mod' inum fs.fsIpcg
  have inside : inum % fs.fsIpcg < fs.fsIpcg := Nat.mod_lt inum (by omega)
  have block := @itocgbb_group fs (inum / fs.fsIpcg) (inum % fs.fsIpcg) (by omega)
  rw [← ipcg, whole] at block
  rw [block, Nat.mod_eq_of_lt (by omega)]

/-- Groups and chunks start with the inodes of a block. -/
theorem itoo_chunk (fs : InodeLayout) (inum : Nat) : itoo inum = inum % fs.fsIpcg % 32 % 4 := by
  have ipcg : fs.fsIpcg = 4 * (fs.fsCgisize % 16384) := by
    change 4 * fs.fsCgisize % 65536 = _
    omega
  have mask : itoo inum = inum % 4 := Nat.and_two_pow_sub_one_eq_mod inum 2
  have whole := Nat.div_add_mod' inum fs.fsIpcg
  rw [ipcg, Nat.mul_left_comm] at whole
  rw [mask, ipcg, Nat.mod_mod_of_dvd _ (by decide)]
  omega

/-- The group starts at `b` and has `n` blocks of inodes, the inode is `e` behind the start of its
    chunk, which is in block `d`.  A buffer cut off behind the area covers the inode if nothing
    overflows and the buffer reaches its block. -/
theorem reaches_iff {b len : Int} {n d c e : Nat} (low : -2147483648 ≤ b) (high : b < 2147483648)
    (short : n < 32768) (inside : d + e / 4 < n) (chunk : c ≤ 8) (within : e < 32)
    (cut : len = if daddrT (b + n) < daddrT (b + d + c) then daddrT (n - d) else c) :
    (0 < len ∧ b ≤ daddrT (b + d) ∧ daddrT (b + d) + len ≤ daddrT (b + n) ∧
        128 * (e + 1 : Int) ≤ 512 * len ∧
        512 * daddrT (b + d) + 128 * e = 512 * daddrT (b + d + (e / 4 : Nat)) + 128 * (e % 4 : Nat)) ↔
      (b + n < 2147483648 ∧ b + d + c < 2147483648) ∧ e / 4 < c := by
  have area := @daddrT_once (b + n) (by omega) (by omega)
  have first := @daddrT_once (b + d) (by omega) (by omega)
  have past := @daddrT_once (b + d + c) (by omega) (by omega)
  have own := @daddrT_once (b + d + (e / 4 : Nat)) (by omega) (by omega)
  have rest := @daddrT_once (n - d) (by omega) (by omega)
  generalize daddrT (b + n) = areaEnd at area cut ⊢
  generalize daddrT (b + d) = bn at first cut ⊢
  generalize daddrT (b + d + c) = pastEnd at past cut
  generalize daddrT (b + d + (e / 4 : Nat)) = place at own ⊢
  generalize daddrT (n - d) = left at rest cut
  split at cut <;> omega

/-- The inode is in the buffer if the block numbers do not overflow and the buffer reaches its
    block. -/
theorem covers_iff_reaches (known : inum < 65536) (inside : inum < fs.fsIpcg * fs.fsNcg) :
    ∃ buf, fs.efsItobp inum = some buf ∧
      (fs.Covers inum buf ↔ fs.Fits inum ∧ inum % fs.fsIpcg % 32 / 4 < fs.fsInopchunkbb) := by
  have some : 0 < fs.fsIpcg := Nat.pos_of_ne_zero fun none => by
    rw [none, Nat.zero_mul] at inside
    exact Nat.not_lt_zero _ inside
  refine ⟨_, efsItobp_eq known inside, ?_⟩
  have below := itocgbb_lt fs inum
  have blocks := itocgbb_chunk known some
  have start := daddrT_spec (fs.fsFirstcg + fs.itocg inum * fs.fsCgfsize)
  generalize fs.itocgbb (_ + _) = d at blocks
  have bn : fs.cgimin (fs.itocg inum) + fs.itocgbb inum - (inum % fs.fsIpcg % 32 / 4 : Nat) =
      fs.cgimin (fs.itocg inum) + d := by omega
  have rest : (fs.fsCgisize - (fs.itocgbb inum - (inum % fs.fsIpcg % 32 / 4 : Nat)) : Int) =
      fs.fsCgisize - d := by omega
  have own : fs.itobb inum = daddrT (fs.cgimin (fs.itocg inum) + d + (inum % fs.fsIpcg % 32 / 4 : Nat)) := by
    rw [itobb, cgimin, add_assoc (daddrT _), daddrT_add, blocks, Nat.cast_add]
  have reaches := @reaches_iff (fs.cgimin (fs.itocg inum)) _ fs.fsCgisize d fs.fsInopchunkbb
    (inum % fs.fsIpcg % 32) start.1 start.2.1 fs.cgisize_short (by omega)
    (Nat.mod_le 8 fs.fsCgisize) (Nat.mod_lt _ (by decide)) rfl
  rw [Fits, show fsInopchunk = 32 from rfl, bn, rest, ← reaches, dataBegin]
  constructor
  · rintro ⟨some, low, high, within, place⟩
    rw [own, itoo_chunk fs inum] at place
    exact ⟨some, low, high, within, place⟩
  · rintro ⟨some, low, high, within, place⟩
    refine ⟨some, low, high, within, ?_⟩
    rw [own, itoo_chunk fs inum]
    exact place

end Chunk

/-- The buffer of an inode covers it unless the block numbers of its group overflow, or the length
    of a chunk comes out too small for the group. -/
theorem itobp_covers_iff (fs : InodeLayout) (inum : Nat) (known : inum < 65536)
    (inside : inum < fs.fsIpcg * fs.fsNcg) :
    ∃ buf, fs.efsItobp inum = some buf ∧
      (fs.Covers inum buf ↔
        fs.Fits inum ∧ (8 < fs.fsCgisize ∨ fs.itocgbb inum < 8 % fs.fsCgisize)) := by
  obtain ⟨buf, done, covers⟩ := covers_iff_reaches known inside
  refine ⟨buf, done, covers.trans (and_congr_right' ?_)⟩
  rw [fsInopchunkbb_eq]
  rcases Nat.lt_or_ge 8 fs.fsCgisize with large | small
  · rw [Nat.mod_eq_of_lt large]
    omega
  · rw [one_chunk small]
    omega

/-- One group of `n` blocks of inodes. -/
def oneGroup (n : Nat) (some : 0 < n) (small : n < 32768) : InodeLayout :=
  ⟨100, 4000, n, 1, some, small⟩

theorem itobp_covers_iff_nine :
    ∃ buf, (oneGroup 9 (by decide) (by decide)).efsItobp 35 = some buf ∧
      ((oneGroup 9 (by decide) (by decide)).Covers 35 buf ↔
        (oneGroup 9 (by decide) (by decide)).Fits 35 ∧
          (8 < 9 ∨ (oneGroup 9 (by decide) (by decide)).itocgbb 35 < 8 % 9)) :=
  itobp_covers_iff (oneGroup 9 (by decide) (by decide)) 35 (by decide) (by decide)

/-- In a group of eight blocks of inodes nothing is read for the root inode. -/
theorem eight_blocks_uncovered : ¬ ∃ buf, (oneGroup 8 (by decide) (by decide)).efsItobp 2 = some buf ∧
    (oneGroup 8 (by decide) (by decide)).Covers 2 buf := by
  rintro ⟨buf, eq, covers⟩
  have here : buf = ⟨100, 0, 2⟩ := by
    rw [show (oneGroup 8 (by decide) (by decide)).efsItobp 2 = some ⟨100, 0, 2⟩ from by decide] at eq
    exact (Option.some.inj eq).symm
  have some := covers.some
  rw [here] at some
  exact absurd some (by decide)

end Irix.ExtentFs
