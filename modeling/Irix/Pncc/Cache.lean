import Irix.Lib.Buckets
import Irix.Lib.Linked
import Mathlib.Data.List.FinRange

/-! # The pathname component cache

A block of the cache keeps what one name of a directory stands for.  All the
blocks are on one circular list, the least recently used first; those that
have a name hang from the hash buckets too.  The links back of a hash chain
point to the block in front or to the bucket, whose only member is read as a
link forward.
-/

namespace Irix.Pncc

open Function Lib.Linked Lib.Buckets

abbrev NC_NAMLEN : Nat := 14
abbrev NC_NBUCKETS : Nat := 128

/-- A `dev_t`. -/
abbrev Dev : Type := Int

abbrev NODEV : Dev := -1

/-- An `ncap_t`. -/
abbrev Ncap : Type := BitVec 16

/-- The characters of a component of a path name, as many as `len` says. -/
structure Component where
  chars : List Int
  some : chars ≠ []
  string : 0 ∉ chars

def Component.len (name : Component) : Nat := name.chars.length

/-- `i_number` of a directory and `m_dev` of its `i_mntdev`. -/
structure Inode where
  mdev : Dev
  number : Nat

structure Ncvalue where
  inum : Nat
  offset : Int
  pcap : Ncap
  cap : Ncap

structure Ncblock where
  pinum : Nat
  pdev : Dev
  /-- `nc_name` up to its null character -/
  name : List Int
  val : Ncvalue

/-- `nce_hash` is null or one of the buckets. -/
structure Ncentry where
  val : Ncvalue
  hash : Option (Fin NC_NBUCKETS)

inductive Ncstat where
  | miss
  | hit
  | notcached
  deriving DecidableEq

/-- The cache of `pncc_size` blocks.  The list header `nc_lru` is where the links
    of `lru` are `none`. -/
structure Cache (size : Nat) where
  block : Fin size → Ncblock
  hash : Cells (Fin size) (Fin NC_NBUCKETS)
  lru : Dlist (Fin size)
  capgen : Ncap

section

-- where the mount structure of a device is, the value of `i_mntdev`
variable (mount : Dev → Int)

/-- `NC_BUCKET`, for a name of `len` characters. -/
def ncBucket (mdev : Dev) (number : Nat) (name : List Int) : Fin NC_NBUCKETS :=
  let len := name.length
  let chars := (name.getD 0 0 * 2 + name.getD (len / 2) 0) * 2 + name.getD (len - 1) 0
  Fin.ofNat NC_NBUCKETS ((mount mdev + number + chars + len) % NC_NBUCKETS).toNat

namespace Cache

variable {size : Nat} (s : Cache size)

def isvalid (nc : Fin size) : Bool := !(s.block nc).name.isEmpty

def invalidate (nc : Fin size) : Cache size :=
  { s with block := update s.block nc { s.block nc with name := [] } }

def insHash (nc : Fin size) (hp : Fin NC_NBUCKETS) : Cache size :=
  { s with hash := s.hash.insert nc (.inl hp) }

def remHash (nc : Fin size) : Cache size := { s with hash := s.hash.remove nc }

/-- `((struct ncblock *) lp)->nc_lruforw` -/
def lruforw : Option (Fin size) → Option (Fin size)
  | none => s.lru.first
  | some nc => s.lru.next nc

def insLru (nc : Fin size) (lp : Option (Fin size)) : Cache size :=
  { s with lru := s.lru.insert nc lp (s.lruforw lp) }

def remLru (nc : Fin size) : Cache size := { s with lru := s.lru.remove nc }

/-- `REMOVE` -/
def remove (nc : Fin size) : Cache size := (((s.remHash nc).remLru nc).insLru nc none).invalidate nc

/-- The loop of `pncc_purgedev`, over as many blocks as there are. -/
def purgeFrom (dev : Dev) : Nat → Option (Fin size) → Cache size → Cache size
  | 0, _, s => s
  | _ + 1, none, s => s
  | fuel + 1, some nc, s =>
    let nc2 := s.lru.next nc
    let s := if ((s.block nc).pdev = dev ∨ NODEV = dev) ∧ s.isvalid nc then s.remove nc else s
    purgeFrom dev fuel nc2 s

/-- Invalidate name cache entries for this device. -/
def pnccPurgedev (dev : Dev) : Cache size := purgeFrom dev size s.lru.first s

/-- Fabricate a new capability. -/
def pnccNewcap : Cache size × Ncap :=
  let s := { s with capgen := s.capgen + 1 }
  if s.capgen = 0 then
    let s := { s.pnccPurgedev NODEV with capgen := 1 }
    (s, s.capgen)
  else (s, s.capgen)

/-- The capability of an entry, a new one if the user failed to assign it. -/
def capability (val : Ncvalue) : Cache size × Ncvalue :=
  if val.cap = 0 then
    let (s, cap) := s.pnccNewcap
    (s, { val with cap := cap })
  else (s, val)

/-- Take a block from the lists it is on. -/
def detach (nc : Fin size) : Cache size :=
  let s := s.remLru nc
  if s.isvalid nc then s.remHash nc else s

/-- The chain of a bucket is searched for the name, over as many blocks as there
    are. -/
def search (dp : Inode) (name : Component) : Nat → Option (Fin size) → Option (Fin size)
  | 0, _ => none
  | _ + 1, none => none
  | fuel + 1, some nc =>
    if (s.block nc).pinum = dp.number ∧ (s.block nc).pdev = dp.mdev ∧
        (s.block nc).name = name.chars then some nc
    else search dp name fuel (s.hash.forw (.inr nc))

def pnccLookup (dp : Inode) (name : Component) (nce : Ncentry) : Cache size × Ncstat × Ncentry :=
  if NC_NAMLEN < name.len then (s, .notcached, nce)
  -- the cache has been turned off
  else if size = 0 then (s, .notcached, nce)
  else
    let hp := ncBucket mount dp.mdev dp.number name.chars
    match s.search dp name size (s.hash.forw (.inl hp)) with
    | none => (s, .miss, { val := { nce.val with cap := 0 }, hash := some hp })
    | some nc =>
      let s := s.remLru nc
      (s.insLru nc s.lru.last, .hit, { val := (s.block nc).val, hash := some hp })

def pnccEnter (dp : Inode) (name : Component) (nce : Ncentry) : Cache size × Ncstat × Ncentry :=
  match nce.hash, s.lru.first with
  | none, _ => (s, .notcached, nce)
  -- no one should call us if the cache has been turned off
  | some _, none => (s, .notcached, nce)
  | some hp, some nc =>
    if NC_NAMLEN < name.len then (s, .notcached, nce)
    else
      let s := s.detach nc
      let s : Cache size := { s with
        block := update s.block nc
          { s.block nc with pdev := dp.mdev, pinum := dp.number, name := name.chars } }
      let (s, val) := s.capability nce.val
      let s : Cache size := { s with block := update s.block nc { s.block nc with val := val } }
      let s := s.insHash nc hp
      (s.insLru nc s.lru.last, .hit, { nce with val := val })

/-- The loop of `pncc_remove`, over as many blocks as there are. -/
def removeFrom (val : Ncvalue) : Nat → Option (Fin size) → Cache size → Cache size
  | 0, _, s => s
  | _ + 1, none, s => s
  | fuel + 1, some nc, s =>
    let s := if (s.block nc).val.cap = val.cap ∧ (s.block nc).val.pcap = val.pcap then s.remove nc
      else s
    removeFrom val fuel (s.hash.forw (.inr nc)) s

/-- Remove the entries of a bucket that have these capabilities.  The entry must
    come from a lookup: a null `nce_hash`, for which nothing is done here, is
    dereferenced by the source. -/
def pnccRemove (nce : Ncentry) : Cache size :=
  match nce.hash with
  | none => s
  | some hp => removeFrom nce.val size (s.hash.forw (.inl hp)) s

/-- `pncc_init`, where the blocks and the buckets are zero. -/
def pnccInit (size : Nat) : Cache size :=
  (List.finRange size).foldl (fun s nc => s.insLru nc none)
    { block := fun _ => ⟨0, 0, [], 0, 0, 0, 0⟩
      hash := ⟨fun _ => none, fun _ => none⟩
      lru := ⟨none, none, fun _ => none, fun _ => none⟩
      capgen := 0 }

end Cache

end

end Irix.Pncc
