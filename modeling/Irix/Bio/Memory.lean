import Mathlib.Logic.Function.Basic
import Irix.Rmap.Conserve

/-! # The memory of the buffers

A buffer gets a region of the buffer cache's address space, in units of 512 bytes,
from `bio_memmap`.  A page of that space has memory while some unit of it is in use:
`bio_bbcnt` counts them.  A process that needs a page may sleep while it is allocated,
and others that need it then sleep until it is.
-/

namespace Irix.Bio

open Function

abbrev nbpg : Nat := 4096

def bbtob (n : Nat) : Nat := 512 * n

def btobbt (n : Nat) : Nat := n / 512

/-- What a `short` holds of a number that is stored into it. -/
def short (x : Int) : Int := Int.bmod x 65536

/-- What a `ushort` holds. -/
def ushort (n : Nat) : Nat := n % 65536

theorem short_fits {x : Int} (low : 0 ≤ x) (high : x < 32768) : short x = x := by
  rw [short, Int.bmod_eq_of_le] <;> omega

theorem ushort_fits {n : Nat} (fits : n < 65536) : ushort n = n := by
  rw [ushort, Nat.mod_eq_of_lt fits]

/-- A cell of `bio_bbcnt`, a byte: its count stays below the bits of the two flags. -/
structure Bbcnt where
  /-- `BBCNT_COUNT` -/
  count : Nat
  /-- `BBCNT_WAIT` -/
  wait : Bool
  /-- `BBCNT_WANTED` -/
  wanted : Bool
  deriving DecidableEq, Repr

/-- The loop of `bio_allocmem` at a page: the pages behind it, and where they begin. -/
structure Loop where
  i : Nat
  pg : Nat
  byteOffset : Nat
  len : Nat
  deriving DecidableEq, Repr

/-- Where a process sleeps in the loop: in `vmemall`, or until another has allocated the
    page. -/
inductive Sleep where
  | vmemall
  | ref
  | woken
  deriving DecidableEq, Repr

/-- The memory of a buffer; while it is being allocated the buffer is busy.  `b_memaddr` is
    a `short` and `b_length` a `ushort`; the address is an `int` until it is stored. -/
inductive Mem where
  | none
  | taking (addr bLength : Nat) (loop : Loop) (sleep : Sleep)
  | has (bMemaddr : Int) (bLength : Nat)
  deriving DecidableEq, Repr

structure Cache where
  bioMemmap : List Rmap.Mapent
  bioBbcnt : Nat → Bbcnt
  /-- `pg_v` of the pages of `bio_pt` -/
  pgV : Nat → Bool
  mem : Nat → Mem

namespace Cache

def setRef (s : Cache) (pg : Nat) (ref : Bbcnt) : Cache := { s with bioBbcnt := update s.bioBbcnt pg ref }

def setMem (s : Cache) (bp : Nat) (mem : Mem) : Cache := { s with mem := update s.mem bp mem }

end Cache

/-- The bytes that are used of the page at `byteOffset`. -/
def remainder (byteOffset len : Nat) : Nat := min (nbpg - byteOffset % nbpg) len

/-- `PAGES` -/
def pages (byteOffset len : Nat) : Nat := (byteOffset % nbpg + len + nbpg - 1) / nbpg

/-- Allocate physical pages for each page in the page table that doesn't already have
    one. -/
def allocLoop (bp addr bLength : Nat) : (i pg byteOffset len : Nat) → Cache → Cache
  | 0, _, _, _, s => s.setMem bp (.has (short addr) bLength)
  | i + 1, pg, byteOffset, len, s =>
      let n := remainder byteOffset len
      let ref := s.bioBbcnt pg
      let ref := { ref with count := ref.count + btobbt n }
      if s.pgV pg then allocLoop bp addr bLength i (pg + 1) (byteOffset + n) (len - n) (s.setRef pg ref)
      else if ref.wait then
        (s.setRef pg { ref with wanted := true }).setMem bp
          (.taking addr bLength ⟨i, pg, byteOffset + n, len - n⟩ .ref)
      else
        (s.setRef pg { ref with wait := true }).setMem bp
          (.taking addr bLength ⟨i, pg, byteOffset + n, len - n⟩ .vmemall)

namespace Cache

/-- Allocate `len` bb's worth of physical memory.  Where there is no space the process
    sleeps and tries again. -/
def bioAllocmem (s : Cache) (bp len : Nat) : Cache :=
  match s.mem bp with
  | .none =>
      match Rmap.rmalloc Option.none s.bioMemmap (ushort len) with
      | .ok (map, addr) =>
          if addr = 0 then s
          else
            -- the loop goes by the whole `len`
            let byteOffset := bbtob (addr.toNat - 1)
            allocLoop bp addr.toNat (ushort len) (pages byteOffset (bbtob len)) (byteOffset / nbpg)
              byteOffset (bbtob len) { s with bioMemmap := map }
      | .error _ => s
  | _ => s

/-- `wakeup(ref)` -/
def wakeup (s : Cache) (pg : Nat) : Cache :=
  { s with
    mem := fun bp =>
      match s.mem bp with
      | .taking addr bLength loop .ref =>
          .taking addr bLength loop (if loop.pg = pg then .woken else .ref)
      | mem => mem }

/-- `vmemall` returns, and the loop goes on. -/
def allocated (s : Cache) (bp : Nat) : Cache :=
  match s.mem bp with
  | .taking addr bLength loop .vmemall =>
      let ref := s.bioBbcnt loop.pg
      let s := { s with pgV := update s.pgV loop.pg true }
      let s := if ref.wanted then s.wakeup loop.pg else s
      let s := s.setRef loop.pg { ref with wait := false, wanted := false }
      allocLoop bp addr bLength loop.i (loop.pg + 1) loop.byteOffset loop.len s
  | _ => s

/-- A process that has been woken goes on behind the page. -/
def resume (s : Cache) (bp : Nat) : Cache :=
  match s.mem bp with
  | .taking addr bLength loop .woken => allocLoop bp addr bLength loop.i (loop.pg + 1) loop.byteOffset loop.len s
  | _ => s

end Cache

/-- Free physical memory, if reference says to. -/
def freeLoop : (i pg byteOffset len : Nat) → Cache → Cache
  | 0, _, _, _, s => s
  | i + 1, pg, byteOffset, len, s =>
      let n := remainder byteOffset len
      let ref := s.bioBbcnt pg
      let ref := { ref with count := ref.count - btobbt n }
      let s := s.setRef pg ref
      let s := if ref = ⟨0, false, false⟩ then { s with pgV := update s.pgV pg false } else s
      freeLoop i (pg + 1) (byteOffset + n) (len - n) s

namespace Cache

/-- Release physical memory attached to the buffer, which is not busy. -/
def bioFreemem (s : Cache) (bp : Nat) : Cache :=
  match s.mem bp with
  | .has bMemaddr bLength =>
      match Rmap.rmfree s.bioMemmap bLength bMemaddr with
      | .ok (map, _) =>
          let byteOffset := bbtob (bMemaddr - 1).toNat
          (freeLoop (pages byteOffset (bbtob bLength)) (byteOffset / nbpg) byteOffset (bbtob bLength)
            { s with bioMemmap := map }).setMem bp .none
      | .error _ => s
  | _ => s

end Cache

/-- A call for a buffer, or a process in one that goes on after it slept. -/
inductive Event where
  | bioAllocmem (bp len : Nat)
  | allocated (bp : Nat)
  | resume (bp : Nat)
  | bioFreemem (bp : Nat)

def Cache.step (s : Cache) : Event → Cache
  | .bioAllocmem bp len => s.bioAllocmem bp len
  | .allocated bp => s.allocated bp
  | .resume bp => s.resume bp
  | .bioFreemem bp => s.bioFreemem bp

/-- The cache at startup, with `bbs` units for `nbuf` buffers. -/
def bioinit (nbuf bbs : Nat) : Cache :=
  ⟨Rmap.rminit bbs 1 (nbuf + nbuf + 1), fun _ => ⟨0, false, false⟩, fun _ => false, fun _ => .none⟩

end Irix.Bio
