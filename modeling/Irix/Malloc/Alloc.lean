import Mathlib.Data.Nat.Bitwise
import Mathlib.Logic.Function.Basic
import Mathlib.Tactic.Common

/-! # The heap

A heap is a chain of fragments in memory, in the order of their addresses, from its base
to the guard at its limit and from there back to the base.  A fragment begins with two
words: a pointer to the next one, and one to the previous one with flags of its own in
the low bits.
-/

namespace Irix.Malloc

open Function

/-- Words by their addresses. -/
abbrev Memory := Nat → Nat

/-- The sum in the 32 bits of a pointer or a `sizeof_t`. -/
def add32 (a b : Nat) : Nat := (a + b) % 4294967296

def sub32 (a b : Nat) : Nat := (a + (4294967296 - b)) % 4294967296

abbrev BUSY : Nat := 1

abbrev GUARD : Nat := 2

/-- `sizeof(struct fragment)` -/
abbrev sizeofFragment : Nat := 8

abbrev nbpg : Nat := 4096

structure Heap where
  /-- first link in arena -/
  base : Nat
  /-- last (guard) link in arena -/
  limit : Nat
  /-- roving search pointer -/
  rover : Nat
  /-- free fragment low-watermark -/
  lowfree : Nat
  /-- number of free fragments -/
  freefrags : Nat
  /-- number of busy fragments -/
  busyfrags : Nat
  /-- minimum net fragment size -/
  netminsize : Nat
  /-- minimum gross fragment size -/
  minsize : Nat
  deriving DecidableEq, Repr

namespace Memory

variable (m : Memory)

def flags (p : Nat) : Nat := m (p + 4) % 4

def isfree (p : Nat) : Bool := m.flags p = 0

def nextfrag (p : Nat) : Nat := m p

def prevfrag (p : Nat) : Nat := m (p + 4) / 4 * 4

def setbusy (p : Nat) : Memory := update m (p + 4) (m (p + 4) ||| BUSY)

def clrguard (p : Nat) : Memory := update m (p + 4) (m (p + 4) - (m (p + 4) &&& GUARD))

/-- `LINKTOFLAGGED` -/
def linktoflagged (p q f : Nat) : Memory := update (update m p q) (q + 4) (p ||| f)

def linktofree (p q : Nat) : Memory := m.linktoflagged p q 0

def linktoguard (p q : Nat) : Memory := m.linktoflagged p q GUARD

/-- `LINK`: the flags of `q` are kept. -/
def link (p q : Nat) : Memory := update (update m p q) (q + 4) (p ||| flags (update m p q) q)

end Memory

open Memory

/-- Adjust a request size to be properly minimal and aligned. -/
def adjust (n : Nat) (hp : Heap) : Nat := if n < hp.netminsize then hp.netminsize else add32 n 3 / 4 * 4

/-! ## More memory -/

/-- The pages that the kernel's heap may have. -/
structure KheapVm where
  /-- end of kernel heap virtual region -/
  limit : Nat
  endofmem : Nat
  /-- next pt entry to allocate -/
  nextpte : Nat
  deriving DecidableEq, Repr

/-- Where memory comes from.  Of `sbrk` it matters which requests are granted. -/
inductive System where
  | kernel (vm : KheapVm)
  | user (brk : Nat) (grants : Nat → Bool)

namespace System

def getendofmem : System → Nat
  | kernel vm => vm.endofmem
  | user brk _ => brk

/-- The loop of the kernel's `moremem`, and whether it got all its pages. -/
def morePages : (npages : Nat) → KheapVm → Bool × KheapVm
  | 0, vm => (true, vm)
  | npages + 1, vm =>
      if 128 ≤ vm.nextpte ∨ vm.limit ≤ vm.endofmem then (false, vm)
      else morePages npages { vm with nextpte := vm.nextpte + 1, endofmem := vm.endofmem + nbpg }

def moremem : System → (nbytes : Nat) → Option Nat × System
  | kernel vm, nbytes =>
      let (done, vm') := morePages (add32 nbytes (nbpg - 1) / nbpg) vm
      (if done then some vm.endofmem else none, kernel vm')
  | user brk grants, nbytes =>
      let pageresid := nbpg - brk % nbpg
      let nbytes :=
        if nbytes < pageresid then pageresid else add32 pageresid (add32 nbytes (nbpg - 1) / nbpg * nbpg)
      if grants nbytes then (some brk, user (add32 brk nbytes) grants) else (none, user brk grants)

end System

structure State where
  mem : Memory
  heap : Heap
  sys : System

/-! ## The search -/

/-- `HEAP_SETLOWFREE`: the free fragment, or the last one. -/
def heapSetlowfree (m : Memory) : (fuel p : Nat) → Option Nat
  | 0, _ => none
  | fuel + 1, p =>
      if m.isfree p then some p
      else
        let q := m.nextfrag p
        if q < p then some p else heapSetlowfree m fuel q

/-- How the search of `heap_alloc` ends: with a free fragment that is big enough, or with
    a call of `heap_addmem`. -/
inductive Search where
  | found (this rem next lowfree : Nat)
  | addmem (lowfree rem : Nat)
  deriving DecidableEq, Repr

/-- The loop of `heap_alloc`. -/
def searchLoop (m : Memory) (nbytes : Nat) : (fuel this start stop lowfree rem : Nat) → Option Search
  | 0, _, _, _, _, _ => none
  | fuel + 1, this, start, stop, lowfree, rem =>
      let next := m.nextfrag this
      let rem := if m.isfree this then add32 this (add32 nbytes sizeofFragment) else rem
      if m.isfree this ∧ rem ≤ next then some (.found this rem next lowfree)
      else if this < stop then searchLoop m nbytes fuel next start stop lowfree rem
      else if start < stop then do
        let this ← heapSetlowfree m fuel lowfree
        searchLoop m nbytes fuel this start start this rem
      else some (.addmem lowfree rem)

/-- `heap_fragfact` -/
abbrev heapFragfact : Nat := 4

/-- The search begins at the low-watermark, and not at the rover. -/
def Heap.low (hp : Heap) : Prop := hp.busyfrags ≤ hp.freefrags * heapFragfact

instance (hp : Heap) : Decidable hp.low := inferInstanceAs (Decidable (_ ≤ _))

/-- `rem` is not initialised. -/
def heapSearch (fuel : Nat) (m : Memory) (hp : Heap) (nbytes rem : Nat) : Option Search :=
  if hp.low then do
    let start ← heapSetlowfree m fuel hp.lowfree
    searchLoop m nbytes fuel start start hp.limit start rem
  else searchLoop m nbytes fuel hp.rover hp.rover hp.limit hp.lowfree rem

/-! ## Allocation -/

namespace State

variable (s : State)

def heapInit (nbytes : Nat) : State :=
  let (p, sys) := s.sys.moremem (add32 nbytes (2 * sizeofFragment))
  let base := p.getD 0
  let limit := sub32 sys.getendofmem sizeofFragment
  ⟨(s.mem.linktoguard base limit).linktofree limit base,
    { s.heap with
      base := base
      rover := base
      lowfree := base
      limit := limit
      freefrags := 1
      busyfrags := 0
      minsize := add32 s.heap.minsize 3 / 4 * 4 },
    sys⟩

/-- What `heap_addmem` asks `moremem` for, of `nbytes` with the overhead: there may be a
    free fragment just before the limit, or a break behind it. -/
def request (nbytes : Nat) : Nat :=
  let new := s.sys.getendofmem
  if s.heap.limit + sizeofFragment = new then
    let prev := s.mem.prevfrag s.heap.limit
    if s.mem.isfree prev then add32 (sub32 nbytes (sub32 new prev)) sizeofFragment else nbytes
  else add32 nbytes sizeofFragment

/-- Where the new space begins when `moremem` has returned `p`. -/
def place (p : Nat) : Nat × Memory × Heap :=
  if s.heap.limit + sizeofFragment = s.sys.getendofmem then
    let prev := s.mem.prevfrag s.heap.limit
    if s.mem.isfree prev then (prev, s.mem, { s.heap with freefrags := (s.heap.freefrags + 65535) % 65536 })
    else (s.heap.limit, s.mem.clrguard s.heap.limit, s.heap)
  else (p, s.mem.linktofree s.heap.limit p, s.heap)

/-- The new fragment and the one after it, which goes to `*rem`. -/
def heapAddmem (nbytes rem : Nat) : Option Nat × Nat × State :=
  let nbytes := add32 nbytes sizeofFragment
  let (p, sys) := s.sys.moremem (s.request nbytes)
  let newlimit := sub32 sys.getendofmem sizeofFragment
  let (new, rem, m, hp) :=
    match p with
    | none => (none, rem, s.mem, s.heap)
    | some p =>
        let (new, m, hp) := s.place p
        let newnext := add32 new nbytes
        if hp.minsize ≤ sub32 newlimit newnext then
          (some new, newnext, (m.linktofree new newnext).linktoguard newnext newlimit,
            { hp with freefrags := (hp.freefrags + 1) % 65536 })
        else (some new, newlimit, m.linktoguard new newlimit, hp)
  -- update heap limit and lowfree
  let m := m.link newlimit hp.base
  let lowfree := if hp.lowfree = hp.limit then rem else hp.lowfree
  (new, rem, ⟨m, { hp with lowfree := lowfree, limit := newlimit }, sys⟩)

/-- The ``split'' operation on the fragment that was found. -/
def split (this rem next : Nat) : Nat × State :=
  let remsize := sub32 next rem
  if s.heap.minsize ≤ remsize then (rem, { s with mem := (s.mem.linktofree this rem).link rem next })
  else (next, { s with heap := { s.heap with freefrags := (s.heap.freefrags + 65535) % 65536 } })

/-- The fragment becomes busy. -/
def occupy (this rem : Nat) : State :=
  let m := s.mem.setbusy this
  let hp := { s.heap with busyfrags := (s.heap.busyfrags + 1) % 65536 }
  if m.isfree rem then
    ⟨m, { hp with lowfree := if this = hp.lowfree then rem else hp.lowfree, rover := rem }, s.sys⟩
  else ⟨m, hp, s.sys⟩

/-- The end of `heap_alloc`, from the end of its search on. -/
def afterSearch (nbytes : Nat) : Search → Option Nat × State
  | .found this rem next lowfree =>
      let s := { s with heap := { s.heap with lowfree := lowfree } }
      let (rem, s) := s.split this rem next
      (some (this + sizeofFragment), s.occupy this rem)
  | .addmem lowfree rem =>
      let s := { s with heap := { s.heap with lowfree := lowfree } }
      match s.heapAddmem nbytes rem with
      | (none, _, s) => (none, s)
      | (some this, rem, s) => (some (this + sizeofFragment), s.occupy this rem)

/-- Allocate `nbytes` of memory; `rem` is what its uninitialised variable holds. -/
def heapAlloc (fuel nbytes rem : Nat) : Option (Option Nat × State) :=
  let nbytes := adjust nbytes s.heap
  let s := if s.heap.base = 0 then s.heapInit nbytes else s
  (heapSearch fuel s.mem s.heap nbytes rem).map (s.afterSearch nbytes)

end State

end Irix.Malloc
