import Irix.Lib.Bits
import Irix.Lib.Run
import Mathlib.Logic.Function.Basic

/-! # The kernel chunk allocator

Calls of `kmem_allocmem` under way at one time, each a step further whenever it
is its turn.  At `spl6` nothing comes in between, except while a call sleeps in
`vmemall`.
-/

namespace Irix.Chunk

open Lib Function

/-- chunks per page -/
def CPPG : Nat := 8

/-- chunk address to chunk offset in page -/
def chunkToOffset (c : Nat) : Nat := c % CPPG

/-- bytes to number of chunks -/
def bytesToChunks (b : Nat) : Nat := (b + 511) >>> 9

/-- chunk to page address -/
def chunkToPage (c : Nat) : Nat := c / CPPG

/-- chunks to number of pages -/
def chunksToPages (c : Nat) : Nat := (c + (CPPG - 1)) / CPPG

/-- page to chunk -/
def pageToChunk (p : Nat) : Nat := p * CPPG

/-- An entry of `chunk_pt`. -/
structure Pte where
  pfnum : Nat
  v : Bool
  deriving DecidableEq

inductive Kind where
  | bftstclr
  | bftstset
  deriving DecidableEq

/-- Where a call is.  `seen` are the frames of the pages it has been through. -/
inductive Phase where
  /-- at the test of the `while` loop -/
  | scan (addr : Nat) (maxlen : Int) (kind : Kind)
  /-- after `splx`, with the length of the run -/
  | found (addr : Nat) (maxlen : Int) (kind : Kind) (foundlen : Nat)
  /-- in `bfset`, with `k` chunks set -/
  | mark (addr k : Nat)
  /-- in `assignmem` -/
  | assign (addr : Nat) (seen : List Nat)
  /-- in `vmemall` or `memall` for the next page -/
  | want (addr : Nat) (seen : List Nat)
  /-- in `vmemall` with the frame in the entry of the page -/
  | gotten (addr : Nat) (seen : List Nat)
  /-- it has returned, and the chunks are in use -/
  | live (addr : Nat) (seen : List Nat)
  deriving DecidableEq

structure Call where
  /-- in chunks -/
  len : Nat
  how : Bool
  canwait : Bool
  phase : Phase
  deriving DecidableEq

structure State where
  bitmap : Bits.Map
  lowfree : Nat
  pt : Nat → Pte
  calls : Nat → Option Call
  /-- the call that runs at `spl6` and does not sleep -/
  spl6 : Option Nat

/-- How the memory manager answers. -/
inductive Memory where
  | sleep
  | nothing
  | frame (pfnum : Nat)
  deriving DecidableEq

inductive Event where
  /-- `kmem_allocmem` is called. -/
  | alloc (id bytes : Nat) (how canwait : Bool)
  /-- A call goes a step further. -/
  | run (id : Nat) (m : Memory)
  /-- `kmem_putmem` is called with what call `id` has returned. -/
  | put (id : Nat)

/-- `*kind` -/
def Kind.test (kind : Kind) (bitmap : Bits.Map) (addr len : Nat) : Nat :=
  match kind with
  | .bftstclr => Bits.run false bitmap addr len
  | .bftstset => Bits.run true bitmap addr len

/-- How many bits are searched. -/
def Call.remainder (c : Call) (maxlen : Int) (kind : Kind) : Nat :=
  match kind with
  | .bftstset => maxlen.toNat
  | .bftstclr => if c.how then c.len + (CPPG - 1) else c.len

/-- The number of pages that the chunks lie in. -/
def Call.pages (c : Call) (addr : Nat) : Nat := chunksToPages (c.len + chunkToOffset addr)

/-- Release any pages that become fully free. -/
def tossmem (bitmap : Bits.Map) (addr len : Nat) (pt : Nat → Pte) : Nat → Pte :=
  (List.range (chunksToPages (len + chunkToOffset addr))).foldl
    (fun pt i =>
      let page := chunkToPage addr + i
      if Bits.run false bitmap (pageToChunk page) CPPG = CPPG then update pt page ⟨0, false⟩
      else pt)
    pt

namespace State

variable (maxchunks : Nat) (s : State)

def goto (id : Nat) (c : Call) (phase : Phase) : State :=
  { s with calls := update s.calls id (some { c with phase := phase }) }

/-- The call is over, and has no chunks. -/
def leave (id : Nat) : State := { s with calls := update s.calls id none }

/-- What the body of the loop does with the run it has found. -/
def look (id : Nat) (c : Call) (addr : Nat) (maxlen : Int) (kind : Kind) (foundlen : Nat) : State :=
  let next (s : State) (kind : Kind) (foundlen : Nat) :=
    s.goto id c (.scan (addr + foundlen) (maxlen - foundlen) kind)
  match kind with
  | .bftstclr =>
    if foundlen ≥ c.len then
      let remainder := CPPG - chunkToOffset addr
      if c.how && remainder ≠ CPPG then
        if (foundlen : Int) - remainder < c.len then next s .bftstclr remainder
        else s.goto id c (.mark (addr + remainder) 0)
      else s.goto id c (.mark addr 0)
    else next s .bftstset foundlen
  | .bftstset =>
    let s := if addr = s.lowfree then { s with lowfree := addr + foundlen } else s
    next s .bftstclr foundlen

/-- The chunks are free again. -/
def release (id addr len : Nat) : State :=
  let bitmap := Bits.fill false s.bitmap addr len
  { s.leave id with bitmap := bitmap, pt := tossmem bitmap addr len s.pt, spl6 := none }

/-- The next step of a call. -/
def go (id : Nat) (c : Call) (m : Memory) : State :=
  match c.phase with
  | .scan addr maxlen kind =>
    if maxlen ≥ c.len then
      s.goto id c (.found addr maxlen kind (kind.test s.bitmap addr (c.remainder maxlen kind)))
    else s.leave id
  | .found addr maxlen kind foundlen => s.look id c addr maxlen kind foundlen
  | .mark addr k =>
    if k < c.len then
      { s.goto id c (.mark addr (k + 1)) with bitmap := Bits.fill true s.bitmap (addr + k) 1 }
    else { s.goto id c (.assign addr []) with spl6 := some id }
  | .assign addr seen =>
    if seen.length < c.pages addr then
      let pte := s.pt (chunkToPage addr + seen.length)
      if pte.v then s.goto id c (.assign addr (seen ++ [pte.pfnum]))
      else s.goto id c (.want addr seen)
    else
      { s.goto id c (.live addr seen) with
        lowfree := if addr = s.lowfree then addr + c.len else s.lowfree
        spl6 := none }
  | .want addr seen =>
    match m with
    | .sleep => if c.canwait then { s with spl6 := none } else s
    | .nothing => if c.canwait then s else s.release id addr c.len
    | .frame pfnum =>
      { s.goto id c (.gotten addr seen) with
        pt := update s.pt (chunkToPage addr + seen.length) ⟨pfnum, false⟩
        spl6 := some id }
  | .gotten addr seen =>
    match m with
    | .sleep => if c.canwait then { s with spl6 := none } else s
    | _ =>
      let page := chunkToPage addr + seen.length
      { s.goto id c (.assign addr (seen ++ [(s.pt page).pfnum])) with
        pt := update s.pt page { s.pt page with v := true }
        spl6 := some id }
  | .live _ _ => s

/-- A call can run unless another one is at `spl6`. -/
def Runs (id : Nat) : Prop := s.spl6 = none ∨ s.spl6 = some id

instance (id : Nat) : Decidable (s.Runs id) := by
  unfold Runs
  infer_instance

def step : Event → State
  | .alloc id bytes how canwait =>
    if s.spl6 = none ∧ s.calls id = none then
      { s with calls := update s.calls id (some
        ⟨bytesToChunks bytes, how, canwait, .scan s.lowfree (maxchunks - s.lowfree) .bftstclr⟩) }
    else s
  | .run id m =>
    match s.calls id with
    | some c => if s.Runs id then s.go id c m else s
    | none => s
  | .put id =>
    match s.calls id with
    | some c =>
      match c.phase with
      | .live addr _ =>
        if s.spl6 = none then
          { s.release id addr c.len with
            lowfree := if addr < s.lowfree then addr else s.lowfree }
        else s
      | _ => s
    | none => s

end State

/-- The allocator as `startup` makes it. -/
def startup : State := ⟨fun _ => false, 0, fun _ => ⟨0, false⟩, fun _ => none, none⟩

end Irix.Chunk
