import Irix.Lib.Links
import Mathlib.Data.List.FinRange

/-! # The name cache of XNS

A table of routes, of which those whose name is being asked for on the network
are on the list `xns_bcast`.  A process that looks up a name runs until it
sleeps; then replies and timer ticks come in, other processes look up names, and
a signal may take a process out of its sleep for good.
-/

namespace Irix.Xns

open Function Lib

abbrev RSIZE : Nat := 20
abbrev NSIZE : Nat := 64

/-- The physical and the internet address of a host. -/
structure Addr where
  physaddr : Nat
  internet : Nat
  deriving DecidableEq

/-- The name of a host in a request. -/
structure Hostname where
  chars : List Char
  some : chars ≠ []
  fits : chars.length < NSIZE

/-- The first name is the second one, or continues it behind a colon. -/
def eqnstr : List Char → List Char → (len : Nat) → Bool
  | [], [], _ => true
  | [], _ :: _, _ => false
  | a :: _, [], _ => a = ':'
  | a :: as, b :: bs, len =>
    if a = b then if len = 0 then false else eqnstr as bs (len - 1)
    else false

/-- An entry of `xns_rtab`.  A name whose first character is cleared is empty. -/
structure Route where
  addr : Addr
  age : Int
  lock : Bool
  hit : Bool
  busy : Nat
  name : List Char
  deriving DecidableEq

/-- Where a process is in `xns_getroute`, or what it has got from it. -/
inductive Phase (n : Nat) where
  | idle
  /-- asleep for the address of a name -/
  | waiting (name : List Char) (r : Fin n)
  /-- an entry was returned for the name -/
  | holding (name : List Char) (r : Fin n)
  deriving DecidableEq

/-- `n` routes and `m` processes.  `reports` are the replies that came, and what
    they said. -/
structure Rtab (n m : Nat) where
  route : Fin n → Route
  active : Fin n → Option (Fin n)
  bcast : Option (Fin n)
  proc : Fin m → Phase n
  time : Int
  reports : List (List Char × Addr)

namespace Rtab

variable {n m : Nat} (s : Rtab n m)

/-- Assign to members of an entry. -/
def set (r : Fin n) (f : Route → Route) : Rtab n m :=
  { s with route := update s.route r (f (s.route r)) }

def become (p : Fin m) (phase : Phase n) : Rtab n m :=
  { s with proc := update s.proc p phase }

/-- Remove an entry from the linked list headed by `xns_bcast`. -/
def deactivate (r : Fin n) : Rtab n m :=
  let s := s.set r fun route => { route with busy := 0 }
  let s :=
    if s.bcast = some r then { s with bcast := s.active r }
    else match s.bcast with
      | none => s
      | some first =>
        match Links.before s.active r n first with
        | none => s
        | some r1 => { s with active := Links.unlink s.active r r1 }
  { s with active := update s.active r none }

/-- Invalidate an entry, and take it off the active list if busy. -/
def rtabflush (r : Fin n) : Rtab n m :=
  let s := s.set r fun route => { route with lock := false, age := 0, name := [] }
  if (s.route r).busy ≠ 0 then s.deactivate r else s

/-- The older one of two slots, when there are two. -/
def older (r : Fin n) : Option (Fin n) → Fin n
  | none => r
  | some new => if (s.route r).age < (s.route new).age then r else new

/-- The last loop of `xns_newroute`: an empty slot, or the one with the smallest
    age. -/
def findSlot : List (Fin n) → (new : Option (Fin n)) → Option (Fin n) × Bool
  | [], new => (new, false)
  | r :: rest, new =>
    let route := s.route r
    if route.lock = false ∧ route.age = 0 then (some r, true)
    else if route.busy ≠ 0 then findSlot rest new
    else if route.age > 0 then findSlot rest (some (s.older r new))
    else findSlot rest new

/-- Find a slot for a name and lock it. -/
def newroute (name : List Char) : Rtab n m × Option (Fin n) :=
  match (List.finRange n).find? fun r =>
    decide ((s.route r).age ≠ 0) && !(s.route r).lock && decide ((s.route r).busy = 0) &&
      eqnstr (s.route r).name name NSIZE with
  | some r => (s.set r fun route => { route with hit := true, age := s.time, lock := true }, some r)
  | none =>
    match s.findSlot (List.finRange n) none with
    | (none, _) => (s, none)
    | (some r, true) => (s.set r fun route => { route with age := -4, lock := true }, some r)
    | (some r, false) =>
      (s.set r fun route => { route with hit := false, age := -4, lock := true }, some r)

/-- Put an entry for a name on the list of those to be asked for. -/
def activate (r : Fin n) (name : List Char) : Rtab n m :=
  let s := s.set r fun route => { route with name, busy := 1, age := 0 }
  { s with active := update s.active r s.bcast, bcast := some r }

/-- A process looks up a name, until it sleeps or has got an entry. -/
def getroute (p : Fin m) (name : Hostname) : Rtab n m :=
  match s.newroute name.chars with
  | (s, none) => s
  | (s, some r) =>
    if (s.route r).age > 0 then s.become p (.holding name.chars r)
    else (s.activate r name.chars).become p (.waiting name.chars r)

/-- A process that waits for an entry looks at it again. -/
def resume (p : Fin m) (name : List Char) (r : Fin n) : Rtab n m :=
  if (s.route r).age ≠ 0 ∨ (s.route r).busy > 4 then
    let s := if (s.route r).busy ≠ 0 then s.deactivate r else s
    if (s.route r).age = 0 then (s.rtabflush r).become p .idle
    else s.become p (.holding name r)
  else s

/-- The loop of `xns_remember`, over as many entries as there are. -/
def rememberFrom (name : List Char) (addr : Addr) : Nat → Option (Fin n) → Rtab n m → Rtab n m
  | 0, _, s => s
  | _ + 1, none, s => s
  | fuel + 1, some r, s =>
    if eqnstr name (s.route r).name NSIZE then
      (s.set r fun route => { route with addr, age := s.time }).deactivate r
    else rememberFrom name addr fuel (s.active r) s

/-- Remember an IDENT message, unless it is a broadcast packet. -/
def remember (direct : Bool) (name : List Char) (addr : Addr) : Rtab n m :=
  if direct then
    rememberFrom name addr n s.bcast { s with reports := (name, addr) :: s.reports }
  else s

/-- The rebroadcast loop of `xns_timer`, over as many entries as there are. -/
def timerFrom : Nat → Option (Fin n) → Rtab n m → Rtab n m
  | 0, _, s => s
  | _ + 1, none, s => s
  | fuel + 1, some r, s =>
    let t := s.active r
    if (s.route r).busy > 50 then timerFrom fuel t (s.rtabflush r)
    else
      let s := s.set r fun route => { route with busy := route.busy + 1 }
      -- wake up the sleeper and clobber the entry
      let s := if (s.route r).busy > 4 then s.set r fun route => { route with age := 0, name := [] }
        else s
      timerFrom fuel t s

def timer : Rtab n m := timerFrom n s.bcast s

end Rtab

/-- What happens to the cache. -/
inductive Event (m : Nat) where
  | getroute (p : Fin m) (name : Hostname)
  /-- A sleeper runs again. -/
  | resume (p : Fin m)
  /-- A signal takes a sleeper out of `xns_getroute`. -/
  | interrupt (p : Fin m)
  /-- The connection to the host of an entry is made. -/
  | connected (p : Fin m)
  /-- The entry did not help. -/
  | failed (p : Fin m)
  | remember (direct : Bool) (name : List Char) (addr : Addr)
  | timer
  /-- The time goes on. -/
  | clock (time : Nat)

/-- `time` is what the clock has gone on to, in seconds from 1970 on. -/
def Rtab.step {n m : Nat} (s : Rtab n m) : Event m → Rtab n m
  | .getroute p name => if s.proc p = .idle then s.getroute p name else s
  | .resume p =>
    match s.proc p with
    | .waiting name r => s.resume p name r
    | _ => s
  | .interrupt p =>
    match s.proc p with
    | .waiting _ _ => s.become p .idle
    | _ => s
  | .connected p =>
    match s.proc p with
    | .holding _ r =>
      (s.set r fun route => { route with age := s.time, lock := false }).become p .idle
    | _ => s
  | .failed p =>
    match s.proc p with
    | .holding _ r => (s.rtabflush r).become p .idle
    | _ => s
  | .remember direct name addr => s.remember direct name addr
  | .timer => s.timer
  | .clock time => { s with time := time + 1 }

/-- The table as it is after `xns_initialize`. -/
def Rtab.initial (n m : Nat) : Rtab n m :=
  ⟨fun _ => ⟨⟨0, 0⟩, 0, false, false, 0, []⟩, fun _ => none, none, fun _ => .idle, 1, []⟩

end Irix.Xns
