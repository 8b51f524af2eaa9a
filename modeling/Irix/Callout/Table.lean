import Irix.Lib.Run
import Mathlib.Logic.Function.Basic
import Mathlib.Algebra.Group.Nat.Defs
import Mathlib.Tactic.Common

/-! # The callout table

Calls to be made by the clock.  The entries to do are linked in the order of
their times, and each holds the number of ticks more than the entry before it.
There are `n` entries.
-/

namespace Irix.Callout

open Function

/-- What an `int` holds of `x`. -/
def int (x : Int) : Int := Int.bmod x (2 ^ 32)

structure Table (F A : Type) (n : Nat) where
  cTime : Fin n → Int
  cArg : Fin n → A
  cFunc : Fin n → F
  cNext : Fin n → Option (Fin n)
  cId : Fin n → Int
  /-- `calltodo.c_next` -/
  calltodo : Option (Fin n)
  callfree : Option (Fin n)
  /-- the last ID that `timeout` has returned -/
  id : Int
  panicing : Bool
  /-- the calls `(*func)(arg)` made, first to last -/
  called : List (F × A)

inductive Event (F A : Type) where
  | timeout (fn : F) (arg : A) (t : Int)
  | untimeout (fn : F) (arg : A)
  | untimeoutId (id : Int)
  /-- a clock interrupt -/
  | hardclock
  /-- once around the loop of `softclock` -/
  | softclock
  deriving DecidableEq

namespace Table

section

variable {F A : Type} {n : Nat} (c : Table F A n)

/-- `p->c_next`, of `calltodo` when there is no `p` -/
def next (p : Option (Fin n)) : Option (Fin n) :=
  match p with
  | none => c.calltodo
  | some p => c.cNext p

/-- `p->c_next = x` -/
def setNext (p x : Option (Fin n)) : Table F A n :=
  match p with
  | none => { c with calltodo := x }
  | some p => { c with cNext := update c.cNext p x }

/-- `if (p) p->c_time += t` -/
def addTime (p : Option (Fin n)) (t : Int) : Table F A n :=
  match p with
  | none => c
  | some p => { c with cTime := update c.cTime p (int (c.cTime p + t)) }

/-- link into freelist -/
def release (p : Fin n) : Table F A n :=
  { c with cNext := update c.cNext p c.callfree, callfree := some p }

/-- update real-time timeout queue -/
def hardclock : Table F A n := c.addTime c.calltodo (-1)

/-- Call the first entry if it is due. -/
def softclock : Table F A n :=
  match c.calltodo with
  | none => c
  | some p1 =>
    if 0 < c.cTime p1 then c
    else
      let p2 := c.cNext p1
      let c := { c with calltodo := p2 }
      let c := (c.addTime p2 (c.cTime p1)).release p1
      { c with called := c.called ++ [(c.cFunc p1, c.cArg p1)] }

/-- The loop of `timeout`, over at most as many entries as there are: the entry to
    insert behind and what is left of `t`. -/
def position : (fuel : Nat) → (p1 : Option (Fin n)) → (t : Int) → Option (Fin n) × Int
  | 0, p1, t => (p1, t)
  | fuel + 1, p1, t =>
    match c.next p1 with
    | none => (p1, t)
    | some p2 =>
      if c.cTime p2 < t then
        position fuel (some p2) (if 0 < c.cTime p2 then int (t - c.cTime p2) else t)
      else (p1, t)

/-- Put a new entry behind `p1`. -/
def insert (pnew : Fin n) (p1 : Option (Fin n)) (t : Int) : Table F A n :=
  let p2 := c.next p1
  let c := c.setNext p1 (some pnew)
  let id := int (c.id + 1)
  let c := { c with
    cNext := update c.cNext pnew p2
    cTime := update c.cTime pnew t
    cId := update c.cId pnew id
    id := id }
  c.addTime p2 (-t)

/-- The table and the ID, unless `timeout` panics. -/
def timeout (fn : F) (arg : A) (t : Int) : Option (Table F A n × Int) :=
  let t := if t = 0 then 1 else t
  match c.callfree with
  | none => none
  | some pnew =>
    let c := { c with
      callfree := c.cNext pnew
      cArg := update c.cArg pnew arg
      cFunc := update c.cFunc pnew fn }
    let (p1, t) := c.position n none t
    let c := c.insert pnew p1 t
    some (c, c.id)

/-- The first entry `p2` that meets `hit` and the one before it, among at most as
    many as there are. -/
def search (hit : Fin n → Bool) : (fuel : Nat) → (p1 : Option (Fin n)) →
    Option (Option (Fin n) × Fin n)
  | 0, _ => none
  | fuel + 1, p1 =>
    match c.next p1 with
    | none => none
    | some p2 => if hit p2 then some (p1, p2) else search hit fuel (some p2)

/-- Take `p2` out from behind `p1`. -/
def unlink (p1 : Option (Fin n)) (p2 : Fin n) : Table F A n :=
  let p3 := c.cNext p2
  -- carry overflow or delta
  ((c.addTime p3 (c.cTime p2)).setNext p1 p3).release p2

/-- Take out the first entry that meets `hit`. -/
def remove (hit : Fin n → Bool) : Table F A n :=
  match c.search hit n none with
  | none => c
  | some (p1, p2) => c.unlink p1 p2

/-- The entries met from a pointer on, at most as many as there are. -/
def walk (fuel : Nat) (p : Option (Fin n)) : List (Fin n) :=
  match fuel, p with
  | fuel + 1, some p => p :: walk fuel (c.cNext p)
  | _, _ => []

/-- The entries to do. -/
def todo : List (Fin n) := c.walk n c.calltodo

/-- The entries that are free. -/
def free : List (Fin n) := c.walk n c.callfree

/-- The sums of the times of the entries of a list, each up to and including its
    own, from `base` on. -/
def sums (base : Int) : List (Fin n) → List Int
  | [] => []
  | p :: l => (base + c.cTime p) :: sums (base + c.cTime p) l

/-- The time left for each entry to do. -/
def remaining : List Int := c.sums 0 c.todo

end

section

variable {F A : Type} {n : Nat} [DecidableEq F] [DecidableEq A] (c : Table F A n)

def untimeout (fn : F) (arg : A) : Table F A n :=
  c.remove fun p2 => decide (c.cFunc p2 = fn ∧ c.cArg p2 = arg)

def untimeoutId (id : Int) : Table F A n :=
  c.remove fun p2 => decide (c.cId p2 = id)

/-- Nothing happens any more when the system panics. -/
def step (e : Event F A) : Table F A n :=
  if c.panicing then c
  else
    match e with
    | .timeout fn arg t => ((c.timeout fn arg t).map Prod.fst).getD { c with panicing := true }
    | .untimeout fn arg => c.untimeout fn arg
    | .untimeoutId id => c.untimeoutId id
    | .hardclock => c.hardclock
    | .softclock => c.softclock

end

end Table

/-- All entries are free after `startup`, and the memory is clear. -/
def startup {F A : Type} [Inhabited F] [Inhabited A] (n : Nat) : Table F A n where
  cTime _ := 0
  cArg _ := default
  cFunc _ := default
  cNext i := if next : i.val + 1 < n then some ⟨i.val + 1, next⟩ else none
  cId _ := 0
  calltodo := none
  callfree := (List.finRange n).head?
  id := 0
  panicing := false
  called := []

end Irix.Callout
