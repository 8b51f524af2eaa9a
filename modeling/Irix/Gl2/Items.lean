import Irix.Gl2.Makeroom

/-! # What an object consists of

Commands and tags one behind the other, with jumps from chunk to chunk, up to `i_retsym`. What is at
an address is taken as a whole here: the item that begins there.
-/

namespace Irix.Gl2

/-- Storage that a command owns, on `hdr->strings`. -/
abbrev Block := Nat

/-- What `i_callfunc` is to call. -/
inductive Routine where
  | drawcurve
  | drawcurves
  | drawpatch
  | other
  deriving DecidableEq

inductive Command where
  | charstr (str : Block)
  /-- the number of arguments, the routine and its last argument -/
  | callfunc (nargs : Int) (routine : Routine) (str : Block)
  /-- another one: what is before its code, and the short behind its address -/
  | other (r size : Int)
  deriving DecidableEq

inductive Item where
  | retsym
  | jump (place : Pos)
  | tag (t : Int)
  | slopnop2
  | slopnop3
  | command (c : Command)
  deriving DecidableEq

def toShort (n : Int) : Int := n.bmod 65536

def maxstandardlength : Int := 1000000

/-- `gl_getcmdlength`. Of a length that is not known nothing is returned. -/
def getcmdlength (r size : Int) : Int :=
  if r < maxstandardlength then r
  else
    let size := toShort (size + 1)
    if r = 1000006 then toShort (7 * size) + 3
    else if r = 1000001 then toShort (6 * size) + 3
    else if r = 1000007 then toShort (5 * size) + 3
    else if r = 1000002 ∨ r = 1000008 then toShort (4 * size) + 3
    else if r = 1000004 ∨ r = 1000009 then toShort (3 * size) + 3
    else if r = 1000005 then toShort (2 * size) + 3
    else if r = 1000003 then (size - 1) * 2 + 5
    else 0

def Command.length : Command → Int
  | .charstr _ => getcmdlength 4 0
  | .callfunc nargs _ _ => getcmdlength 1000003 nargs
  | .other r size => getcmdlength r size

/-- The shorts of an item. -/
def Item.length : Item → Nat
  | .retsym | .jump _ | .tag _ => 4
  | .slopnop2 => 2
  | .slopnop3 => 3
  | .command c => c.length.toNat

/-- What comes behind an item. -/
def Item.next : Item → Pos → Option Pos
  | .retsym, _ => none
  | .jump place, _ => some place
  | item, p => some (p.add item.length)

/-- The items from a place on to the end of the object, each with its place. -/
inductive Trail (code : Pos → Item) : Pos → List (Pos × Item) → Pos → Prop where
  | last {p : Pos} (ends : code p = .retsym) : Trail code p [] p
  | step {p q e : Pos} {items : List (Pos × Item)} (next : (code p).next p = some q)
      (rest : Trail code q items e) : Trail code p ((p, code p) :: items) e

section

variable {code : Pos → Item} {p q e : Pos} {items front back : List (Pos × Item)} {i : Item}

/-- In the middle of a trail another one begins. -/
theorem Trail.behind (trail : Trail code p (front ++ (q, i) :: back) e) :
    code q = i ∧ ∃ r, i.next q = some r ∧ Trail code r back e := by
  induction front generalizing p with
  | nil =>
      cases trail with
      | step next rest => exact ⟨rfl, _, next, rest⟩
  | cons item front ih =>
      cases trail with
      | step next rest => exact ih rest

theorem Trail.cons (here : code p = i) (next : i.next p = some q) (rest : Trail code q items e) :
    Trail code p ((p, i) :: items) e := by
  subst here
  exact .step next rest

theorem Trail.unique {items' : List (Pos × Item)} {e' : Pos} (trail : Trail code p items e)
    (other : Trail code p items' e') : items = items' := by
  induction trail generalizing items' with
  | last ends =>
      cases other with
      | last => rfl
      | step next =>
          rw [ends] at next
          cases next
  | step next rest ih =>
      cases other with
      | last ends =>
          rw [ends] at next
          cases next
      | step next' rest' =>
          rw [next] at next'
          cases next'
          rw [ih rest']

/-- No place is passed twice. -/
theorem Trail.not_again (trail : Trail code p ((q, i) :: items) e) (j : Item) : (q, j) ∉ items := by
  intro listed
  obtain ⟨front, back, rfl⟩ := List.append_of_mem listed
  have first := @Trail.behind code p q e [] _ i trail
  have again := @Trail.behind code p q e ((q, i) :: front) back j trail
  obtain ⟨here, r, next, rest⟩ := first
  obtain ⟨here', r', next', rest'⟩ := again
  obtain rfl := here.symm.trans here'
  obtain rfl := Option.some.inj (next.symm.trans next')
  have same := congrArg List.length (rest.unique rest')
  simp only [List.length_append, List.length_cons] at same
  omega

end

end Irix.Gl2
