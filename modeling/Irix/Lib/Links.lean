import Mathlib.Logic.Function.Basic
import Mathlib.Data.List.Nodup
import Mathlib.Data.Fintype.Card
import Mathlib.Logic.Relation
import Mathlib.Data.List.Perm.Subperm
import Mathlib.Tactic.Common

/-! # Singly linked lists

Nodes with a pointer to the next node.  A list that comes to an end has no node
twice, so nothing has to be said about circles.
-/

namespace Lib.Links

open Function

universe u

variable {α : Type u}

/-- The nodes that are met from a pointer up to the end. -/
def Path (next : α → Option α) : Option α → List α → Prop
  | head, [] => head = none
  | head, a :: l => head = some a ∧ Path next (next a) l

/-- The same, followed for so many nodes at most. -/
def walk (next : α → Option α) : Nat → Option α → Option (List α)
  | _, none => some []
  | 0, some _ => none
  | fuel + 1, some a => (walk next fuel (next a)).map (a :: ·)

variable {next next' : α → Option α} {head : Option α} {a : α} {l l' : List α}

@[simp] theorem path_nil : Path next head [] ↔ head = none := Iff.rfl

@[simp] theorem path_cons : Path next head (a :: l) ↔ head = some a ∧ Path next (next a) l := Iff.rfl

theorem path_none : Path next none l ↔ l = [] := by
  cases l with
  | nil => simp only [path_nil]
  | cons a l => simp only [path_cons, reduceCtorEq, false_and]

theorem path_some : Path next (some a) l ↔ ∃ rest, l = a :: rest ∧ Path next (next a) rest := by
  cases l with
  | nil => simp only [path_nil, reduceCtorEq, false_and, exists_false]
  | cons b l =>
      simp only [path_cons, Option.some.injEq, List.cons.injEq]
      constructor
      · rintro ⟨rfl, path⟩
        exact ⟨l, ⟨rfl, rfl⟩, path⟩
      · rintro ⟨rest, ⟨rfl, rfl⟩, path⟩
        exact ⟨rfl, path⟩

/-- There is only one way on. -/
theorem Path.unique (path : Path next head l) (path' : Path next head l') : l = l' := by
  induction l generalizing head l' with
  | nil =>
      rw [path_nil] at path
      rw [path, path_none] at path'
      exact path'.symm
  | cons a l ih =>
      obtain ⟨rfl, path⟩ := path
      obtain ⟨rest, rfl, path''⟩ := path_some.mp path'
      rw [ih path path'']

theorem Path.head_eq (path : Path next head l) : head = l.head? := by
  cases l with
  | nil => exact path
  | cons a l => exact path.1

theorem Path.append {pre : List α} (path : Path next head (pre ++ a :: l)) :
    Path next (some a) (a :: l) := by
  induction pre generalizing head with
  | nil =>
      obtain ⟨rfl, path⟩ := path
      exact ⟨rfl, path⟩
  | cons b pre ih => exact ih path.2

/-- A list that ends is not a circle. -/
theorem Path.nodup (path : Path next head l) : l.Nodup := by
  induction l generalizing head with
  | nil => exact List.nodup_nil
  | cons a l ih =>
      rw [List.nodup_cons]
      refine ⟨fun again => ?_, ih path.2⟩
      -- from the second time on the list would be the same again, and shorter
      obtain ⟨pre, post, rfl⟩ := List.append_of_mem again
      have whole : Path next (some a) (a :: (pre ++ a :: post)) := ⟨rfl, path.2⟩
      have same := whole.unique path.2.append
      have length := congrArg List.length same
      simp only [List.length_cons, List.length_append] at length
      omega

theorem Path.congr (path : Path next head l) (same : ∀ b ∈ l, next' b = next b) :
    Path next' head l := by
  induction l generalizing head with
  | nil => exact path
  | cons a l ih =>
      obtain ⟨rfl, path⟩ := path
      refine ⟨rfl, ?_⟩
      rw [same a (List.mem_cons_self ..)]
      exact ih path fun b listed => same b (List.mem_cons_of_mem _ listed)

theorem Path.walk {fuel : Nat} (path : Path next head l) (enough : l.length ≤ fuel) :
    walk next fuel head = some l := by
  induction l generalizing head fuel with
  | nil =>
      cases path
      cases fuel with
      | zero => rfl
      | succ fuel => rfl
  | cons a l ih =>
      obtain ⟨rfl, path⟩ := path
      cases fuel with
      | zero => exact absurd enough (Nat.not_succ_le_zero _)
      | succ fuel =>
          rw [Links.walk, ih path (Nat.le_of_succ_le_succ enough)]
          rfl

/-- No list is longer than there are nodes. -/
theorem Path.walk_card [Fintype α] (path : Path next head l) :
    Links.walk next (Fintype.card α) head = some l :=
  path.walk path.nodup.length_le_card

variable [DecidableEq α]

/-- A node is linked in front. -/
theorem Path.push (path : Path next head l) (fresh : a ∉ l) :
    Path (update next a head) (some a) (a :: l) := by
  refine ⟨rfl, ?_⟩
  rw [update_self]
  exact path.congr fun b listed => update_of_ne (ne_of_mem_of_not_mem listed fresh) ..

/-- A node is linked behind another one. -/
theorem Path.link {z : α} {pre post : List α} (path : Path next head (pre ++ z :: post))
    (fresh : a ∉ pre ++ z :: post) :
    Path (update (update next a (next z)) z (some a)) head (pre ++ z :: a :: post) := by
  have nodup := path.nodup
  induction pre generalizing head with
  | nil =>
      have unlike : z ∉ post := (List.nodup_cons.mp nodup).1
      have other : a ≠ z := fun same => fresh (same ▸ List.mem_cons_self ..)
      refine ⟨path.1, ?_, ?_⟩
      · rw [update_self]
      · rw [update_of_ne other, update_self]
        refine path.2.congr fun b listed => ?_
        rw [update_of_ne (ne_of_mem_of_not_mem listed unlike),
          update_of_ne (ne_of_mem_of_not_mem listed fun inside => fresh (.tail _ inside))]
  | cons b pre ih =>
      have apart := List.nodup_cons.mp nodup
      have later := ih path.2 (fun listed => fresh (.tail _ listed)) apart.2
      have notz : b ≠ z := fun same => apart.1 (same ▸ by simp)
      have nota : b ≠ a := fun same => fresh (same ▸ List.mem_cons_self ..)
      refine ⟨path.1, ?_⟩
      rw [update_of_ne notz, update_of_ne nota]
      exact later

/-- A node that is linked in front a second time closes a circle. -/
theorem Path.push_again (path : Path next head l) (listed : a ∈ l) :
    ¬ Path (update next a head) (some a) l' := by
  intro path'
  have nodup := path'.nodup
  obtain ⟨rest, rfl, after⟩ := path_some.mp path'
  rw [update_self] at after
  have fresh : a ∉ rest := (List.nodup_cons.mp nodup).1
  have back : Path next head rest := after.congr fun b listed =>
    (update_of_ne (ne_of_mem_of_not_mem listed fresh) ..).symm
  exact fresh (path.unique back ▸ listed)

/-! ## Links without a circle -/

/-- From every node on the links come to an end. -/
def Ending (next : α → Option α) : Prop := ∀ a, ∃ l, Path next (some a) l

omit [DecidableEq α] in
/-- Links are taken away. -/
theorem Ending.cut (ending : Ending next) (fewer : ∀ a, next' a = next a ∨ next' a = none) :
    Ending next' := by
  intro a
  obtain ⟨l, path⟩ := ending a
  clear ending
  induction l generalizing a with
  | nil => cases path
  | cons b l ih =>
      obtain ⟨here, rest⟩ := path
      obtain rfl : b = a := (Option.some.inj here).symm
      rcases fewer b with same | gone
      · cases link : next b with
        | none => exact ⟨[b], rfl, same.trans link⟩
        | some c =>
            rw [link] at rest
            obtain ⟨l', path'⟩ := ih c rest
            exact ⟨b :: l', rfl, by rwa [same, link]⟩
      · exact ⟨[b], rfl, gone⟩

/-- A node is linked to one from which it is not reached. -/
theorem Ending.link {b : α} (ending : Ending next) (path : Path next (some b) l) (fresh : a ∉ l) :
    Ending (update next a (some b)) := by
  intro c
  obtain ⟨l', path'⟩ := ending c
  clear ending
  induction l' generalizing c with
  | nil => cases path'
  | cons d l' ih =>
      obtain ⟨here, rest⟩ := path'
      obtain rfl : d = c := (Option.some.inj here).symm
      by_cases same : d = a
      · subst same
        exact ⟨d :: l, path.push fresh⟩
      · cases link : next d with
        | none => exact ⟨[d], rfl, (update_of_ne same ..).trans link⟩
        | some e =>
            rw [link] at rest
            obtain ⟨l'', path''⟩ := ih e rest
            refine ⟨d :: l'', rfl, ?_⟩
            rwa [update_of_ne same, link]

omit [DecidableEq α] in
theorem Path.reached {b : α} (path : Path next (some a) l)
    (reach : Relation.TransGen (fun x y => next x = some y) a b) :
    ∃ l', Path next (some b) l' ∧ l'.length < l.length := by
  induction reach with
  | single link =>
      obtain ⟨rest, rfl, path⟩ := path_some.mp path
      exact ⟨rest, by rwa [← link], Nat.lt_succ_self _⟩
  | tail _ link ih =>
      obtain ⟨l', path', less⟩ := ih
      obtain ⟨rest, rfl, path''⟩ := path_some.mp path'
      exact ⟨rest, by rwa [← link], Nat.lt_of_succ_lt less⟩

omit [DecidableEq α] in
/-- No node is reached from itself. -/
theorem Ending.acyclic (ending : Ending next) (a : α) :
    ¬ Relation.TransGen (fun x y => next x = some y) a a := by
  intro circle
  obtain ⟨l, path⟩ := ending a
  obtain ⟨l', path', less⟩ := path.reached circle
  rw [path.unique path'] at less
  exact Nat.lt_irrefl _ less

omit [DecidableEq α] in
/-- All nodes of a list but the last one have links. -/
theorem Path.length_le {k : List α} (path : Path next head l) (linked : ∀ b c, next b = some c → b ∈ k) :
    l.length ≤ k.length + 1 := by
  rcases List.eq_nil_or_concat l with rfl | ⟨pre, z, rfl⟩
  · exact Nat.zero_le _
  · rw [List.concat_eq_append] at path ⊢
    have nodup := (List.nodup_append.mp path.nodup).1
    have inside : ∀ b ∈ pre, b ∈ k := by
      intro b listed
      clear nodup
      induction pre generalizing head with
      | nil => cases listed
      | cons d pre ih =>
          rcases List.mem_cons.mp listed with rfl | later
          · obtain ⟨-, rest⟩ := path
            cases pre with
            | nil => exact linked b z rest.1
            | cons e pre => exact linked b e rest.1
          · exact ih path.2 later
    have fewer := (List.subperm_of_subset nodup inside).length_le
    simp only [List.length_append, List.length_singleton]
    exact Nat.succ_le_succ fewer

/-! ## Taking nodes out -/

/-- The node whose link is this one, or the last one, if that comes soon enough. -/
def before (next : α → Option α) (a : α) : Nat → α → Option α
  | 0, _ => none
  | fuel + 1, b =>
      match next b with
      | none => some b
      | some c => if a = c then some b else before next a fuel c

/-- Take a node out that is not the first one. -/
def unlink (next : α → Option α) (a b : α) : α → Option α :=
  if next b = some a then update next b (next a) else next

theorem unlink_other {b c : α} (other : c ≠ b) : unlink next a b c = next c := by
  rw [unlink]
  split
  · exact update_of_ne other ..
  · rfl

theorem Path.unlink {b : α} {fuel : Nat} (path : Path next (some b) (b :: l)) (other : a ≠ b)
    (enough : (b :: l).length ≤ fuel) :
    ∃ c ∈ b :: l, before next a fuel b = some c ∧
      Path (Links.unlink next a c) (some b) ((b :: l).erase a) := by
  induction l generalizing b fuel with
  | nil =>
      cases fuel with
      | zero => exact absurd enough (Nat.not_succ_le_zero _)
      | succ fuel =>
          have last : next b = none := path.2
          refine ⟨b, List.mem_cons_self .., ?_, ?_⟩
          · rw [before, last]
          · have apart : a ∉ [b] := by
              rw [List.mem_singleton]
              exact other
            rw [Links.unlink, last, if_neg (Option.some_ne_none a).symm, List.erase_of_not_mem apart]
            exact path
  | cons d l ih =>
      cases fuel with
      | zero => exact absurd enough (Nat.not_succ_le_zero _)
      | succ fuel =>
          have link : next b = some d := path.2.1
          have rest : Path next (some d) (d :: l) := ⟨rfl, path.2.2⟩
          have first : b ∉ d :: l := (List.nodup_cons.mp path.nodup).1
          have skip : (b == a) = false := beq_false_of_ne (Ne.symm other)
          rw [before, link, List.erase_cons_tail (by rw [skip]; exact Bool.false_ne_true)]
          by_cases here : a = d
          · subst here
            refine ⟨b, List.mem_cons_self .., if_pos rfl, ?_⟩
            rw [Links.unlink, if_pos link, List.erase_cons_head, path_cons, update_self]
            exact ⟨rfl, path.2.2.congr fun c listed => update_of_ne
              (ne_of_mem_of_not_mem (List.mem_cons_of_mem _ listed) first) ..⟩
          · obtain ⟨c, listed, eq, path'⟩ := ih rest here (Nat.le_of_succ_le_succ enough)
            refine ⟨c, List.mem_cons_of_mem _ listed, (if_neg here).trans eq, ?_⟩
            rw [path_cons, unlink_other (ne_of_mem_of_not_mem listed first).symm, link]
            exact ⟨rfl, path'⟩

end Lib.Links
