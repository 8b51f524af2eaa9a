import Mathlib.Logic.Function.Basic
import Mathlib.Data.List.Nodup
import Mathlib.Tactic.Common

/-! # Doubly linked lists

Nodes with a pointer to the next and one to the previous node.  `Seg` is a
stretch of nodes between two outer pointers, `Chain` a whole list with its
ends.  Linking a node in between two neighbours and taking one out are the two
changes a list sees.
-/

namespace Lib.Linked

open Function

universe u

variable {α : Type u}

/-- The nodes are linked to each other both ways, from behind `p` to before `e`. -/
def Seg (next prev : α → Option α) : Option α → List α → Option α → Prop
  | _, [], _ => True
  | p, a :: l, e => prev a = p ∧ next a = l.head?.or e ∧ Seg next prev (some a) l e

section

variable {next prev : α → Option α} {p e : Option α} {l : List α}

@[simp] theorem seg_nil : Seg next prev p [] e := trivial

@[simp] theorem seg_cons {a : α} :
    Seg next prev p (a :: l) e ↔
      prev a = p ∧ next a = l.head?.or e ∧ Seg next prev (some a) l e := Iff.rfl

theorem seg_append {l' : List α} :
    Seg next prev p (l ++ l') e ↔
      Seg next prev p l (l'.head?.or e) ∧ Seg next prev (l.getLast?.or p) l' e := by
  induction l generalizing p with
  | nil => simp
  | cons a l ih =>
    have head : (l ++ l').head?.or e = l.head?.or (l'.head?.or e) := by
      cases l <;> simp
    have last : (a :: l).getLast?.or p = l.getLast?.or (some a) := by
      cases l <;> simp [List.getLast?_cons]
    simp only [List.cons_append, seg_cons, ih, head, last, and_assoc]

theorem Seg.congr {next' prev' : α → Option α} (seg : Seg next prev p l e)
    (same : ∀ a ∈ l, next' a = next a ∧ prev' a = prev a) : Seg next' prev' p l e := by
  induction l generalizing p with
  | nil => trivial
  | cons a l ih =>
    obtain ⟨back, forth, rest⟩ := seg
    obtain ⟨here, here'⟩ := same a (List.mem_cons_self ..)
    exact ⟨here'.trans back, here.trans forth,
      ih rest fun b listed => same b (List.mem_cons_of_mem _ listed)⟩

variable [DecidableEq α]

/-- Nodes outside the stretch may be written to. -/
theorem Seg.next_other (seg : Seg next prev p l e) {a : α} (other : a ∉ l) (x : Option α) :
    Seg (update next a x) prev p l e :=
  seg.congr fun _ listed => ⟨update_of_ne (ne_of_mem_of_not_mem listed other) .., rfl⟩

theorem Seg.prev_other (seg : Seg next prev p l e) {a : α} (other : a ∉ l) (x : Option α) :
    Seg next (update prev a x) p l e :=
  seg.congr fun _ listed => ⟨rfl, update_of_ne (ne_of_mem_of_not_mem listed other) ..⟩

/-- The last node is linked to another one. -/
theorem Seg.next_last {z : α} (seg : Seg next prev p (l ++ [z]) e) (distinct : z ∉ l)
    (e' : Option α) : Seg (update next z e') prev p (l ++ [z]) e' := by
  rw [seg_append] at seg ⊢
  obtain ⟨front, back, -, -⟩ := seg
  exact ⟨front.next_other distinct e', back, by simp, trivial⟩

/-- The first node is linked back to another one. -/
theorem Seg.prev_first {a : α} (seg : Seg next prev p (a :: l) e) (distinct : a ∉ l)
    (p' : Option α) : Seg next (update prev a p') p' (a :: l) e := by
  obtain ⟨-, forth, rest⟩ := seg
  exact ⟨update_self .., forth, rest.prev_other distinct p'⟩

end

/-- The ends of a list and the links of its nodes. -/
structure Dlist (α : Type u) where
  first : Option α
  last : Option α
  next : α → Option α
  prev : α → Option α

structure Chain (d : Dlist α) (l : List α) : Prop where
  nodup : l.Nodup
  first : d.first = l.head?
  last : d.last = l.getLast?
  seg : Seg d.next d.prev none l none

namespace Dlist

variable [DecidableEq α]

/-- Write the link forward from `p`, which is the list's first pointer when there
    is no `p`. -/
def forth (d : Dlist α) (p x : Option α) : Dlist α :=
  match p with
  | none => { d with first := x }
  | some a => { d with next := update d.next a x }

/-- Write the link back from `e`. -/
def back (d : Dlist α) (e x : Option α) : Dlist α :=
  match e with
  | none => { d with last := x }
  | some b => { d with prev := update d.prev b x }

@[simp] theorem forth_prev (d : Dlist α) (p x : Option α) : (d.forth p x).prev = d.prev := by
  cases p <;> rfl

@[simp] theorem forth_last (d : Dlist α) (p x : Option α) : (d.forth p x).last = d.last := by
  cases p <;> rfl

@[simp] theorem back_next (d : Dlist α) (e x : Option α) : (d.back e x).next = d.next := by
  cases e <;> rfl

@[simp] theorem back_first (d : Dlist α) (e x : Option α) : (d.back e x).first = d.first := by
  cases e <;> rfl

theorem forth_other {d : Dlist α} {p : Option α} {b : α} (other : p ≠ some b) (x : Option α) :
    (d.forth p x).next b = d.next b := by
  cases p with
  | none => rfl
  | some a => exact update_of_ne (fun same => other (congrArg some same.symm)) ..

theorem back_other {d : Dlist α} {e : Option α} {b : α} (other : e ≠ some b) (x : Option α) :
    (d.back e x).prev b = d.prev b := by
  cases e with
  | none => rfl
  | some a => exact update_of_ne (fun same => other (congrArg some same.symm)) ..

/-- Link `x` in between `p` and `e`. -/
def insert (d : Dlist α) (x : α) (p e : Option α) : Dlist α :=
  ((({ d with next := update d.next x e, prev := update d.prev x p } : Dlist α).forth p
    (some x)).back e (some x))

theorem insert_other {d : Dlist α} {x b : α} {p e : Option α} (new : b ≠ x) (before : p ≠ some b)
    (behind : e ≠ some b) :
    (d.insert x p e).next b = d.next b ∧ (d.insert x p e).prev b = d.prev b := by
  rw [insert, back_next, forth_other before, back_other behind, forth_prev]
  exact ⟨update_of_ne new .., update_of_ne new ..⟩

/-- Link the neighbours of `x` to each other. -/
def remove (d : Dlist α) (x : α) : Dlist α :=
  (d.forth (d.prev x) (d.next x)).back (d.next x) (d.prev x)

/-- Clear the links of a node. -/
def clear (d : Dlist α) (x : α) : Dlist α :=
  { d with next := update d.next x none, prev := update d.prev x none }

end Dlist

namespace Chain

variable {d : Dlist α} {pre post : List α} {x : α}

theorem empty (next prev : α → Option α) : Chain ⟨none, none, next, prev⟩ [] :=
  ⟨.nil, rfl, rfl, trivial⟩

theorem next_of (chain : Chain d (pre ++ x :: post)) : d.next x = post.head? := by
  have seg := (seg_append.mp chain.seg).2
  simpa using seg.2.1

theorem prev_of (chain : Chain d (pre ++ x :: post)) : d.prev x = pre.getLast? := by
  have seg := (seg_append.mp chain.seg).2
  simpa using seg.1

theorem congr {d' : Dlist α} {l : List α} (chain : Chain d l) (first : d'.first = d.first)
    (last : d'.last = d.last) (same : ∀ a ∈ l, d'.next a = d.next a ∧ d'.prev a = d.prev a) :
    Chain d' l :=
  ⟨chain.nodup, first.trans chain.first, last.trans chain.last, chain.seg.congr same⟩

theorem not_mem (chain : Chain d (pre ++ x :: post)) : x ∉ pre ++ post := by
  have perm : (pre ++ x :: post).Perm (x :: (pre ++ post)) := List.perm_middle
  exact (List.nodup_cons.mp (perm.nodup_iff.mp chain.nodup)).1

variable [DecidableEq α]

/-- The link forward into a stretch that ends the list, or the first pointer. -/
theorem forth_seg {d : Dlist α} {l : List α} {e : Option α} (seg : Seg d.next d.prev none l e)
    (nodup : l.Nodup) (first : l ≠ [] → d.first = l.head?) (x : Option α) :
    Seg (d.forth l.getLast? x).next (d.forth l.getLast? x).prev none l x ∧
      (d.forth l.getLast? x).first = l.head?.or x := by
  rcases List.eq_nil_or_concat l with rfl | ⟨l, z, rfl⟩
  · exact ⟨trivial, by simp [Dlist.forth]⟩
  · rw [List.concat_eq_append] at *
    have fresh : z ∉ l := by
      have := List.nodup_append.mp nodup
      intro listed
      exact this.2.2 z listed z (by simp) rfl
    have last : (l ++ [z]).getLast? = some z := by simp
    have head : (l ++ [z]).head?.or x = (l ++ [z]).head? := by cases l <;> simp
    rw [last, head]
    exact ⟨seg.next_last fresh x, first (by simp)⟩

/-- The link back into a stretch that begins behind the node, or the last
    pointer. -/
theorem back_seg {d : Dlist α} {l : List α} {p : Option α} (seg : Seg d.next d.prev p l none)
    (nodup : l.Nodup) (last : l ≠ [] → d.last = l.getLast?) (x : Option α) :
    Seg (d.back l.head? x).next (d.back l.head? x).prev x l none ∧
      (d.back l.head? x).last = l.getLast?.or x := by
  cases l with
  | nil => exact ⟨trivial, by simp [Dlist.back]⟩
  | cons a l =>
    have fresh := (List.nodup_cons.mp nodup).1
    have tail : (a :: l).getLast?.or x = (a :: l).getLast? := by
      cases l <;> simp [List.getLast?_cons]
    rw [tail]
    exact ⟨seg.prev_first fresh x, last (by simp)⟩

/-- The two sides of a list joined over a stretch of nodes between them, which
    may be empty. -/
theorem bridge {mid : List α} {e p : Option α} (nodup : (pre ++ (mid ++ post)).Nodup)
    (front : Seg d.next d.prev none pre e) (middle : Seg d.next d.prev pre.getLast? mid post.head?)
    (behind : Seg d.next d.prev p post none) (first : pre ≠ [] → d.first = pre.head?)
    (last : post ≠ [] → d.last = post.getLast?) :
    Chain ((d.forth pre.getLast? (mid.head?.or post.head?)).back post.head?
      (mid.getLast?.or pre.getLast?)) (pre ++ (mid ++ post)) := by
  obtain ⟨nodup₁, nodup₂, apart⟩ := List.nodup_append.mp nodup
  obtain ⟨-, nodup₃, apart'⟩ := List.nodup_append.mp nodup₂
  obtain ⟨front₂, first₂⟩ := forth_seg front nodup₁ first (mid.head?.or post.head?)
  have same : ∀ b ∈ mid ++ post,
      (d.forth pre.getLast? (mid.head?.or post.head?)).next b = d.next b ∧
      (d.forth pre.getLast? (mid.head?.or post.head?)).prev b = d.prev b := by
    intro b listed
    refine ⟨Dlist.forth_other (fun last => ?_) _, by rw [Dlist.forth_prev]⟩
    exact apart b (List.mem_of_getLast? last) b listed rfl
  have middle₂ := middle.congr fun b listed => same b (List.mem_append_left _ listed)
  have behind₂ := behind.congr fun b listed => same b (List.mem_append_right _ listed)
  have last₂ : post ≠ [] →
      (d.forth pre.getLast? (mid.head?.or post.head?)).last = post.getLast? := by
    rw [Dlist.forth_last]
    exact last
  generalize d.forth pre.getLast? (mid.head?.or post.head?) = d₂ at *
  obtain ⟨behind₃, last₃⟩ := back_seg behind₂ nodup₃ last₂ (mid.getLast?.or pre.getLast?)
  have same₃ : ∀ b ∉ post,
      (d₂.back post.head? (mid.getLast?.or pre.getLast?)).next b = d₂.next b ∧
      (d₂.back post.head? (mid.getLast?.or pre.getLast?)).prev b = d₂.prev b := by
    intro b outside
    refine ⟨by rw [Dlist.back_next], Dlist.back_other (fun first => ?_) _⟩
    exact outside (List.mem_of_head? first)
  have front₃ := front₂.congr fun b listed => same₃ b fun late =>
    apart b listed b (List.mem_append_right _ late) rfl
  have middle₃ := middle₂.congr fun b listed => same₃ b fun late => apart' b listed b late rfl
  refine ⟨nodup, ?_, ?_, ?_⟩
  · rw [Dlist.back_first, first₂, List.head?_append, List.head?_append]
  · rw [last₃, List.getLast?_append, List.getLast?_append, Option.or_assoc]
  · rw [seg_append, seg_append, List.head?_append, Option.or_none, Option.or_none, Option.or_none]
    exact ⟨front₃, middle₃, behind₃⟩

omit [DecidableEq α] in
theorem ends (chain : Chain d (pre ++ post)) :
    Seg d.next d.prev none pre post.head? ∧ Seg d.next d.prev pre.getLast? post none ∧
      (pre ≠ [] → d.first = pre.head?) ∧ (post ≠ [] → d.last = post.getLast?) := by
  obtain ⟨front, behind⟩ := seg_append.mp chain.seg
  rw [Option.or_none] at front behind
  refine ⟨front, behind, fun some => ?_, fun some => ?_⟩
  · rw [chain.first, List.head?_append_of_ne_nil _ some]
  · rw [chain.last, List.getLast?_append_of_ne_nil _ some]

/-- A new node between two neighbours. -/
theorem insert (chain : Chain d (pre ++ post)) (new : x ∉ pre ++ post) :
    Chain (d.insert x pre.getLast? post.head?) (pre ++ x :: post) := by
  obtain ⟨front, behind, first, last⟩ := chain.ends
  have out : x ∉ pre ∧ x ∉ post := by simpa using new
  have nodup : (pre ++ ([x] ++ post)).Nodup := by
    have perm : (pre ++ x :: post).Perm (x :: (pre ++ post)) := List.perm_middle
    exact perm.nodup_iff.mpr (List.nodup_cons.mpr ⟨new, chain.nodup⟩)
  have joined := bridge
    (d := { d with next := update d.next x post.head?, prev := update d.prev x pre.getLast? }) nodup
    ((front.next_other out.1 post.head?).prev_other out.1 pre.getLast?)
    (show Seg _ _ _ [x] _ from ⟨update_self .., by simp, trivial⟩)
    ((behind.next_other out.2 post.head?).prev_other out.2 pre.getLast?) first last
  simpa [Dlist.insert] using joined

/-- A node out from between its neighbours. -/
theorem remove (chain : Chain d (pre ++ x :: post)) : Chain (d.remove x) (pre ++ post) := by
  obtain ⟨front, behind, first, last⟩ := chain.ends
  obtain ⟨-, -, rest⟩ := behind
  have nodup : (pre ++ ([] ++ post)).Nodup := chain.nodup.sublist (by simp)
  have last' : post ≠ [] → d.last = post.getLast? := by
    intro some
    rw [last (by simp), List.getLast?_cons_of_ne_nil some]
  have joined := bridge nodup front trivial rest first last'
  simpa [Dlist.remove, chain.next_of, chain.prev_of] using joined

/-- Any nodes can be linked. -/
theorem exists_of_nodup {l : List α} (nodup : l.Nodup) : ∃ d, Chain d l := by
  induction l with
  | nil => exact ⟨_, empty (fun _ => none) fun _ => none⟩
  | cons a l ih =>
    obtain ⟨out, nodup⟩ := List.nodup_cons.mp nodup
    obtain ⟨d, chain⟩ := ih nodup
    exact ⟨_, @insert α d [] l a _ chain out⟩

theorem clear {l : List α} (chain : Chain d l) (out : x ∉ l) : Chain (d.clear x) l := by
  have same : ∀ a ∈ l, (d.clear x).next a = d.next a ∧ (d.clear x).prev a = d.prev a := by
    intro a listed
    have other := ne_of_mem_of_not_mem listed out
    exact ⟨update_of_ne other .., update_of_ne other ..⟩
  exact chain.congr rfl rfl same

end Chain

end Lib.Linked
