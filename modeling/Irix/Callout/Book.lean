import Irix.Callout.Table
import Mathlib.Algebra.Ring.Int.Defs
import Mathlib.Data.List.Sort
import Mathlib.Data.List.Perm.Basic

/-! # The appointment book

What the callout table is for: requests with the tick each is due at, called in
that order.  The book keeps every request that was ever made.
-/

namespace Irix.Callout

open Lib

structure Request (F A : Type) where
  fn : F
  arg : A
  id : Int
  due : Int
  /-- how many requests were made before it -/
  serial : Nat
  deriving DecidableEq

structure Book (F A : Type) where
  now : Int
  made : Nat
  id : Int
  stopped : Bool
  /-- with the tick each was called at -/
  called : List (Request F A × Int)
  pending : List (Request F A)
  cancelled : List (Request F A)

/-- The order by due time. -/
def Request.Sooner {F A : Type} (x y : Request F A) : Prop := x.due ≤ y.due

namespace Request

variable {F A : Type}

instance : DecidableRel (Sooner (F := F) (A := A)) := fun x y =>
  inferInstanceAs (Decidable (x.due ≤ y.due))

instance : Std.Total (Sooner (F := F) (A := A)) := ⟨fun x y => le_total x.due y.due⟩

instance : IsTrans (Request F A) Sooner := ⟨fun _ _ _ first second => le_trans first second⟩

end Request

namespace Book

section

variable {F A : Type} (n : Nat) (b : Book F A)

/-- There is room for `n` pending requests. -/
def timeout (fn : F) (arg : A) (t : Int) : Book F A :=
  if b.pending.length < n then
    let id := int (b.id + 1)
    let request : Request F A := ⟨fn, arg, id, b.now + t, b.made⟩
    { b with
      made := b.made + 1
      id := id
      pending := b.pending.orderedInsert Request.Sooner request }
  else { b with stopped := true }

/-- The first request that meets `hit` is cancelled. -/
def cancel (hit : Request F A → Bool) : Book F A :=
  { b with
    pending := b.pending.eraseP hit
    cancelled := b.cancelled ++ (b.pending.find? hit).toList }

/-- The first request is called if it is due. -/
def call : Book F A :=
  match b.pending with
  | [] => b
  | r :: rest =>
    if r.due ≤ b.now then { b with pending := rest, called := b.called ++ [(r, b.now)] } else b

/-- The requests called and those still to call, in order. -/
def calls : List (Request F A) := b.called.map Prod.fst ++ b.pending

end

def step {F A : Type} [DecidableEq F] [DecidableEq A] (n : Nat) (b : Book F A)
    (e : Event F A) : Book F A :=
  if b.stopped then b
  else
    match e with
    | .timeout fn arg t => b.timeout n fn arg t
    | .untimeout fn arg => b.cancel fun r => decide (r.fn = fn ∧ r.arg = arg)
    | .untimeoutId id => b.cancel fun r => decide (r.id = id)
    | .hardclock => { b with now := b.now + 1 }
    | .softclock => b.call

end Book

/-- A book with no requests. -/
def blank (F A : Type) : Book F A := ⟨0, 0, 0, false, [], [], []⟩

/-- The order in which requests are called: of those for one tick the one made last
    comes first. -/
def Request.Before {F A : Type} (x y : Request F A) : Prop :=
  x.due < y.due ∨ x.due = y.due ∧ y.serial < x.serial

/-- What is known of the book. -/
structure Book.Orderly {F A : Type} (b : Book F A) : Prop where
  order : b.calls.Pairwise Request.Before
  once : ((b.calls ++ b.cancelled).map Request.serial).Perm (List.range b.made)
  prompt : ∀ call ∈ b.called, call.1.due ≤ call.2 ∧ call.2 ≤ b.now

/-! ## Where a request goes -/

section

variable {F A : Type} {l : List (Request F A)} {r : Request F A}

/-- A request is put behind those due before it and in front of the others. -/
theorem orderedInsert_splits (sorted : l.Pairwise Request.Sooner) (r : Request F A) :
    ∃ pre post, l = pre ++ post ∧ l.orderedInsert Request.Sooner r = pre ++ r :: post ∧
      (∀ x ∈ pre, x.due < r.due) ∧ ∀ x ∈ post, r.due ≤ x.due := by
  induction l with
  | nil => exact ⟨[], [], rfl, rfl, by simp, by simp⟩
  | cons a l ih =>
    obtain ⟨first, rest⟩ := List.pairwise_cons.mp sorted
    rw [List.orderedInsert_cons]
    split
    next sooner =>
      refine ⟨[], a :: l, rfl, rfl, by simp, fun x listed => ?_⟩
      rcases List.mem_cons.mp listed with rfl | later
      · exact sooner
      · exact le_trans sooner (first x later)
    next later =>
      obtain ⟨pre, post, split, inserted, before, behind⟩ := ih rest
      refine ⟨a :: pre, post, by rw [split]; rfl, by rw [inserted]; rfl, fun x listed => ?_, behind⟩
      rcases List.mem_cons.mp listed with rfl | listed
      · exact not_le.mp later
      · exact before x listed

/-- The first request that meets `hit` is looked for. -/
theorem find_splits (l : List (Request F A)) (hit : Request F A → Bool) :
    (l.find? hit = none ∧ l.eraseP hit = l ∧ ∀ x ∈ l, hit x = false) ∨
      ∃ pre r post, l = pre ++ r :: post ∧ l.find? hit = some r ∧ l.eraseP hit = pre ++ post ∧
        (∀ x ∈ pre, hit x = false) ∧ hit r = true := by
  induction l with
  | nil => exact .inl ⟨rfl, rfl, by simp⟩
  | cons a l ih =>
    cases found : hit a with
    | true => exact .inr ⟨[], a, l, rfl, by simp [found], by simp [found], by simp, found⟩
    | false =>
      rcases ih with ⟨missing, kept, all⟩ | ⟨pre, r, post, split, first, erased, before, here⟩
      · exact .inl ⟨by simp [found, missing], by simp [found, kept], by simpa [found] using all⟩
      · exact .inr ⟨a :: pre, r, post, by rw [split]; rfl, by simp [found, first],
          by simp [found, erased], by simpa [found] using before, here⟩

end

namespace Book

variable {F A : Type} {n : Nat} {b : Book F A}

theorem Orderly.sorted (orderly : b.Orderly) : b.pending.Pairwise Request.Sooner := by
  have order := (List.pairwise_append.mp orderly.order).2.1
  refine order.imp fun before => ?_
  rcases before with earlier | ⟨same, -⟩
  · exact le_of_lt earlier
  · exact le_of_eq same

theorem Orderly.serial_lt (orderly : b.Orderly) {r : Request F A} (listed : r ∈ b.calls) :
    r.serial < b.made := by
  have made : r.serial ∈ (b.calls ++ b.cancelled).map Request.serial :=
    List.mem_map_of_mem (List.mem_append_left _ listed)
  exact List.mem_range.mp (orderly.once.subset made)

theorem blank_orderly : (blank F A).Orderly :=
  ⟨.nil, .nil, fun _ listed => nomatch listed⟩

theorem Orderly.timeout (orderly : b.Orderly) (fn : F) (arg : A) {t : Int} (later : 1 ≤ t) :
    (b.timeout n fn arg t).Orderly := by
  unfold Book.timeout
  split
  next room =>
    dsimp only
    generalize new : (⟨fn, arg, int (b.id + 1), b.now + t, b.made⟩ : Request F A) = r
    obtain ⟨pre, post, pending, inserted, before, behind⟩ :=
      orderedInsert_splits orderly.sorted r
    have due : b.now < r.due := by
      rw [← new]
      exact Int.lt_add_of_pos_right _ later
    have serial : r.serial = b.made := by rw [← new]
    have order := orderly.order
    rw [calls, pending, ← List.append_assoc, List.pairwise_append] at order
    refine ⟨?_, ?_, orderly.prompt⟩
    · rw [calls, inserted, ← List.append_assoc, List.pairwise_append, List.pairwise_cons]
      refine ⟨order.1, ⟨fun x listed => ?_, order.2.1⟩, fun x listed y among => ?_⟩
      · have known : x ∈ b.calls := by
          rw [calls, pending]
          exact List.mem_append_right _ (List.mem_append_right _ listed)
        have older := orderly.serial_lt known
        rcases lt_or_eq_of_le (behind x listed) with earlier | same
        · exact .inl earlier
        · exact .inr ⟨same, by omega⟩
      · rcases List.mem_cons.mp among with rfl | among
        · rcases List.mem_append.mp listed with done | waits
          · obtain ⟨call, made, rfl⟩ := List.mem_map.mp done
            have prompt := orderly.prompt call made
            exact .inl (by omega)
          · exact .inl (before x waits)
        · exact order.2.2 x listed y among
    · have once := orderly.once
      rw [calls, pending] at once
      rw [calls, inserted, List.range_succ]
      refine (List.Perm.trans ?_ (once.append_right [b.made]))
      rw [← serial]
      simp only [List.map_append, List.map_cons, List.append_assoc]
      refine List.Perm.append_left _ (List.Perm.append_left _ ?_)
      rw [List.cons_append, List.perm_comm, ← List.append_assoc, List.perm_comm]
      exact (List.perm_append_singleton ..).symm
  next full => exact ⟨orderly.order, orderly.once, orderly.prompt⟩

theorem Orderly.cancel (orderly : b.Orderly) (hit : Request F A → Bool) :
    (b.cancel hit).Orderly := by
  have order := orderly.order
  have once := orderly.once
  rcases find_splits b.pending hit with ⟨missing, kept, -⟩ | ⟨pre, r, post, split, found, erased, -⟩
  · refine ⟨?_, ?_, orderly.prompt⟩
    · simpa only [calls, Book.cancel, kept] using order
    · simpa only [calls, Book.cancel, kept, missing, Option.toList_none, List.append_nil] using once
  · rw [calls, split] at order once
    refine ⟨?_, ?_, orderly.prompt⟩
    · simp only [calls, Book.cancel, erased]
      refine order.sublist (List.Sublist.append_left ?_ _)
      exact List.Sublist.append_left (List.sublist_cons_self r post) pre
    · simp only [calls, Book.cancel, erased, found, Option.toList_some]
      refine List.Perm.trans (List.Perm.map _ ?_) once
      simp only [List.append_assoc]
      refine List.Perm.append_left _ (List.Perm.append_left _ ?_)
      rw [← List.append_assoc]
      exact List.perm_append_singleton ..

theorem Orderly.call (orderly : b.Orderly) : b.call.Orderly := by
  unfold Book.call
  split
  next => exact orderly
  next r rest pending =>
    split
    next due =>
      have same : (b.called ++ [(r, b.now)]).map Prod.fst ++ rest = b.calls := by
        rw [calls, pending, List.map_append, List.append_assoc]
        rfl
      refine ⟨by simpa only [calls, same] using orderly.order,
        by simpa only [calls, same] using orderly.once, fun call listed => ?_⟩
      rcases List.mem_append.mp listed with before | now
      · exact orderly.prompt call before
      · rw [List.mem_singleton.mp now]
        exact ⟨due, le_refl _⟩
    next => exact orderly

theorem Orderly.hardclock (orderly : b.Orderly) : Orderly { b with now := b.now + 1 } := by
  refine ⟨orderly.order, orderly.once, fun call listed => ?_⟩
  have prompt := orderly.prompt call listed
  exact ⟨prompt.1, by dsimp only; omega⟩

variable [DecidableEq F] [DecidableEq A]

/-- `timeout` is called for a later tick. -/
def Later (e : Event F A) : Prop :=
  match e with
  | .timeout _ _ t => 1 ≤ t
  | _ => True

end Book

end Irix.Callout
