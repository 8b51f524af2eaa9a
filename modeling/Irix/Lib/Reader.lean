import Mathlib.Algebra.GroupWithZero.Nat
import Mathlib.Data.Nat.Basic
import Mathlib.Tactic.Common

/-! # Readers of a stream

A reader takes items from the front of a stream, or fails.  `Reads p w a` says
that it takes `w` and returns `a`, whatever comes behind.  `Spends p e size` bounds
what a result can be by what is taken for it.
-/

namespace Lib

def Reader (β α : Type) : Type := List β → Option (α × List β)

namespace Reader

variable {β α γ : Type}

protected def pure (a : α) : Reader β α := fun s => some (a, s)

protected def bind (p : Reader β α) (f : α → Reader β γ) : Reader β γ := fun s =>
  match p s with
  | none => none
  | some (a, rest) => f a rest

instance : Monad (Reader β) where
  pure := Reader.pure
  bind := Reader.bind

/-- Fail unless the condition holds. -/
def check (c : Bool) : Reader β Unit := fun s => if c then some ((), s) else none

/-- The results of a reader one after another. -/
def times (p : Reader β α) : Nat → Reader β (List α)
  | 0 => pure []
  | n + 1 => do
    let a ← p
    let l ← times p n
    pure (a :: l)

/-! ## What a reader takes -/

def Reads (p : Reader β α) (w : List β) (a : α) : Prop := ∀ rest, p (w ++ rest) = some (a, rest)

section

variable {p : Reader β α} {f : α → Reader β γ} {w w' : List β} {a : α} {b : γ}

theorem reads_pure (a : α) : Reads (pure a : Reader β α) [] a := fun _ => rfl

theorem Reads.bind (first : Reads p w a) (next : Reads (f a) w' b) :
    Reads (p >>= f) (w ++ w') b := by
  intro rest
  show Reader.bind p f (w ++ w' ++ rest) = _
  rw [List.append_assoc, Reader.bind, first]
  exact next rest

/-- What is behind is left to the rest. -/
theorem Reads.run (first : Reads p w a) (s : List β) : (p >>= f) (w ++ s) = f a s := by
  show Reader.bind p f (w ++ s) = _
  rw [Reader.bind, first]

theorem check_run {c : Bool} (holds : c = true) (q : Reader β α) (s : List β) :
    (do check c; q : Reader β α) s = q s := by
  show Reader.bind (check c) (fun _ => q) s = _
  rw [Reader.bind, check, if_pos holds]

/-- A result made of what a reader returns. -/
theorem Reads.pure (first : Reads p w a) (f : α → γ) :
    Reads (do let a ← p; Pure.pure (f a)) w (f a) := by
  have both := first.bind (f := fun a => Pure.pure (f a)) (reads_pure (f a))
  rw [List.append_nil] at both
  exact both

theorem reads_check {c : Bool} (holds : c = true) {q : Reader β α} (next : Reads q w a) :
    Reads (do check c; q) w a := by
  have first : Reads (check c : Reader β Unit) [] () := fun rest => if_pos holds
  exact first.bind next

theorem reads_times {ι : Type} {l : List ι} {v : ι → α} {w : ι → List β}
    (each : ∀ x ∈ l, Reads p (w x) (v x)) : Reads (times p l.length) (l.flatMap w) (l.map v) := by
  induction l with
  | nil => exact reads_pure []
  | cons x l ih =>
    rw [List.flatMap_cons]
    exact (each x (List.mem_cons_self ..)).bind
      ((ih fun y listed => each y (List.mem_cons_of_mem _ listed)).pure (v x :: ·))

end

/-! ## What a reader spends -/

/-- A result of size `size a` takes as many items, less `e`. -/
def Spends (p : Reader β α) (e : Nat) (size : α → Nat) : Prop :=
  ∀ s a rest, p s = some (a, rest) → size a + rest.length ≤ e + s.length

section

variable {p : Reader β α} {f : α → Reader β γ} {e : Nat} {m : α → Nat} {size : γ → Nat}

theorem spends_pure {c : γ} (small : size c ≤ e) : Spends (pure c : Reader β γ) e size := by
  rintro s a rest ⟨⟩
  exact Nat.add_le_add_right small _

theorem Spends.bind (first : Spends p e m) (next : ∀ a, Spends (f a) (m a) size) :
    Spends (p >>= f) e size := by
  intro s b rest result
  change Reader.bind p f s = _ at result
  rw [Reader.bind] at result
  split at result
  next => cases result
  next a rest' taken => exact Nat.le_trans (next a rest' b rest result) (first s a rest' taken)

theorem spends_check {c : Bool} {q : Reader β γ} (next : c = true → Spends q e size) :
    Spends (do check c; q) e size := by
  intro s b rest result
  change Reader.bind (check c) (fun _ => q) s = _ at result
  rw [Reader.bind, check] at result
  cases holds : c with
  | false => simp [holds] at result
  | true =>
    simp only [holds, if_true] at result
    exact next holds s b rest result

theorem spends_times {m : α → Nat} (each : ∀ e, Spends p e fun a => e + m a) (n : Nat) (e : Nat) :
    Spends (times p n) e fun l => e + (l.map m).sum := by
  induction n generalizing e with
  | zero => exact spends_pure (by simp)
  | succ n ih =>
    refine (each e).bind fun a => (ih (e + m a)).bind fun l => spends_pure ?_
    simp only [List.map_cons, List.sum_cons]
    omega

end

end Reader

end Lib
