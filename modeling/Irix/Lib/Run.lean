import Mathlib.Tactic.Common

/-! # Runs of a step function

A run is a list of actions fed to a step function.  Most invariants of a
program hold along the runs whose every step meets some side condition, so the
induction is stated once for such runs.
-/

namespace Lib.Run

universe u v

variable {σ : Type u} {α : Type v}

/-- The state after the actions of a list, first to last. -/
def exec (step : σ → α → σ) : σ → List α → σ
  | s, [] => s
  | s, a :: as => exec step (step s a) as

/-- Every action of the run meets `ok` in the state it is applied to. -/
def Along (step : σ → α → σ) (ok : σ → α → Prop) : σ → List α → Prop
  | _, [] => True
  | s, a :: as => ok s a ∧ Along step ok (step s a) as

instance Along.decidable (step : σ → α → σ) (ok : σ → α → Prop) [∀ s a, Decidable (ok s a)] :
    ∀ s as, Decidable (Along step ok s as)
  | _, [] => isTrue trivial
  | s, a :: as =>
      have := Along.decidable step ok (step s a) as
      inferInstanceAs (Decidable (ok s a ∧ Along step ok (step s a) as))

section

variable {step : σ → α → σ} {ok : σ → α → Prop}

@[simp] theorem exec_nil (s : σ) : exec step s [] = s := rfl

@[simp] theorem exec_cons (s : σ) (a : α) (as : List α) :
    exec step s (a :: as) = exec step (step s a) as := rfl

theorem exec_append (s : σ) (as bs : List α) :
    exec step s (as ++ bs) = exec step (exec step s as) bs := by
  induction as generalizing s with
  | nil => rfl
  | cons a as ih => exact ih (step s a)

theorem along_append {s : σ} {as bs : List α} :
    Along step ok s (as ++ bs) ↔ Along step ok s as ∧ Along step ok (exec step s as) bs := by
  induction as generalizing s with
  | nil => simp only [List.nil_append, Along, exec, true_and]
  | cons a as ih => simp only [List.cons_append, Along, exec, ih, and_assoc]

theorem along_of_mem {s : σ} {as : List α} (allowed : ∀ s, ∀ a ∈ as, ok s a) :
    Along step ok s as := by
  induction as generalizing s with
  | nil => trivial
  | cons a as ih =>
      exact ⟨allowed s a List.mem_cons_self, ih fun s b listed =>
        allowed s b (List.mem_cons_of_mem a listed)⟩

/-- What every allowed step keeps, every allowed run keeps. -/
theorem invariant {inv : σ → Prop} (keep : ∀ s a, inv s → ok s a → inv (step s a))
    {s : σ} {as : List α} (start : inv s) (along : Along step ok s as) :
    inv (exec step s as) := by
  induction as generalizing s with
  | nil => exact start
  | cons a as ih => exact ih (keep s a start along.1) along.2

/-- What an allowed step does from any state with the invariant, every step of an
    allowed run does. -/
theorem along_of_invariant {inv : σ → Prop} {good : σ → α → Prop}
    (keep : ∀ s a, inv s → ok s a → inv (step s a)) (good_of : ∀ s a, inv s → ok s a → good s a)
    {s : σ} {as : List α} (start : inv s) (along : Along step ok s as) : Along step good s as := by
  induction as generalizing s with
  | nil => trivial
  | cons a as ih =>
      exact ⟨good_of s a start along.1, ih (keep s a start along.1) along.2⟩

/-- What every allowed step keeps of a relation to another machine, every
    allowed run keeps. -/
theorem simulation {τ : Type*} {spec : τ → α → τ} {rel : σ → τ → Prop}
    (keep : ∀ s u a, rel s u → ok s a → rel (step s a) (spec u a))
    {s : σ} {u : τ} {as : List α} (start : rel s u) (along : Along step ok s as) :
    rel (exec step s as) (exec spec u as) := by
  induction as generalizing s u with
  | nil => exact start
  | cons a as ih => exact ih (keep s u a start along.1) along.2

/-- Where a step that is not allowed does harm, the runs without harm are those all of
    whose steps are allowed. -/
theorem along_iff {inv good : σ → Prop} (keep : ∀ s a, inv s → ok s a → inv (step s a))
    (good_of : ∀ s, inv s → good s) (harm : ∀ s a, inv s → ¬ ok s a → ¬ good (step s a))
    {s : σ} (start : inv s) (as : List α) :
    (∀ bs cs, as = bs ++ cs → good (exec step s bs)) ↔ Along step ok s as := by
  constructor
  · intro always
    induction as generalizing s with
    | nil => trivial
    | cons a as ih =>
        have allowed : ok s a := by
          by_contra forbidden
          exact harm s a start forbidden (always [a] as rfl)
        exact ⟨allowed, ih (keep s a start allowed) fun bs cs split => always (a :: bs) cs
          (congrArg (a :: ·) split)⟩
  · rintro along bs cs rfl
    exact good_of _ (invariant keep start (along_append.mp along).1)

/-- An invariant that needs no side condition holds after every run. -/
theorem invariant_always {inv : σ → Prop} (keep : ∀ s a, inv s → inv (step s a))
    {s : σ} (start : inv s) (as : List α) : inv (exec step s as) := by
  induction as generalizing s with
  | nil => exact start
  | cons a as ih => exact ih (keep s a start)

end

/-! ## Steps that can fail -/

/-- Every step of the run is made, and is a good one. -/
def Steady (step : σ → α → Option σ) (good : σ → α → σ → Prop) : σ → List α → Prop
  | _, [] => True
  | s, a :: as => ∃ s', step s a = some s' ∧ good s a s' ∧ Steady step good s' as

/-- Every action meets `ok` in the state it is applied to, as far as the run goes. -/
def Permitted (step : σ → α → Option σ) (ok : σ → α → Prop) : σ → List α → Prop
  | _, [] => True
  | s, a :: as => ok s a ∧ ∀ s', step s a = some s' → Permitted step ok s' as

instance Permitted.decidable (step : σ → α → Option σ) (ok : σ → α → Prop)
    [∀ s a, Decidable (ok s a)] : ∀ s as, Decidable (Permitted step ok s as)
  | _, [] => isTrue trivial
  | s, a :: as =>
      have := fun s' => Permitted.decidable step ok s' as
      inferInstanceAs (Decidable (ok s a ∧ ∀ s' ∈ step s a, Permitted step ok s' as))

/-- Where the good steps are those that are permitted, so are the runs. -/
theorem steady_iff {step : σ → α → Option σ} {good : σ → α → σ → Prop} {ok : σ → α → Prop}
    {inv : σ → Prop} (rule : ∀ s a, inv s → (ok s a ↔ ∃ s', step s a = some s' ∧ good s a s'))
    (keep : ∀ s a s', inv s → ok s a → step s a = some s' → inv s') {s : σ} (start : inv s)
    (as : List α) : Steady step good s as ↔ Permitted step ok s as := by
  induction as generalizing s with
  | nil => exact Iff.rfl
  | cons a as ih =>
      constructor
      · rintro ⟨s', done, fine, steady⟩
        have permitted := (rule s a start).mpr ⟨s', done, fine⟩
        refine ⟨permitted, fun s'' done' => ?_⟩
        obtain rfl := Option.some.inj (done.symm.trans done')
        exact (ih (keep s a s' start permitted done)).mp steady
      · rintro ⟨permitted, rest⟩
        obtain ⟨s', done, fine⟩ := (rule s a start).mp permitted
        exact ⟨s', done, fine, (ih (keep s a s' start permitted done)).mpr (rest s' done)⟩

end Lib.Run
