import Irix.Inst.Byteio
import Irix.Lib.Compare

/-! # Comparing strings -/

namespace Irix.Inst

open Lib Lib.Compare

/-- The value of a `char`. -/
def char (b : UInt8) : Int := b.toBitVec.toInt

/-- The difference of the first two bytes that differ. -/
def strcmp : Str → Str → Int
  | [], [] => 0
  | [], b :: _ => -char b
  | a :: _, [] => char a
  | a :: p, b :: q => if a = b then strcmp p q else char a - char b

theorem char_inj {a b : UInt8} (same : char a = char b) : a = b :=
  UInt8.toBitVec_inj.mp (BitVec.eq_of_toInt_eq same)

theorem strcmp_flip (p q : Str) : strcmp p q = -strcmp q p := by
  induction p generalizing q with
  | nil => cases q <;> simp [strcmp]
  | cons a p ih => cases q with
    | nil => simp [strcmp]
    | cons b q =>
      simp only [strcmp]
      by_cases same : a = b
      · rw [if_pos same, if_pos same.symm]
        exact ih q
      · rw [if_neg same, if_neg (Ne.symm same)]
        omega

theorem strcmp_trans {p q r : Str} (whole : 0 ∉ p) (before : strcmp p q ≤ 0)
    (before' : strcmp q r ≤ 0) : strcmp p r ≤ 0 := by
  induction p generalizing q r with
  | nil =>
    rcases q with - | ⟨b, q⟩ <;> rcases r with - | ⟨c, r⟩ <;> simp only [strcmp] at *
    · exact before
    · exact before'
    · exact Int.le_refl 0
    · split at before'
      next same =>
        rw [← same]
        exact before
      next => omega
  | cons a p ih =>
    rcases q with - | ⟨b, q⟩ <;> rcases r with - | ⟨c, r⟩ <;> simp only [strcmp] at *
    · exact before
    · have zero : a = c → False := by
        rintro rfl
        have none : char a = char 0 := by
          rw [show char 0 = 0 from rfl]
          omega
        exact whole (char_inj none ▸ List.mem_cons_self ..)
      rw [if_neg zero]
      omega
    · split at before
      next same =>
        rw [same]
        exact before'
      next => omega
    · split at before
      next same =>
        subst same
        split at before'
        next same =>
          rw [if_pos same]
          exact ih (fun listed => whole (List.mem_cons_of_mem _ listed)) before before'
        next other =>
          rw [if_neg other]
          exact before'
      next other =>
        split at before'
        next same =>
          subst same
          rw [if_neg other]
          exact before
        next =>
          have apart : a ≠ c := by
            rintro rfl
            exact other (char_inj (by omega))
          rw [if_neg apart]
          omega

theorem lawful_strcmp : Lawful (fun p : Str => 0 ∉ p) strcmp :=
  ⟨fun p q _ _ => strcmp_flip p q, fun _ _ _ whole _ _ => strcmp_trans whole⟩

end Irix.Inst
