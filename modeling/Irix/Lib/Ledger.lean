import Irix.Lib.Bits
import Mathlib.Data.List.Nodup
import Mathlib.Logic.Function.Basic

/-! # Owners of the clear bits of a map

Each owner has a list of bit numbers.  `Held` says that owned bits are clear and
that nothing is owned twice; `Exact` adds that every clear bit of some area has
an owner.  A step moves one range between the map and one owner's list, where
the order of the list does not matter.
-/

namespace Lib.Ledger

open Lib.Bits

variable {ι : Type*}

structure Held (m : Map) (own : ι → List Nat) : Prop where
  nodup : ∀ i, (own i).Nodup
  disjoint : ∀ i j, i ≠ j → (own i).Disjoint (own j)
  clear : ∀ i, ∀ b ∈ own i, m b = false

/-- Every clear bit of the area has an owner. -/
def Complete (area : Nat → Prop) (m : Map) (own : ι → List Nat) : Prop :=
  ∀ b, area b → m b = false → ∃ i, b ∈ own i

structure Exact (area : Nat → Prop) (m : Map) (own : ι → List Nat) : Prop where
  held : Held m own
  complete : Complete area m own

/-- Owning by oneself: no bit twice, and all of them clear. -/
def Own (m : Map) (l : List Nat) : Prop := l.Nodup ∧ ∀ b ∈ l, m b = false

theorem Held.alone (held : Held m own) (i : ι) : Own m (own i) := ⟨held.nodup i, held.clear i⟩

section Step

variable [DecidableEq ι] {area : Nat → Prop} {m : Map} {own : ι → List Nat} {i : ι}
  {new : List Nat} {b n : Nat}

/-- Lists that own no more than before, and no bit twice, are still held. -/
theorem Held.shrink (held : Held m own) (nodup : new.Nodup) (subset : new ⊆ own i) :
    Held m (Function.update own i new) where
  nodup := fun j => by
    rcases eq_or_ne j i with rfl | other
    · rwa [Function.update_self]
    · rw [Function.update_of_ne other]
      exact held.nodup j
  disjoint := fun j k different => by
    have old := held.disjoint j k different
    rcases eq_or_ne j i with rfl | left
    · rw [Function.update_self, Function.update_of_ne different.symm]
      exact List.disjoint_of_subset_left subset old
    · rw [Function.update_of_ne left]
      rcases eq_or_ne k i with rfl | right
      · rw [Function.update_self]
        exact List.disjoint_of_subset_right subset old
      · rwa [Function.update_of_ne right]
  clear := fun j a mem => by
    rcases eq_or_ne j i with rfl | other
    · rw [Function.update_self] at mem
      exact held.clear j a (subset mem)
    · rw [Function.update_of_ne other] at mem
      exact held.clear j a mem

theorem Held.keep (held : Held m own) (perm : (own i).Perm new) :
    Held m (Function.update own i new) :=
  held.shrink (perm.nodup_iff.mp (held.nodup i)) perm.symm.subset

/-- Clearing a range of set bits and handing it to an owner. -/
theorem Held.take (held : Held m own) (free : ∀ k < n, m (b + k) = true)
    (perm : (own i ++ List.range' b n).Perm new) :
    Held (fill false m b n) (Function.update own i new) := by
  have fresh : ∀ j, ∀ a ∈ own j, a ∉ List.range' b n := by
    intro j a mem range
    rw [List.mem_range'_1] at range
    have := free (a - b) (by omega)
    rw [Nat.add_sub_cancel' range.1, held.clear j a mem] at this
    exact Bool.false_ne_true this
  have member : ∀ a, a ∈ new ↔ a ∈ own i ∨ a ∈ List.range' b n := fun a => by
    rw [← perm.mem_iff, List.mem_append]
  refine ⟨fun j => ?_, fun j k different => ?_, fun j a mem => ?_⟩
  · rcases eq_or_ne j i with rfl | other
    · rw [Function.update_self, ← perm.nodup_iff]
      exact List.Nodup.append (held.nodup j) List.nodup_range' fun a mem => fresh j a mem
    · rw [Function.update_of_ne other]
      exact held.nodup j
  · have old := held.disjoint j k different
    rcases eq_or_ne j i with rfl | left
    · rw [Function.update_self, Function.update_of_ne different.symm]
      intro a mem mem'
      rcases (member a).mp mem with was | range
      · exact old was mem'
      · exact fresh k a mem' range
    · rw [Function.update_of_ne left]
      rcases eq_or_ne k i with rfl | right
      · rw [Function.update_self]
        intro a mem mem'
        rcases (member a).mp mem' with was | range
        · exact old mem was
        · exact fresh j a mem range
      · rwa [Function.update_of_ne right]
  · by_cases range : a ∈ List.range' b n
    · rw [List.mem_range'_1] at range
      exact fill_inside range.1 range.2
    · have was : ∃ k, a ∈ own k := by
        rcases eq_or_ne j i with rfl | other
        · rw [Function.update_self] at mem
          exact ⟨j, ((member a).mp mem).resolve_right range⟩
        · rw [Function.update_of_ne other] at mem
          exact ⟨j, mem⟩
      obtain ⟨k, mem⟩ := was
      rw [List.mem_range'_1] at range
      rw [fill_outside (by omega)]
      exact held.clear k a mem

/-- Taking a range from an owner and setting its bits. -/
theorem Held.give (held : Held m own) (perm : (own i).Perm (new ++ List.range' b n)) :
    Held (fill true m b n) (Function.update own i new) := by
  have nodup := perm.nodup_iff.mp (held.nodup i)
  have subset : new ⊆ own i := fun a mem => perm.symm.subset (List.mem_append_left _ mem)
  have kept := held.shrink (List.Nodup.of_append_left nodup) subset
  have gone : ∀ j, ∀ a ∈ Function.update own i new j, a ∉ List.range' b n := by
    intro j a mem range
    rcases eq_or_ne j i with rfl | other
    · rw [Function.update_self] at mem
      exact List.disjoint_of_nodup_append nodup mem range
    · rw [Function.update_of_ne other] at mem
      exact held.disjoint j i other mem (perm.symm.subset (List.mem_append_right _ range))
  refine ⟨kept.nodup, kept.disjoint, fun j a mem => ?_⟩
  have outside := gone j a mem
  rw [List.mem_range'_1] at outside
  rw [fill_outside (by omega)]
  exact kept.clear j a mem

theorem Complete.keep (complete : Complete area m own) (perm : (own i).Perm new) :
    Complete area m (Function.update own i new) := by
  intro a inside clear
  obtain ⟨j, mem⟩ := complete a inside clear
  rcases eq_or_ne j i with rfl | other
  · exact ⟨j, by rw [Function.update_self]; exact perm.subset mem⟩
  · exact ⟨j, by rwa [Function.update_of_ne other]⟩

theorem Complete.take (complete : Complete area m own)
    (perm : (own i ++ List.range' b n).Perm new) :
    Complete area (fill false m b n) (Function.update own i new) := by
  intro a inside clear
  by_cases range : b ≤ a ∧ a < b + n
  · refine ⟨i, ?_⟩
    rw [Function.update_self]
    exact perm.subset (List.mem_append_right _ (List.mem_range'_1.mpr range))
  · rw [fill_outside (by omega)] at clear
    obtain ⟨j, mem⟩ := complete a inside clear
    rcases eq_or_ne j i with rfl | other
    · exact ⟨j, by rw [Function.update_self]; exact perm.subset (List.mem_append_left _ mem)⟩
    · exact ⟨j, by rwa [Function.update_of_ne other]⟩

theorem Complete.give (complete : Complete area m own)
    (perm : (own i).Perm (new ++ List.range' b n)) :
    Complete area (fill true m b n) (Function.update own i new) := by
  intro a inside clear
  by_cases range : b ≤ a ∧ a < b + n
  · rw [fill_inside range.1 range.2] at clear
    exact absurd clear (by simp)
  · rw [fill_outside (by omega)] at clear
    obtain ⟨j, mem⟩ := complete a inside clear
    rcases eq_or_ne j i with rfl | other
    · refine ⟨j, ?_⟩
      rw [Function.update_self]
      rcases List.mem_append.mp (perm.subset mem) with stays | leaves
      · exact stays
      · rw [List.mem_range'_1] at leaves
        exact absurd leaves range
    · exact ⟨j, by rwa [Function.update_of_ne other]⟩

end Step

/-! ## Moves of one owner -/

/-- What one owner does to the map and to its own list, step by step.  A leaky
    owner may also lose track of clear bits. -/
inductive Moves (leaky : Bool) : Map → List Nat → Map → List Nat → Prop where
  | keep {m : Map} {l new : List Nat} (perm : l.Perm new) : Moves leaky m l m new
  | take {m : Map} {l new : List Nat} {b n : Nat} (free : ∀ k < n, m (b + k) = true)
      (perm : (l ++ List.range' b n).Perm new) : Moves leaky m l (fill false m b n) new
  | give {m : Map} {l new : List Nat} {b n : Nat} (perm : l.Perm (new ++ List.range' b n)) :
      Moves leaky m l (fill true m b n) new
  | lose {m : Map} {l new lost : List Nat} (may : leaky = true) (perm : l.Perm (new ++ lost)) :
      Moves leaky m l m new
  | trans {m m' m'' : Map} {l l' l'' : List Nat} (first : Moves leaky m l m' l')
      (second : Moves leaky m' l' m'' l'') : Moves leaky m l m'' l''

section Moves

variable [DecidableEq ι] {area : Nat → Prop} {leaky : Bool} {m m' : Map} {own : ι → List Nat}
  {l l' : List Nat}

theorem Moves.rfl : Moves leaky m l m l := .keep (List.Perm.refl l)

theorem Moves.held (moves : Moves leaky m l m' l') {i : ι}
    (held : Held m (Function.update own i l)) : Held m' (Function.update own i l') := by
  induction moves with
  | keep perm =>
      have next := held.keep (i := i) (by simpa only [Function.update_self] using perm)
      rwa [Function.update_idem] at next
  | take free perm =>
      have next := held.take (i := i) free (by simpa only [Function.update_self] using perm)
      rwa [Function.update_idem] at next
  | give perm =>
      have next := held.give (i := i) (by simpa only [Function.update_self] using perm)
      rwa [Function.update_idem] at next
  | lose _ perm =>
      have nodup := held.nodup i
      rw [Function.update_self, perm.nodup_iff] at nodup
      have subset := perm.symm.subset
      have next := held.shrink (i := i) (List.Nodup.of_append_left nodup) (by
        rw [Function.update_self]
        exact fun a mem => subset (List.mem_append_left _ mem))
      rwa [Function.update_idem] at next
  | trans _ _ first second => exact second (first held)

/-- An owner that is not leaky keeps the ledger complete. -/
theorem Moves.complete (moves : Moves false m l m' l') {i : ι}
    (complete : Complete area m (Function.update own i l)) :
    Complete area m' (Function.update own i l') := by
  induction moves with
  | keep perm =>
      have next := complete.keep (i := i) (by simpa only [Function.update_self] using perm)
      rwa [Function.update_idem] at next
  | take free perm =>
      have next := complete.take (i := i) (by simpa only [Function.update_self] using perm)
      rwa [Function.update_idem] at next
  | give perm =>
      have next := complete.give (i := i) (by simpa only [Function.update_self] using perm)
      rwa [Function.update_idem] at next
  | lose may _ => cases may
  | trans _ _ first second => exact second (first complete)

theorem Own.held (own : Own m l) : Held m (Function.update (fun _ : Unit => []) () l) where
  nodup := fun _ => by
    rw [Function.update_self]
    exact own.1
  disjoint := fun _ _ different => absurd rfl different
  clear := fun _ => by
    rw [Function.update_self]
    exact own.2

theorem Moves.alone (moves : Moves leaky m l m' l') (own : Own m l) : Own m' l' := by
  have held := (moves.held own.held).alone ()
  rwa [Function.update_self] at held

end Moves

end Lib.Ledger
