import Irix.Lib.Bits
import Mathlib.Algebra.BigOperators.Group.Finset.Basic
import Mathlib.Algebra.Order.BigOperators.Group.Multiset
import Mathlib.Data.List.Count

/-! # Claims counted with a bit map

A bit map and a list of repeats stand for a list of claims: the bit of a number
is set if it is claimed, and each further claim of it is in the list.
-/

namespace Lib

/-- Over the numbers of `area`, the map and the repeats stand for the claims,
    which are of `n` different numbers. -/
structure Tally (area : Nat → Prop) (map : Bits.Map) (repeats claims : List Nat) (n : Int) : Prop where
  inside : ∀ b ∈ claims, area b
  bits : ∀ b, area b → (map b = true ↔ b ∈ claims)
  count : ∀ b, repeats.count b = claims.count b - 1
  distinct : n = claims.toFinset.card

/-- How many claims are of a number that was claimed before. -/
def surplus (claims : List Nat) : Nat := claims.length - claims.dedup.length

theorem surplus_concat (claims : List Nat) (b : Nat) :
    surplus (claims ++ [b]) = surplus claims + if b ∈ claims then 1 else 0 := by
  have fewer : claims.toFinset.card ≤ claims.length := List.toFinset_card_le claims
  have joined : (claims ++ [b]).toFinset = insert b claims.toFinset := by
    rw [List.toFinset_append, List.toFinset_cons, List.toFinset_nil, insert_empty_eq,
      Finset.union_comm, ← Finset.insert_eq]
  unfold surplus
  rw [← List.card_toFinset, ← List.card_toFinset, joined, List.length_append, List.length_singleton]
  by_cases mem : b ∈ claims
  · rw [if_pos mem, Finset.insert_eq_of_mem (List.mem_toFinset.mpr mem)]
    omega
  · rw [if_neg mem, Finset.card_insert_of_notMem (fun listed => mem (List.mem_toFinset.mp listed))]
    omega

theorem surplus_append (claims more : List Nat) : surplus claims ≤ surplus (claims ++ more) := by
  induction more using List.reverseRecOn with
  | nil => rw [List.append_nil]
  | append_singleton more b ih =>
      rw [← List.append_assoc, surplus_concat]
      omega

namespace Tally

variable {area : Nat → Prop} {map : Bits.Map} {repeats claims : List Nat} {n : Int} {b : Nat}

theorem empty (clear : ∀ b, area b → map b = false) : Tally area map [] [] 0 :=
  ⟨fun _ mem => (by cases mem), fun b here => by simp [clear b here], fun _ => rfl, rfl⟩

/-- Only what is claimed is repeated. -/
theorem mem_claims (tally : Tally area map repeats claims n) (mem : b ∈ repeats) : b ∈ claims := by
  have many := List.count_pos_iff.mpr mem
  rw [tally.count] at many
  exact List.count_pos_iff.mp (by omega)

/-- All claims but the first of each number are repeats. -/
theorem length_repeats (tally : Tally area map repeats claims n) :
    repeats.length = surplus claims := by
  suffices total : repeats.length + claims.toFinset.card = claims.length by
    rw [surplus, ← List.card_toFinset]
    omega
  have listed : ∑ b ∈ claims.toFinset, (repeats : Multiset Nat).count b = repeats.length :=
    Multiset.sum_count_eq_card fun b mem => List.mem_toFinset.mpr (tally.mem_claims mem)
  have claimed : ∑ b ∈ claims.toFinset, (claims : Multiset Nat).count b = claims.length :=
    Multiset.sum_count_eq_card fun b mem => List.mem_toFinset.mpr mem
  rw [← listed, ← claimed, Finset.card_eq_sum_ones, ← Finset.sum_add_distrib]
  apply Finset.sum_congr rfl
  intro b mem
  have positive := List.count_pos_iff.mpr (List.mem_toFinset.mp mem)
  rw [Multiset.coe_count, Multiset.coe_count, tally.count]
  omega

theorem reorder {repeats' : List Nat} (tally : Tally area map repeats claims n)
    (perm : repeats'.Perm repeats) : Tally area map repeats' claims n :=
  ⟨tally.inside, tally.bits, fun b => (perm.count_eq b).trans (tally.count b), tally.distinct⟩

/-- The first claim of a number sets its bit. -/
theorem first (tally : Tally area map repeats claims n) (here : area b) (clear : map b = false) :
    Tally area (Bits.fill true map b 1) repeats (claims ++ [b]) (n + 1) := by
  have fresh : b ∉ claims := fun mem => by
    rw [(tally.bits b here).mpr mem] at clear
    cases clear
  constructor
  · intro a mem
    rcases List.mem_append.mp mem with old | new
    · exact tally.inside a old
    · rw [List.mem_singleton.mp new]
      exact here
  · intro a inside
    rw [List.mem_append, List.mem_singleton]
    by_cases same : a = b
    · rw [same, Bits.fill_inside (Nat.le_refl b) (Nat.lt_succ_self b)]
      exact iff_of_true rfl (Or.inr rfl)
    · rw [Bits.fill_outside (by omega), tally.bits a inside]
      exact (or_iff_left same).symm
  · intro a
    rw [List.count_append, tally.count]
    by_cases same : a = b
    · rw [same, List.count_eq_zero_of_not_mem fresh, List.count_singleton_self]
    · rw [List.count_eq_zero_of_not_mem (fun mem => same (List.mem_singleton.mp mem)), Nat.add_zero]
  · rw [List.toFinset_append, List.toFinset_cons, List.toFinset_nil, insert_empty_eq,
      Finset.union_comm, ← Finset.insert_eq,
      Finset.card_insert_of_notMem (fun mem => fresh (List.mem_toFinset.mp mem)), tally.distinct]
    rfl

/-- A further claim of a number is entered among the repeats. -/
theorem again {repeats' : List Nat} (tally : Tally area map repeats claims n) (here : area b)
    (set : map b = true) (entered : repeats'.Perm (b :: repeats)) :
    Tally area map repeats' (claims ++ [b]) n := by
  have old : b ∈ claims := (tally.bits b here).mp set
  have same : ∀ a, a ∈ claims ++ [b] ↔ a ∈ claims := by
    intro a
    rw [List.mem_append, List.mem_singleton]
    constructor
    · rintro (mem | rfl)
      · exact mem
      · exact old
    · exact Or.inl
  constructor
  · intro a mem
    exact tally.inside a ((same a).mp mem)
  · intro a inside
    rw [tally.bits a inside, same]
  · intro a
    rw [entered.count_eq, List.count_cons, List.count_append, List.count_singleton, tally.count]
    have positive := List.count_pos_iff.mpr old
    by_cases equal : b = a
    · subst equal
      simp only [BEq.rfl, if_true]
      omega
    · have apart : (b == a) = false := beq_false_of_ne equal
      simp only [apart, Bool.false_eq_true, if_false, Nat.add_zero]
  · rw [tally.distinct]
    congr 2
    apply Finset.ext
    intro a
    rw [List.mem_toFinset, List.mem_toFinset, same]

/-- A claim of a number that is repeated is withdrawn. -/
theorem less {repeats' : List Nat} (tally : Tally area map repeats claims n) (mem : b ∈ repeats)
    (taken : repeats.Perm (b :: repeats')) : Tally area map repeats' (claims.erase b) n := by
  have many : 2 ≤ claims.count b := by
    have positive := List.count_pos_iff.mpr mem
    rw [tally.count] at positive
    omega
  have same : ∀ a, a ∈ claims.erase b ↔ a ∈ claims := by
    intro a
    by_cases equal : a = b
    · subst equal
      refine iff_of_true (List.count_pos_iff.mp ?_) (tally.mem_claims mem)
      rw [List.count_erase_self]
      omega
    · exact List.mem_erase_of_ne equal
  constructor
  · intro a here
    exact tally.inside a ((same a).mp here)
  · intro a inside
    rw [tally.bits a inside, same]
  · intro a
    have counted := taken.count_eq a
    rw [tally.count, List.count_cons] at counted
    rw [List.count_erase]
    omega
  · rw [tally.distinct]
    congr 2
    apply Finset.ext
    intro a
    rw [List.mem_toFinset, List.mem_toFinset, same]

/-- The last claim of a number clears its bit. -/
theorem last (tally : Tally area map repeats claims n) (here : area b) (set : map b = true)
    (single : b ∉ repeats) :
    Tally area (Bits.fill false map b 1) repeats (claims.erase b) (n - 1) := by
  have mem : b ∈ claims := (tally.bits b here).mp set
  have once : claims.count b = 1 := by
    have none := List.count_eq_zero_of_not_mem single
    have positive := List.count_pos_iff.mpr mem
    rw [tally.count] at none
    omega
  have gone : b ∉ claims.erase b := by
    rw [← List.count_eq_zero, List.count_erase_self, once]
  have others : ∀ a, a ≠ b → (a ∈ claims.erase b ↔ a ∈ claims) :=
    fun a different => List.mem_erase_of_ne different
  constructor
  · intro a left
    exact tally.inside a (List.mem_of_mem_erase left)
  · intro a inside
    by_cases same : a = b
    · rw [same, Bits.fill_inside (Nat.le_refl b) (Nat.lt_succ_self b)]
      exact iff_of_false (by decide) gone
    · rw [Bits.fill_outside (by omega), tally.bits a inside, others a same]
  · intro a
    rw [tally.count, List.count_erase]
    by_cases same : b = a
    · subst same
      rw [once, if_pos (beq_self_eq_true b)]
    · rw [if_neg (by simpa using same), Nat.sub_zero]
  · have split : claims.toFinset = insert b (claims.erase b).toFinset := by
      apply Finset.ext
      intro a
      rw [Finset.mem_insert, List.mem_toFinset, List.mem_toFinset]
      by_cases same : a = b
      · rw [same]
        exact iff_of_true mem (Or.inl rfl)
      · rw [others a same]
        exact (or_iff_right same).symm
    rw [tally.distinct, split,
      Finset.card_insert_of_notMem (fun left => gone (List.mem_toFinset.mp left))]
    push_cast
    omega

/-- Withdrawing a claim nobody made changes nothing. -/
theorem absent (tally : Tally area map repeats claims n) (here : area b) (clear : map b = false) :
    claims.erase b = claims := by
  apply List.erase_of_not_mem
  intro mem
  rw [(tally.bits b here).mpr mem] at clear
  cases clear

/-- The number of different claims is the number of bits set. -/
theorem card_bits [DecidablePred area] (tally : Tally area map repeats claims n) {bound : Nat}
    (below : ∀ b, area b → b < bound) :
    n = ((Finset.range bound).filter fun b => area b ∧ map b = true).card := by
  rw [tally.distinct]
  congr 2
  apply Finset.ext
  intro b
  rw [List.mem_toFinset, Finset.mem_filter, Finset.mem_range]
  constructor
  · intro mem
    have here := tally.inside b mem
    exact ⟨below b here, here, (tally.bits b here).mpr mem⟩
  · rintro ⟨_, here, set⟩
    exact (tally.bits b here).mp set

end Tally

end Lib
