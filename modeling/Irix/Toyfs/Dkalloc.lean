import Irix.ExtentFs.Dinode

/-! # The block allocator of the toy filesystem library

`efs_dkalloc`, `efs_adj_dkalloc` and `efs_dkfree` of the user level library that
builds volumes.  Its search clears the bits of a run as it meets them and sets
them again when the run turns out to be too short.
-/

namespace Irix.Toyfs

open Lib ExtentFs

/-- `struct efs_toyfs` and the volume under it, which is seen in units of the
    size of an extent.  A set bit of the bit map is a free block. -/
structure EfsToyfs where
  fsFirstcg : Nat
  fsTfree : Int
  bbitmap : Bits.Map
  nbbitmap : Nat
  brotor : Nat
  disk : Scatter.Store Extent

/-- `l<<BBShift`, an int -/
def bcount (l : Nat) : Int := Int.bmod (bbtob l) (2 ^ 32)

/-- Whether `toy_ngetblk` comes back with a buffer.  `core` holds the sizes for
    which there is memory or an idle buffer; a negative size is one no
    allocation has room for. -/
def toyNgetblk (core : Nat → Bool) (bcount : Int) : Bool :=
  decide (0 ≤ bcount) && core bcount.toNat

/-- Clear a buffer of block `bn` and write it out. -/
def bzero (disk : Scatter.Store Extent) (bn : Nat) (bcount : Int) : Scatter.Store Extent :=
  Scatter.put disk (bn * extsPerbb) (List.replicate (bcount.toNat / sizeofExtent) Extent.null)

def efsDkfree (esp : EfsToyfs) (bn l : Nat) : EfsToyfs :=
  { esp with
    fsTfree := esp.fsTfree + l
    bbitmap := bfset esp.bbitmap bn l }

/-- Take block `bn` if it is free. -/
def efsAdjDkalloc (core : Nat → Bool) (esp : EfsToyfs) (bn : Nat) : Bool × EfsToyfs :=
  if esp.bbitmap bn then
    let esp := { esp with bbitmap := bclr esp.bbitmap bn }
    if toyNgetblk core bbsize then
      (true, { esp with disk := bzero esp.disk bn bbsize, fsTfree := esp.fsTfree - 1 })
    else (false, esp)
  else (false, esp)

/-- The loop of `efs_nextfree` over the `left` blocks from `fb` on, with `xb`
    the first block of the current run. -/
def nextfreeLoop (l : Nat) : (left : Nat) → (b : Bits.Map) → (fb xb : Nat) → Nat × Bits.Map
  | 0, b, fb, xb => (0, if xb ≠ 0 then bfset b xb (fb - xb) else b)
  | left + 1, b, fb, xb =>
      if b fb then
        let xb := if xb = 0 then fb else xb
        let b := bclr b fb
        if l ≤ fb - xb then (xb, b) else nextfreeLoop l left b (fb + 1) xb
      else nextfreeLoop l left (if xb ≠ 0 then bfset b xb (fb - xb) else b) (fb + 1) 0

/-- look for a free run of length l in bitmap b, starting at fb (ending at nb). -/
def efsNextfree (b : Bits.Map) (nb fb l : Nat) : Nat × Bits.Map :=
  nextfreeLoop (l - 1) (nb - (fb + 1)) b (fb + 1) 0

/-- Where a search starts. -/
def EfsToyfs.rotor (esp : EfsToyfs) : Nat :=
  if esp.fsFirstcg ≤ esp.brotor ∧ esp.brotor < esp.nbbitmap then esp.brotor else esp.fsFirstcg

/-- The `i` rounds of `efs_dkalloc` that are left. -/
def dkallocLoop (l : Nat) : (i bn : Nat) → EfsToyfs → Nat × EfsToyfs
  | 0, bn, esp => (bn, esp)
  | i + 1, _, esp =>
      let esp := { esp with brotor := esp.rotor }
      let (bn, bbitmap) := efsNextfree esp.bbitmap esp.nbbitmap esp.brotor l
      let esp := { esp with bbitmap := bbitmap }
      if 0 < bn then (bn, { esp with fsTfree := esp.fsTfree - l })
      else if esp.brotor ≤ esp.fsFirstcg then (bn, esp)
      else dkallocLoop l i bn esp

/-- Allocate `l` blocks; 0 is no block. -/
def efsDkalloc (core : Nat → Bool) (esp : EfsToyfs) (l : Nat) : Nat × EfsToyfs :=
  if esp.fsTfree ≤ 0 then (0, esp)
  else
    let (bn, esp) := dkallocLoop l 2 0 esp
    if toyNgetblk core (bcount l) then
      (bn, { esp with disk := bzero esp.disk bn (bcount l), brotor := bn })
    else (0, esp)

/-! ## The search -/

section Search

variable {l left nb fb : Nat} {m : Bits.Map}

theorem bclr_fill {x n : Nat} : bclr (Bits.fill false m x n) (x + n) = Bits.fill false m x (n + 1) := by
  funext i
  simp only [bclr, Bits.fill]
  grind

/-- The bits of a broken run come back. -/
theorem bfset_fill {x n : Nat} (set : ∀ k < n, m (x + k) = true) :
    bfset (Bits.fill false m x n) x n = m := by
  funext i
  simp only [bfset_eq, Bits.fill]
  split
  next inside =>
    have bit := set (i - x) (by omega)
    rw [Nat.add_sub_cancel' inside.1] at bit
    exact bit.symm
  next => rfl

/-- Whether a run was begun does not matter to what a broken one leaves behind. -/
theorem pending_restored {x n : Nat} (positive : 0 < x) (set : ∀ k < n, m (x + k) = true) :
    (if (if n = 0 then 0 else x) ≠ 0 then
        bfset (Bits.fill false m x n) (if n = 0 then 0 else x) (x + n - if n = 0 then 0 else x)
      else Bits.fill false m x n) = m := by
  cases n with
  | zero => simp only [if_true, ne_eq, not_true, if_false, Bits.fill_zero]
  | succ n =>
      have other : x ≠ 0 := Nat.ne_of_gt positive
      simp only [Nat.succ_ne_zero, if_false, ne_eq, other, not_false_iff, if_true,
        Nat.add_sub_cancel_left]
      exact bfset_fill set

/-- What a search comes back with: the first run that is long enough, with its
    bits cleared, or nothing. -/
def Finds (m : Bits.Map) (lo hi l : Nat) (out : Nat × Bits.Map) : Prop :=
  (∃ i, Bits.FirstRun m lo hi l i ∧ out = (i, Bits.fill false m i l)) ∨
    ((∀ i, ¬ Bits.SetRun m lo hi l i) ∧ out = (0, m))

theorem Finds.lower {lo j hi : Nat} {out : Nat × Bits.Map} (finds : Finds m (j + 1) hi l out)
    (clear : m j = false) (le : lo ≤ j + 1) (near : j < lo + l) : Finds m lo hi l out := by
  rcases finds with ⟨i, first, rfl⟩ | ⟨none, rfl⟩
  · exact Or.inl ⟨i, first.lower clear le near, rfl⟩
  · exact Or.inr ⟨fun i run => none i (run.above clear near), rfl⟩

/-- The loop in the middle of a run of `n` blocks from `x` on. -/
theorem nextfreeLoop_spec {x n : Nat} (positive : 0 < x) (set : ∀ k < n, m (x + k) = true)
    (short : n ≤ l) :
    Finds m x (x + n + left) (l + 1)
      (nextfreeLoop l left (Bits.fill false m x n) (x + n) (if n = 0 then 0 else x)) := by
  induction left generalizing x n with
  | zero =>
      apply Or.inr
      refine ⟨fun i run => ?_, ?_⟩
      · have low := run.low
        have high := run.high
        omega
      · simp only [nextfreeLoop, pending_restored positive set]
  | succ left ih =>
      have here : Bits.fill false m x n (x + n) = m (x + n) := Bits.fill_outside (by omega)
      simp only [nextfreeLoop, here]
      cases bit : m (x + n) with
      | true =>
          have start : (if (if n = 0 then 0 else x) = 0 then x + n else if n = 0 then 0 else x) = x := by
            grind
          have longer : ∀ k < n + 1, m (x + k) = true := by
            intro k inside
            rcases Nat.lt_succ_iff_lt_or_eq.mp inside with before | rfl
            · exact set k before
            · exact bit
          simp only [if_true, start, Nat.add_sub_cancel_left, bclr_fill]
          by_cases full : l ≤ n
          · rw [if_pos full]
            have whole : n = l := Nat.le_antisymm short full
            subst whole
            apply Or.inl
            refine ⟨x, ⟨⟨Nat.le_refl x, by omega, longer⟩, fun j before run => ?_⟩, rfl⟩
            exact absurd run.low (Nat.not_le_of_lt before)
          · rw [if_neg full]
            have next := ih positive longer (by omega)
            simp only [Nat.succ_ne_zero, if_false] at next
            rw [show x + n + (left + 1) = x + (n + 1) + left by omega]
            exact next
      | false =>
          have next := ih (x := x + n + 1) (n := 0) (Nat.succ_pos _)
            (fun k none => absurd none (Nat.not_lt_zero k)) (Nat.zero_le l)
          simp only [Bool.false_eq_true, if_false, pending_restored positive set]
          simp only [Bits.fill_zero, if_true, Nat.add_zero] at next
          rw [show x + n + (left + 1) = x + n + 1 + left by omega]
          exact next.lower bit (by omega) (by omega)

theorem efsNextfree_spec (some : 1 ≤ l) :
    Finds m (fb + 1) nb l (efsNextfree m nb fb l) := by
  have spec := @nextfreeLoop_spec (l - 1) (nb - (fb + 1)) m (fb + 1) 0
    (Nat.succ_pos fb) (fun k none => absurd none (Nat.not_lt_zero k)) (Nat.zero_le _)
  simp only [Bits.fill_zero, if_true, Nat.add_zero, Nat.sub_add_cancel some] at spec
  rcases Nat.le_total (fb + 1) nb with more | over'
  · rw [Nat.add_sub_cancel' more] at spec
    exact spec
  · rw [Nat.sub_eq_zero_of_le over', Nat.add_zero] at spec
    apply Or.inr
    refine ⟨fun i run => ?_, ?_⟩
    · have low := run.low
      have high := run.high
      omega
    · simp only [efsNextfree, Nat.sub_eq_zero_of_le over', nextfreeLoop, ne_eq, not_true, if_false]

end Search

/-! ## efs_dkalloc -/

section Dkalloc

variable {core : Nat → Bool} {esp : EfsToyfs} {l : Nat}

theorem le_rotor : esp.fsFirstcg ≤ esp.rotor := by
  simp only [EfsToyfs.rotor]
  split
  next inside => exact inside.1
  next => exact Nat.le_refl _

/-- A second round starts where the first one did. -/
theorem rotor_again : ({ esp with brotor := esp.rotor } : EfsToyfs).rotor = esp.rotor := by
  simp only [EfsToyfs.rotor]
  grind

/-- What the rounds of `efs_dkalloc` come back with. -/
def Searched (esp : EfsToyfs) (l : Nat) (out : Nat × EfsToyfs) : Prop :=
  (∃ i, Bits.FirstRun esp.bbitmap (esp.rotor + 1) esp.nbbitmap l i ∧
    out = (i, { esp with
      brotor := esp.rotor
      bbitmap := Bits.fill false esp.bbitmap i l
      fsTfree := esp.fsTfree - l })) ∨
  (∀ i, ¬ Bits.SetRun esp.bbitmap (esp.rotor + 1) esp.nbbitmap l i) ∧
    out = (0, { esp with brotor := esp.rotor })

theorem dkallocLoop_spec (some : 1 ≤ l) (i bn : Nat) :
    Searched esp l (dkallocLoop l (i + 1) bn esp) := by
  induction i generalizing bn esp with
  | zero =>
      simp only [dkallocLoop]
      rcases @efsNextfree_spec l esp.nbbitmap esp.rotor esp.bbitmap some with
        ⟨j, first, found⟩ | ⟨none, found⟩
      · have positive : 0 < j := Nat.lt_of_lt_of_le (Nat.succ_pos _) first.low
        simp only [found, positive, if_true]
        exact Or.inl ⟨j, first, rfl⟩
      · simp only [found, Nat.lt_irrefl, if_false, ite_self]
        exact Or.inr ⟨none, rfl⟩
  | succ i ih =>
      rw [dkallocLoop]
      rcases @efsNextfree_spec l esp.nbbitmap esp.rotor esp.bbitmap some with
        ⟨j, first, found⟩ | ⟨none, found⟩
      · have positive : 0 < j := Nat.lt_of_lt_of_le (Nat.succ_pos _) first.low
        simp only [found, positive, if_true]
        exact Or.inl ⟨j, first, rfl⟩
      · simp only [found, Nat.lt_irrefl, if_false]
        split
        next => exact Or.inr ⟨none, rfl⟩
        next =>
          have again := @ih { esp with brotor := esp.rotor } 0
          simp only [Searched, rotor_again] at again
          exact again

/-- The extents a buffer of `l` blocks has room for. -/
def slots (l : Nat) : Nat := (bcount l).toNat / sizeofExtent

theorem bmod_fits {n m : Nat} (fits : 2 * n < m) : Int.bmod n m = n := by
  apply Int.bmod_eq_of_le_mul_two <;> omega

theorem bmod_le_self {n m : Nat} : Int.bmod n m ≤ n := by
  have mod : (n : Int) % m ≤ n := by exact_mod_cast Nat.mod_le n m
  simp only [Int.bmod_def]
  split <;> omega

/-- Less than 2 GB have a buffer of their size. -/
theorem slots_fits (fits : l < 2 ^ 22) : slots l = l * extsPerbb := by
  have small : bcount l = (bbtob l : Nat) := bmod_fits (by simp only [bbtob]; omega)
  simp only [slots, small, bbtob, sizeofExtent, extsPerbb]
  omega

theorem slots_le : slots l ≤ l * extsPerbb := by
  have le : bcount l ≤ (bbtob l : Nat) := bmod_le_self
  simp only [slots, bbtob, sizeofExtent, extsPerbb] at le ⊢
  omega

/-- A run of `l` free blocks above `fs_firstcg`. -/
def EfsToyfs.FreeRun (esp : EfsToyfs) (l i : Nat) : Prop :=
  Bits.SetRun esp.bbitmap (esp.fsFirstcg + 1) esp.nbbitmap l i

/-- Blocks `[bn, bn + l)` went from free to allocated and are clear. -/
structure Granted (esp : EfsToyfs) (l bn : Nat) (esp' : EfsToyfs) : Prop where
  free : esp.FreeRun l bn
  bits : esp'.bbitmap = Bits.fill false esp.bbitmap bn l
  tfree : esp'.fsTfree = esp.fsTfree - l
  disk : ∀ k, esp'.disk k =
    if bn * extsPerbb ≤ k ∧ k < (bn + l) * extsPerbb then Extent.null else esp.disk k

/-- The volume is as it was. -/
structure Untouched (esp esp' : EfsToyfs) : Prop where
  bits : esp'.bbitmap = esp.bbitmap
  tfree : esp'.fsTfree = esp.fsTfree
  disk : esp'.disk = esp.disk

/-- A run is granted if there is one, and otherwise nothing happens. -/
def CompleteHarmless (esp : EfsToyfs) (l : Nat) (out : Nat × EfsToyfs) : Prop :=
  ((∃ i, esp.FreeRun l i) → 0 < out.1 ∧ Granted esp l out.1 out.2) ∧
    ((¬ ∃ i, esp.FreeRun l i) → out.1 = 0 ∧ Untouched esp out.2)

theorem bzero_apply (disk : Scatter.Store Extent) (bn l k : Nat) : bzero disk bn (bcount l) k =
    if bn * extsPerbb ≤ k ∧ k < bn * extsPerbb + slots l then Extent.null else disk k :=
  congrFun (Scatter.put_replicate ..) k

/-- A buffer cleared at `bn` clears `l` blocks there if what it leaves out of them
    is clear. -/
theorem bzero_clears (disk : Scatter.Store Extent) (bn : Nat) :
    (∀ k, bzero disk bn (bcount l) k =
        if bn * extsPerbb ≤ k ∧ k < (bn + l) * extsPerbb then Extent.null else disk k) ↔
      ∀ k, bn * extsPerbb + slots l ≤ k → k < (bn + l) * extsPerbb → disk k = Extent.null := by
  have le := @slots_le l
  rw [Nat.add_mul]
  constructor
  · intro clears k low high
    have here := clears k
    rw [bzero_apply, if_neg (by omega), if_pos (by omega)] at here
    exact here
  · intro clear k
    have here := clear k
    rw [bzero_apply]
    grind

/-- A buffer cleared changes nothing if there was nothing in it. -/
theorem bzero_same (disk : Scatter.Store Extent) :
    bzero disk 0 (bcount l) = disk ↔ ∀ k < slots l, disk k = Extent.null := by
  simp only [funext_iff, bzero_apply, Nat.zero_mul, Nat.zero_le, true_and, Nat.zero_add]
  constructor
  · intro same k inside
    have here := same k
    rw [if_pos inside] at here
    exact here.symm
  · intro clear k
    split
    next inside => exact (clear k inside).symm
    next => rfl

/-- When `efs_dkalloc` does what it should: there is a run above the rotor, with a
    buffer for it that leaves out no block in use; or there is none at all, and the
    buffer taken at block 0 anyway was clear. -/
def EfsToyfs.Served (core : Nat → Bool) (esp : EfsToyfs) (l : Nat) : Prop :=
  (∃ i, Bits.FirstRun esp.bbitmap (esp.rotor + 1) esp.nbbitmap l i ∧
    toyNgetblk core (bcount l) = true ∧
    ∀ k, i * extsPerbb + slots l ≤ k → k < (i + l) * extsPerbb → esp.disk k = Extent.null) ∨
  (¬ ∃ i, esp.FreeRun l i) ∧
    (toyNgetblk core (bcount l) = true → ∀ k < slots l, esp.disk k = Extent.null)

theorem served_of_run {i : Nat}
    (first : Bits.FirstRun esp.bbitmap (esp.rotor + 1) esp.nbbitmap l i) :
    esp.Served core l ↔ toyNgetblk core (bcount l) = true ∧
      ∀ k, i * extsPerbb + slots l ≤ k → k < (i + l) * extsPerbb → esp.disk k = Extent.null := by
  have free : ∃ i, esp.FreeRun l i := ⟨i, first.toSetRun.lower (Nat.succ_le_succ le_rotor)⟩
  constructor
  · rintro (⟨j, other, rest⟩ | ⟨none, _⟩)
    · rw [first.unique other]
      exact rest
    · exact absurd free none
  · intro rest
    exact Or.inl ⟨i, first, rest⟩

theorem efsDkalloc_complete_iff (core : Nat → Bool) (esp : EfsToyfs) (l : Nat) (some : 1 ≤ l)
    (tfree : 0 < esp.fsTfree) :
    CompleteHarmless esp l (efsDkalloc core esp l) ↔ esp.Served core l := by
  have room : ¬ esp.fsTfree ≤ 0 := by omega
  rcases @dkallocLoop_spec esp l some 1 0 with ⟨i, first, found⟩ | ⟨none, found⟩
  · have free : esp.FreeRun l i := first.toSetRun.lower (Nat.succ_le_succ le_rotor)
    have positive : 0 < i := Nat.lt_of_lt_of_le (Nat.succ_pos _) first.low
    rw [served_of_run first]
    simp only [efsDkalloc, room, if_false, found]
    cases toyNgetblk core (bcount l) with
    | false =>
        simp only [Bool.false_eq_true, if_false, false_and, iff_false]
        rintro ⟨complete, _⟩
        exact absurd (complete ⟨i, free⟩).1 (Nat.lt_irrefl 0)
    | true =>
        simp only [if_true, true_and]
        rw [← bzero_clears]
        constructor
        · rintro ⟨complete, _⟩
          exact (complete ⟨i, free⟩).2.disk
        · intro clears
          exact ⟨fun _ => ⟨positive, free, rfl, rfl, clears⟩, fun none => absurd ⟨i, free⟩ none⟩
  · have unserved : esp.Served core l ↔ (¬ ∃ i, esp.FreeRun l i) ∧
        (toyNgetblk core (bcount l) = true → ∀ k < slots l, esp.disk k = Extent.null) := by
      apply or_iff_right
      rintro ⟨i, first, _⟩
      exact none i first.toSetRun
    rw [unserved]
    simp only [efsDkalloc, room, if_false, found]
    cases toyNgetblk core (bcount l) with
    | false =>
        simp only [Bool.false_eq_true, if_false, false_implies, and_true]
        constructor
        · rintro ⟨complete, _⟩ free
          exact absurd (complete free).1 (Nat.lt_irrefl 0)
        · intro full
          exact ⟨fun free => absurd free full, fun _ => ⟨rfl, rfl, rfl, rfl⟩⟩
    | true =>
        simp only [if_true, true_implies]
        rw [← bzero_same]
        constructor
        · rintro ⟨complete, harmless⟩
          have full : ¬ ∃ i, esp.FreeRun l i := fun free =>
            absurd (complete free).1 (Nat.lt_irrefl 0)
          exact ⟨full, (harmless full).2.disk⟩
        · rintro ⟨full, same⟩
          exact ⟨fun free => absurd free full, fun _ => ⟨rfl, rfl, rfl, same⟩⟩

/-- What holds across allocations: blocks in use stay in use and keep what is in
    them. -/
structure Taken (esp esp' : EfsToyfs) : Prop where
  bits : ∀ b, esp.bbitmap b = false → esp'.bbitmap b = false
  disk : ∀ k, esp.bbitmap (k / extsPerbb) = false → esp'.disk k = esp.disk k
  nbbitmap : esp'.nbbitmap = esp.nbbitmap

theorem Taken.refl (esp : EfsToyfs) : Taken esp esp := ⟨fun _ => id, fun _ _ => rfl, rfl⟩

theorem Taken.trans {esp esp' esp'' : EfsToyfs} (first : Taken esp esp') (second : Taken esp' esp'') :
    Taken esp esp'' where
  bits := fun b used => second.bits b (first.bits b used)
  disk := fun k used => (second.disk k (first.bits _ used)).trans (first.disk k used)
  nbbitmap := second.nbbitmap.trans first.nbbitmap

theorem bzero_used {m : Bits.Map} {bn k : Nat} (disk : Scatter.Store Extent)
    (free : ∀ i < l, m (bn + i) = true) (used : m (k / extsPerbb) = false) :
    bzero disk bn (bcount l) k = disk k := by
  have le := @slots_le l
  rw [bzero_apply, if_neg]
  rintro ⟨low, high⟩
  simp only [extsPerbb] at low high used le
  have bit := free (k / 64 - bn) (by omega)
  rw [show bn + (k / 64 - bn) = k / 64 by omega, used] at bit
  cases bit

theorem fill_used {m : Bits.Map} {bn b : Nat} (used : m b = false) :
    Bits.fill false m bn l b = false := by
  simp only [Bits.fill, used, ite_self]

/-- A block `efs_dkalloc` returns was free, with those behind it, is one of the
    volume's, and has been cleared. -/
theorem efsDkalloc_taken {bn : Nat} {esp' : EfsToyfs} (some : 1 ≤ l)
    (out : efsDkalloc core esp l = (bn, esp')) (found : bn ≠ 0) :
    Taken esp esp' ∧ Bits.SetRun esp.bbitmap 1 esp.nbbitmap l bn ∧
      ∀ k < slots l, esp'.disk (bn * extsPerbb + k) = Extent.null := by
  simp only [efsDkalloc] at out
  split at out
  next =>
    cases out
    exact absurd rfl found
  next =>
    rcases @dkallocLoop_spec esp l some 1 0 with ⟨i, first, search⟩ | ⟨_, search⟩
    · simp only [search] at out
      split at out
      next =>
        cases out
        refine ⟨⟨fun b => fill_used, fun k => bzero_used _ first.set, rfl⟩, first.toSetRun.lower ?_,
          fun k inside => ?_⟩
        · exact Nat.succ_le_succ (Nat.zero_le _)
        · exact (bzero_apply ..).trans (if_pos (by omega))
      next =>
        cases out
        exact absurd rfl found
    · simp only [search] at out
      split at out <;> cases out <;> exact absurd rfl found

theorem bcount_one : bcount 1 = bbsize := bmod_fits (by decide)

theorem efsAdjDkalloc_taken (bn : Nat) : Taken esp (efsAdjDkalloc core esp bn).2 := by
  have kept : ∀ b, esp.bbitmap b = false → bclr esp.bbitmap bn b = false := by
    intro b used
    simp only [bclr, used, ite_self]
  simp only [efsAdjDkalloc]
  split
  next free =>
    split
    next =>
      refine ⟨kept, fun k used => ?_, rfl⟩
      rw [← bcount_one]
      apply bzero_used _ _ used
      intro i inside
      rw [Nat.lt_one_iff.mp inside]
      exact free
    next => exact ⟨kept, fun _ _ => rfl, rfl⟩
  next => exact .refl esp

/-- A volume with 24 blocks whose rotor is at block 15 and whose only free blocks
    are 8 and 9. -/
def behindRotor : EfsToyfs where
  fsFirstcg := 4
  fsTfree := 2
  bbitmap := fun i => i == 8 || i == 9
  nbbitmap := 24
  brotor := 15
  disk := fun _ => Extent.null

theorem efsDkalloc_complete_iff_behindRotor : 0 < behindRotor.fsTfree ∧
    (CompleteHarmless behindRotor 2 (efsDkalloc (fun _ => true) behindRotor 2) ↔
      behindRotor.Served (fun _ => true) 2) :=
  ⟨by decide, efsDkalloc_complete_iff (fun _ => true) behindRotor 2 (by decide) (by decide)⟩

theorem efsDkalloc_behind_rotor :
    ¬ CompleteHarmless behindRotor 2 (efsDkalloc (fun _ => true) behindRotor 2) := by
  rintro ⟨complete, _⟩
  have free : behindRotor.FreeRun 2 8 := ⟨by decide, by decide, by decide⟩
  have found : (efsDkalloc (fun _ => true) behindRotor 2).1 = 0 := by decide
  have positive := (complete ⟨8, free⟩).1
  rw [found] at positive
  exact absurd positive (Nat.lt_irrefl 0)

end Dkalloc

end Irix.Toyfs
