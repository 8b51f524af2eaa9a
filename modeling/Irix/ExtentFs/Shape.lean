import Irix.ExtentFs.Inode
import Mathlib.Data.List.Basic

/-! # The extent list of an inode

The extents of an inode follow each other in the file without a gap.  On such a
list the binary search of `efs_bmap` is exact, and the loops of `efs_dotrunc`
cut the list to a prefix of its blocks.
-/

namespace Irix.ExtentFs

/-- The extents follow each other from file block `o` on. -/
def Contig : Nat → List Extent → Prop
  | _, [] => True
  | o, ex :: exts => ex.exOffset = o ∧ Contig (o + ex.exLength) exts

instance Contig.decidable : (o : Nat) → (exts : List Extent) → Decidable (Contig o exts)
  | _, [] => isTrue trivial
  | o, ex :: exts =>
      have := Contig.decidable (o + ex.exLength) exts
      inferInstanceAs (Decidable (ex.exOffset = o ∧ Contig (o + ex.exLength) exts))

/-- The number of blocks of a list of extents. -/
def lengthOf (exts : List Extent) : Nat := (exts.map Extent.exLength).sum

@[simp] theorem lengthOf_nil : lengthOf [] = 0 := rfl

@[simp] theorem lengthOf_cons (ex : Extent) (exts : List Extent) :
    lengthOf (ex :: exts) = ex.exLength + lengthOf exts := List.sum_cons

@[simp] theorem lengthOf_append (exts exts' : List Extent) :
    lengthOf (exts ++ exts') = lengthOf exts + lengthOf exts' := by
  simp only [lengthOf, List.map_append, List.sum_append]

theorem contig_append {o : Nat} {exts exts' : List Extent} :
    Contig o (exts ++ exts') ↔ Contig o exts ∧ Contig (o + lengthOf exts) exts' := by
  induction exts generalizing o with
  | nil => simp only [List.nil_append, Contig, lengthOf_nil, Nat.add_zero, true_and]
  | cons ex exts ih =>
      simp only [List.cons_append, Contig, ih, lengthOf_cons, and_assoc, Nat.add_assoc]

theorem Contig.offset {o i : Nat} {exts : List Extent} (contig : Contig o exts)
    (inside : i < exts.length) : exts[i].exOffset = o + lengthOf (exts.take i) := by
  induction exts generalizing o i with
  | nil => exact absurd inside (Nat.not_lt_zero i)
  | cons ex exts ih =>
      cases i with
      | zero => exact contig.1
      | succ i =>
          simp only [List.getElem_cons_succ, List.take_succ_cons, lengthOf_cons]
          rw [ih contig.2 (Nat.lt_of_succ_lt_succ inside), Nat.add_assoc]

theorem lengthOf_take_succ {i : Nat} {exts : List Extent} (inside : i < exts.length) :
    lengthOf (exts.take (i + 1)) = lengthOf (exts.take i) + exts[i].exLength := by
  rw [List.take_succ_eq_append_getElem inside, lengthOf_append, lengthOf_cons, lengthOf_nil]
  rfl

theorem lengthOf_take_mono {i k : Nat} (exts : List Extent) (le : i ≤ k) :
    lengthOf (exts.take i) ≤ lengthOf (exts.take k) := by
  obtain ⟨d, rfl⟩ := Nat.exists_eq_add_of_le le
  rw [List.take_add, lengthOf_append]
  exact Nat.le_add_right _ _

/-- The end of each extent is at most the start of any later one. -/
theorem Contig.order {o i k : Nat} {exts : List Extent} (contig : Contig o exts) (before : i < k)
    (inside : k < exts.length) :
    exts[i].exOffset + exts[i].exLength ≤ exts[k].exOffset := by
  rw [contig.offset, contig.offset, Nat.add_assoc, ← lengthOf_take_succ (by omega)]
  exact Nat.add_le_add_left (lengthOf_take_mono exts before) o

theorem covers_iff {ex : Extent} {bb : Nat} :
    ex.covers bb = true ↔ ex.exOffset ≤ bb ∧ bb < ex.exOffset + ex.exLength := by
  simp only [Extent.covers, Bool.and_eq_true, decide_eq_true_eq]

/-- Every block of the file lies in some extent. -/
theorem Contig.exists_covers {o bb : Nat} {exts : List Extent} (contig : Contig o exts)
    (low : o ≤ bb) (high : bb < o + lengthOf exts) :
    ∃ i, ∃ inside : i < exts.length, exts[i].covers bb = true := by
  induction exts generalizing o with
  | nil =>
      rw [lengthOf_nil] at high
      omega
  | cons ex exts ih =>
      by_cases here : bb < o + ex.exLength
      · refine ⟨0, Nat.succ_pos _, covers_iff.mpr ?_⟩
        have start : ex.exOffset = o := contig.1
        simp only [List.getElem_cons_zero, start]
        exact ⟨low, here⟩
      · rw [lengthOf_cons] at high
        obtain ⟨i, inside, covers⟩ := ih contig.2 (by omega) (by omega)
        exact ⟨i + 1, Nat.succ_lt_succ inside, covers⟩

/-! ## The binary search -/

/-- The search stays inside the list and closes in on the extent that covers
    the block: the stride is halved until it is one, and from then on every
    step is one nearer. -/
theorem bmapProbe_finds {o bb k : Nat} {exts : List Extent} (contig : Contig o exts)
    (inside : k < exts.length) (covers : exts[k].covers bb = true)
    (some : ∀ ex ∈ exts, 0 < ex.exLength) {fuel i j : Nat} (here : i < exts.length)
    (left : j ≤ i + 1) (right : i + j ≤ exts.length)
    (enough : (if 2 ≤ j then j + exts.length else (i - k) + (k - i) + 1) ≤ fuel) :
    bmapProbe exts bb fuel i j = .some (.gotit k) := by
  induction fuel generalizing i j with
  | zero =>
      split at enough <;> omega
  | succ fuel ih =>
      have looked : exts.getD i Extent.null = exts[i] := by
        rw [List.getD_eq_getElem?_getD, List.getElem?_eq_getElem here]
        rfl
      have within := covers_iff.mp covers
      have positive := some exts[i] (List.getElem_mem here)
      rw [bmapProbe, looked]
      obtain ⟨stride, hstride⟩ : ∃ stride, stride = if j / 2 = 0 then 1 else j / 2 := ⟨_, rfl⟩
      have halved : 1 ≤ stride ∧ (2 ≤ j → 2 * stride ≤ j) ∧ (j < 2 → stride = 1) := by
        split at hstride <;> omega
      dsimp only
      rw [← hstride]
      clear hstride
      rcases Nat.lt_trichotomy i k with before | rfl | after
      · have order := contig.order before inside
        have misses : ¬exts[i].covers bb = true := fun hit => by
          have := covers_iff.mp hit
          omega
        rw [if_neg misses, if_pos (by omega), if_neg (by omega)]
        refine ih (by omega) (by omega) (by omega) ?_
        split at enough <;> split <;> omega
      · rw [if_pos covers]
      · have order := contig.order after here
        have misses : ¬exts[i].covers bb = true := fun hit => by
          have := covers_iff.mp hit
          omega
        rw [if_neg misses, if_neg (by omega), if_neg (by omega)]
        refine ih (by omega) (by omega) (by omega) ?_
        split at enough <;> split <;> omega

/-- The search of an inode that reaches past the block finds its extent. -/
theorem bmapSearch_inside {bb : Nat} {exts : List Extent} (contig : Contig 0 exts)
    (some : ∀ ex ∈ exts, 0 < ex.exLength) (inside : bb < lengthOf exts) :
    ∃ i, ∃ here : i < exts.length, bmapSearch exts bb = .some (.gotit i) ∧
      exts[i].covers bb = true := by
  obtain ⟨i, here, covers⟩ := contig.exists_covers (Nat.zero_le bb) (by rwa [Nat.zero_add])
  refine ⟨i, here, ?_, covers⟩
  rw [bmapSearch]
  rcases List.eq_nil_or_concat' exts with rfl | ⟨init, last, rfl⟩
  · exact absurd here (Nat.not_lt_zero i)
  · rw [List.getLast?_concat]
    rw [lengthOf_append, lengthOf_cons, lengthOf_nil] at inside
    have start : last.exOffset = 0 + lengthOf init := (contig_append.mp contig).2.1
    dsimp only
    rw [if_pos (by omega)]
    refine bmapProbe_finds contig here covers some ?_ ?_ ?_ ?_
    · omega
    · omega
    · omega
    · split <;> omega

/-- The search of an inode that ends before the block comes back with its end. -/
theorem bmapSearch_past {bb : Nat} {exts : List Extent} (contig : Contig 0 exts)
    (past : lengthOf exts ≤ bb) :
    ∃ pos len, bmapSearch exts bb = .some (.past pos len) ∧ pos + len = lengthOf exts := by
  rw [bmapSearch]
  rcases List.eq_nil_or_concat' exts with rfl | ⟨init, last, rfl⟩
  · exact ⟨0, 0, rfl, rfl⟩
  · rw [List.getLast?_concat]
    rw [lengthOf_append, lengthOf_cons, lengthOf_nil] at past ⊢
    have start : last.exOffset = 0 + lengthOf init := (contig_append.mp contig).2.1
    dsimp only
    rw [if_neg (by omega)]
    exact ⟨_, _, rfl, by omega⟩

/-! ## Cutting -/

/-- The first `n` blocks of a list of extents. -/
def cutTo : Nat → List Extent → List Extent
  | _, [] => []
  | 0, _ :: _ => []
  | n + 1, ex :: exts =>
      if n + 1 < ex.exLength then [{ ex with exLength := n + 1 }]
      else ex :: cutTo (n + 1 - ex.exLength) exts

theorem cutTo_zero (exts : List Extent) : cutTo 0 exts = [] := by
  cases exts <;> rfl

theorem cutTo_contig {o n : Nat} {exts : List Extent} (contig : Contig o exts) :
    Contig o (cutTo n exts) := by
  induction exts generalizing o n with
  | nil => cases n <;> exact trivial
  | cons ex exts ih =>
      cases n with
      | zero => exact trivial
      | succ n =>
          rw [cutTo]
          split
          · exact ⟨contig.1, trivial⟩
          · exact ⟨contig.1, ih contig.2⟩

theorem cutTo_lengthOf (n : Nat) (exts : List Extent) :
    lengthOf (cutTo n exts) = min n (lengthOf exts) := by
  induction exts generalizing n with
  | nil => cases n <;> simp [cutTo]
  | cons ex exts ih =>
      cases n with
      | zero => simp [cutTo]
      | succ n =>
          rw [cutTo]
          split
          · rw [lengthOf_cons, lengthOf_nil, lengthOf_cons]
            dsimp only
            omega
          · rw [lengthOf_cons, lengthOf_cons, ih]
            omega

theorem cutTo_length_le (n : Nat) (exts : List Extent) :
    (cutTo n exts).length ≤ exts.length := by
  induction exts generalizing n with
  | nil => cases n <;> exact Nat.le_refl 0
  | cons ex exts ih =>
      cases n with
      | zero => exact Nat.zero_le _
      | succ n =>
          rw [cutTo]
          split
          · exact Nat.succ_le_succ (Nat.zero_le _)
          · exact Nat.succ_le_succ (ih _)

/-- Every extent of the cut list is one of the old ones, at most shortened. -/
theorem cutTo_mem {n : Nat} {exts : List Extent} {ex : Extent} (mem : ex ∈ cutTo n exts) :
    ∃ old ∈ exts, ex.exLength ≤ old.exLength ∧ (0 < old.exLength → 0 < ex.exLength) ∧
      ex = { old with exLength := ex.exLength } := by
  induction exts generalizing n with
  | nil => cases n <;> cases mem
  | cons first exts ih =>
      cases n with
      | zero => cases mem
      | succ n =>
          rw [cutTo] at mem
          split at mem
          next less =>
            rw [List.mem_singleton] at mem
            refine ⟨first, List.mem_cons_self .., ?_⟩
            rw [mem]
            exact ⟨Nat.le_of_lt less, fun _ => Nat.succ_pos n, rfl⟩
          next =>
            rcases List.mem_cons.mp mem with rfl | later
            · exact ⟨ex, List.mem_cons_self .., Nat.le_refl _, id, rfl⟩
            · obtain ⟨old, among, rest⟩ := ih later
              exact ⟨old, List.mem_cons_of_mem _ among, rest⟩

/-- On a list without gaps the loop over the direct extents is the loop over
    an indirect area. -/
theorem dotruncExtents_eq (newsizebb : Nat) {o : Nat} {vol : Volume} {exts : List Extent}
    (contig : Contig o exts) :
    dotruncExtents newsizebb vol exts = dotruncIndir newsizebb vol o exts := by
  induction exts generalizing o vol with
  | nil => rfl
  | cons ex exts ih =>
      rw [dotruncExtents, dotruncIndir, contig.1]
      dsimp only
      rw [ih contig.2]

/-- Nothing of a list that starts past the new end stays. -/
theorem dotruncIndir_past {newsizebb o : Nat} (vol : Volume) (exts : List Extent)
    (past : newsizebb ≤ o) :
    (dotruncIndir newsizebb vol o exts).gone = exts.length ∧
      (dotruncIndir newsizebb vol o exts).freed = lengthOf exts := by
  induction exts generalizing o vol with
  | nil => exact ⟨rfl, rfl⟩
  | cons ex exts ih =>
      rw [dotruncIndir, cutExtent, if_pos past]
      have rest := ih (vol.free ex) (Nat.le_trans past (Nat.le_add_right o ex.exLength))
      simp only [Bool.toNat_true, List.length_cons, lengthOf_cons]
      omega

/-- The loop leaves the first blocks of the list and counts the others. -/
theorem dotruncIndir_cut (newsizebb o : Nat) (vol : Volume) {exts : List Extent}
    (small : ∀ ex ∈ exts, ex.exLength < 256) :
    (dotruncIndir newsizebb vol o exts).gone ≤ exts.length ∧
      (dotruncIndir newsizebb vol o exts).exts.take
        (exts.length - (dotruncIndir newsizebb vol o exts).gone) = cutTo (newsizebb - o) exts ∧
      (dotruncIndir newsizebb vol o exts).freed = lengthOf exts - (newsizebb - o) := by
  induction exts generalizing o vol with
  | nil => exact ⟨Nat.le_refl _, by cases newsizebb - o <;> rfl, by simp [dotruncIndir]⟩
  | cons ex exts ih =>
      have fits := small ex (List.mem_cons_self ..)
      by_cases past : newsizebb ≤ o
      · have all := dotruncIndir_past vol (ex :: exts) past
        rw [all.1, all.2, Nat.sub_eq_zero_of_le past, cutTo_zero, Nat.sub_self]
        exact ⟨Nat.le_refl _, rfl, rfl⟩
      · obtain ⟨n, room⟩ : ∃ n, newsizebb - o = n + 1 := ⟨newsizebb - o - 1, by omega⟩
        rw [dotruncIndir, cutExtent, if_neg past, room, cutTo]
        by_cases less : newsizebb < o + ex.exLength
        · have all := dotruncIndir_past
            (vol.free ⟨0, bits24 (ex.exBn + (n + 1)), bits8 (ex.exLength - (n + 1)), 0⟩)
            exts (Nat.le_of_lt less)
          rw [if_pos less, if_pos (by omega)]
          dsimp only
          rw [all.1, all.2, bits8_fits (by omega), bits8_fits (by omega)]
          simp only [Bool.toNat_false, Nat.add_zero, List.length_cons, Nat.add_sub_cancel_left,
            List.take_succ_cons, List.take_zero, lengthOf_cons]
          refine ⟨Nat.le_succ _, trivial, by omega⟩
        · have rest := ih (o + ex.exLength) vol fun other mem =>
            small other (List.mem_cons_of_mem _ mem)
          rw [if_neg less, if_neg (by omega)]
          dsimp only
          simp only [Bool.toNat_false, Nat.add_zero, List.length_cons, lengthOf_cons]
          rw [Nat.succ_sub rest.1, List.take_succ_cons, rest.2.1, rest.2.2]
          refine ⟨by omega, ?_, by omega⟩
          rw [show newsizebb - (o + ex.exLength) = n + 1 - ex.exLength by omega]

/-! ## The shape of an inode -/

/-- An indirect area with room for `n` extents, counted right and without empty
    extents. -/
structure Inode.Indirect (ip : Inode) (n : Nat) : Prop where
  counted : ip.iiIndirbytes = bbtob (lengthOf ip.iiIndir)
  enough : n * sizeofExtent ≤ ip.iiIndirbytes
  solid : ∀ ex ∈ ip.iiIndir, 0 < ex.exLength

/-- Extents without gaps and of legal length, not too many of them, no indirect
    area before there are as many as fit in the inode, and one that holds them
    all if there are more. -/
structure Inode.Shape (ip : Inode) : Prop where
  contig : Contig 0 ip.iiExtents
  each : ∀ ex ∈ ip.iiExtents, ex.exMagic = 0 ∧ 0 < ex.exLength ∧ ex.exLength ≤ efsMaxextentlen
  few : ip.iiExtents.length ≤ efsMaxextents
  vector : ip.iiIndir.length ≤ efsDirectextents
  needed : ip.iiIndir ≠ [] → efsDirectextents ≤ ip.iiExtents.length
  indirect : efsDirectextents < ip.iiExtents.length → ip.Indirect ip.iiExtents.length

/-- There is room for one more extent. -/
structure Inode.Room (ip : Inode) : Prop where
  few : ip.iiExtents.length < efsMaxextents
  indirect : efsDirectextents ≤ ip.iiExtents.length → ip.Indirect (ip.iiExtents.length + 1)

theorem Inode.Shape.some {ip : Inode} (shape : ip.Shape) : ∀ ex ∈ ip.iiExtents, 0 < ex.exLength :=
  fun ex mem => (shape.each ex mem).2.1

/-- An indirect extent that covers the whole extent list is a legal one. -/
theorem btobb_indirect {n : Nat} (few : n < efsMaxextents) :
    0 < btobb ((n + 1) * sizeofExtent) ∧ btobb ((n + 1) * sizeofExtent) ≤ efsMaxextentlen := by
  have limit : (n + 1) * sizeofExtent ≤ bbtob efsMaxextentlen :=
    Nat.le_trans (Nat.mul_le_mul_right sizeofExtent few) (by decide)
  refine ⟨?_, btobb_le.mpr limit⟩
  by_contra none
  have : (n + 1) * sizeofExtent ≤ bbtob 0 := btobb_le.mp (Nat.le_of_not_lt none)
  exact absurd this (Nat.not_le_of_lt (Nat.mul_pos (Nat.succ_pos n) (by decide)))

end Irix.ExtentFs
