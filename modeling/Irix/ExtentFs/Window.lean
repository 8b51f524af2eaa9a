import Irix.ExtentFs.Shape
import Mathlib.Tactic.Ring

/-! # Reading through the extents

The search of `efs_bmap` for the extent that holds a block, and the window it
hands to its caller: whatever way logical blocks and extents lie, the window
starts at the byte that was asked for and stays within one extent.
-/

namespace Irix.ExtentFs

/-! ## The search -/

/-- The search looks at extent `i` with stride `j` and ends at extent `k`, without ever
    leaving the list. -/
inductive Searches (exts : List Extent) (bb : Nat) : (i j : Int) → Nat → Prop
  | gotit {k : Nat} {j : Int} (inside : k < exts.length) :
      exts[k].covers bb = true → Searches exts bb k j k
  | advance {i k : Nat} {j : Int} (inside : i < exts.length) : ¬ exts[i].covers bb = true →
      exts[i].exOffset < bb → Searches exts bb (i + max (j / 2) 1) (max (j / 2) 1) k →
      Searches exts bb i j k
  | retreat {i k : Nat} {j : Int} (inside : i < exts.length) : ¬ exts[i].covers bb = true →
      ¬ exts[i].exOffset < bb → Searches exts bb (i - max (j / 2) 1) (max (j / 2) 1) k →
      Searches exts bb i j k

section Search

variable {exts : List Extent} {bb : Nat}

/-- A search that the model ends at an extent has ended in the list. -/
theorem searches_of_bmapProbe {fuel i j k : Nat} (here : i < exts.length)
    (found : bmapProbe exts bb fuel i j = some (.gotit k)) :
    Searches exts bb i j k := by
  induction fuel generalizing i j with
  | zero => cases found
  | succ fuel ih =>
      have looked : exts.getD i Extent.null = exts[i] := by
        rw [List.getD_eq_getElem?_getD, List.getElem?_eq_getElem here]
        rfl
      have stride : ((if j / 2 = 0 then 1 else j / 2 : Nat) : Int) = max ((j : Int) / 2) 1 := by
        split <;> omega
      rw [bmapProbe, looked] at found
      dsimp only at found
      generalize (if j / 2 = 0 then 1 else j / 2) = next at stride found
      by_cases covers : exts[i].covers bb = true
      · rw [if_pos covers] at found
        cases found
        exact .gotit here covers
      · rw [if_neg covers] at found
        by_cases before : exts[i].exOffset < bb
        · rw [if_pos before] at found
          split at found
          next => cases found
          next inside =>
            apply Searches.advance here covers before
            rw [← stride, ← Int.natCast_add]
            exact ih (Nat.not_le.mp inside) found
        · rw [if_neg before] at found
          split at found
          next => cases found
          next inside =>
            apply Searches.retreat here covers before
            rw [← stride, ← Int.natCast_sub (Nat.not_lt.mp inside)]
            exact ih (Nat.lt_of_le_of_lt (Nat.sub_le ..) here) found

theorem covers_of_bmapProbe {fuel i j k : Nat}
    (found : bmapProbe exts bb fuel i j = some (.gotit k)) :
    (exts.getD k Extent.null).covers bb = true := by
  induction fuel generalizing i j with
  | zero => cases found
  | succ fuel ih =>
      rw [bmapProbe] at found
      dsimp only at found
      split at found
      next covers =>
        cases found
        exact covers
      next =>
        generalize (if j / 2 = 0 then 1 else j / 2) = stride at found
        split at found
        all_goals split at found
        all_goals first | cases found | exact ih found

/-- No two extents hold the same block. -/
theorem Contig.covers_unique {o i k : Nat} (contig : Contig o exts) (here : i < exts.length)
    (there : k < exts.length) (covers : exts[i].covers bb = true)
    (covers' : exts[k].covers bb = true) : i = k := by
  have within := covers_iff.mp covers
  have within' := covers_iff.mp covers'
  rcases Nat.lt_trichotomy i k with before | same | after
  · have := contig.order before there
    omega
  · exact same
  · have := contig.order after here
    omega

/-- The search starts in the middle. -/
theorem bmapProbe_of_bmapSearch {k : Nat} (found : bmapSearch exts bb = some (.gotit k)) :
    bmapProbe exts bb (2 * exts.length + 1) (exts.length / 2) (exts.length / 2) =
      some (.gotit k) := by
  rw [bmapSearch] at found
  split at found
  · cases found
  · split at found
    · exact found
    · cases found

/-- The search for a block of the file comes to an end, at the only extent that holds it. -/
theorem search_finds (exts : List Extent) (bb : Nat) (contig : Contig 0 exts)
    (some : ∀ ex ∈ exts, 0 < ex.exLength) (inside : bb < lengthOf exts) :
    ∃ k, ∃ here : k < exts.length, exts[k].covers bb = true ∧
      (∀ i, ∀ there : i < exts.length, exts[i].covers bb = true → i = k) ∧
      Searches exts bb (exts.length / 2 : Nat) (exts.length / 2 : Nat) k ∧
      bmapSearch exts bb = .some (.gotit k) := by
  obtain ⟨k, here, found, covers⟩ := bmapSearch_inside contig some inside
  refine ⟨k, here, covers, ?_, ?_, found⟩
  · intro i there covers'
    exact contig.covers_unique there here covers' covers
  · apply searches_of_bmapProbe ?_ (bmapProbe_of_bmapSearch found)
    omega

/-- Three extents, the last of which holds the block. -/
theorem search_finds_last :
    ∃ k, ∃ here : k < [(⟨0, 10, 2, 0⟩ : Extent), ⟨0, 20, 3, 2⟩, ⟨0, 30, 1, 5⟩].length,
      [(⟨0, 10, 2, 0⟩ : Extent), ⟨0, 20, 3, 2⟩, ⟨0, 30, 1, 5⟩][k].covers 5 = true ∧
      (∀ i, ∀ there : i < [(⟨0, 10, 2, 0⟩ : Extent), ⟨0, 20, 3, 2⟩, ⟨0, 30, 1, 5⟩].length,
        [(⟨0, 10, 2, 0⟩ : Extent), ⟨0, 20, 3, 2⟩, ⟨0, 30, 1, 5⟩][i].covers 5 = true → i = k) ∧
      Searches [⟨0, 10, 2, 0⟩, ⟨0, 20, 3, 2⟩, ⟨0, 30, 1, 5⟩] 5 (3 / 2 : Nat) (3 / 2 : Nat) k ∧
      bmapSearch [⟨0, 10, 2, 0⟩, ⟨0, 20, 3, 2⟩, ⟨0, 30, 1, 5⟩] 5 = .some (.gotit k) :=
  search_finds [⟨0, 10, 2, 0⟩, ⟨0, 20, 3, 2⟩, ⟨0, 30, 1, 5⟩] 5 (by decide) (by decide) (by decide)

end Search

/-! ## The window -/

/-- The position, the length and the offset into the extent of the i/o, as far as logical
    block `newpos` and the extent go. -/
def lbPart (efsLbtobbshift : Nat) (ex : Extent) (newpos : Nat) : Nat × Nat × Nat :=
  let efsBbsperlb := 1 <<< efsLbtobbshift
  let lbpos := (ex.exOffset + efsBbsperlb - 1) >>> efsLbtobbshift
  if lbpos ≤ newpos then
    let roff := newpos <<< efsLbtobbshift - ex.exOffset
    (ex.exOffset + roff, min (ex.exLength - roff) efsBbsperlb, roff)
  else
    -- the logical block starts in the extent before
    (ex.exOffset, min ex.exLength (lbpos <<< efsLbtobbshift - ex.exOffset), 0)

/-- `efs_bmap` for reading, for any size of a logical block. -/
def efsBmapReadLb (efsLbtobbshift : Nat) (ip : Inode) (uOffset uCount : Nat) :
    Inode × Except Errno (Option Bmap) :=
  let efsBbsperlb := 1 <<< efsLbtobbshift
  let newpos := uOffset >>> (efsLbtobbshift + 9)
  let newposbb := btobbt uOffset
  match bmapSearch ip.iiExtents newposbb with
  | none => (ip, .error .hang)
  | some (.past _ _) => (ip, .ok none)
  | some (.gotit i) =>
      let ex := ip.iiExtents.getD i Extent.null
      let (pos, len, roff) := lbPart efsLbtobbshift ex newpos
      let iex : Bmapval := ⟨ex.exBn + roff, len⟩
      let rex : Bmapval :=
        -- the read is sequential from the previous one
        if ip.ciLastbn + ip.ciLastlen = newposbb then
          let roff := newposbb + len - ex.exOffset
          if 0 < ex.exLength - roff then ⟨iex.bn + iex.length, min (ex.exLength - roff) efsBbsperlb⟩
          else ⟨0, 0⟩
        else ⟨0, 0⟩
      let uPboff := uOffset - bbtob pos
      let sz := min (min (bbtob iex.length - uPboff) uCount) (ip.iSize - uOffset)
      ({ ip with ciLastbn := newposbb, ciLastlen := btobb sz },
        .ok (if sz = 0 then none else some ⟨iex, rex, uPboff, sz⟩))

/-- What the window of a read is good for. -/
structure ReadWindow (ip : Inode) (efsBbsperlb uOffset uCount : Nat) (ex : Extent) (b : Bmap) : Prop where
  some : 0 < b.uPbsize
  asked : b.uPbsize ≤ uCount
  inFile : uOffset + b.uPbsize ≤ ip.iSize
  inBlocks : b.uPboff + b.uPbsize ≤ bbtob b.iex.length
  most : b.uPbsize = min (min (bbtob b.iex.length - b.uPboff) uCount) (ip.iSize - uOffset)
  short : b.iex.length ≤ efsBbsperlb
  low : ex.exBn ≤ b.iex.bn
  high : b.iex.bn + b.iex.length ≤ ex.exBn + ex.exLength
  byte : bbtob b.iex.bn + b.uPboff + bbtob ex.exOffset = bbtob ex.exBn + uOffset
  ahead : b.rex.length ≠ 0 → b.rex.bn = b.iex.bn + b.iex.length ∧
    b.rex.bn + b.rex.length ≤ ex.exBn + ex.exLength

section Window

variable {ip : Inode} {ex : Extent} {s i uOffset uCount : Nat}

/-- A logical block and the block of the offset in it. -/
theorem newpos_bounds (s uOffset : Nat) :
    (uOffset >>> (s + 9)) <<< s ≤ btobbt uOffset ∧
      btobbt uOffset < (uOffset >>> (s + 9) + 1) <<< s := by
  have parts : uOffset >>> (s + 9) = btobbt uOffset / 2 ^ s := by
    rw [Nat.shiftRight_eq_div_pow, btobbt, Nat.pow_add, Nat.mul_comm, ← Nat.div_div_eq_div_mul]
  rw [parts, Nat.shiftLeft_eq, Nat.shiftLeft_eq]
  have pos : 0 < 2 ^ s := Nat.two_pow_pos s
  have split := Nat.div_add_mod (btobbt uOffset) (2 ^ s)
  have rest := Nat.mod_lt (btobbt uOffset) pos
  rw [Nat.mul_comm] at split
  rw [Nat.succ_mul]
  omega

/-- The end of the logical block in which an extent starts. -/
theorem lbpos_bounds (s pos : Nat) :
    pos ≤ ((pos + 1 <<< s - 1) >>> s) <<< s ∧
      ((pos + 1 <<< s - 1) >>> s) <<< s < pos + 1 <<< s := by
  rw [Nat.shiftRight_eq_div_pow, Nat.shiftLeft_eq, Nat.shiftLeft_eq, Nat.one_mul]
  have pos2 : 0 < 2 ^ s := Nat.two_pow_pos s
  have split := Nat.div_add_mod (pos + 2 ^ s - 1) (2 ^ s)
  have rest := Nat.mod_lt (pos + 2 ^ s - 1) pos2
  rw [Nat.mul_comm] at split
  omega

/-- The part of the extent holds the block that was asked for. -/
structure Part (s : Nat) (ex : Extent) (newposbb pos len roff : Nat) : Prop where
  place : pos = ex.exOffset + roff
  low : pos ≤ newposbb
  high : newposbb < pos + len
  inside : roff + len ≤ ex.exLength
  short : len ≤ 1 <<< s

theorem lbPart_part (covers : ex.covers (btobbt uOffset) = true) :
    Part s ex (btobbt uOffset) (lbPart s ex (uOffset >>> (s + 9))).1
      (lbPart s ex (uOffset >>> (s + 9))).2.1 (lbPart s ex (uOffset >>> (s + 9))).2.2 := by
  obtain ⟨low, high⟩ := covers_iff.mp covers
  obtain ⟨start, stop⟩ := newpos_bounds s uOffset
  obtain ⟨up, near⟩ := lbpos_bounds s ex.exOffset
  rw [lbPart]
  generalize (ex.exOffset + 1 <<< s - 1) >>> s = lbpos at up near ⊢
  generalize uOffset >>> (s + 9) = newpos at start stop ⊢
  have next : (newpos + 1) <<< s = newpos <<< s + 1 <<< s := by
    rw [Nat.shiftLeft_eq, Nat.shiftLeft_eq, Nat.shiftLeft_eq, Nat.add_mul]
  dsimp only
  split
  next before =>
    have order : lbpos <<< s ≤ newpos <<< s := by
      simp only [Nat.shiftLeft_eq]
      exact Nat.mul_le_mul_right _ before
    constructor
    all_goals dsimp only
    all_goals omega
  next after =>
    have order : (newpos + 1) <<< s ≤ lbpos <<< s := by
      simp only [Nat.shiftLeft_eq]
      exact Nat.mul_le_mul_right _ (Nat.not_le.mp after)
    constructor
    all_goals dsimp only
    all_goals omega

/-- A read of a byte that the extents hold. -/
theorem efsBmapReadLb_inside (contig : Contig 0 ip.iiExtents)
    (positive : ∀ ex ∈ ip.iiExtents, 0 < ex.exLength) (inFile : uOffset < ip.iSize)
    (asked : 0 < uCount) (held : btobbt uOffset < lengthOf ip.iiExtents) :
    ∃ a b ex bmap, efsBmapReadLb s ip uOffset uCount =
        ({ ip with ciLastbn := a, ciLastlen := b }, .ok (some bmap)) ∧
      ex ∈ ip.iiExtents ∧ ex.covers (btobbt uOffset) = true ∧
      ReadWindow ip (1 <<< s) uOffset uCount ex bmap := by
  obtain ⟨i, here, found, covers⟩ := bmapSearch_inside contig positive held
  have looked : ip.iiExtents.getD i Extent.null = ip.iiExtents[i] := by
    rw [List.getD_eq_getElem?_getD, List.getElem?_eq_getElem here]
    rfl
  have part := @lbPart_part ip.iiExtents[i] s uOffset covers
  rw [efsBmapReadLb, found]
  dsimp only
  rw [looked]
  generalize lbPart s ip.iiExtents[i] (uOffset >>> (s + 9)) = parts at part ⊢
  obtain ⟨pos, len, roff⟩ := parts
  have mem := List.getElem_mem here
  generalize ip.iiExtents[i] = ex at covers part mem ⊢
  obtain ⟨place, low, high, inside, short⟩ := part
  rw [btobbt] at low high
  dsimp only at place low high inside short ⊢
  have start : bbtob pos ≤ uOffset := by
    rw [bbtob]
    omega
  have stop : uOffset < bbtob pos + bbtob len := by
    rw [bbtob, bbtob]
    omega
  have some : min (min (bbtob len - (uOffset - bbtob pos)) uCount) (ip.iSize - uOffset) ≠ 0 := by
    omega
  rw [if_neg some]
  refine ⟨_, _, ex, _, rfl, mem, covers, ?_⟩
  constructor
  case some => exact Nat.pos_of_ne_zero some
  case asked => exact le_trans (min_le_left _ _) (min_le_right _ _)
  case inFile => dsimp only; omega
  case inBlocks => dsimp only; omega
  case most => rfl
  case short => exact short
  case low => exact Nat.le_add_right ..
  case high => dsimp only; omega
  case byte =>
    have split : bbtob (ex.exBn + roff) + bbtob ex.exOffset = bbtob ex.exBn + bbtob pos := by
      rw [place, bbtob_add, bbtob_add]
      ring
    dsimp only
    omega
  case ahead =>
    dsimp only
    split
    · split
      next more =>
        intro _
        have before : pos + len ≤ btobbt uOffset + len := by
          rw [btobbt]
          omega
        refine ⟨rfl, ?_⟩
        have fits := min_le_left (ex.exLength - (btobbt uOffset + len - ex.exOffset)) (1 <<< s)
        dsimp only
        omega
      next => exact fun none => absurd rfl none
    · exact fun none => absurd rfl none

/-- A read of a byte that the extents do not hold is at the end of the file. -/
theorem efsBmapReadLb_past (contig : Contig 0 ip.iiExtents)
    (past : lengthOf ip.iiExtents ≤ btobbt uOffset) :
    efsBmapReadLb s ip uOffset uCount = (ip, .ok none) := by
  obtain ⟨pos, len, found, -⟩ := bmapSearch_past contig past
  rw [efsBmapReadLb, found]

/-- A kernel's own logical blocks are one of the sizes. -/
theorem efsBmapReadLb_eq (t : Tune) (ip : Inode) (uOffset uCount : Nat) :
    efsBmapReadLb t.efsLbtobbshift ip uOffset uCount = efsBmapRead t ip uOffset uCount := by
  have shift : uOffset >>> (t.efsLbtobbshift + 9) = btobbt uOffset / t.efsBbsperlb := by
    rw [Nat.shiftRight_eq_div_pow, btobbt, Tune.efsBbsperlb, Nat.pow_add, Nat.mul_comm,
      ← Nat.div_div_eq_div_mul]
  have size : 1 <<< t.efsLbtobbshift = t.efsBbsperlb := by
    rw [Nat.shiftLeft_eq, Nat.one_mul, Tune.efsBbsperlb]
  have parts : ∀ ex, bmapPart t ex (btobbt uOffset / t.efsBbsperlb) =
      (⟨ex.exBn + (lbPart t.efsLbtobbshift ex (uOffset >>> (t.efsLbtobbshift + 9))).2.2,
        (lbPart t.efsLbtobbshift ex (uOffset >>> (t.efsLbtobbshift + 9))).2.1⟩,
        (lbPart t.efsLbtobbshift ex (uOffset >>> (t.efsLbtobbshift + 9))).1) := by
    intro ex
    rw [bmapPart, lbPart, shift, size]
    simp only [Nat.shiftRight_eq_div_pow, Nat.shiftLeft_eq, Tune.efsBbsperlb]
    by_cases before : (ex.exOffset + 2 ^ t.efsLbtobbshift - 1) / 2 ^ t.efsLbtobbshift ≤
        btobbt uOffset / 2 ^ t.efsLbtobbshift
    · simp only [if_pos before]
      exact if_pos before
    · simp only [if_neg before, Nat.add_zero]
      exact if_neg before
  rw [efsBmapReadLb, efsBmapRead]
  cases found : bmapSearch ip.iiExtents (btobbt uOffset) with
  | none => rfl
  | some probe =>
      cases probe with
      | past pos len => rfl
      | gotit i =>
          dsimp only
          rw [parts, size]
          have low := (covers_iff.mp (covers_of_bmapProbe (bmapProbe_of_bmapSearch found))).1
          generalize ip.iiExtents.getD i Extent.null = ex at low ⊢
          generalize lbPart t.efsLbtobbshift ex (uOffset >>> (t.efsLbtobbshift + 9)) = part
          obtain ⟨pos, len, roff⟩ := part
          have rest : ex.exLength - (btobbt uOffset + len - ex.exOffset) =
              ex.exOffset + ex.exLength - (btobbt uOffset + len) := by omega
          dsimp only
          rw [rest, ite_and]

end Window

/-- Reading maps every byte that the extents hold to its place, and every other one to the
    end of the file. -/
theorem read_window (s : Nat) (ip : Inode) (uOffset uCount : Nat) (contig : Contig 0 ip.iiExtents)
    (positive : ∀ ex ∈ ip.iiExtents, 0 < ex.exLength) (inFile : uOffset < ip.iSize)
    (asked : 0 < uCount) :
    (btobbt uOffset < lengthOf ip.iiExtents →
      ∃ a b ex bmap, efsBmapReadLb s ip uOffset uCount =
          ({ ip with ciLastbn := a, ciLastlen := b }, .ok (some bmap)) ∧
        ex ∈ ip.iiExtents ∧ ex.covers (btobbt uOffset) = true ∧
        ReadWindow ip (1 <<< s) uOffset uCount ex bmap) ∧
      (lengthOf ip.iiExtents ≤ btobbt uOffset →
        efsBmapReadLb s ip uOffset uCount = (ip, .ok none)) :=
  ⟨efsBmapReadLb_inside contig positive inFile asked, efsBmapReadLb_past contig⟩

/-- A file that was read up to a block of its second extent, which starts inside a logical
    block. -/
def threeExtents : Inode :=
  ⟨5, .ifreg, 28160, 5, 2, false, 0, [], [⟨0, 70, 5, 0⟩, ⟨0, 200, 30, 5⟩, ⟨0, 90, 20, 35⟩]⟩

/-- The reading goes on in that extent, and the next logical block is read ahead. -/
theorem read_window_ahead :
    ∃ a b ex bmap, efsBmapReadLb 4 threeExtents 3684 20000 =
        ({ threeExtents with ciLastbn := a, ciLastlen := b }, .ok (some bmap)) ∧
      ex ∈ threeExtents.iiExtents ∧ ex.covers (btobbt 3684) = true ∧
      ReadWindow threeExtents (1 <<< 4) 3684 20000 ex bmap ∧ bmap.rex.length = 16 := by
  obtain ⟨a, b, ex, bmap, reads, listed, covers, window⟩ := (read_window 4 threeExtents 3684 20000
    (by decide) (by decide) (by decide) (by decide)).1 (by decide)
  have ahead : (efsBmapReadLb 4 threeExtents 3684 20000).2 =
      .ok (some ⟨⟨200, 11⟩, ⟨211, 16⟩, 1124, 4508⟩) := by
    decide +kernel
  rw [reads] at ahead
  cases ahead
  exact ⟨a, b, ex, _, reads, listed, covers, window, rfl⟩

/-- A file of a block with one extent, or with none. -/
def oneBlock (exts : List Extent) : Inode :=
  ⟨5, .ifreg, 512, 0, 0, false, 0, [], exts⟩

/-- The size of the inode says more than its extents hold. -/
theorem read_beyond_extents : ¬ ∃ ip' ex bmap,
    efsBmapReadLb 4 (oneBlock []) 100 1000 = (ip', .ok (some bmap)) ∧
      ReadWindow (oneBlock []) (1 <<< 4) 100 1000 ex bmap := by
  rintro ⟨ip', ex, bmap, eq, -⟩
  cases eq

end Irix.ExtentFs
