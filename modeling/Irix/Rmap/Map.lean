import Mathlib.Data.Int.Order.Basic
import Mathlib.Data.List.Basic
import Mathlib.Tactic.Common

/-! # Resource maps

A resource map keeps the free segments of an address space in an array, sorted by
address, with an entry of size and address 0 behind the last.  Ranges end below 2^31
here, so that the sums of the source do not overflow.
-/

namespace Irix.Rmap

/-- `struct mapent` -/
structure Mapent where
  mSize : Int
  mAddr : Int
  deriving DecidableEq, Repr

def Mapent.zero : Mapent := ⟨0, 0⟩

/-- How a call goes wrong: it panics, or it goes beyond the array. -/
inductive Trap where
  | panic
  | outside
  deriving DecidableEq, Repr

instance {α : Type} [DecidableEq α] : DecidableEq (Except Trap α)
  | .ok a, .ok b => if same : a = b then isTrue (congrArg _ same) else isFalse fun eq => same (Except.ok.inj eq)
  | .error e, .error f =>
      if same : e = f then isTrue (congrArg _ same) else isFalse fun eq => same (Except.error.inj eq)
  | .ok _, .error _ => isFalse nofun
  | .error _, .ok _ => isFalse nofun

/-- The slots from `mp + 1` to `m_limit` of a map initialised over zeroed slots. -/
def rminit (size addr : Int) (mapsize : Nat) : List Mapent :=
  ⟨size, addr⟩ :: List.replicate (mapsize - 2) Mapent.zero

/-- Move the rest of the pieces to the left, over the first one. -/
def moveLeft : List Mapent → Except Trap (List Mapent)
  | _ :: bp :: rest =>
      if bp.mSize = 0 then .ok (bp :: bp :: rest) else (moveLeft (bp :: rest)).map (bp :: ·)
  | _ => .error .outside

/-- The search of `rmalloc` for a piece which has enough free space. -/
def rmallocSlots (size : Int) : List Mapent → Except Trap (List Mapent × Int)
  | [] => .error .outside
  | bp :: rest =>
      if bp.mSize = 0 then .ok (bp :: rest, 0)
      else if size ≤ bp.mSize then
        if bp.mSize - size = 0 then (moveLeft (bp :: rest)).map fun slots => (slots, bp.mAddr)
        else .ok (⟨bp.mSize - size, bp.mAddr + size⟩ :: rest, bp.mAddr)
      else (rmallocSlots size rest).map fun (slots, addr) => (bp :: slots, addr)

/-- `dmmax` is the largest request for the swap map. -/
def rmalloc (dmmax : Option Int) (slots : List Mapent) (size : Int) : Except Trap (List Mapent × Int) :=
  if size ≤ 0 ∨ ∃ most ∈ dmmax, most < size then .error .panic else rmallocSlots size slots

/-- `rmfree` goes past the piece. -/
def passed (addr : Int) (bp : Mapent) : Bool := decide (bp.mAddr ≤ addr) && decide (bp.mSize ≠ 0)

/-- Make a new entry: the pieces from there on move to the right, and their delimiter is
    overwritten.  The slots behind it are left as they are. -/
def newEntry (entry : Mapent) : List Mapent → Except Trap (List Mapent × List Mapent)
  | [] => .error .outside
  | bp :: rest =>
      if bp.mSize = 0 then .ok ([entry], rest)
      else (newEntry bp rest).map fun (moved, rest) => (entry :: moved, rest)

/-- Discard second to last entry, and move the last entry back one. -/
def discard : List Mapent → Except Trap (List Mapent × Mapent)
  | [lost, bp] => .ok ([bp, Mapent.zero], lost)
  | bp :: rest => (discard rest).map fun (slots, lost) => (bp :: slots, lost)
  | [] => .error .outside

/-- Don't abut on the left. -/
def rmfreeRight (before : List Mapent) (bp : Mapent) (rest : List Mapent) (size addr : Int) :
    Except Trap (List Mapent × Option Mapent) :=
  if bp.mAddr ≤ addr + size ∧ bp.mSize ≠ 0 then
    if bp.mAddr < addr + size then .error .panic
    else .ok (before ++ ⟨bp.mSize + size, bp.mAddr - size⟩ :: rest, none)
  else
    match newEntry ⟨size, addr⟩ (bp :: rest) with
    | .error e => .error e
    | .ok (moved, []) => (discard (before ++ moved)).map fun (slots, lost) => (slots, some lost)
    | .ok (moved, rest) => .ok (before ++ moved ++ rest, none)

/-- The slots after space is freed, and the piece that is lost if the table is too full. -/
def rmfree (slots : List Mapent) (size addr : Int) : Except Trap (List Mapent × Option Mapent) :=
  if addr ≤ 0 ∨ size ≤ 0 then .error .panic
  else
    let before := slots.takeWhile (passed addr)
    match slots.dropWhile (passed addr) with
    | [] => .error .outside
    | bp :: rest =>
        match before.getLast? with
        | none => rmfreeRight before bp rest size addr
        | some left =>
            if addr ≤ left.mAddr + left.mSize then
              if addr < left.mAddr + left.mSize then .error .panic
              else if bp.mAddr ≠ 0 ∧ bp.mAddr ≤ addr + size then
                if bp.mAddr < addr + size then .error .panic
                else if bp.mSize = 0 then
                  .ok (before.dropLast ++ ⟨left.mSize + size + bp.mSize, left.mAddr⟩ :: bp :: rest, none)
                else (moveLeft (bp :: rest)).map fun rest =>
                  (before.dropLast ++ ⟨left.mSize + size + bp.mSize, left.mAddr⟩ :: rest, none)
              else .ok (before.dropLast ++ ⟨left.mSize + size, left.mAddr⟩ :: bp :: rest, none)
            else rmfreeRight before bp rest size addr

/-! ## Well-formed maps -/

/-- The units of the pieces. -/
def Covers (segs : List Mapent) (x : Int) : Prop := ∃ f ∈ segs, f.mAddr ≤ x ∧ x < f.mAddr + f.mSize

/-- Pieces in the order of their addresses that do not meet or abut. -/
structure Pieces (segs : List Mapent) : Prop where
  solid : ∀ f ∈ segs, 0 < f.mSize ∧ 0 < f.mAddr
  gaps : segs.Pairwise fun f g => f.mAddr + f.mSize < g.mAddr

/-- The slots hold the pieces, and behind them nothing but zeros, one at least. -/
structure Holds (slots segs : List Mapent) : Prop extends Pieces segs where
  zeros : ∃ n, slots = segs ++ List.replicate (n + 1) Mapent.zero

section Spec

variable {slots segs pre post : List Mapent} {f : Mapent} {size addr : Int} {n : Nat}

@[simp] theorem covers_nil {x : Int} : Covers [] x ↔ False := by simp [Covers]

@[simp] theorem covers_cons {x : Int} :
    Covers (f :: segs) x ↔ (f.mAddr ≤ x ∧ x < f.mAddr + f.mSize) ∨ Covers segs x := by simp [Covers]

@[simp] theorem covers_append {x : Int} : Covers (pre ++ post) x ↔ Covers pre x ∨ Covers post x := by
  simp [Covers, or_and_right, exists_or]

theorem moveLeft_pieces (solid : ∀ g ∈ segs, 0 < g.mSize) :
    moveLeft (f :: (segs ++ List.replicate (n + 1) Mapent.zero)) =
      .ok (segs ++ List.replicate (n + 2) Mapent.zero) := by
  induction segs generalizing f with
  | nil => rfl
  | cons g segs ih =>
      have some := solid g (List.mem_cons_self ..)
      rw [List.cons_append, moveLeft, if_neg (Int.ne_of_gt some),
        ih fun h listed => solid h (List.mem_cons_of_mem _ listed)]
      rfl

theorem newEntry_pieces (solid : ∀ g ∈ segs, 0 < g.mSize) :
    newEntry f (segs ++ List.replicate (n + 1) Mapent.zero) =
      .ok (f :: segs, List.replicate n Mapent.zero) := by
  induction segs generalizing f with
  | nil => rfl
  | cons g segs ih =>
      have some := solid g (List.mem_cons_self ..)
      rw [List.cons_append, newEntry, if_neg (Int.ne_of_gt some),
        ih fun h listed => solid h (List.mem_cons_of_mem _ listed)]
      rfl

theorem discard_last {lost bp : Mapent} :
    discard (segs ++ [lost, bp]) = .ok (segs ++ [bp, Mapent.zero], lost) := by
  induction segs with
  | nil => rfl
  | cons g segs ih =>
      rw [List.cons_append]
      cases segs with
      | nil => rfl
      | cons h segs =>
          rw [discard, ih]
          · rfl
          · simp

/-! ## Pieces by their units -/

theorem Mapent.ends (solid : 0 < f.mSize) : Covers [f] f.mAddr ∧ Covers [f] (f.mAddr + f.mSize - 1) := by
  simp only [covers_cons, covers_nil, or_false]
  omega

theorem Covers.of_mem {x : Int} (listed : f ∈ segs) (inside : Covers [f] x) : Covers segs x := by
  simp only [covers_cons, covers_nil, or_false] at inside
  exact ⟨f, listed, inside⟩

theorem Pieces.sublist {segs' : List Mapent} (pieces : Pieces segs) (sub : segs'.Sublist segs) : Pieces segs' :=
  ⟨fun f listed => pieces.solid f (sub.subset listed), pieces.gaps.sublist sub⟩

/-- Two lists of pieces, with a gap of at least a unit between them. -/
theorem pieces_append : Pieces (pre ++ post) ↔
    Pieces pre ∧ Pieces post ∧ ∀ x y, Covers pre x → Covers post y → x + 1 < y := by
  constructor
  · intro pieces
    obtain ⟨gaps, gaps', apart⟩ := List.pairwise_append.mp pieces.gaps
    refine ⟨pieces.sublist (List.sublist_append_left pre post),
      pieces.sublist (List.sublist_append_right pre post), ?_⟩
    rintro x y ⟨f, first, low, high⟩ ⟨g, second, low', high'⟩
    have gap := apart f first g second
    omega
  · rintro ⟨first, second, apart⟩
    refine ⟨fun f listed => (List.mem_append.mp listed).elim (first.solid f) (second.solid f),
      List.pairwise_append.mpr ⟨first.gaps, second.gaps, fun f here g there => ?_⟩⟩
    have ends := (f.ends (first.solid f here).1).2
    have starts := (g.ends (second.solid g there).1).1
    have gap := apart _ _ (ends.of_mem here) (starts.of_mem there)
    omega

theorem pieces_cons : Pieces (f :: segs) ↔
    (0 < f.mSize ∧ 0 < f.mAddr) ∧ Pieces segs ∧ ∀ y, Covers segs y → f.mAddr + f.mSize < y := by
  constructor
  · intro pieces
    obtain ⟨gaps, rest⟩ := List.pairwise_cons.mp pieces.gaps
    refine ⟨pieces.solid f (List.mem_cons_self ..), pieces.sublist (List.sublist_cons_self f segs), ?_⟩
    rintro y ⟨g, listed, low, high⟩
    have gap := gaps g listed
    omega
  · rintro ⟨solid, rest, apart⟩
    refine ⟨fun g listed => ?_, List.pairwise_cons.mpr ⟨fun g listed => ?_, rest.gaps⟩⟩
    · rcases List.mem_cons.mp listed with rfl | later
      · exact solid
      · exact rest.solid g later
    · exact apart _ (((g.ends (rest.solid g listed).1).1).of_mem listed)

/-- The units from `addr` on. -/
def Range (size addr x : Int) : Prop := addr ≤ x ∧ x < addr + size

/-! ## Allocation -/

/-- Space has been taken from the pieces. -/
structure Took (size addr : Int) (segs segs' : List Mapent) : Prop where
  pieces : Pieces segs'
  start : 0 < addr
  free : ∀ x, Range size addr x → Covers segs x
  left : ∀ x, Covers segs' x ↔ Covers segs x ∧ ¬ Range size addr x

/-- The first piece with enough space is cut at its beginning. -/
theorem rmallocSlots_pieces (pieces : Pieces segs) (some : 0 < size) (n : Nat) :
    (rmallocSlots size (segs ++ List.replicate (n + 1) Mapent.zero) =
        .ok (segs ++ List.replicate (n + 1) Mapent.zero, 0) ∧ ∀ f ∈ segs, f.mSize < size) ∨
    ∃ segs' addr n', rmallocSlots size (segs ++ List.replicate (n + 1) Mapent.zero) =
        .ok (segs' ++ List.replicate (n' + 1) Mapent.zero, addr) ∧
      segs'.length + n' = segs.length + n ∧ Took size addr segs segs' := by
  induction segs with
  | nil => exact Or.inl ⟨rfl, by simp⟩
  | cons f segs ih =>
      obtain ⟨solid, rest, apart⟩ := pieces_cons.mp pieces
      rw [List.cons_append, rmallocSlots, if_neg (Int.ne_of_gt solid.1)]
      by_cases enough : size ≤ f.mSize
      · rw [if_pos enough]
        refine Or.inr ?_
        by_cases whole : f.mSize - size = 0
        · rw [if_pos whole, moveLeft_pieces fun g listed => (rest.solid g listed).1]
          refine ⟨segs, f.mAddr, n + 1, rfl, by simp only [List.length_cons]; omega, rest, solid.2, ?_, ?_⟩
          · intro x inside
            rw [covers_cons]
            simp only [Range] at inside
            omega
          · intro x
            rw [covers_cons]
            simp only [Range]
            constructor
            · intro later
              have := apart x later
              exact ⟨Or.inr later, by omega⟩
            · rintro ⟨here | later, out⟩
              · omega
              · exact later
        · rw [if_neg whole]
          refine ⟨⟨f.mSize - size, f.mAddr + size⟩ :: segs, f.mAddr, n, rfl, rfl,
            pieces_cons.mpr ⟨⟨by dsimp only; omega, by dsimp only; omega⟩, rest, fun y later => ?_⟩,
            solid.2, fun x inside => ?_, fun x => ?_⟩
          · have := apart y later
            dsimp only
            omega
          · rw [covers_cons]
            simp only [Range] at inside
            omega
          · rw [covers_cons, covers_cons]
            simp only [Range]
            constructor
            · rintro (here | later)
              · omega
              · have := apart x later
                exact ⟨Or.inr later, by omega⟩
            · rintro ⟨here | later, out⟩
              · omega
              · exact Or.inr later
      · rw [if_neg enough]
        rcases ih rest with ⟨failed, few⟩ | ⟨segs', addr, n', found, length, took⟩
        · refine Or.inl ⟨by rw [failed]; rfl, fun g listed => ?_⟩
          rcases List.mem_cons.mp listed with rfl | later
          · omega
          · exact few g later
        · refine Or.inr ⟨f :: segs', addr, n', by rw [found]; rfl,
            by simp only [List.length_cons]; omega, pieces_cons.mpr ⟨solid, took.pieces, fun y here => ?_⟩,
            took.start, fun x inside => ?_, fun x => ?_⟩
          · exact apart y ((took.left y).mp here).1
          · exact covers_cons.mpr (Or.inr (took.free x inside))
          · rw [covers_cons, covers_cons, took.left]
            constructor
            · rintro (here | ⟨later, out⟩)
              · refine ⟨Or.inl here, fun inside => ?_⟩
                have := apart x (took.free x inside)
                omega
              · exact ⟨Or.inr later, out⟩
            · rintro ⟨here | later, out⟩
              · exact Or.inl here
              · exact Or.inr ⟨later, out⟩

/-! ## Freeing -/

/-- A piece between others. -/
theorem pieces_middle : Pieces (pre ++ f :: post) ↔ Pieces pre ∧ (0 < f.mSize ∧ 0 < f.mAddr) ∧ Pieces post ∧
    (∀ x, Covers pre x → x + 1 < f.mAddr) ∧ ∀ y, Covers post y → f.mAddr + f.mSize < y := by
  rw [pieces_append, pieces_cons]
  simp only [covers_cons]
  constructor
  · rintro ⟨first, ⟨solid, last, behind⟩, apart⟩
    exact ⟨first, solid, last, fun x here => apart x f.mAddr here (Or.inl ⟨Int.le_refl _, by omega⟩), behind⟩
  · rintro ⟨first, solid, last, front, behind⟩
    refine ⟨first, ⟨solid, last, behind⟩, ?_⟩
    rintro x y here (inside | there)
    · have := front x here
      omega
    · have := front x here
      have := behind y there
      omega

/-- Space has been given to the pieces; some of it may be lost. -/
structure Freed (size addr : Int) (segs segs' : List Mapent) (lost : Option Mapent) : Prop where
  pieces : Pieces segs'
  units : ∀ x, Covers segs' x ∨ Covers lost.toList x ↔ Covers segs x ∨ Range size addr x
  apart : ∀ x, Covers segs' x → ¬ Covers lost.toList x

theorem Freed.none {segs' : List Mapent} (pieces : Pieces segs')
    (units : ∀ x, Covers segs' x ↔ Covers segs x ∨ Range size addr x) : Freed size addr segs segs' none :=
  ⟨pieces, fun x => by simp [units], fun x _ lost => by simp at lost⟩

/-- Where the space goes: behind the pieces that begin before it. -/
theorem passed_pieces (pieces : Pieces segs) (n : Nat) : ∃ pre post, segs = pre ++ post ∧
    (segs ++ List.replicate (n + 1) Mapent.zero).takeWhile (passed addr) = pre ∧
    (segs ++ List.replicate (n + 1) Mapent.zero).dropWhile (passed addr) =
      post ++ List.replicate (n + 1) Mapent.zero ∧
    (∀ f ∈ pre, f.mAddr ≤ addr) ∧ ∀ f ∈ post, addr < f.mAddr := by
  induction segs with
  | nil => exact ⟨[], [], rfl, by simp [passed, Mapent.zero, List.replicate_succ],
      by simp [passed, Mapent.zero, List.replicate_succ], by simp, by simp⟩
  | cons f segs ih =>
      obtain ⟨solid, rest, apart⟩ := pieces_cons.mp pieces
      by_cases before : f.mAddr ≤ addr
      · have pass : passed addr f = true := by
          simp only [passed, before, decide_true, Bool.true_and, decide_eq_true_eq]
          omega
        obtain ⟨pre, post, same, take, drop, low, high⟩ := ih rest
        refine ⟨f :: pre, post, by rw [same]; rfl, ?_, ?_, ?_, high⟩
        · rw [List.cons_append, List.takeWhile_cons_of_pos pass, take]
        · rw [List.cons_append, List.dropWhile_cons_of_pos pass, drop]
        · exact List.forall_mem_cons.mpr ⟨before, low⟩
      · have stop : ¬ passed addr f = true := by simp [passed, before]
        refine ⟨[], f :: segs, rfl, ?_, ?_, by simp, ?_⟩
        · rw [List.cons_append, List.takeWhile_cons_of_neg stop]
        · rw [List.cons_append, List.dropWhile_cons_of_neg stop]
        · refine List.forall_mem_cons.mpr ⟨by omega, fun g listed => ?_⟩
          have := apart g.mAddr (((g.ends (rest.solid g listed).1).1).of_mem listed)
          omega

theorem last_two {l : List Mapent} (two : 2 ≤ l.length) : ∃ init lost bp, l = init ++ [lost, bp] := by
  rcases List.eq_nil_or_concat' l with rfl | ⟨l', bp, rfl⟩
  · cases two
  · rcases List.eq_nil_or_concat' l' with rfl | ⟨init, lost, rfl⟩
    · simp at two
    · exact ⟨init, lost, bp, by rw [List.append_assoc]; rfl⟩

/-- The pieces that a call of `rmfree` leaves, in as many slots as before. -/
def Leaves (out : Except Trap (List Mapent × Option Mapent)) (size addr : Int) (segs : List Mapent)
    (n : Nat) : Prop :=
  ∃ segs' lost n', out = .ok (segs' ++ List.replicate (n' + 1) Mapent.zero, lost) ∧
    segs'.length + n' = segs.length + n ∧ Freed size addr segs segs' lost

/-- A new entry, with the one before the last discarded if the table is too full. -/
theorem newEntry_leaves {bp : Mapent} {rest : List Mapent} (pieces : Pieces (pre ++ ⟨size, addr⟩ :: post))
    (room : 0 < pre.length + post.length + n) (eq : bp :: rest = post ++ List.replicate (n + 1) Mapent.zero) :
    Leaves (match newEntry ⟨size, addr⟩ (bp :: rest) with
      | .error e => .error e
      | .ok (moved, []) => (discard (pre ++ moved)).map fun (slots, lost) => (slots, some lost)
      | .ok (moved, rest) => .ok (pre ++ moved ++ rest, none)) size addr (pre ++ post) n := by
  have solid := (pieces_middle.mp pieces).2.2.1.solid
  have units : ∀ x, Covers (pre ++ ⟨size, addr⟩ :: post) x ↔ Covers (pre ++ post) x ∨ Range size addr x := by
    intro x
    rw [covers_append, covers_append, covers_cons, Range]
    grind -ring -linarith
  rw [eq, newEntry_pieces fun g listed => (solid g listed).1]
  cases n with
  | zero =>
      obtain ⟨init, lost, last, two⟩ := @last_two (pre ++ ⟨size, addr⟩ :: post) (by
        simp only [List.length_append, List.length_cons]; omega)
      have count := congrArg List.length two
      simp only [List.length_append, List.length_cons, List.length_nil] at count
      rw [two] at units pieces
      have sub : (init ++ [last]).Sublist (init ++ [lost, last]) :=
        List.Sublist.append_left (List.sublist_cons_self lost [last]) init
      refine ⟨init ++ [last], some lost, 0, ?_, ?_, pieces.sublist sub, fun x => ?_, fun x kept gone => ?_⟩
      · simp only [List.replicate_zero, two, discard_last, Except.map]
        rw [List.append_assoc]
        rfl
      · simp only [List.length_append, List.length_cons, List.length_nil]
        omega
      · rw [← units x]
        simp only [covers_append, covers_cons, covers_nil, Option.toList_some, or_false]
        grind -ring -linarith
      · obtain ⟨-, ⟨solid, rest, behind⟩, apart⟩ := (pieces_append.trans (and_congr_right' (and_congr_left' pieces_cons))).mp pieces
        rw [covers_append] at kept
        rcases kept with early | late
        · have := apart x x early (covers_cons.mpr (Or.inl (by simpa using gone)))
          omega
        · have := behind x late
          simp only [Option.toList_some, covers_cons, covers_nil, or_false] at gone
          omega
  | succ n =>
      refine ⟨pre ++ ⟨size, addr⟩ :: post, none, n, rfl, ?_, Freed.none pieces units⟩
      simp only [List.length_append, List.length_cons]
      omega

/-- The space does not abut on the left. -/
theorem rmfreeRight_leaves {bp : Mapent} {rest : List Mapent} (pieces : Pieces (pre ++ post))
    (front : ∀ x, Covers pre x → x + 1 < addr) (behind : ∀ y, Covers post y → addr + size ≤ y)
    (some : 0 < size ∧ 0 < addr) (room : 0 < pre.length + post.length + n)
    (eq : bp :: rest = post ++ List.replicate (n + 1) Mapent.zero) :
    Leaves (rmfreeRight pre bp rest size addr) size addr (pre ++ post) n := by
  obtain ⟨first, last, apart⟩ := pieces_append.mp pieces
  rw [rmfreeRight]
  by_cases abuts : bp.mAddr ≤ addr + size ∧ bp.mSize ≠ 0
  · rw [if_pos abuts]
    cases post with
    | nil =>
        obtain ⟨rfl, -⟩ := List.cons.inj eq
        exact absurd rfl abuts.2
    | cons g post =>
        obtain ⟨rfl, rfl⟩ := List.cons.inj eq
        obtain ⟨solid, rest, later⟩ := pieces_cons.mp last
        have reach := behind bp.mAddr (covers_cons.mpr (Or.inl ⟨Int.le_refl _, by omega⟩))
        rw [if_neg (by omega)]
        refine ⟨pre ++ ⟨bp.mSize + size, bp.mAddr - size⟩ :: post, none, n, ?_, ?_, Freed.none
          (pieces_middle.mpr ⟨first, ⟨by dsimp only; omega, by dsimp only; omega⟩, rest, fun x here => ?_,
            fun y there => ?_⟩) fun x => ?_⟩
        · rw [List.append_assoc]
          rfl
        · simp only [List.length_append, List.length_cons]
        · have := front x here
          dsimp only
          omega
        · have := later y there
          dsimp only
          omega
        · have parts : (bp.mAddr - size ≤ x ∧ x < bp.mAddr - size + (bp.mSize + size)) ↔
              (bp.mAddr ≤ x ∧ x < bp.mAddr + bp.mSize) ∨ Range size addr x := by
            simp only [Range]
            omega
          simp only [covers_append, covers_cons, parts]
          grind -ring -linarith
  · rw [if_neg abuts]
    refine newEntry_leaves (pieces_middle.mpr ⟨first, some, last, front, fun y there => ?_⟩) room eq
    have reach := behind y there
    cases post with
    | nil => simp at there
    | cons g post =>
        obtain ⟨rfl, rfl⟩ := List.cons.inj eq
        obtain ⟨solid, rest, later⟩ := pieces_cons.mp last
        have gap : addr + size < bp.mAddr := by
          by_contra close
          exact abuts ⟨by omega, by omega⟩
        dsimp only
        rcases covers_cons.mp there with here | late
        · omega
        · have := later y late
          omega

/-- The space abuts on the left. -/
theorem joinLeft_units {left : Mapent} (before : ∀ x, Covers pre x → x + 1 < left.mAddr) (early : Pieces pre)
    (solid : 0 < left.mSize ∧ 0 < left.mAddr) (some : 0 < size) (abuts : left.mAddr + left.mSize = addr)
    (last : Pieces post) (behind : ∀ y, Covers post y → addr + size < y) :
    Freed size addr (pre ++ [left] ++ post) (pre ++ ⟨left.mSize + size, left.mAddr⟩ :: post) none := by
  refine Freed.none (pieces_middle.mpr ⟨early, ⟨by dsimp only; omega, solid.2⟩, last, before,
    fun y there => ?_⟩) fun x => ?_
  · have := behind y there
    dsimp only
    omega
  · have parts : (left.mAddr ≤ x ∧ x < left.mAddr + (left.mSize + size)) ↔
        (left.mAddr ≤ x ∧ x < left.mAddr + left.mSize) ∨ Range size addr x := by
      simp only [Range]
      omega
    simp only [covers_append, covers_cons, covers_nil, or_false, parts]
    grind -ring -linarith

/-- It abuts on both sides. -/
theorem joinBoth_units {left bp : Mapent} (before : ∀ x, Covers pre x → x + 1 < left.mAddr)
    (early : Pieces pre) (solid : 0 < left.mSize ∧ 0 < left.mAddr) (some : 0 < size)
    (abuts : left.mAddr + left.mSize = addr) (right : addr + size = bp.mAddr) (last : Pieces (bp :: post)) :
    Freed size addr (pre ++ [left] ++ bp :: post)
      (pre ++ ⟨left.mSize + size + bp.mSize, left.mAddr⟩ :: post) none := by
  obtain ⟨solid', later, gap⟩ := pieces_cons.mp last
  refine Freed.none (pieces_middle.mpr ⟨early, ⟨by dsimp only; omega, solid.2⟩, later, before,
    fun y there => ?_⟩) fun x => ?_
  · have := gap y there
    dsimp only
    omega
  · have parts : (left.mAddr ≤ x ∧ x < left.mAddr + (left.mSize + size + bp.mSize)) ↔
        (left.mAddr ≤ x ∧ x < left.mAddr + left.mSize) ∨ Range size addr x ∨
          (bp.mAddr ≤ x ∧ x < bp.mAddr + bp.mSize) := by
      simp only [Range]
      omega
    simp only [covers_append, covers_cons, covers_nil, or_false, parts]
    grind -ring -linarith

/-- Space that no piece has goes back to the pieces. -/
theorem rmfree_leaves (pieces : Pieces segs) (some : 0 < size ∧ 0 < addr)
    (fresh : ∀ x, Range size addr x → ¬ Covers segs x) (room : 0 < segs.length + n) :
    Leaves (rmfree (segs ++ List.replicate (n + 1) Mapent.zero) size addr) size addr segs n := by
  obtain ⟨pre, post, rfl, take, drop, low, high⟩ := @passed_pieces segs addr pieces n
  obtain ⟨first, last, apart⟩ := pieces_append.mp pieces
  -- the pieces in front end before the space, and those behind begin after it
  have front : ∀ f ∈ pre, f.mAddr + f.mSize ≤ addr := by
    intro f listed
    by_contra beyond
    exact fresh addr ⟨Int.le_refl _, by omega⟩ (covers_append.mpr (Or.inl ⟨f, listed, low f listed, by omega⟩))
  have behind : ∀ y, Covers post y → addr + size ≤ y := by
    rintro y ⟨g, listed, start, stop⟩
    have after := high g listed
    by_contra within
    exact fresh g.mAddr ⟨by omega, by omega⟩ (covers_append.mpr (Or.inr
      (((g.ends (last.solid g listed).1).1).of_mem listed)))
  rw [List.length_append] at room
  rw [rmfree, if_neg (by omega), take, drop]
  dsimp only
  cases eq : post ++ List.replicate (n + 1) Mapent.zero with
  | nil => simp at eq
  | cons bp rest =>
      dsimp only
      rcases List.eq_nil_or_concat' pre with rfl | ⟨init, left, rfl⟩
      · exact rmfreeRight_leaves pieces (fun x here => by simp at here) behind some room eq.symm
      · rw [List.getLast?_concat]
        dsimp only
        have ends := front left (List.mem_append_right _ (List.mem_singleton_self left))
        have solid := first.solid left (List.mem_append_right _ (List.mem_singleton_self left))
        by_cases abuts : addr ≤ left.mAddr + left.mSize
        · rw [if_pos abuts, if_neg (by omega), List.dropLast_concat]
          have touch : left.mAddr + left.mSize = addr := by omega
          obtain ⟨early, -, gap⟩ := pieces_append.mp first
          have before : ∀ x, Covers init x → x + 1 < left.mAddr := fun x here =>
            gap x left.mAddr here (covers_cons.mpr (Or.inl ⟨Int.le_refl _, by omega⟩))
          have count : ∀ m, (init ++ m :: post).length = (init ++ [left] ++ post).length := fun m => by
            simp only [List.length_append, List.length_cons, List.length_nil]
            omega
          by_cases both : bp.mAddr ≠ 0 ∧ bp.mAddr ≤ addr + size
          · rw [if_pos both]
            cases post with
            | nil =>
                obtain ⟨rfl, -⟩ := List.cons.inj eq
                exact absurd rfl both.1
            | cons g post =>
                rw [List.cons_append] at eq
                obtain ⟨rfl, rfl⟩ := List.cons.inj eq
                have right := (last.solid g (List.mem_cons_self ..)).1
                have reach := behind g.mAddr (covers_cons.mpr (Or.inl ⟨Int.le_refl _, by omega⟩))
                rw [if_neg (by omega), if_neg (Int.ne_of_gt right),
                  moveLeft_pieces fun h listed => (last.solid h (List.mem_cons_of_mem _ listed)).1]
                refine ⟨init ++ ⟨left.mSize + size + g.mSize, left.mAddr⟩ :: post, none, n + 1, ?_, ?_,
                  joinBoth_units before early solid some.1 touch (by omega) last⟩
                · rw [List.append_assoc]
                  rfl
                · simp only [List.length_append, List.length_cons, List.length_nil]
                  omega
          · rw [if_neg both]
            refine ⟨init ++ ⟨left.mSize + size, left.mAddr⟩ :: post, none, n, ?_, ?_,
              joinLeft_units before early solid some.1 touch last fun y there => ?_⟩
            · rw [← eq, List.append_assoc]
              rfl
            · rw [count]
            · have reach := behind y there
              cases post with
              | nil => simp at there
              | cons g post =>
                  obtain ⟨rfl, rfl⟩ := List.cons.inj eq
                  obtain ⟨right, later, gap'⟩ := pieces_cons.mp last
                  rcases covers_cons.mp there with here | late
                  · omega
                  · have := gap' y late
                    omega
        · rw [if_neg abuts]
          refine rmfreeRight_leaves pieces (fun x here => ?_) behind some room eq.symm
          rcases covers_append.mp here with early | late
          · obtain ⟨-, -, gap⟩ := pieces_append.mp first
            have := gap x left.mAddr early (covers_cons.mpr (Or.inl ⟨Int.le_refl _, by omega⟩))
            omega
          · simp only [covers_cons, covers_nil, or_false] at late
            omega

end Spec

end Irix.Rmap
