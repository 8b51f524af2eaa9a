import Irix.Mex.Visible
import Mathlib.Order.Basic

/-! # The links of the pieces

The pieces of one window with the links they are in its two lists by, and `wm_coalesce` as it
follows and rewrites them. It does what the passes over the lists do.
-/

namespace Irix.Mex

open Function
open Lib (Rect Pool)
open Lib.Linked

/-- A window's pieces and the free ones. -/
structure Links where
  piece : PieceId → Rect
  /-- `w_xhead`, `w_xtail` and the links `w_xnext`, `w_xprev` of the pieces -/
  x : Dlist PieceId
  /-- `w_yhead`, `w_ytail` and the links `w_ynext`, `w_yprev` of the pieces -/
  y : Dlist PieceId
  /-- `win_piecefreelist`, which goes on along `w_ynext` -/
  freelist : Option PieceId

namespace Links

/-- `while (p && test (p)) p = next (p)` -/
def skip (next : PieceId → Option PieceId) (test : PieceId → Bool) :
    Nat → Option PieceId → Option (Option PieceId)
  | _, none => some none
  | 0, some _ => none
  | fuel + 1, some p => if test p then skip next test fuel (next p) else some (some p)

/-- Link `wp` in before `p`, or at the end. -/
def linkBefore (d : Dlist PieceId) (wp : PieceId) (p : Option PieceId) : Dlist PieceId :=
  match p with
  | some p => d.insert wp (d.prev p) (some p)
  | none => d.insert wp d.last none

/-- Add to one of the lists. -/
def sortInto (fuel : Nat) (r : PieceId → Rect) (wp : PieceId) (d : Dlist PieceId) :
    Option (Dlist PieceId) := do
  let p ← skip d.next (columnLess r wp) fuel d.first
  let p ← skip d.next (sameColumnLess r wp) fuel p
  some (linkBefore d wp p)

def addpiece (fuel : Nat) (wp : PieceId) (l : Links) : Option Links := do
  let x ← sortInto fuel l.piece wp l.x
  let y ← sortInto fuel (fun p => (l.piece p).flip) wp l.y
  some { l with x := x, y := y }

def removepiece (wp : PieceId) (l : Links) : Links :=
  { l with x := l.x.remove wp, y := l.y.remove wp }

def wmFreepiece (wp : PieceId) (l : Links) : Links :=
  { l with y := { l.y with next := update l.y.next wp l.freelist }, freelist := some wp }

/-- The piece is removed, changed and added again. -/
def readd (fuel : Nat) (wp : PieceId) (r : Rect) (l : Links) : Option Links :=
  addpiece fuel wp { removepiece wp l with piece := update l.piece wp r }

/-- One pass of `wm_coalesce` from the piece `wp` on, along the links of one of the lists. With
    `n` the loops of `addpiece` are bounded. -/
def coalesceFrom (chain : Links → Dlist PieceId) (turn : Rect → Rect) (n : Nat) :
    Nat → PieceId → Links → Option Links
  | fuel, wp, l =>
    match (chain l).next wp, fuel with
    | none, _ => some l
    | some _, 0 => none
    | some wpgone, fuel + 1 =>
      let a := turn (l.piece wp)
      let b := turn (l.piece wpgone)
      if a.xmin = b.xmin ∧ a.ymax = b.ymin - 1 then
        if a.xmax = b.xmax then do
          let l ← readd n wp (turn { a with ymax := b.ymax }) l
          coalesceFrom chain turn n fuel wp (wmFreepiece wpgone (removepiece wpgone l))
        else if a.xmax < b.xmax then do
          let l ← readd n wp (turn { a with ymax := b.ymax }) l
          let l ← readd n wpgone (turn { b with xmin := a.xmax + 1 }) l
          coalesceFrom chain turn n fuel wp l
        else do
          let l ← readd n wp (turn { a with ymax := b.ymax, xmax := b.xmax }) l
          let l ← readd n wpgone (turn { a with xmin := b.xmax + 1 }) l
          coalesceFrom chain turn n fuel wp l
      else coalesceFrom chain turn n fuel wpgone l

def coalescePass (chain : Links → Dlist PieceId) (turn : Rect → Rect) (fuel : Nat) (l : Links) :
    Option Links :=
  match (chain l).first with
  | none => none
  | some wp => coalesceFrom chain turn fuel fuel wp l

def wmCoalesce (fuel : Nat) (l : Links) : Option Links :=
  match l.y.first with
  | none => some l
  | some _ => do
      let l ← coalescePass Links.x id fuel l
      coalescePass Links.y Rect.flip fuel l

/-- The two lists have the same pieces, each in its order and linked both ways. -/
structure Listed (l : Links) (xs ys : List PieceId) : Prop where
  x : Chain l.x xs
  y : Chain l.y ys
  same : xs.Perm ys
  xSorted : xs.Pairwise (Before l.piece)
  ySorted : ys.Pairwise (Before fun p => (l.piece p).flip)

/-- No piece is empty and none meets another. -/
structure Disjoint (l : Links) (ys : List PieceId) : Prop where
  proper : ∀ p ∈ ys, (l.piece p).Proper
  apart : ys.Pairwise fun p q => (l.piece p).Apart (l.piece q)

def Has (l : Links) (ys : List PieceId) (x y : Int) : Prop := ∃ p ∈ ys, (l.piece p).has x y = true

/-! ## One list -/

section

variable {d : Dlist PieceId} {test : PieceId → Bool} {done rest ps : List PieceId} {wp : PieceId}
  {fuel : Nat}

theorem skip_chain (chain : Chain d (done ++ rest)) (enough : rest.length ≤ fuel) :
    skip d.next test fuel rest.head? = some (rest.dropWhile test).head? := by
  induction rest generalizing done fuel with
  | nil => cases fuel <;> rfl
  | cons p rest ih =>
      cases fuel with
      | zero => cases enough
      | succ fuel =>
          have next := chain.next_of
          simp only [List.head?_cons, skip, next, List.dropWhile_cons]
          split
          · apply @ih (done ++ [p])
            · simpa using chain
            · simpa using enough
          · rfl

theorem linkBefore_chain (chain : Chain d (done ++ rest)) (out : wp ∉ done ++ rest) :
    Chain (linkBefore d wp rest.head?) (done ++ wp :: rest) := by
  have linked := chain.insert out
  cases rest with
  | nil =>
      rw [List.append_nil] at chain
      simp only [List.head?_nil, linkBefore] at linked ⊢
      rwa [chain.last]
  | cons p rest =>
      simp only [List.head?_cons, linkBefore] at linked ⊢
      rwa [chain.prev_of]

/-- A piece is added to a list where `sortIn` puts it. -/
theorem sortInto_chain (r : PieceId → Rect) (chain : Chain d ps) (out : wp ∉ ps)
    (enough : ps.length ≤ fuel) :
    ∃ d', sortInto fuel r wp d = some d' ∧ Chain d' (sortIn r wp ps) := by
  have parts := List.takeWhile_append_dropWhile (p := columnLess r wp) (l := ps)
  have parts' := List.takeWhile_append_dropWhile (p := sameColumnLess r wp)
    (l := ps.dropWhile (columnLess r wp))
  have first : skip d.next (columnLess r wp) fuel d.first =
      some (ps.dropWhile (columnLess r wp)).head? := by
    rw [chain.first]
    exact @skip_chain d (columnLess r wp) [] ps fuel chain enough
  have second : skip d.next (sameColumnLess r wp) fuel (ps.dropWhile (columnLess r wp)).head? =
      some ((ps.dropWhile (columnLess r wp)).dropWhile (sameColumnLess r wp)).head? := by
    apply @skip_chain d (sameColumnLess r wp) (ps.takeWhile (columnLess r wp))
    · rwa [parts]
    · exact Nat.le_trans (List.dropWhile_suffix _).length_le enough
  refine ⟨linkBefore d wp ((ps.dropWhile (columnLess r wp)).dropWhile (sameColumnLess r wp)).head?,
    by simp only [sortInto, first, second, Option.bind_eq_bind, Option.bind_some], ?_⟩
  rw [sortIn, ← List.append_assoc]
  apply linkBefore_chain
  · rwa [List.append_assoc, parts', parts]
  · rwa [List.append_assoc, parts', parts]

theorem remove_chain (chain : Chain d ps) (listed : wp ∈ ps) : Chain (d.remove wp) (ps.erase wp) := by
  obtain ⟨done, rest, rfl⟩ := List.append_of_mem listed
  have out := chain.not_mem
  rw [List.mem_append, not_or] at out
  rw [List.erase_append_right _ out.1, List.erase_cons_head]
  exact chain.remove

end

/-! ## The passes -/

/-- The links are those of the lists of a window. -/
structure Linked (w : WinId) (l : Links) (s : State) : Prop where
  piece : l.piece = s.piece
  listed : Listed l (s.win w).xs (s.win w).ys

section

variable {w : WinId} {l : Links} {s : State} {wp wpgone : PieceId} {r : Rect} {n fuel : Nat}
  {ps : List PieceId}

/-- The pieces of a tidy state are in their order, so only the links matter. -/
theorem Linked.of_chains (tidy : Tidy s) (piece : l.piece = s.piece) (x : Chain l.x (s.win w).xs)
    (y : Chain l.y (s.win w).ys) : Linked w l s :=
  ⟨piece, x, y, tidy.perm w, piece ▸ tidy.xSorted w, piece ▸ tidy.sorted w⟩

/-- A piece that is in no list is added to both. -/
theorem addpiece_linked (tidy : Tidy s) (linked : Linked w l s) (loose : s.Loose wp)
    (proper : (s.piece wp).Proper) (taken : s.pieces.Taken wp) (few : (s.win w).ys.length ≤ n) :
    ∃ l', addpiece n wp l = some l' ∧ Linked w l' (Mex.addpiece wp w s) := by
  obtain ⟨piece, ⟨x, y, same, -, -⟩⟩ := linked
  have out : wp ∉ (s.win w).xs := fun listed => loose w (same.mem_iff.mp listed)
  obtain ⟨x', eqX, chainX⟩ := sortInto_chain s.piece x out (same.length_eq.trans_le few)
  obtain ⟨y', eqY, chainY⟩ := sortInto_chain (fun p => (s.piece p).flip) y (loose w) few
  have xs : ((Mex.addpiece wp w s).win w).xs = sortIn s.piece wp (s.win w).xs := by
    simp [Mex.addpiece]
  refine ⟨⟨l.piece, x', y', l.freelist⟩, ?_, .of_chains (tidy.addpiece loose proper taken) piece
    (xs ▸ chainX) (addpiece_ys ▸ chainY)⟩
  simp only [addpiece, piece, eqX, eqY, Option.bind_eq_bind, Option.bind_some]

/-- A piece is taken out of both lists. -/
theorem removepiece_linked (tidy : Tidy s) (linked : Linked w l s) (listed : wp ∈ (s.win w).ys) :
    Linked w (removepiece wp l) (Mex.removepiece wp w s) := by
  obtain ⟨piece, ⟨x, y, same, -, -⟩⟩ := linked
  have xs : ((Mex.removepiece wp w s).win w).xs = (s.win w).xs.erase wp := by
    simp [Mex.removepiece]
  exact .of_chains tidy.removepiece piece (xs ▸ remove_chain x (same.mem_iff.mpr listed))
    (removepiece_ys ▸ remove_chain y listed)

theorem readd_linked (tidy : Tidy s) (linked : Linked w l s) (listed : wp ∈ (s.win w).ys)
    (proper : r.Proper) (few : (s.win w).ys.length ≤ n) :
    ∃ l', readd n wp r l = some l' ∧ Linked w l' (Mex.readd wp r w s) := by
  have loose := tidy.loose_removepiece listed
  have removed := removepiece_linked tidy linked listed
  have changed : Linked w { removepiece wp l with piece := update l.piece wp r }
      ((Mex.removepiece wp w s).setPiece wp r) :=
    .of_chains (tidy.removepiece.setPiece_loose loose) (congrArg (update · wp r) linked.piece)
      removed.listed.x removed.listed.y
  have fewer : ((s.win w).ys.erase wp).length ≤ n := Nat.le_trans List.length_erase_le few
  apply addpiece_linked (tidy.removepiece.setPiece_loose loose) changed loose
  · rwa [setPiece_self]
  · exact tidy.taken w wp listed
  · rwa [setPiece_win, removepiece_ys]

theorem wmFreepiece_linked (tidy : Tidy s) (linked : Linked w l s) (listed : wp ∈ (s.win w).ys) :
    Linked w (wmFreepiece wp (removepiece wp l)) (Mex.wmFreepiece wp (Mex.removepiece wp w s)) := by
  have removed := removepiece_linked tidy linked listed
  have loose := tidy.loose_removepiece listed
  refine .of_chains (tidy.removepiece.wmFreepiece loose (tidy.taken w wp listed)) removed.piece
    removed.listed.x ?_
  -- the freed piece is in no list, so its link may be written
  exact removed.listed.y.congr rfl rfl fun p there =>
    ⟨update_of_ne (ne_of_mem_of_not_mem there (loose w)) .., rfl⟩

/-- The links of one of the lists, and how a pass looks at the pieces. -/
structure Follows (pass : Pass) (chain : Links → Dlist PieceId) : Prop where
  chain : ∀ w l s, Linked w l s → Chain (chain l) (pass.chain (s.win w))

theorem xPass_follows : Follows xPass Links.x := ⟨fun _ _ _ linked => linked.listed.x⟩

theorem yPass_follows : Follows yPass Links.y := ⟨fun _ _ _ linked => linked.listed.y⟩

theorem next_eq {d : Dlist PieceId} (chain : Chain d ps) (listed : wp ∈ ps) :
    d.next wp = nextIn ps wp := by
  obtain ⟨done, rest, rfl⟩ := List.append_of_mem listed
  have out := chain.not_mem
  rw [List.mem_append, not_or] at out
  rw [chain.next_of, nextIn_split out.1]

section

attribute [local simp] coalesceFrom

theorem coalesceFrom_last {chain : Links → Dlist PieceId} {turn : Rect → Rect}
    (next : (chain l).next wp = none) : coalesceFrom chain turn n fuel wp l = some l := by
  cases fuel <;> simp [next]

end

/-- Two pieces of the window are changed, one after the other. -/
theorem readd_two (tidy : Tidy s) (linked : Linked w l s) (listed : wp ∈ (s.win w).ys)
    (listed' : wpgone ∈ (s.win w).ys) (few : (s.win w).ys.length ≤ n) {t : Rect}
    (proper : r.Proper) (proper' : t.Proper) :
    ∃ l₁ l₂, readd n wp r l = some l₁ ∧ readd n wpgone t l₁ = some l₂ ∧
      Linked w l₂ (Mex.readd wpgone t w (Mex.readd wp r w s)) ∧
      Tidy (Mex.readd wpgone t w (Mex.readd wp r w s)) ∧
      ((Mex.readd wpgone t w (Mex.readd wp r w s)).win w).ys.Perm (s.win w).ys := by
  have first := readd_spec tidy listed proper
  have there := first.ys.mem_iff.mpr listed'
  have second := readd_spec first.tidy there proper'
  obtain ⟨l₁, eq₁, linked₁⟩ := readd_linked tidy linked listed proper few
  obtain ⟨l₂, eq₂, linked₂⟩ := readd_linked first.tidy linked₁ there proper'
    (first.ys.length_eq.trans_le few)
  exact ⟨l₁, l₂, eq₁, eq₂, linked₂, second.tidy, second.ys.trans first.ys⟩

/-- One piece of the window is changed, and the other one is freed. -/
theorem readd_freed (tidy : Tidy s) (linked : Linked w l s) (listed : wp ∈ (s.win w).ys)
    (listed' : wpgone ∈ (s.win w).ys) (few : (s.win w).ys.length ≤ n) (proper : r.Proper) :
    ∃ l₁, readd n wp r l = some l₁ ∧
      Linked w (wmFreepiece wpgone (removepiece wpgone l₁))
        (Mex.wmFreepiece wpgone (Mex.removepiece wpgone w (Mex.readd wp r w s))) ∧
      Tidy (Mex.wmFreepiece wpgone (Mex.removepiece wpgone w (Mex.readd wp r w s))) ∧
      ((Mex.wmFreepiece wpgone (Mex.removepiece wpgone w (Mex.readd wp r w s))).win w).ys.Perm
        ((s.win w).ys.erase wpgone) := by
  have first := readd_spec tidy listed proper
  have there := first.ys.mem_iff.mpr listed'
  obtain ⟨l₁, eq₁, linked₁⟩ := readd_linked tidy linked listed proper few
  have freed := first.tidy.removepiece.wmFreepiece (first.tidy.loose_removepiece there)
    ((first.taken wpgone).mpr (tidy.taken w wpgone listed'))
  refine ⟨l₁, eq₁, wmFreepiece_linked first.tidy linked₁ there, freed, ?_⟩
  simp only [Mex.wmFreepiece, removepiece_ys]
  exact first.ys.erase wpgone

/-- The piece that follows another one in its list is another piece. -/
theorem nextIn_ne {ps : List PieceId} (nodup : ps.Nodup) (next : nextIn ps wp = some wpgone) :
    wpgone ≠ wp := by
  obtain ⟨front, rest, split⟩ := nextIn_eq_some next
  rw [split] at nodup
  have tail := (List.nodup_append.mp nodup).2.1
  intro same
  exact (List.nodup_cons.mp tail).1 (same ▸ List.mem_cons_self ..)

/-- Following the links a pass does what it does over the lists. -/
theorem coalesceFrom_linked {pass : Pass} {chain : Links → Dlist PieceId} (lawful : pass.Lawful)
    (follows : Follows pass chain) {s' : State} (tidy : Tidy s) (linked : Linked w l s)
    (listed : wp ∈ (s.win w).ys) (few : (s.win w).ys.length ≤ n)
    (done : Mex.coalesceFrom pass w fuel wp s = some s') :
    ∃ l', coalesceFrom chain pass.turn n fuel wp l = some l' ∧ Linked w l' s' ∧
      (s'.win w).ys.length ≤ (s.win w).ys.length := by
  induction fuel generalizing s l wp with
  | zero =>
      have next := next_eq (follows.chain w l s linked) ((lawful.chain s tidy w).mem_iff.mpr listed)
      cases last : nextIn (pass.chain (s.win w)) wp with
      | none =>
          rw [Mex.coalesceFrom_last last] at done
          cases done
          exact ⟨l, coalesceFrom_last (next.trans last), linked, Nat.le_refl _⟩
      | some wpgone =>
          rw [Mex.coalesceFrom.eq_def] at done
          simp only [last] at done
          cases done
  | succ fuel ih =>
      have perm := lawful.chain s tidy w
      have next := next_eq (follows.chain w l s linked) (perm.mem_iff.mpr listed)
      cases last : nextIn (pass.chain (s.win w)) wp with
      | none =>
          rw [Mex.coalesceFrom_last last] at done
          cases done
          exact ⟨l, coalesceFrom_last (next.trans last), linked, Nat.le_refl _⟩
      | some wpgone =>
          rw [Mex.coalesceFrom.eq_def] at done
          rw [coalesceFrom.eq_def]
          rw [last] at next
          simp only [last] at done
          simp only [next, linked.piece]
          have other : wpgone ≠ wp := nextIn_ne (perm.nodup_iff.mpr (tidy.nodup w)) last
          have listed' : wpgone ∈ (s.win w).ys := by
            obtain ⟨front, rest, split⟩ := nextIn_eq_some last
            exact perm.mem_iff.mp (by simp [split])
          have proper := (lawful.proper _).mpr (tidy.proper w wp listed)
          have proper' := (lawful.proper _).mpr (tidy.proper w wpgone listed')
          -- two pieces are changed, and the pass goes on from the first
          have two : ∀ r t : Rect, r.Proper → t.Proper →
              Mex.coalesceFrom pass w fuel wp (Mex.readd wpgone t w (Mex.readd wp r w s)) = some s' →
              ∃ l', (do
                let l ← readd n wp r l
                let l ← readd n wpgone t l
                coalesceFrom chain pass.turn n fuel wp l) = some l' ∧ Linked w l' s' ∧
                (s'.win w).ys.length ≤ (s.win w).ys.length := by
            intro r t fine fine' done
            obtain ⟨l₁, l₂, eq₁, eq₂, linked₂, tidy₂, ys⟩ :=
              readd_two tidy linked listed listed' few fine fine'
            obtain ⟨l', eq, linked', shorter⟩ := ih tidy₂ linked₂ (ys.mem_iff.mpr listed)
              (ys.length_eq.trans_le few) done
            refine ⟨l', ?_, linked', shorter.trans_eq ys.length_eq⟩
            simp only [eq₁, eq₂, Option.bind_eq_bind, Option.bind_some, eq]
          split at done
          · next stacked =>
              rw [if_pos stacked]
              split at done
              · next right =>
                  rw [if_pos right]
                  obtain ⟨fine, -, -⟩ := stack_equal stacked.1 stacked.2 right proper proper'
                  obtain ⟨l₁, eq₁, linked₁, freed, left⟩ :=
                    readd_freed tidy linked listed listed' few ((lawful.proper _).mpr fine)
                  have stays := left.mem_iff.mpr ((List.mem_erase_of_ne other.symm).mpr listed)
                  have fewer := left.length_eq.trans_le List.length_erase_le
                  obtain ⟨l', eq, linked', shorter⟩ := ih freed linked₁ stays
                    (Nat.le_trans fewer few) done
                  refine ⟨l', ?_, linked', Nat.le_trans shorter fewer⟩
                  simp only [eq₁, Option.bind_eq_bind, Option.bind_some, eq]
              · next right =>
                  rw [if_neg right]
                  split at done
                  · next narrow =>
                      rw [if_pos narrow]
                      obtain ⟨fine, fine', -⟩ :=
                        stack_narrow stacked.1 stacked.2 narrow proper proper'
                      exact two _ _ ((lawful.proper _).mpr fine) ((lawful.proper _).mpr fine') done
                  · next wide =>
                      rw [if_neg wide]
                      obtain ⟨fine, fine', -⟩ :=
                        stack_wide stacked.1 stacked.2 (by omega) proper proper'
                      exact two _ _ ((lawful.proper _).mpr fine) ((lawful.proper _).mpr fine') done
          · next apart =>
              rw [if_neg apart]
              exact ih tidy linked listed' few done

/-- With more fuel a pass over the lists does the same. -/
theorem coalesceFrom_more {pass : Pass} {s' : State} {fuel' : Nat} (more : fuel ≤ fuel')
    (done : Mex.coalesceFrom pass w fuel wp s = some s') :
    Mex.coalesceFrom pass w fuel' wp s = some s' := by
  induction fuel generalizing s wp fuel' with
  | zero =>
      cases last : nextIn (pass.chain (s.win w)) wp with
      | none =>
          rw [Mex.coalesceFrom_last last] at done ⊢
          exact done
      | some wpgone =>
          rw [Mex.coalesceFrom.eq_def] at done
          simp only [last] at done
          cases done
  | succ fuel ih =>
      cases last : nextIn (pass.chain (s.win w)) wp with
      | none =>
          rw [Mex.coalesceFrom_last last] at done ⊢
          exact done
      | some wpgone =>
          cases fuel' with
          | zero => cases more
          | succ fuel' =>
              rw [Mex.coalesceFrom.eq_def] at done ⊢
              simp only [last] at done ⊢
              have less := Nat.le_of_succ_le_succ more
              split at done
              · next stacked =>
                  rw [if_pos stacked]
                  split at done
                  · next right =>
                      rw [if_pos right]
                      exact ih less done
                  · next right =>
                      rw [if_neg right]
                      split at done
                      · next narrow =>
                          rw [if_pos narrow]
                          exact ih less done
                      · next wide =>
                          rw [if_neg wide]
                          exact ih less done
              · next apart =>
                  rw [if_neg apart]
                  exact ih less done

/-- A pass along the links ends as the one over the lists does. -/
theorem coalescePass_linked {pass : Pass} {chain : Links → Dlist PieceId} (lawful : pass.Lawful)
    (follows : Follows pass chain) (tidy : Tidy s) (some_piece : (s.win w).ys ≠ []) :
    ∃ N s', Retiled w s s' ∧ ∀ fuel, N ≤ fuel → ∀ l, Linked w l s →
      ∃ l', coalescePass chain pass.turn fuel l = some l' ∧ Linked w l' s' ∧
        (s'.win w).ys.length ≤ (s.win w).ys.length := by
  have perm := lawful.chain s tidy w
  cases pieces : pass.chain (s.win w) with
  | nil =>
      rw [pieces] at perm
      exact absurd perm.symm.eq_nil some_piece
  | cons wp rest =>
      obtain ⟨s', done, retiled⟩ := @coalesceFrom_spec pass w lawful (s.win w).ys.length _ s wp []
        rest tidy pieces (Nat.le_refl _) (Nat.le_refl _)
      refine ⟨max (s.win w).ys.length
        (pass.width w s * ((s.win w).ys.length + 1) + rest.length), s', retiled, ?_⟩
      intro fuel enough l linked
      have first : (chain l).first = some wp := by
        rw [(follows.chain w l s linked).first, pieces]
        rfl
      rw [coalescePass, first]
      apply coalesceFrom_linked lawful follows tidy linked
      · rw [← perm.mem_iff, pieces]
        exact List.mem_cons_self ..
      · omega
      · exact coalesceFrom_more (by omega) done

/-! ## Pixels -/

theorem sum_pos {f : PieceId → Nat} : 0 < (ps.map f).sum ↔ ∃ p ∈ ps, 0 < f p := by
  induction ps with
  | nil => simp
  | cons p ps ih =>
      simp only [List.map_cons, List.sum_cons, List.mem_cons, exists_eq_or_imp, ← ih]
      omega

theorem count_pos {x y : Int} : 0 < r.count x y ↔ r.has x y = true := by
  unfold Rect.count
  cases r.has x y <;> simp

theorem count_le (r : Rect) (x y : Int) : r.count x y ≤ 1 := Bool.toNat_le _

theorem apart_of_count {q : Rect} (proper : r.Proper) (proper' : q.Proper)
    (once : ∀ x y, r.has x y = true → q.has x y = true → False) : r.Apart q := by
  by_contra meet
  simp only [Rect.Apart, Rect.Proper, not_or] at meet proper proper'
  apply once (max r.xmin q.xmin) (max r.ymin q.ymin) <;> rw [Rect.has_iff] <;> omega

/-- Pieces lie apart where no pixel is covered twice. -/
theorem apart_iff {piece : PieceId → Rect} (proper : ∀ p ∈ ps, (piece p).Proper) :
    ps.Pairwise (fun p q => (piece p).Apart (piece q)) ↔
      ∀ x y, (ps.map fun p => (piece p).count x y).sum ≤ 1 := by
  induction ps with
  | nil => simp
  | cons p ps ih =>
      have tail := ih fun q listed => proper q (List.mem_cons_of_mem _ listed)
      simp only [List.pairwise_cons, tail, List.map_cons, List.sum_cons]
      constructor
      · rintro ⟨apart, once⟩ x y
        by_cases here : (piece p).has x y = true
        · have none : ¬0 < (ps.map fun q => (piece q).count x y).sum := by
            rw [sum_pos]
            rintro ⟨q, listed, covers⟩
            have out := (apart q listed).not_both (count_pos.mp covers)
            rw [here] at out
            cases out
          have one := count_le (piece p) x y
          omega
        · have none : ¬0 < (piece p).count x y := fun covers => here (count_pos.mp covers)
          have rest := once x y
          omega
      · intro once
        refine ⟨fun q listed => ?_, fun x y => ?_⟩
        · apply apart_of_count (proper p (by simp)) (proper q (by simp [listed]))
          intro x y first second
          have some : 0 < (ps.map fun q => (piece q).count x y).sum :=
            sum_pos.mpr ⟨q, listed, count_pos.mpr second⟩
          have one := count_pos.mpr first
          have both := once x y
          omega
        · have both := once x y
          omega

/-! ## The windows there are -/

theorem exists_linked (tidy : Tidy s) (w : WinId) : ∃ l, Linked w l s := by
  obtain ⟨x, chainX⟩ := Chain.exists_of_nodup ((tidy.perm w).nodup_iff.mpr (tidy.nodup w))
  obtain ⟨y, chainY⟩ := Chain.exists_of_nodup (tidy.nodup w)
  exact ⟨⟨s.piece, x, y, none⟩, .of_chains tidy rfl chainX chainY⟩

/-- After any operations, `wm_promote` among them, the two lists of each window hold the same
    pieces in their orders, and no piece meets another. -/
theorem reached_linked {font : Font} (reached : Reached font s) (w : WinId) :
    ∃ l, Linked w l s ∧ Disjoint l (s.win w).ys := by
  have stacked := reached_stacked reached
  obtain ⟨l, linked⟩ := exists_linked stacked.tidy w
  have proper : ∀ p ∈ (s.win w).ys, (l.piece p).Proper := linked.piece ▸ stacked.tidy.proper w
  refine ⟨l, linked, proper, (apart_iff proper).mpr fun x y => ?_⟩
  rw [linked.piece]
  show s.cover w x y ≤ 1
  by_cases listed : w ∈ s.order
  · obtain ⟨front, behind, eq⟩ := List.append_of_mem listed
    rw [(eq ▸ stacked : Stacked s (front ++ w :: behind)).cover_eq]
    exact Bool.toNat_le _
  · simp [State.cover, State.total, stacked.bare w listed]

/-! ## The whole -/

theorem below (ps : List PieceId) : ∃ fresh, ∀ p ∈ ps, p < fresh := by
  induction ps with
  | nil => exact ⟨0, by simp⟩
  | cons p ps ih =>
      obtain ⟨fresh, all⟩ := ih
      refine ⟨max fresh (p + 1), ?_⟩
      rw [List.forall_mem_cons]
      exact ⟨Nat.lt_of_lt_of_le (Nat.lt_succ_self p) (Nat.le_max_right ..), fun q listed =>
        Nat.lt_of_lt_of_le (all q listed) (Nat.le_max_left ..)⟩

/-- The window manager with this window only. -/
def alone (l : Links) (xs ys : List PieceId) (fresh : Nat) : State where
  font := ⟨0, 0, 0⟩
  piece := l.piece
  pieces := { fresh := fresh }
  win w := if w = 0 then { xs := xs, ys := ys } else {}
  wins := {}
  list := ⟨none, none, fun _ => none, fun _ => none⟩
  backgroundw := 0
  winConsole := none

theorem alone_tidy {xs ys : List PieceId} {fresh : Nat} (listed : Listed l xs ys)
    (proper : ∀ p ∈ ys, (l.piece p).Proper) (taken : ∀ p ∈ ys, p < fresh) :
    Tidy (alone l xs ys fresh) := by
  have pieces : ∀ w p, p ∈ ((alone l xs ys fresh).win w).ys → w = 0 ∧ p ∈ ys := by
    intro w p there
    by_cases zero : w = 0
    · simpa [alone, zero] using there
    · simp [alone, zero] at there
  constructor
  case perm =>
    intro w
    by_cases zero : w = 0
    · simpa [alone, zero] using listed.same
    · simp [alone, zero]
  case nodup =>
    intro w
    by_cases zero : w = 0
    · simpa [alone, zero] using listed.y.nodup
    · simp [alone, zero]
  case xSorted =>
    intro w
    by_cases zero : w = 0
    · simpa [alone, zero] using listed.xSorted
    · simp [alone, zero]
  case sorted =>
    intro w
    by_cases zero : w = 0
    · simpa [alone, zero] using listed.ySorted
    · simp [alone, zero]
  case proper => exact fun w p there => proper p (pieces w p there).2
  case alone =>
    intro w v p here there
    exact (pieces w p here).1.trans (pieces v p there).1.symm
  case sound => exact ⟨.nil, by simp [alone]⟩
  case taken =>
    intro w p there
    exact ⟨taken p (pieces w p there).2, by simp [alone]⟩

/-- `wm_coalesce` comes to an end with pieces that do not meet and cover what they did, not more
    of them than before, and in both lists in their order and linked both ways. -/
theorem wmCoalesce_links {xs ys : List PieceId} (listed : Listed l xs ys) (disjoint : Disjoint l ys) :
    ∃ N, ∀ fuel, N ≤ fuel → ∃ l' xs' ys', wmCoalesce fuel l = some l' ∧ Listed l' xs' ys' ∧
      Disjoint l' ys' ∧ ys'.length ≤ ys.length ∧ ∀ x y, Has l' ys' x y ↔ Has l ys x y := by
  by_cases none : ys = []
  · refine ⟨0, fun fuel _ => ⟨l, xs, ys, ?_, listed, disjoint, Nat.le_refl _, fun _ _ => Iff.rfl⟩⟩
    rw [wmCoalesce, listed.y.first, none]
    rfl
  · obtain ⟨fresh, taken⟩ := below ys
    have tidy := alone_tidy listed disjoint.proper taken
    have linked : Linked 0 l (alone l xs ys fresh) := ⟨rfl, listed⟩
    have some_piece : ((alone l xs ys fresh).win 0).ys ≠ [] := none
    obtain ⟨N₁, s₁, retiled₁, first⟩ :=
      coalescePass_linked xPass_lawful xPass_follows tidy some_piece
    obtain ⟨N₂, s₂, retiled₂, second⟩ := coalescePass_linked yPass_lawful yPass_follows
      retiled₁.tidy (retiled₁.some_piece tidy some_piece)
    have retiled := retiled₁.trans retiled₂
    refine ⟨max N₁ N₂, fun fuel enough => ?_⟩
    obtain ⟨l₁, eq₁, linked₁, fewer₁⟩ := first fuel (by omega) l linked
    obtain ⟨l₂, eq₂, linked₂, fewer₂⟩ := second fuel (by omega) l₁ linked₁
    have cover : ∀ x y, ((s₂.win 0).ys.map fun p => (l₂.piece p).count x y).sum =
        (ys.map fun p => (l.piece p).count x y).sum := by
      intro x y
      rw [linked₂.piece]
      exact retiled.cover x y
    have proper : ∀ p ∈ (s₂.win 0).ys, (l₂.piece p).Proper := by
      rw [linked₂.piece]
      exact retiled.tidy.proper 0
    refine ⟨l₂, _, _, ?_, linked₂.listed, ⟨proper, ?_⟩, Nat.le_trans fewer₂ fewer₁, fun x y => ?_⟩
    · obtain ⟨wp, rest, some⟩ := List.exists_cons_of_ne_nil none
      rw [wmCoalesce, listed.y.first, some]
      simp only [List.head?_cons, Option.bind_eq_bind]
      rw [show coalescePass Links.x id fuel l = _ from eq₁, Option.bind_some]
      exact eq₂
    · rw [apart_iff proper]
      intro x y
      rw [cover]
      exact (apart_iff disjoint.proper).mp disjoint.apart x y
    · have same : ∀ (l : Links) (ys : List PieceId),
          Has l ys x y ↔ 0 < (ys.map fun p => (l.piece p).count x y).sum := by
        intro l ys
        simp only [Has, sum_pos, count_pos]
      rw [same, same, cover]

end

/-- Two pieces next to each other. -/
def pair : Links :=
  let d : Dlist PieceId := ⟨some 0, some 1, update (fun _ => none) 0 (some 1),
    update (fun _ => none) 1 (some 0)⟩
  { piece := fun p => ⟨p, p, 0, 0⟩, x := d, y := d, freelist := none }

theorem pair_listed : Listed pair [0, 1] [0, 1] := by
  have chain : Chain pair.x [0, 1] := ⟨by decide, rfl, rfl, by simp [pair]⟩
  exact ⟨chain, chain, .refl _, by simp [Before, pair], by simp [Before, pair, Rect.flip]⟩

theorem wmCoalesce_links_pair :
    ∃ N, ∀ fuel, N ≤ fuel → ∃ l' xs' ys', wmCoalesce fuel pair = some l' ∧ Listed l' xs' ys' ∧
      Disjoint l' ys' ∧ ys'.length ≤ 2 ∧ ∀ x y, Has l' ys' x y ↔ Has pair [0, 1] x y :=
  wmCoalesce_links pair_listed
    ⟨by simp [Rect.Proper, pair], by simp [Rect.Apart, pair]⟩

end Links

end Irix.Mex
