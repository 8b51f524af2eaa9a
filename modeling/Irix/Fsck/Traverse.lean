import Irix.ExtentFs.Dinode

/-! # The traversal of fsck

`ckinode` hands every block of an inode to a block function, which decides
whether to go on.  Two block functions that decide alike visit the same blocks,
so what a traversal does is read off from one that only writes down the blocks
it is given.
-/

namespace Irix.Fsck

open Lib ExtentFs

/-- The flags a block function returns. -/
inductive Ret where
  | keepon
  | skip
  | stop
  deriving Repr, DecidableEq

/-- A block function with the state it works on. -/
abbrev BlockFn (σ : Type) := σ → Nat → σ × Ret

/-- What a traversal prints about the extents themselves. -/
inductive Report where
  | exterr (s : String) (xp : Extent)
  | ridiculous (nx : Nat)
  deriving Repr, DecidableEq

/-- A traversal under way: the state of the block function, `*_firstoff` and
    what was printed. -/
structure Walk (σ : Type) where
  st : σ
  firstoff : Nat
  reports : List Report

def Walk.report {σ : Type} (w : Walk σ) (r : Report) : Walk σ :=
  { w with reports := w.reports ++ [r] }

section Code

variable {σ : Type} (func : BlockFn σ)

/-- The blocks of one extent, up to one that stops the traversal. -/
def visit : List Nat → σ → σ × Ret
  | [], st => (st, .keepon)
  | xb :: xbs, st =>
      match func st xb with
      | (st, .stop) => (st, .stop)
      | (st, _) => visit xbs st

/-- cause checking of each block in an extent. -/
def chkExt (w : Walk σ) (xp : Extent) : Walk σ × Ret :=
  if xp.exOffset < w.firstoff then (w.report (.exterr "EXTENT OUT OF ORDER" xp), .skip)
  else if xp.exMagic ≠ 0 then (w.report (.exterr "BAD MAGIC IN EXTENT" xp), .skip)
  else if xp.exLength = 0 then (w.report (.exterr "ZERO LENGTH EXTENT" xp), .skip)
  else
    match visit func xp.blocks w.st with
    | (st, r) => ({ w with st, firstoff := xp.exOffset + xp.exLength }, r)

/-- cause checking of each (direct) extent in a list, causing each block to be
    checked. -/
def chkExtlist : List Extent → Walk σ → Walk σ × Ret
  | [], w => (w, .keepon)
  | xp :: xps, w =>
      match chkExt func w xp with
      | (w, .stop) => (w, .stop)
      | (w, _) => chkExtlist xps w

/-- The loop of `chk_iext`, `xl` blocks from `xb` on: it comes back with what is
    left of the count, or with what it returns early. -/
def chkIextLoop (outrange : Nat → Bool) (disk : Scatter.Store Extent) :
    (xl xb : Nat) → (nx : Int) → Walk σ → Walk σ × Except Ret Int
  | 0, _, nx, w => (w, .ok nx)
  | xl + 1, xb, nx, w =>
      match func w.st xb with
      | (st, .keepon) =>
          if outrange xb then ({ w with st }, .error .skip)
          else
            let exts := Scatter.get disk (xb * extsPerbb) (min nx extsPerbb).toNat
            match chkExtlist func exts { w with st } with
            | (w, .stop) => (w, .error .stop)
            | (w, _) => chkIextLoop outrange disk xl (xb + 1) (nx - extsPerbb) w
      | (st, r) => ({ w with st }, .error r)

/-- check an indirect extent; cause each block of direct extents to be checked.
    A `sizeof` is a signed constant here. -/
def chkIext (outrange : Nat → Bool) (disk : Scatter.Store Extent) (xp : Extent) (nx : Nat)
    (w : Walk σ) : Walk σ × Ret :=
  if 4096 ≤ nx then (w.report (.ridiculous nx), .skip)
  else if xp.exMagic ≠ 0 then (w.report (.exterr "BAD MAGIC IN EXTENT" xp), .skip)
  else
    match chkIextLoop func outrange disk xp.exLength xp.exBn nx w with
    | (w, .error r) => (w, r)
    | (w, .ok nx) =>
        if (xp.exLength : Int) < (nx * sizeofExtent + 511) / 512 then
          (w.report (.exterr "INDIRECT EXTENT SIZE ERROR" xp), .skip)
        else (w, .keepon)

/-- `SPECIAL`: the inode has no extents. -/
def special (dp : Dinode) : Bool := dp.diFtype = .ifblk || dp.diFtype = .ifchr

/-- check an inode: cause each block used to be checked.  This is the `ADDR`
    traversal, with `STOP` for a stopper. -/
def ckinode (outrange : Nat → Bool) (disk : Scatter.Store Extent) (dp : Dinode) (st : σ) :
    Walk σ × Ret :=
  let w : Walk σ := ⟨st, 0, []⟩
  if special dp then (w, .keepon)
  else
    match
      if dp.diNumextents ≤ efsDirectextents then
        chkExtlist func (dp.diExtents.take dp.diNumextents) w
      else chkIext func outrange disk (dp.diExtents.headD Extent.null) dp.diNumextents w with
    | (w, .stop) => (w, .stop)
    | (w, _) => (w, .keepon)

end Code

/-! ## Writing the blocks down -/

/-- The block function that writes down what it is given. -/
def probe (keeps : Nat → Bool) : BlockFn (List Nat) :=
  fun log xb => (log ++ [xb], if keeps xb then .keepon else .skip)

/-- A block function that keeps an invariant and, where it holds, decides as
    `keeps` says unless it stops. -/
structure Decides {σ : Type} (func : BlockFn σ) (inv : σ → Prop) (keeps : Nat → Bool) : Prop where
  kept : ∀ st, inv st → ∀ xb, inv (func st xb).1
  ret : ∀ st, inv st → ∀ xb,
    (func st xb).2 = .stop ∨ (func st xb).2 = if keeps xb then .keepon else .skip

/-- The state after a list of blocks, whatever is returned. -/
def feed {σ : Type} (func : BlockFn σ) (xbs : List Nat) (st : σ) : σ :=
  xbs.foldl (fun st xb => (func st xb).1) st

section Follow

variable {σ : Type} {func : BlockFn σ} {inv : σ → Prop} {keeps : Nat → Bool}

theorem feed_append (func : BlockFn σ) (xs ys : List Nat) (st : σ) :
    feed func (xs ++ ys) st = feed func ys (feed func xs st) := List.foldl_append

theorem visit_cons (func : BlockFn σ) (xb : Nat) (xbs : List Nat) (st : σ) :
    visit func (xb :: xbs) st =
      if (func st xb).2 = .stop then func st xb else visit func xbs (func st xb).1 := by
  rw [visit]
  generalize func st xb = out
  obtain ⟨st', r⟩ := out
  cases r <;> rfl

theorem visit_append (func : BlockFn σ) (xs ys : List Nat) (st : σ) :
    visit func (xs ++ ys) st =
      if (visit func xs st).2 = .stop then visit func xs st
      else visit func ys (visit func xs st).1 := by
  induction xs generalizing st with
  | nil => rfl
  | cons xb xs ih =>
      rw [List.cons_append, visit_cons, visit_cons]
      by_cases stop : (func st xb).2 = .stop
      · rw [if_pos stop, if_pos stop, if_pos stop]
      · rw [if_neg stop, if_neg stop, ih]

/-- A visit that does not stop is fed with all blocks. -/
theorem visit_full {xbs : List Nat} {st : σ} (going : (visit func xbs st).2 ≠ .stop) :
    (visit func xbs st).1 = feed func xbs st ∧ (visit func xbs st).2 = .keepon := by
  induction xbs generalizing st with
  | nil => exact ⟨rfl, rfl⟩
  | cons xb xbs ih =>
      rw [visit_cons] at going ⊢
      by_cases stop : (func st xb).2 = .stop
      · rw [if_pos stop] at going
        exact absurd stop going
      · rw [if_neg stop] at going ⊢
        exact ih going

/-- A visit that stops does so at some block, and is fed with those before it. -/
theorem visit_cut {xbs : List Nat} {st : σ} (stopped : (visit func xbs st).2 = .stop) :
    ∃ pre xb post, xbs = pre ++ xb :: post ∧ (visit func pre st).2 ≠ .stop ∧
      (func (feed func pre st) xb).2 = .stop ∧
      (visit func xbs st).1 = feed func (pre ++ [xb]) st := by
  induction xbs generalizing st with
  | nil => cases stopped
  | cons xb xbs ih =>
      rw [visit_cons] at stopped ⊢
      by_cases stop : (func st xb).2 = .stop
      · rw [if_pos stop]
        exact ⟨[], xb, xbs, rfl, fun stop => (by cases stop), stop, rfl⟩
      · rw [if_neg stop] at stopped ⊢
        obtain ⟨pre, yb, post, parts, before, stops, ends⟩ := ih stopped
        refine ⟨xb :: pre, yb, post, by rw [parts, List.cons_append], ?_, stops, ends⟩
        rw [visit_cons, if_neg stop]
        exact before

/-- Fed with the blocks up to one that stops, or with all of them. -/
structure Fed (func : BlockFn σ) (all : List Nat) (st st' : σ) (stopped : Prop) : Prop where
  ends : st' = (visit func all st).1
  stops : stopped ↔ (visit func all st).2 = .stop

theorem Fed.full {all : List Nat} {st st' : σ} {stopped : Prop} (fed : Fed func all st st' stopped)
    (going : ¬stopped) : st' = feed func all st :=
  fed.ends.trans (visit_full fun stop => going (fed.stops.mpr stop)).1

theorem Fed.cut {all : List Nat} {st st' : σ} {stopped : Prop} (fed : Fed func all st st' stopped)
    (halt : stopped) : ∃ pre xb post, all = pre ++ xb :: post ∧
      (func (feed func pre st) xb).2 = .stop ∧ st' = feed func (pre ++ [xb]) st := by
  obtain ⟨pre, xb, post, parts, _, stops, ends⟩ := visit_cut (fed.stops.mp halt)
  exact ⟨pre, xb, post, parts, stops, fed.ends.trans ends⟩

theorem Fed.none (func : BlockFn σ) (st : σ) : Fed func [] st st False :=
  ⟨rfl, iff_of_false id fun stop => by cases stop⟩

theorem Fed.more {xs ys : List Nat} {st st' st'' : σ} {stopped : Prop}
    (first : Fed func xs st st' False) (rest : Fed func ys st' st'' stopped) :
    Fed func (xs ++ ys) st st'' stopped := by
  have going : ¬(visit func xs st).2 = .stop := fun stop => first.stops.mpr stop
  have whole : visit func (xs ++ ys) st = visit func ys st' := by
    rw [visit_append, if_neg going, first.ends]
  constructor
  · rw [whole]
    exact rest.ends
  · rw [whole]
    exact rest.stops

/-- Once stopped, the blocks that would follow do not matter. -/
theorem Fed.stopped {xs : List Nat} {st st' : σ} (first : Fed func xs st st' True) (ys : List Nat) :
    Fed func (xs ++ ys) st st' True := by
  have stop : (visit func xs st).2 = .stop := first.stops.mp trivial
  have whole : visit func (xs ++ ys) st = visit func xs st := by
    rw [visit_append, if_pos stop]
  constructor
  · rw [whole]
    exact first.ends
  · rw [whole]
    exact first.stops

theorem Fed.of_iff {xs : List Nat} {st st' : σ} {p q : Prop} (fed : Fed func xs st st' p)
    (same : p ↔ q) : Fed func xs st st' q :=
  ⟨fed.ends, same.symm.trans fed.stops⟩

/-- The traversal at the same place with a log for its state. -/
def Walk.traced (w : Walk σ) (log : List Nat) : Walk (List Nat) := ⟨log, w.firstoff, w.reports⟩

/-- A traversal follows the one of the probe: unless it stops, it returns the
    same and prints the same. -/
structure Follows {ρ : Type} (func : BlockFn σ) (inv : σ → Prop) (w : Walk σ) (log : List Nat)
    (stop : ρ) (out : Walk σ × ρ) (traced : Walk (List Nat) × ρ) : Prop where
  never : traced.2 ≠ stop
  kept : inv out.1.st
  fed : ∃ xbs, traced.1.st = log ++ xbs ∧ Fed func xbs w.st out.1.st (out.2 = stop)
  same : out.2 ≠ stop → out.2 = traced.2 ∧ traced.1 = out.1.traced traced.1.st

theorem visit_probe (xbs log : List Nat) : visit (probe keeps) xbs log = (log ++ xbs, .keepon) := by
  induction xbs generalizing log with
  | nil => rw [visit, List.append_nil]
  | cons xb xbs ih =>
      unfold visit
      dsimp only [probe]
      cases keeps xb <;> simp only [ih, if_true, Bool.false_eq_true, if_false, List.append_assoc,
        List.singleton_append]

theorem visit_inv (decides : Decides func inv keeps) (xbs : List Nat) {st : σ} (start : inv st) :
    inv (visit func xbs st).1 := by
  induction xbs generalizing st with
  | nil => exact start
  | cons xb xbs ih =>
      have next := decides.kept st start xb
      unfold visit
      generalize func st xb = out at next
      obtain ⟨st', r⟩ := out
      cases r with
      | stop => exact next
      | keepon => exact ih next
      | skip => exact ih next

theorem chkExt_follows (decides : Decides func inv keeps) (w : Walk σ) (log : List Nat) (xp : Extent)
    (start : inv w.st) :
    Follows func inv w log .stop (chkExt func w xp) (chkExt (probe keeps) (w.traced log) xp) := by
  have reported : ∀ r : Report, Follows func inv w log .stop (w.report r, Ret.skip)
      ((w.traced log).report r, Ret.skip) := fun r =>
    ⟨fun stop => (by cases stop), start, ⟨[], (List.append_nil log).symm,
      (Fed.none func w.st).of_iff (iff_of_false id fun stop => by cases stop)⟩, fun _ => ⟨rfl, rfl⟩⟩
  unfold chkExt
  by_cases order : xp.exOffset < w.firstoff
  · rw [if_pos order, if_pos (show xp.exOffset < (w.traced log).firstoff from order)]
    exact reported _
  rw [if_neg order, if_neg (show ¬xp.exOffset < (w.traced log).firstoff from order)]
  by_cases magic : xp.exMagic ≠ 0
  · rw [if_pos magic, if_pos magic]
    exact reported _
  rw [if_neg magic, if_neg magic]
  by_cases zero : xp.exLength = 0
  · rw [if_pos zero, if_pos zero]
    exact reported _
  rw [if_neg zero, if_neg zero, visit_probe]
  have kept := visit_inv decides xp.blocks start
  have fed : Fed func xp.blocks w.st (visit func xp.blocks w.st).1
      ((visit func xp.blocks w.st).2 = .stop) := ⟨rfl, Iff.rfl⟩
  have full : (visit func xp.blocks w.st).2 ≠ .stop → (visit func xp.blocks w.st).2 = .keepon :=
    fun going => (visit_full going).2
  generalize visit func xp.blocks w.st = out at fed full kept
  obtain ⟨st', r⟩ := out
  exact ⟨fun stop => (by cases stop), kept, ⟨xp.blocks, rfl, fed⟩, fun more => ⟨full more, rfl⟩⟩

/-- A traversal that goes on after another unless that one stops. -/
theorem Follows.andThen {ρ τ : Type} {w : Walk σ} {log : List Nat} {stop : ρ} {stop' : τ}
    {first : Walk σ × ρ} {probed : Walk (List Nat) × ρ} {out : Walk σ × τ}
    {traced : Walk (List Nat) × τ} (follows : Follows func inv w log stop first probed)
    (halt : first.2 = stop → out = (first.1, stop'))
    (rest : ∀ w' : Walk σ, inv w'.st → probed.1 = w'.traced probed.1.st → ∃ out',
      Follows func inv w' probed.1.st stop' out' traced ∧ (first.2 ≠ stop → w' = first.1 → out' = out)) :
    Follows func inv w log stop' out traced := by
  obtain ⟨xbs, logged, fed⟩ := follows.fed
  by_cases stopped : first.2 = stop
  · obtain ⟨out', after, _⟩ := rest ⟨first.1.st, probed.1.firstoff, probed.1.reports⟩
      follows.kept rfl
    obtain ⟨ys, more, _⟩ := after.fed
    rw [halt stopped]
    refine ⟨after.never, follows.kept, ⟨xbs ++ ys, ?_, ?_⟩, fun going => absurd rfl going⟩
    · rw [more, logged, List.append_assoc]
    · exact ((fed.of_iff (iff_true_intro stopped)).stopped ys).of_iff (iff_of_true trivial rfl)
  · obtain ⟨out', after, same⟩ := rest first.1 follows.kept (follows.same stopped).2
    rw [← same stopped rfl]
    obtain ⟨ys, more, fed'⟩ := after.fed
    refine ⟨after.never, after.kept,
      ⟨xbs ++ ys, ?_, (fed.of_iff (iff_of_false stopped id)).more fed'⟩, after.same⟩
    rw [more, logged, List.append_assoc]

theorem Follows.refl {ρ : Type} {stop r : ρ} (w : Walk σ) (log : List Nat) (start : inv w.st)
    (going : r ≠ stop) :
    Follows func inv w log stop (w, r) (w.traced log, r) :=
  ⟨going, start, ⟨[], (List.append_nil log).symm,
    (Fed.none func w.st).of_iff (iff_of_false id going)⟩, fun _ => ⟨rfl, rfl⟩⟩

theorem chkExtlist_follows (decides : Decides func inv keeps) (xps : List Extent) (w : Walk σ)
    (log : List Nat) (start : inv w.st) :
    Follows func inv w log .stop (chkExtlist func xps w)
      (chkExtlist (probe keeps) xps (w.traced log)) := by
  induction xps generalizing w log with
  | nil => exact Follows.refl w log start (fun stop => by cases stop)
  | cons xp xps ih =>
      have first : Follows func inv w log Ret.stop _ _ := chkExt_follows decides w log xp start
      unfold chkExtlist
      generalize chkExt func w xp = out at first
      generalize chkExt (probe keeps) (w.traced log) xp = probed at first
      obtain ⟨w', r⟩ := out
      obtain ⟨tw, tr⟩ := probed
      have never := first.never
      refine first.andThen (fun stopped => ?_) fun w'' start' here => ⟨chkExtlist func xps w'', ?_, ?_⟩
      · dsimp only at stopped
        rw [stopped]
      · dsimp only at here never ⊢
        have goes := ih w'' tw.st start'
        rw [← here] at goes
        cases tr with
        | stop => exact absurd rfl never
        | keepon => exact goes
        | skip => exact goes
      · intro going same
        subst same
        cases r with
        | stop => exact absurd rfl going
        | keepon => rfl
        | skip => rfl

/-- What the loop of `chk_iext` does after a block it keeps on with. -/
def iextGoesOn {σ : Type} (func : BlockFn σ) (outrange : Nat → Bool) (disk : Scatter.Store Extent)
    (xl xb : Nat) (nx : Int) (w : Walk σ) : Walk σ × Except Ret Int :=
  if outrange xb then (w, .error .skip)
  else
    match chkExtlist func (Scatter.get disk (xb * extsPerbb) (min nx extsPerbb).toNat) w with
    | (w, .stop) => (w, .error .stop)
    | (w, _) => chkIextLoop func outrange disk xl (xb + 1) (nx - extsPerbb) w

theorem chkIextLoop_keepon {outrange : Nat → Bool} {disk : Scatter.Store Extent} {xl xb : Nat}
    {nx : Int} {w : Walk σ} {st : σ} (called : func w.st xb = (st, .keepon)) :
    chkIextLoop func outrange disk (xl + 1) xb nx w =
      iextGoesOn func outrange disk xl xb nx { w with st } := by
  rw [chkIextLoop, called]
  rfl

theorem chkIextLoop_returns {outrange : Nat → Bool} {disk : Scatter.Store Extent} {xl xb : Nat}
    {nx : Int} {w : Walk σ} {st : σ} {r : Ret} (called : func w.st xb = (st, r)) (ends : r ≠ .keepon) :
    chkIextLoop func outrange disk (xl + 1) xb nx w = ({ w with st }, .error r) := by
  rw [chkIextLoop, called]
  cases r with
  | keepon => exact absurd rfl ends
  | skip => rfl
  | stop => rfl

theorem chkIextLoop_follows (decides : Decides func inv keeps) (outrange : Nat → Bool)
    (disk : Scatter.Store Extent) (xl xb : Nat) (nx : Int) (w : Walk σ) (log : List Nat)
    (start : inv w.st) :
    Follows func inv w log (.error .stop) (chkIextLoop func outrange disk xl xb nx w)
      (chkIextLoop (probe keeps) outrange disk xl xb nx (w.traced log)) := by
  induction xl generalizing xb nx w log with
  | zero => exact Follows.refl w log start (fun stop => by cases stop)
  | succ xl ih =>
      have goesOn : ∀ (w : Walk σ) log, inv w.st → Follows func inv w log (.error .stop)
          (iextGoesOn func outrange disk xl xb nx w)
          (iextGoesOn (probe keeps) outrange disk xl xb nx (w.traced log)) := by
        intro w log start
        unfold iextGoesOn
        by_cases out : outrange xb = true
        · rw [if_pos out, if_pos out]
          exact Follows.refl w log start (fun stop => by cases stop)
        · rw [if_neg out, if_neg out]
          have first : Follows func inv w log Ret.stop _ _ := chkExtlist_follows decides
            (Scatter.get disk (xb * extsPerbb) (min nx extsPerbb).toNat) w log start
          generalize chkExtlist func _ w = o at first ⊢
          generalize chkExtlist (probe keeps) _ (w.traced log) = probed at first ⊢
          obtain ⟨w', r⟩ := o
          obtain ⟨tw, tr⟩ := probed
          have never := first.never
          refine first.andThen (fun stopped => ?_) fun w'' start' here =>
            ⟨chkIextLoop func outrange disk xl (xb + 1) (nx - extsPerbb) w'', ?_, ?_⟩
          · dsimp only at stopped
            rw [stopped]
          · dsimp only at here never ⊢
            have rest := ih (xb + 1) (nx - extsPerbb) w'' tw.st start'
            rw [← here] at rest
            cases tr with
            | stop => exact absurd rfl never
            | keepon => exact rest
            | skip => exact rest
          · intro going same
            subst same
            cases r with
            | stop => exact absurd rfl going
            | keepon => rfl
            | skip => rfl
      -- the call for the indirect block itself
      have called : Follows func inv w log Ret.stop ({ w with st := (func w.st xb).1 }, (func w.st xb).2)
          (w.traced (log ++ [xb]), if keeps xb then Ret.keepon else .skip) := by
        have fed : Fed func [xb] w.st (func w.st xb).1 ((func w.st xb).2 = .stop) := by
          by_cases stop : (func w.st xb).2 = .stop
          · exact ⟨by rw [visit_cons, if_pos stop], by rw [visit_cons, if_pos stop]⟩
          · exact ⟨by rw [visit_cons, if_neg stop]; rfl, by
              rw [visit_cons, if_neg stop]
              exact iff_of_false stop fun halt => by cases halt⟩
        refine ⟨fun stop => ?_, decides.kept w.st start xb, ⟨[xb], rfl, fed⟩, fun going => ⟨?_, rfl⟩⟩
        · split at stop <;> cases stop
        · exact (decides.ret w.st start xb).resolve_left going
      have goes := decides.ret w.st start xb
      refine called.andThen (fun stopped => ?_) fun w' start' here => ?_
      · exact chkIextLoop_returns (Prod.ext rfl stopped) (fun keepon => by cases keepon)
      · dsimp only at here
        cases kept : keeps xb with
        | false =>
            rw [kept] at goes
            refine ⟨(w', .error .skip), ?_, fun going same => ?_⟩
            · have probed : probe keeps (w.traced log).st xb = (log ++ [xb], .skip) := by
                rw [probe, kept]
                rfl
              rw [chkIextLoop_returns probed (fun keepon => by cases keepon)]
              have at_ : w.traced (log ++ [xb]) = w'.traced (log ++ [xb]) := here
              have skip : (Except.error Ret.skip : Except Ret Int) ≠ .error .stop :=
                fun stop => (by cases stop)
              have back : Follows func inv w' (log ++ [xb]) _ _ _ := Follows.refl w' (log ++ [xb]) start' skip
              rw [← at_] at back
              exact back
            · rw [chkIextLoop_returns (Prod.ext rfl (goes.resolve_left going))
                (fun keepon => by cases keepon), same]
        | true =>
            rw [kept] at goes
            refine ⟨iextGoesOn func outrange disk xl xb nx w', ?_, fun going same => ?_⟩
            · have probed : probe keeps (w.traced log).st xb = (log ++ [xb], .keepon) := by
                rw [probe, kept]
                rfl
              rw [chkIextLoop_keepon probed]
              have at_ : w.traced (log ++ [xb]) = w'.traced (log ++ [xb]) := here
              have rest := goesOn w' (log ++ [xb]) start'
              rw [← at_] at rest
              exact rest
            · rw [chkIextLoop_keepon (Prod.ext rfl (goes.resolve_left going)), same]

theorem chkIext_follows (decides : Decides func inv keeps) (outrange : Nat → Bool)
    (disk : Scatter.Store Extent) (xp : Extent) (nx : Nat) (w : Walk σ) (log : List Nat)
    (start : inv w.st) :
    Follows func inv w log .stop (chkIext func outrange disk xp nx w)
      (chkIext (probe keeps) outrange disk xp nx (w.traced log)) := by
  have reported : ∀ (w : Walk σ) log (r : Report), inv w.st →
      Follows func inv w log .stop (w.report r, Ret.skip) ((w.traced log).report r, Ret.skip) :=
    fun w log r start => ⟨fun stop => (by cases stop), start, ⟨[], (List.append_nil log).symm,
      (Fed.none func w.st).of_iff (iff_of_false id fun stop => by cases stop)⟩, fun _ => ⟨rfl, rfl⟩⟩
  unfold chkIext
  by_cases many : 4096 ≤ nx
  · rw [if_pos many, if_pos many]
    exact reported w log _ start
  rw [if_neg many, if_neg many]
  by_cases magic : xp.exMagic ≠ 0
  · rw [if_pos magic, if_pos magic]
    exact reported w log _ start
  rw [if_neg magic, if_neg magic]
  have first : Follows func inv w log (Except.error Ret.stop) _ _ :=
    chkIextLoop_follows decides outrange disk xp.exLength xp.exBn nx w log start
  generalize chkIextLoop func outrange disk xp.exLength xp.exBn nx w = o at first ⊢
  generalize chkIextLoop (probe keeps) outrange disk xp.exLength xp.exBn nx (w.traced log) = probed
    at first ⊢
  obtain ⟨w', r⟩ := o
  obtain ⟨tw, tr⟩ := probed
  have never := first.never
  have same := first.same
  refine first.andThen (fun stopped => ?_) fun w'' start' here => ?_
  · dsimp only at stopped
    rw [stopped]
  · dsimp only at here never same ⊢
    cases tr with
    | error e =>
        refine ⟨(w'', e), ?_, fun going last => ?_⟩
        · rw [here]
          exact Follows.refl w'' tw.st start' (fun stop => never (by rw [stop]))
        · rw [(same going).1, last]
    | ok left =>
        by_cases short : (xp.exLength : Int) < (left * sizeofExtent + 511) / 512
        · refine ⟨(w''.report (.exterr "INDIRECT EXTENT SIZE ERROR" xp), .skip), ?_, fun going last => ?_⟩
          · dsimp only
            rw [if_pos short, here]
            exact reported w'' tw.st _ start'
          · rw [(same going).1, last]
            exact (if_pos short).symm
        · refine ⟨(w'', .keepon), ?_, fun going last => ?_⟩
          · dsimp only
            rw [if_neg short, here]
            exact Follows.refl w'' tw.st start' (fun stop => by cases stop)
          · rw [(same going).1, last]
            exact (if_neg short).symm

/-- The blocks an inode claims in an `ADDR` traversal, in the order they come. -/
def claims (keeps outrange : Nat → Bool) (disk : Scatter.Store Extent) (dp : Dinode) : List Nat :=
  (ckinode (probe keeps) outrange disk dp []).1.st

/-- A traversal feeds the block function with the claims of the inode, up to
    one that stops it; if none does, it prints what the probe's prints. -/
theorem ckinode_follows (decides : Decides func inv keeps) (outrange : Nat → Bool)
    (disk : Scatter.Store Extent) (dp : Dinode) {st : σ} (start : inv st) :
    Fed func (claims keeps outrange disk dp) st (ckinode func outrange disk dp st).1.st
        ((ckinode func outrange disk dp st).2 = .stop) ∧
      inv (ckinode func outrange disk dp st).1.st ∧
      ((ckinode func outrange disk dp st).2 ≠ .stop →
        (ckinode func outrange disk dp st).1.reports =
          (ckinode (probe keeps) outrange disk dp []).1.reports) := by
  unfold claims ckinode
  by_cases none : special dp = true
  · rw [if_pos none, if_pos none]
    exact ⟨(Fed.none func st).of_iff (iff_of_false id fun stop => by cases stop), start, fun _ => rfl⟩
  rw [if_neg none, if_neg none]
  have body : Follows func inv ⟨st, 0, []⟩ [] Ret.stop
      (if dp.diNumextents ≤ efsDirectextents then
        chkExtlist func (dp.diExtents.take dp.diNumextents) ⟨st, 0, []⟩
      else chkIext func outrange disk (dp.diExtents.headD Extent.null) dp.diNumextents ⟨st, 0, []⟩)
      (if dp.diNumextents ≤ efsDirectextents then
        chkExtlist (probe keeps) (dp.diExtents.take dp.diNumextents) ⟨[], 0, []⟩
      else chkIext (probe keeps) outrange disk (dp.diExtents.headD Extent.null) dp.diNumextents
        ⟨[], 0, []⟩) := by
    split
    · exact chkExtlist_follows decides _ ⟨st, 0, []⟩ [] start
    · exact chkIext_follows decides outrange disk _ _ ⟨st, 0, []⟩ [] start
  generalize (if dp.diNumextents ≤ efsDirectextents then
        chkExtlist func (dp.diExtents.take dp.diNumextents) ⟨st, 0, []⟩
      else chkIext func outrange disk (dp.diExtents.headD Extent.null) dp.diNumextents ⟨st, 0, []⟩) =
    out at body ⊢
  generalize (if dp.diNumextents ≤ efsDirectextents then
        chkExtlist (probe keeps) (dp.diExtents.take dp.diNumextents) ⟨[], 0, []⟩
      else chkIext (probe keeps) outrange disk (dp.diExtents.headD Extent.null) dp.diNumextents
        ⟨[], 0, []⟩) = probed at body ⊢
  obtain ⟨w, r⟩ := out
  obtain ⟨tw, tr⟩ := probed
  obtain ⟨never, kept, ⟨xbs, logged, fed⟩, same⟩ := body
  dsimp only at never kept logged fed same
  rw [List.nil_append] at logged
  cases tr with
  | stop => exact absurd rfl never
  | keepon | skip =>
      dsimp only
      rw [logged]
      cases r with
      | stop => exact ⟨fed, kept, fun going => absurd rfl going⟩
      | keepon | skip =>
          have here := (same fun stop => by cases stop).2
          exact ⟨fed.of_iff (iff_of_false (fun stop => by cases stop) fun stop => by cases stop),
            kept, fun _ => by rw [here]; rfl⟩

end Follow

/-! ## What the probe writes down -/

/-- One traversal after another. -/
def Walk.andThen (w v : Walk (List Nat)) : Walk (List Nat) :=
  ⟨w.st ++ v.st, v.firstoff, w.reports ++ v.reports⟩

/-- What the probe makes of one extent. -/
def flatExt (firstoff : Nat) (xp : Extent) : Walk (List Nat) :=
  if xp.exOffset < firstoff then ⟨[], firstoff, [.exterr "EXTENT OUT OF ORDER" xp]⟩
  else if xp.exMagic ≠ 0 then ⟨[], firstoff, [.exterr "BAD MAGIC IN EXTENT" xp]⟩
  else if xp.exLength = 0 then ⟨[], firstoff, [.exterr "ZERO LENGTH EXTENT" xp]⟩
  else ⟨xp.blocks, xp.exOffset + xp.exLength, []⟩

/-- What the probe makes of a list of extents. -/
def flat : (firstoff : Nat) → List Extent → Walk (List Nat)
  | firstoff, [] => ⟨[], firstoff, []⟩
  | firstoff, xp :: xps => (flatExt firstoff xp).andThen (flat (flatExt firstoff xp).firstoff xps)

section Flat

variable {keeps keeps' : Nat → Bool}

theorem Walk.andThen_assoc (u v w : Walk (List Nat)) :
    (u.andThen v).andThen w = u.andThen (v.andThen w) := by
  simp only [Walk.andThen, List.append_assoc]

theorem chkExt_probe (w : Walk (List Nat)) (xp : Extent) :
    (chkExt (probe keeps) w xp).1 = w.andThen (flatExt w.firstoff xp) ∧
      (chkExt (probe keeps) w xp).2 ≠ .stop := by
  unfold chkExt flatExt
  split
  · exact ⟨by simp only [Walk.andThen, Walk.report, List.append_nil], fun stop => by cases stop⟩
  split
  · exact ⟨by simp only [Walk.andThen, Walk.report, List.append_nil], fun stop => by cases stop⟩
  split
  · exact ⟨by simp only [Walk.andThen, Walk.report, List.append_nil], fun stop => by cases stop⟩
  · rw [visit_probe]
    exact ⟨by simp only [Walk.andThen, List.append_nil], fun stop => by cases stop⟩

theorem chkExtlist_probe (xps : List Extent) (w : Walk (List Nat)) :
    chkExtlist (probe keeps) xps w = (w.andThen (flat w.firstoff xps), .keepon) := by
  induction xps generalizing w with
  | nil => simp only [chkExtlist, flat, Walk.andThen, List.append_nil]
  | cons xp xps ih =>
      have one : (chkExt (probe keeps) w xp).1 = w.andThen (flatExt w.firstoff xp) ∧
          (chkExt (probe keeps) w xp).2 ≠ .stop := chkExt_probe w xp
      unfold chkExtlist flat
      generalize chkExt (probe keeps) w xp = out at one
      obtain ⟨w', r⟩ := out
      obtain ⟨here, going⟩ := one
      dsimp only at here going
      have firstoff : w'.firstoff = (flatExt w.firstoff xp).firstoff := by rw [here]; rfl
      cases r with
      | stop => exact absurd rfl going
      | keepon | skip =>
          dsimp only
          rw [ih w', firstoff, here, Walk.andThen_assoc]

theorem flat_append (firstoff : Nat) (xs ys : List Extent) :
    flat firstoff (xs ++ ys) = (flat firstoff xs).andThen (flat (flat firstoff xs).firstoff ys) := by
  induction xs generalizing firstoff with
  | nil => rfl
  | cons xp xs ih =>
      rw [List.cons_append, flat, flat, ih, Walk.andThen_assoc]
      rfl

/-- An extent list in order is walked block by block. -/
theorem flat_contig {firstoff o : Nat} {xs : List Extent} (contig : Contig o xs) (le : firstoff ≤ o)
    (legal : ∀ ex ∈ xs, ex.exMagic = 0 ∧ 0 < ex.exLength) :
    (flat firstoff xs).st = blocksOf xs ∧ (flat firstoff xs).reports = [] ∧
      (flat firstoff xs).firstoff ≤ o + lengthOf xs := by
  induction xs generalizing firstoff o with
  | nil => exact ⟨rfl, rfl, le⟩
  | cons ex xs ih =>
      have here := legal ex (List.mem_cons_self ..)
      have start : ex.exOffset = o := contig.1
      have one : flatExt firstoff ex = ⟨ex.blocks, ex.exOffset + ex.exLength, []⟩ := by
        unfold flatExt
        rw [if_neg (by omega), if_neg (not_not.mpr here.1), if_neg (Nat.ne_of_gt here.2)]
      have next : ex.exOffset + ex.exLength ≤ o + ex.exLength := Nat.le_of_eq (by rw [start])
      have rest := ih contig.2 next fun other mem => legal other (List.mem_cons_of_mem _ mem)
      unfold flat
      rw [one]
      rw [← start] at rest ⊢
      simp only [Walk.andThen, blocksOf_cons, lengthOf_cons, List.nil_append]
      exact ⟨by rw [rest.1], rest.2.1, by have := rest.2.2; omega⟩

/-- What the loop of `chk_iext` sees is the list of extents its blocks hold,
    with the blocks themselves in between. -/
theorem chkIextLoop_probe {outrange : Nat → Bool} (disk : Scatter.Store Extent) (xl xb : Nat)
    (nx : Int) (w : Walk (List Nat)) (kept : ∀ b, xb ≤ b → b < xb + xl → keeps b = true)
    (inside : ∀ b, xb ≤ b → b < xb + xl → outrange b = false) :
    ∃ log, chkIextLoop (probe keeps) outrange disk xl xb nx w =
        (⟨w.st ++ log, (flat w.firstoff (Scatter.get disk (xb * extsPerbb)
            (min nx (xl * extsPerbb)).toNat)).firstoff,
          w.reports ++ (flat w.firstoff (Scatter.get disk (xb * extsPerbb)
            (min nx (xl * extsPerbb)).toNat)).reports⟩, .ok (nx - xl * extsPerbb)) ∧
      log.Perm (List.range' xb xl ++ (flat w.firstoff (Scatter.get disk (xb * extsPerbb)
        (min nx (xl * extsPerbb)).toNat)).st) := by
  induction xl generalizing xb nx w with
  | zero =>
      have none : (min nx ((0 : Nat) * extsPerbb : Int)).toNat = 0 := by omega
      rw [none, Scatter.get_zero]
      refine ⟨[], ?_, List.Perm.refl _⟩
      simp only [chkIextLoop, flat, List.append_nil, Nat.cast_zero, zero_mul, sub_zero]
  | succ xl ih =>
      have parts : Scatter.get disk (xb * extsPerbb) (min nx ((xl + 1 : Nat) * extsPerbb)).toNat =
          Scatter.get disk (xb * extsPerbb) (min nx extsPerbb).toNat ++
            Scatter.get disk ((xb + 1) * extsPerbb) (min (nx - extsPerbb) (xl * extsPerbb)).toNat := by
        simp only [extsPerbb]
        rcases lt_or_ge nx 64 with less | more
        · have none : (min (nx - ((64 : Nat) : Int)) ((xl : Int) * (64 : Nat))).toNat = 0 := by omega
          have all : (min nx ((xl + 1 : Nat) * (64 : Nat) : Int)).toNat =
              (min nx ((64 : Nat) : Int)).toNat := by
            push_cast
            omega
          rw [none, all, Scatter.get_zero, List.append_nil]
        · have whole : (min nx ((64 : Nat) : Int)).toNat = 64 := by omega
          have all : (min nx ((xl + 1 : Nat) * (64 : Nat) : Int)).toNat =
              64 + (min (nx - ((64 : Nat) : Int)) ((xl : Int) * (64 : Nat))).toNat := by
            push_cast
            omega
          rw [whole, all, Scatter.get_add, Nat.add_one_mul]
      rw [parts, flat_append]
      generalize hfirst : Scatter.get disk (xb * extsPerbb) (min nx extsPerbb).toNat = first
      have probed : probe keeps w.st xb = (w.st ++ [xb], .keepon) := by
        rw [probe, kept xb (Nat.le_refl _) (by omega)]
        rfl
      rw [chkIextLoop_keepon probed, iextGoesOn, inside xb (Nat.le_refl _) (by omega), hfirst,
        chkExtlist_probe]
      dsimp only
      obtain ⟨log, rest, perm⟩ := ih (xb + 1) (nx - extsPerbb)
        (Walk.andThen ⟨w.st ++ [xb], w.firstoff, w.reports⟩ (flat w.firstoff first))
        (fun b low high => kept b (by omega) (by omega))
        (fun b low high => inside b (by omega) (by omega))
      have firstoff : (Walk.andThen ⟨w.st ++ [xb], w.firstoff, w.reports⟩
          (flat w.firstoff first)).firstoff = (flat w.firstoff first).firstoff := rfl
      rw [firstoff] at rest perm
      refine ⟨xb :: ((flat w.firstoff first).st ++ log), ?_, ?_⟩
      · rw [if_neg Bool.false_ne_true, rest]
        have count : nx - extsPerbb - (xl : Int) * extsPerbb = nx - (xl + 1 : Nat) * extsPerbb := by
          push_cast
          ring
        simp only [Walk.andThen, List.append_assoc, List.cons_append, List.nil_append, count]
      · rw [List.range'_succ, List.cons_append]
        refine List.Perm.cons xb ?_
        have swapped := List.Perm.append_left (flat w.firstoff first).st perm
        refine swapped.trans ?_
        simp only [Walk.andThen, ← List.append_assoc]
        exact List.perm_append_comm.append_right _

/-- The loop only asks `keeps` about the blocks it writes down. -/
theorem chkIextLoop_congr {outrange : Nat → Bool} {disk : Scatter.Store Extent} (xl xb : Nat)
    (nx : Int) (w : Walk (List Nat)) :
    w.st <+: (chkIextLoop (probe keeps) outrange disk xl xb nx w).1.st ∧
      ((∀ b ∈ (chkIextLoop (probe keeps) outrange disk xl xb nx w).1.st, keeps b = keeps' b) →
        chkIextLoop (probe keeps') outrange disk xl xb nx w =
          chkIextLoop (probe keeps) outrange disk xl xb nx w) := by
  induction xl generalizing xb nx w with
  | zero => exact ⟨List.prefix_refl _, fun _ => rfl⟩
  | succ xl ih =>
      have called : ∀ k : Nat → Bool, probe k w.st xb = (w.st ++ [xb], if k xb then .keepon else .skip) :=
        fun _ => rfl
      cases kept : keeps xb with
      | false =>
          have here := called keeps
          rw [kept] at here
          rw [chkIextLoop_returns here (fun keepon => by cases keepon)]
          refine ⟨List.prefix_append _ _, fun same => ?_⟩
          have there := called keeps'
          rw [← same xb (List.mem_append_right _ (List.mem_singleton_self xb)), kept] at there
          rw [chkIextLoop_returns there (fun keepon => by cases keepon)]
      | true =>
          have here := called keeps
          rw [kept] at here
          rw [chkIextLoop_keepon here, iextGoesOn]
          by_cases out : outrange xb = true
          · rw [if_pos out]
            refine ⟨List.prefix_append _ _, fun same => ?_⟩
            have there := called keeps'
            rw [← same xb (List.mem_append_right _ (List.mem_singleton_self xb)), kept] at there
            rw [chkIextLoop_keepon there, iextGoesOn, if_pos out]
          · rw [if_neg out, chkExtlist_probe]
            dsimp only
            generalize hw : Walk.andThen ⟨w.st ++ [xb], w.firstoff, w.reports⟩
              (flat w.firstoff (Scatter.get disk (xb * extsPerbb) (min nx extsPerbb).toNat)) = w'
            obtain ⟨starts, congr⟩ := ih (xb + 1) (nx - extsPerbb) w'
            have start : w.st ++ [xb] <+: w'.st := by
              rw [← hw]
              exact List.prefix_append _ _
            refine ⟨((List.prefix_append _ _).trans start).trans starts, fun same => ?_⟩
            have there := called keeps'
            have mem : xb ∈ w.st ++ [xb] := List.mem_append_right _ (List.mem_singleton_self xb)
            rw [← same xb ((start.trans starts).subset mem), kept] at there
            rw [chkIextLoop_keepon there, iextGoesOn, if_neg out, chkExtlist_probe]
            dsimp only
            rw [hw]
            exact congr same

/-- The claims of an inode with an indirect extent are what the loop over it
    writes down. -/
theorem claims_indirect {outrange : Nat → Bool} {disk : Scatter.Store Extent} {dp : Dinode}
    (plain : ¬special dp = true) (indirect : ¬dp.diNumextents ≤ efsDirectextents)
    (few : ¬4096 ≤ dp.diNumextents) (magic : ¬(dp.diExtents.headD Extent.null).exMagic ≠ 0) :
    claims keeps outrange disk dp =
      (chkIextLoop (probe keeps) outrange disk (dp.diExtents.headD Extent.null).exLength
        (dp.diExtents.headD Extent.null).exBn dp.diNumextents ⟨[], 0, []⟩).1.st := by
  unfold claims ckinode chkIext
  rw [if_neg plain, if_neg indirect, if_neg few, if_neg magic]
  generalize chkIextLoop (probe keeps) outrange disk (dp.diExtents.headD Extent.null).exLength
    (dp.diExtents.headD Extent.null).exBn dp.diNumextents ⟨[], 0, []⟩ = out
  obtain ⟨w, r⟩ := out
  cases r with
  | error e => cases e <;> rfl
  | ok left =>
      dsimp only
      by_cases short : ((dp.diExtents.headD Extent.null).exLength : Int) <
          (left * sizeofExtent + 511) / 512
      · rw [if_pos short]
        rfl
      · rw [if_neg short]

/-- Block functions that agree on the claims of an inode find the same claims. -/
theorem claims_congr {outrange : Nat → Bool} {disk : Scatter.Store Extent} {dp : Dinode}
    (same : ∀ b ∈ claims keeps outrange disk dp, keeps b = keeps' b) :
    claims keeps' outrange disk dp = claims keeps outrange disk dp := by
  by_cases plain : special dp = true
  · unfold claims ckinode
    rw [if_pos plain, if_pos plain]
  by_cases indirect : dp.diNumextents ≤ efsDirectextents
  · unfold claims ckinode
    simp only [if_neg plain, if_pos indirect, chkExtlist_probe]
  by_cases few : 4096 ≤ dp.diNumextents
  · unfold claims ckinode chkIext
    simp only [if_neg plain, if_neg indirect, if_pos few]
  by_cases magic : (dp.diExtents.headD Extent.null).exMagic ≠ 0
  · unfold claims ckinode chkIext
    simp only [if_neg plain, if_neg indirect, if_neg few, if_pos magic]
  rw [claims_indirect plain indirect few magic] at same ⊢
  rw [claims_indirect plain indirect few magic, (chkIextLoop_congr _ _ _ _).2 same]

end Flat

end Irix.Fsck
