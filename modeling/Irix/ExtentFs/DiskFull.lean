import Irix.ExtentFs.Accounting

/-! # When the volume is reported full

The brute-force search of `efs_alloc` gives up on a group whose summary is not
exhausted but lists only used-up slots.  `Efs.Offers` is the exact condition on
one group; an allocation that may be short comes back empty-handed precisely
when no group meets it.
-/

namespace Irix.ExtentFs

open Lib

/-- Group `g` has something for the searches: its summary is exhausted and its
    data area has a free block, or its summary has an unused slot. -/
def Efs.Offers (fs : Efs) (g : Nat) : Prop :=
  ((fs.fsCgs g).cgLastd ≤ (fs.fsCgs g).cgNextd ∧
    0 < Bits.count fs.fsDmap (fs.dataStart g) fs.dataLen) ∨
  ∃ j, ((fs.fsCgs g).cgNextd ≤ j ∧ j < (fs.fsCgs g).cgLastd) ∧
    ((fs.fsCgs g).cgDsum j).dLength ≠ 0

section

variable {t : Tune} {fs : Efs} {g desiredlen : Nat} {musthave : Bool}

/-- An exhausted summary is worth what the bit map shows. -/
theorem offers_exhausted (exhausted : (fs.fsCgs g).cgLastd ≤ (fs.fsCgs g).cgNextd) :
    fs.Offers g ↔ 0 < Bits.count fs.fsDmap (fs.dataStart g) fs.dataLen := by
  constructor
  · rintro (⟨_, some⟩ | ⟨j, inside, _⟩)
    · exact some
    · omega
  · exact fun some => Or.inl ⟨exhausted, some⟩

theorem offers_setCg_other {cg : Cg} {i : Nat} (other : i ≠ g) :
    (fs.setCg g cg).Offers i ↔ fs.Offers i := by
  simp only [Efs.Offers, Efs.setCg_other fs cg other]
  rfl

/-- A block behind an unused slot is a free block. -/
theorem CgOk.count_pos {cg : Cg} (ok : CgOk fs.toGeometry fs.fsDmap g cg)
    (fits : CgFits fs.toGeometry fs.fsDmap g cg) {j : Nat}
    (first : cg.cgNextd ≤ j) (last : j < cg.cgLastd) (unused : (cg.cgDsum j).dLength ≠ 0) :
    0 < Bits.count fs.fsDmap (fs.dataStart g) fs.dataLen := by
  have low := ok.window.low j first last
  have nonneg := fits.listed j first last
  have high := ok.window.high j first last
  rw [Bits.count_pos]
  refine ⟨(cg.cgDsum j).dBn - fs.dataStart g, by omega, ?_⟩
  exact ok.window.free j first last _ (by omega) (by omega)

/-- Both searches only find what was on offer. -/
theorem CgSearched.offers {found : Efs × Option Pick} {pick : Pick}
    (searched : CgSearched fs desiredlen musthave g found) (fits : fs.Fits)
    (here : found.2 = some pick) : g < fs.fsNcg ∧ fs.Offers g := by
  obtain ⟨cg, only, kept⟩ := searched.only
  obtain ⟨rfl, ok⟩ := searched.pick pick here
  have still := searched.sound
  have fit := searched.fits fits
  rw [only] at ok still fit
  obtain ⟨inside, first, last, unused, _⟩ := ok
  have cgOk := still pick.cg inside
  have cgFits := fit pick.cg inside
  rw [Efs.setCg_same] at first last unused cgOk cgFits
  refine ⟨inside, ?_⟩
  cases kept with
  | inl exhausted => exact (offers_exhausted exhausted).mpr (cgOk.count_pos cgFits first last unused)
  | inr same =>
      obtain ⟨later, lastd, dsum⟩ := same
      rw [lastd] at last
      rw [dsum] at unused
      exact Or.inr ⟨pick.slot, ⟨by omega, last⟩, unused⟩

/-! ## Groups the searches pass over -/

/-- After a rebuild every slot is unused and of the minimum size. -/
theorem efsBuilddsum_slots {minimumsize j : Nat} {cg : Cg} {dontstop : Bool}
    (sane : fs.fsCorrupted = false) (writable : fs.fsReadonly = false)
    (ok : CgOk fs.toGeometry fs.fsDmap g cg) (fits : CgFits fs.toGeometry fs.fsDmap g cg)
    (last : j < (efsBuilddsum fs cg minimumsize dontstop).cgLastd) :
    (minimumsize : Int) ≤ ((efsBuilddsum fs cg minimumsize dontstop).cgDsum j).dLength ∧
      ((efsBuilddsum fs cg minimumsize dontstop).cgDsum j).dLength ≠ 0 := by
  obtain ⟨acc, built, _, loop⟩ := efsBuilddsum_loop sane writable ok.firstbn ok.firstdbn
  rw [built] at last ⊢
  have enough := loop.minimum fits.runs j last
  dsimp only
  split at enough <;> omega

/-- A rebuild that takes any run finds one if there is a free block. -/
theorem efsBuilddsum_found {cg : Cg} {dontstop : Bool}
    (sane : fs.fsCorrupted = false) (writable : fs.fsReadonly = false)
    (ok : CgOk fs.toGeometry fs.fsDmap g cg)
    (some : 0 < Bits.count fs.fsDmap (fs.dataStart g) fs.dataLen) :
    (efsBuilddsum fs cg 1 dontstop).cgNextd < (efsBuilddsum fs cg 1 dontstop).cgLastd := by
  obtain ⟨acc, built, loop, _⟩ := efsBuilddsum_loop sane writable ok.firstbn ok.firstdbn
  rw [built, loop]
  exact builddsumLoop_found (by simp) rfl some (fun up => absurd up (by simp))

/-- A group that either search passes over is left alone, or was exhausted and
    is again. -/
def Passed (fs fs' : Efs) (g : Nat) : Prop :=
  ∃ cg, fs' = fs.setCg g cg ∧
    (cg = fs.fsCgs g ∨
      ((fs.fsCgs g).cgLastd ≤ (fs.fsCgs g).cgNextd ∧ cg.cgLastd ≤ cg.cgNextd))

theorem Passed.refl (fs : Efs) (g : Nat) : Passed fs fs g :=
  ⟨fs.fsCgs g, (Efs.setCg_self fs g).symm, Or.inl rfl⟩

theorem Passed.offers {fs' : Efs} (passed : Passed fs fs' g) (i : Nat) :
    fs'.Offers i ↔ fs.Offers i := by
  obtain ⟨cg, rfl, same | ⟨before, after⟩⟩ := passed
  · rw [same, Efs.setCg_self]
  · by_cases here : i = g
    · subst here
      rw [offers_exhausted before]
      refine offers_exhausted ?_
      rw [Efs.setCg_same]
      exact after
    · exact offers_setCg_other here

theorem fastCg_missed (sane : fs.fsCorrupted = false) (writable : fs.fsReadonly = false)
    (sound : fs.Sound) (fits : fs.Fits) (inside : g < fs.fsNcg)
    (missed : (fastCg t fs g desiredlen false).2 = none) :
    Passed fs (fastCg t fs g desiredlen false).1 g := by
  rw [fastCg] at missed ⊢
  dsimp only at missed ⊢
  by_cases few : (fs.fsCgs g).cgDfree < desiredlen
  · rw [if_pos few]
    exact Passed.refl fs g
  rw [if_neg few] at missed ⊢
  by_cases exhausted : (fs.fsCgs g).cgLastd ≤ (fs.fsCgs g).cgNextd
  · simp only [if_pos exhausted] at missed ⊢
    have slots : ∀ j, j < (efsBuilddsum fs (fs.fsCgs g) (desiredlen / 2) t.dontstop).cgLastd → _ :=
      fun j => efsBuilddsum_slots sane writable (sound g inside) (fits g inside)
    generalize efsBuilddsum fs (fs.fsCgs g) (desiredlen / 2) t.dontstop = cg at missed slots ⊢
    by_cases none : cg.cgLastd ≤ cg.cgNextd
    · rw [if_pos none]
      exact ⟨cg, rfl, Or.inr ⟨exhausted, none⟩⟩
    -- a slot of a fresh summary is always taken
    rw [if_neg none] at missed
    have scan : ScanOk cg.cgDsum desiredlen (cg.cgLastd - cg.cgNextd) cg.cgNextd Option.none
        (scanDsum cg.cgDsum desiredlen (cg.cgLastd - cg.cgNextd) cg.cgNextd Option.none) :=
      scanDsum_ok fun s saved => by cases saved
    generalize scanDsum cg.cgDsum desiredlen (cg.cgLastd - cg.cgNextd) cg.cgNextd Option.none =
      found at scan missed
    rcases found with k | _ | k
    · cases missed
    · exact absurd (scan.2 cg.cgNextd (Nat.le_refl _) (by omega)) (slots _ (by omega)).2
    · have range := scan.1.resolve_left (fun saved => by cases saved)
      have enough := (slots k (by omega)).1
      dsimp only at missed
      rw [if_pos (by simpa using enough)] at missed
      cases missed
  · simp only [if_neg exhausted, Efs.setCg_self]
    repeat' split
    all_goals exact Passed.refl fs g

/-- The brute-force search passes over a group only if it offers nothing. -/
theorem slowCg_missed (sane : fs.fsCorrupted = false) (writable : fs.fsReadonly = false)
    (sound : fs.Sound) (fits : fs.Fits) (inside : g < fs.fsNcg)
    (missed : (slowCg t fs g desiredlen false).2 = none) : ¬fs.Offers g := by
  rw [slowCg] at missed
  dsimp only at missed
  have ok := sound g inside
  have takes : ∀ cgd : Cgdmap, cgd.dLength ≠ 0 → usable desiredlen false cgd = true :=
    fun cgd unused => by simpa [usable] using unused
  by_cases exhausted : (fs.fsCgs g).cgLastd ≤ (fs.fsCgs g).cgNextd
  · rw [offers_exhausted exhausted]
    simp only [if_pos exhausted] at missed
    intro some
    have freshOk : CgOk fs.toGeometry fs.fsDmap g
        { fs.fsCgs g with cgFirstdfree := (fs.fsCgs g).cgFirstdbn } :=
      ⟨ok.firstbn, ok.firstdbn, ok.dfree, ok.slots, ok.window, ok.nonneg⟩
    have freshFits : CgFits fs.toGeometry fs.fsDmap g
        { fs.fsCgs g with cgFirstdfree := (fs.fsCgs g).cgFirstdbn } :=
      ⟨(fits g inside).runs, (fits g inside).listed⟩
    generalize { fs.fsCgs g with cgFirstdfree := (fs.fsCgs g).cgFirstdbn } = fresh
      at missed freshOk freshFits
    have found : (efsBuilddsum fs fresh 1 t.dontstop).cgNextd <
        (efsBuilddsum fs fresh 1 t.dontstop).cgLastd := efsBuilddsum_found sane writable freshOk some
    have slots := efsBuilddsum_slots sane writable freshOk freshFits found
    rw [if_neg (by omega), if_pos (takes _ slots.2)] at missed
    cases missed
  · simp only [if_neg exhausted] at missed
    split at missed
    next => cases missed
    next useless =>
      have unfound := firstUsable_none (Option.map_eq_none_iff.mp missed)
      rintro (⟨again, _⟩ | ⟨j, range, unused⟩)
      · exact exhausted again
      · rcases Nat.eq_or_lt_of_le range.1 with rfl | later
        · exact useless (takes _ unused)
        · have := unfound j later (by omega)
          rw [takes _ unused] at this
          cases this

/-! ## The searches -/

/-- A mounted volume as the searches meet it. -/
structure Mounted (fs : Efs) : Prop where
  sane : fs.fsCorrupted = false
  writable : fs.fsReadonly = false
  sound : fs.Sound
  fits : fs.Fits

theorem CgSearched.mounted {found : Efs × Option Pick} (mounted : Mounted fs)
    (searched : CgSearched fs desiredlen musthave g found) : Mounted found.1 := by
  obtain ⟨cg, only, _⟩ := searched.only
  have sound := searched.sound
  have fits := searched.fits mounted.fits
  rw [only] at sound fits ⊢
  exact ⟨mounted.sane, mounted.writable, sound, fits⟩

/-- What the first search comes back with, if a smaller piece will do: the
    groups offer as much as before when it found nothing. -/
theorem fastSearch_offers (t : Tune) (desiredlen i g : Nat) (fs : Efs) (mounted : Mounted fs) (room : i ≤ fs.fsNcg) :
    ((fastSearch t desiredlen false i g fs).2 ≠ none → ∃ k < fs.fsNcg, fs.Offers k) ∧
    ((fastSearch t desiredlen false i g fs).2 = none →
      ∀ k, (fastSearch t desiredlen false i g fs).1.Offers k ↔ fs.Offers k) := by
  induction i generalizing g fs with
  | zero => exact ⟨fun found => absurd rfl found, fun _ k => Iff.rfl⟩
  | succ i ih =>
      rw [fastSearch]
      have inside : (if fs.fsNcg ≤ g then 0 else g) < fs.fsNcg := by split <;> omega
      generalize (if fs.fsNcg ≤ g then 0 else g) = here at inside
      have first : CgSearched fs desiredlen false here (fastCg t fs here desiredlen false) :=
        fastCg_ok mounted.sound inside
      cases h : fastCg t fs here desiredlen false with
      | mk fs' found =>
          cases found with
          | some pick =>
              rw [h] at first
              exact ⟨fun _ => ⟨here, first.offers mounted.fits rfl⟩, fun missed => by cases missed⟩
          | none =>
              have passed : Passed fs fs' here := by
                have missed := fastCg_missed (t := t) (g := here)
                  mounted.sane mounted.writable mounted.sound mounted.fits inside (by rw [h])
                rwa [h] at missed
              rw [h] at first
              have same : fs'.toGeometry = fs.toGeometry := first.searched.same.geometry
              have ncg : fs'.fsNcg = fs.fsNcg := by rw [same]
              have rest := ih (here + 1) fs' (first.mounted mounted) (by omega)
              simp only [passed.offers, ncg] at rest
              exact rest

theorem slowSearch_offers (i g : Nat) (fs : Efs) (mounted : Mounted fs) (room : g + i ≤ fs.fsNcg) :
    (slowSearch t desiredlen false i g fs).2 ≠ none ↔ ∃ k, (g ≤ k ∧ k < g + i) ∧ fs.Offers k := by
  induction i generalizing g fs with
  | zero =>
      constructor
      · exact fun found => absurd rfl found
      · rintro ⟨k, range, _⟩
        omega
  | succ i ih =>
      rw [slowSearch]
      have first : CgSearched fs desiredlen false g (slowCg t fs g desiredlen false) :=
        slowCg_ok mounted.sound (by omega)
      cases h : slowCg t fs g desiredlen false with
      | mk fs' found =>
          cases found with
          | some pick =>
              rw [h] at first
              exact iff_of_true (fun found => by cases found) ⟨g, by omega, (first.offers mounted.fits rfl).2⟩
          | none =>
              have nothing : ¬fs.Offers g := slowCg_missed mounted.sane mounted.writable
                mounted.sound mounted.fits (by omega) (by rw [h])
              rw [h] at first
              obtain ⟨cg, only, _⟩ := first.only
              have same : fs'.toGeometry = fs.toGeometry := first.searched.same.geometry
              have ncg : fs'.fsNcg = fs.fsNcg := by rw [same]
              dsimp only at only ⊢
              rw [ih (g + 1) fs' (first.mounted mounted) (by omega)]
              have others : ∀ k, k ≠ g → (fs'.Offers k ↔ fs.Offers k) := fun k other => by
                rw [only]
                exact offers_setCg_other other
              constructor
              · rintro ⟨k, range, offers⟩
                exact ⟨k, by omega, (others k (by omega)).mp offers⟩
              · rintro ⟨k, range, offers⟩
                have other : k ≠ g := by
                  rintro rfl
                  exact nothing offers
                exact ⟨k, by omega, (others k other).mpr offers⟩

/-- An allocation that returns a positive length. -/
def Grant.Positive (grant : Grant) : Prop := ∃ bn length, grant = .found bn length ∧ 0 < length

theorem AllocOk.positive {out : Efs × Grant} (ok : AllocOk fs desiredlen musthave out)
    (fits : fs.Fits) (wanted : 0 < desiredlen) : out.2.Positive ↔ out.2 ≠ .noMoreRoom := by
  cases ok with
  | noMoreRoom _ _ =>
      constructor
      · rintro ⟨bn, length, here, _⟩
        cases here
      · exact fun some => absurd rfl some
  | corruption long _ _ => exact absurd fits long
  | found _ _ positive _ =>
      exact iff_of_true ⟨_, _, rfl, positive wanted⟩ (fun none => by cases none)

theorem takePick_room (pick : Pick) : (takePick fs pick desiredlen).2 ≠ .noMoreRoom := by
  rw [takePick]
  dsimp only
  generalize (if ((fs.fsCgs pick.cg).cgDsum pick.slot).dLength < desiredlen then
    ((fs.fsCgs pick.cg).cgDsum pick.slot).dLength else (desiredlen : Int)) = length
  by_cases short : (bftstset fs.fsDmap ((fs.fsCgs pick.cg).cgDsum pick.slot).dBn length.toNat : Int)
      ≠ length
  · rw [if_pos short]
    exact fun none => by cases none
  · rw [if_neg short]
    exact fun none => by cases none

theorem bruteForce_offers (mounted : Mounted fs) (wanted : 0 < desiredlen) :
    (bruteForce t fs desiredlen false).2.Positive ↔ ∃ k < fs.fsNcg, fs.Offers k := by
  have ends : AllocOk fs desiredlen false (bruteForce t fs desiredlen false) :=
    bruteForce_ok mounted.sound
  have search : (slowSearch t desiredlen false fs.fsNcg 0 fs).2 ≠ none ↔ _ :=
    slowSearch_offers fs.fsNcg 0 fs mounted (by omega)
  simp only [Nat.zero_le, Nat.zero_add, true_and] at search
  rw [ends.positive mounted.fits wanted, ← search, bruteForce]
  cases slowSearch t desiredlen false fs.fsNcg 0 fs with
  | mk fs' found =>
      cases found with
      | some pick => exact iff_of_true (takePick_room pick) (fun none => by cases none)
      | none => exact iff_of_false (fun some => some rfl) (fun some => some rfl)

/-- An allocation that may be short succeeds exactly when the superblock still
    counts a free block and some group has something to offer. -/
theorem efsAlloc_offers (inum : Nat) (mounted : Mounted fs) (wanted : 0 < desiredlen) :
    (efsAlloc t fs inum desiredlen false).2.Positive ↔
      0 < fs.fsTfree ∧ ∃ k < fs.fsNcg, fs.Offers k := by
  rw [efsAlloc, mounted.sane, Bool.false_or]
  by_cases spent : fs.fsTfree ≤ 0
  · rw [if_pos (by simpa using spent)]
    refine iff_of_false ?_ (fun both => by omega)
    rintro ⟨bn, length, here, _⟩
    cases here
  rw [if_neg (by simpa using spent)]
  have left : 0 < fs.fsTfree := Int.not_le.mp spent
  simp only [left, true_and]
  by_cases full : fs.fsDiskfull = true
  · rw [if_pos full]
    exact bruteForce_offers mounted wanted
  rw [if_neg full]
  have search := fastSearch_offers t desiredlen fs.fsNcg (fs.itocg inum) fs mounted (Nat.le_refl _)
  have searched : Searched fs desiredlen false
      (fastSearch t desiredlen false fs.fsNcg (fs.itocg inum) fs) :=
    fastSearch_ok fs.fsNcg (fs.itocg inum) fs mounted.sound (Nat.le_refl _)
  cases h : fastSearch t desiredlen false fs.fsNcg (fs.itocg inum) fs with
  | mk fs' found =>
      rw [h] at search searched
      cases found with
      | some pick =>
          have ends : AllocOk fs desiredlen false (takePick fs' pick desiredlen) := searched.take
          exact iff_of_true ((ends.positive mounted.fits wanted).mpr (takePick_room pick))
            (search.1 (fun none => by cases none))
      | none =>
          obtain ⟨cgs, diskfull, only⟩ := searched.same
          dsimp only at only
          have still : ∀ k, ({ fs' with fsDiskfull := true } : Efs).Offers k ↔ fs.Offers k :=
            search.2 rfl
          have mounted' : Mounted { fs' with fsDiskfull := true } := by
            refine ⟨?_, ?_, searched.sound, searched.fits mounted.fits⟩
            · rw [only]
              exact mounted.sane
            · rw [only]
              exact mounted.writable
          have ncg : fs'.fsNcg = fs.fsNcg := by rw [only]
          simp only [Bool.false_eq_true, if_false]
          rw [bruteForce_offers mounted' wanted]
          simp only [still, ncg]

end

/-- When free blocks remain, an allocation that may be short succeeds in a
    reachable state exactly if the superblock's count is positive and some
    group has something to offer.  This is so as long as no free run is too
    long for the `short` it is listed with. -/
theorem alloc_with_free_iff (t : Tune) (sb : Superblock) (calls : List Call) (inum desiredlen : Nat)
    (wanted : 0 < desiredlen)
    (sane : (Run.exec (Call.step t) (efsMountany t sb) calls).fsCorrupted = false)
    (fits : (Run.exec (Call.step t) (efsMountany t sb) calls).Fits) :
    let fs := Run.exec (Call.step t) (efsMountany t sb) calls
    ((∃ g b, fs.InArea g b ∧ fs.fsDmap b = true) →
        (efsAlloc t fs inum desiredlen false).2.Positive) ↔
      ((∃ g b, fs.InArea g b ∧ fs.fsDmap b = true) →
        0 < fs.fsTfree ∧ ∃ g < fs.fsNcg, fs.Offers g) := by
  intro fs
  have settled : Settled sb.incore fs := run_settled t sb calls
  have mounted : Mounted fs := ⟨sane, settled.readonly, settled.sound, fits⟩
  rw [efsAlloc_offers inum mounted wanted]

theorem alloc_with_free_iff_fiveAndTen :
    let fs := Run.exec (Call.step production) (efsMountany production fiveAndTen)
      [.alloc 2 10 false]
    ((∃ g b, fs.InArea g b ∧ fs.fsDmap b = true) →
        (efsAlloc production fs 2 3 false).2.Positive) ↔
      ((∃ g b, fs.InArea g b ∧ fs.fsDmap b = true) →
        0 < fs.fsTfree ∧ ∃ g < fs.fsNcg, fs.Offers g) :=
  alloc_with_free_iff production fiveAndTen [.alloc 2 10 false] 2 3 (by decide) (by decide)
    ((run_settled production fiveAndTen [.alloc 2 10 false]).sound.fits (by decide))

/-- Five blocks are free, and an allocation of three reports the disk full: the one of
    ten before it left `cg_nextd` past the slot of these five. -/
theorem full_with_five_free :
    let fs := Run.exec (Call.step production) (efsMountany production fiveAndTen)
      [.alloc 2 10 false]
    fs.fsCorrupted = false ∧ fs.fsTfree = 5 ∧ (fs.InArea 0 5 ∧ fs.fsDmap 5 = true) ∧
      (efsAlloc production fs 2 3 false).2 = .noMoreRoom := by
  decide

end Irix.ExtentFs
