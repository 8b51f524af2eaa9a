import Irix.ExtentFs.Alloc
import Irix.Lib.Run

/-! # Free-space accounting

The summaries of the cylinder groups are a cache of the bit map.  `Efs.Sound`
is the invariant that keeps the cache honest; every allocator routine keeps it
whatever it is called with, and changes `fs_tfree` by what it does to the map.
-/

namespace Irix.ExtentFs

open Lib

/-- The summary of group `g` tells the truth about the bit map, as far as its
    fields can hold it. -/
structure CgOk (geo : Geometry) (dmap : Bits.Map) (g : Nat) (cg : Cg) : Prop where
  firstbn : cg.cgFirstbn = geo.cgimin g
  firstdbn : cg.cgFirstdbn = geo.dataStart g
  dfree : cg.cgDfree = short (Bits.count dmap (geo.dataStart g) geo.dataLen)
  slots : cg.cgLastd ≤ cgDsums
  window : Window dmap (geo.dataStart g) (geo.dataStart g + geo.dataLen) cg.cgDsum
    cg.cgNextd cg.cgLastd
  nonneg : geo.Short → ∀ j, cg.cgNextd ≤ j → j < cg.cgLastd → 0 ≤ (cg.cgDsum j).dLength

/-- In a data area that fits, the free blocks are counted exactly. -/
theorem CgOk.exact {geo : Geometry} {dmap : Bits.Map} {g : Nat} {cg : Cg}
    (ok : CgOk geo dmap g cg) (fits : geo.Short) :
    cg.cgDfree = Bits.count dmap (geo.dataStart g) geo.dataLen := by
  have few := Bits.count_le (m := dmap) (geo.dataStart g) geo.dataLen
  have less : geo.dataLen < 32768 := fits
  rw [ok.dfree, short_fits (by omega) (by omega)]

/-- A summary with nothing left in its window only has to count right. -/
theorem CgOk.exhausted {geo : Geometry} {dmap : Bits.Map} {g : Nat} {cg : Cg}
    (firstbn : cg.cgFirstbn = geo.cgimin g) (firstdbn : cg.cgFirstdbn = geo.dataStart g)
    (dfree : cg.cgDfree = short (Bits.count dmap (geo.dataStart g) geo.dataLen))
    (slots : cg.cgLastd ≤ cgDsums) (none : cg.cgLastd ≤ cg.cgNextd) : CgOk geo dmap g cg :=
  ⟨firstbn, firstdbn, dfree, slots, Window.empty none, fun _ j _ _ => by omega⟩

/-- Every group's summary tells the truth. -/
def Efs.Sound (fs : Efs) : Prop :=
  ∀ g < fs.fsNcg, CgOk fs.toGeometry fs.fsDmap g (fs.fsCgs g)

/-- No free run of group `g` is too long for a slot, and none that is listed
    was when it was listed. -/
structure CgFits (geo : Geometry) (dmap : Bits.Map) (g : Nat) (cg : Cg) : Prop where
  runs : ShortRuns dmap (geo.dataStart g) (geo.dataStart g + geo.dataLen)
  listed : ∀ j, cg.cgNextd ≤ j → j < cg.cgLastd → 0 ≤ (cg.cgDsum j).dLength

def Efs.Fits (fs : Efs) : Prop :=
  ∀ g < fs.fsNcg, CgFits fs.toGeometry fs.fsDmap g (fs.fsCgs g)

/-- Small data areas have no long runs. -/
theorem Efs.Sound.fits {fs : Efs} (sound : fs.Sound) (small : fs.Short) : fs.Fits :=
  fun g inside => ⟨ShortRuns.of_short small, (sound g inside).nonneg small⟩

/-! ## Rebuilding a summary -/

section Builddsum

variable {fs : Efs} {g minimumsize : Nat} {cg : Cg} {dontstop : Bool}

theorem efsBuilddsum_idle (idle : fs.fsCorrupted = true ∨ fs.fsReadonly = true) :
    efsBuilddsum fs cg minimumsize dontstop = cg := by
  simp only [efsBuilddsum]
  rw [if_pos (by simpa only [Bool.or_eq_true] using idle)]

/-- A rebuilt summary lists runs of the minimum size at least. -/
theorem efsBuilddsum_loop (sane : fs.fsCorrupted = false) (writable : fs.fsReadonly = false)
    (firstbn : cg.cgFirstbn = fs.cgimin g) (firstdbn : cg.cgFirstdbn = fs.dataStart g) :
    ∃ acc, efsBuilddsum fs cg minimumsize dontstop =
        { cg with
          cgFirstdfree := fs.dataStart g
          cgNextd := 0
          cgLastd := acc.lastd
          cgDsum := acc.dsum
          cgDfree := if dontstop then short acc.dfree else cg.cgDfree } ∧
      acc = builddsumLoop fs.fsDmap (if minimumsize = 0 then 1 else minimumsize) dontstop
        (2 * fs.dataLen + 1) true (fs.dataStart g) fs.dataLen ⟨cg.cgDsum, 0, 0⟩ ∧
      LoopOk fs.fsDmap (if minimumsize = 0 then 1 else minimumsize) (fs.dataStart g)
        (fs.dataStart g + fs.dataLen) (fs.dataStart g + fs.dataLen) acc := by
  have area : cg.cgFirstbn + fs.fsCgfsize - cg.cgFirstdbn = fs.dataLen := by
    have := fs.dataEnd g
    rw [firstbn, firstdbn]
    omega
  have start : LoopOk fs.fsDmap (if minimumsize = 0 then 1 else minimumsize)
      (fs.dataStart g) (fs.dataStart g + fs.dataLen) (fs.dataStart g) ⟨cg.cgDsum, 0, 0⟩ :=
    ⟨Window.empty (Nat.le_refl 0), Nat.zero_le _,
      fun _ j inside => absurd inside (Nat.not_lt_zero j)⟩
  refine ⟨_, ?_, rfl, builddsumLoop_ok _ _ (Nat.le_refl _) (Nat.le_refl _) start⟩
  simp only [efsBuilddsum, sane, writable, Bool.or_self, Bool.false_eq_true, if_false, area]
  rw [firstdbn]

/-- A rebuilt summary is right if the free count was, or if it is recounted. -/
theorem efsBuilddsum_ok (sane : fs.fsCorrupted = false) (writable : fs.fsReadonly = false)
    (firstbn : cg.cgFirstbn = fs.cgimin g) (firstdbn : cg.cgFirstdbn = fs.dataStart g)
    (counted : dontstop = true ∨
      cg.cgDfree = short (Bits.count fs.fsDmap (fs.dataStart g) fs.dataLen)) :
    CgOk fs.toGeometry fs.fsDmap g (efsBuilddsum fs cg minimumsize dontstop) := by
  obtain ⟨acc, built, loop, ok⟩ := efsBuilddsum_loop sane writable firstbn firstdbn
  rw [built]
  refine ⟨firstbn, firstdbn, ?_, ok.slots, ok.window, fun fits j _ inside => ?_⟩
  · cases dontstop with
    | false => exact counted.resolve_left Bool.false_ne_true
    | true =>
        simp only [if_true, loop]
        rw [builddsumLoop_dfree (by simp), Nat.zero_add]
  · exact le_trans (Int.natCast_nonneg _) (ok.minimum (ShortRuns.of_short fits) j inside)

theorem CgFits.builddsum (fits : CgFits fs.toGeometry fs.fsDmap g cg)
    (firstbn : cg.cgFirstbn = fs.cgimin g) (firstdbn : cg.cgFirstdbn = fs.dataStart g) :
    CgFits fs.toGeometry fs.fsDmap g (efsBuilddsum fs cg minimumsize dontstop) := by
  by_cases idle : fs.fsCorrupted = true ∨ fs.fsReadonly = true
  · rw [efsBuilddsum_idle idle]
    exact fits
  · simp only [not_or, Bool.not_eq_true] at idle
    obtain ⟨acc, built, _, ok⟩ :=
      @efsBuilddsum_loop fs g minimumsize cg dontstop idle.1 idle.2 firstbn firstdbn
    rw [built]
    exact ⟨fits.runs, fun j _ inside =>
      le_trans (Int.natCast_nonneg _) (ok.minimum fits.runs j inside)⟩

theorem CgOk.builddsum (ok : CgOk fs.toGeometry fs.fsDmap g cg) :
    CgOk fs.toGeometry fs.fsDmap g (efsBuilddsum fs cg minimumsize dontstop) := by
  by_cases idle : fs.fsCorrupted = true ∨ fs.fsReadonly = true
  · rw [efsBuilddsum_idle idle]
    exact ok
  · simp only [not_or, Bool.not_eq_true] at idle
    exact efsBuilddsum_ok idle.1 idle.2 ok.firstbn ok.firstdbn (Or.inr ok.dfree)

end Builddsum

/-! ## Where the searches come to rest -/

/-- The search changed nothing but summaries and `fs_diskfull`. -/
def Resummarized (fs fs' : Efs) : Prop :=
  ∃ cgs full, fs' = { fs with fsCgs := cgs, fsDiskfull := full }

namespace Resummarized

variable {fs fs' fs'' : Efs}

theorem refl (fs : Efs) : Resummarized fs fs := ⟨fs.fsCgs, fs.fsDiskfull, rfl⟩

theorem trans (left : Resummarized fs fs') (right : Resummarized fs' fs'') :
    Resummarized fs fs'' := by
  obtain ⟨_, _, rfl⟩ := left
  obtain ⟨cgs, full, rfl⟩ := right
  exact ⟨cgs, full, rfl⟩

theorem setCg (fs : Efs) (g : Nat) (cg : Cg) : Resummarized fs (fs.setCg g cg) := ⟨_, _, rfl⟩

theorem geometry (same : Resummarized fs fs') : fs'.toGeometry = fs.toGeometry := by
  obtain ⟨_, _, rfl⟩ := same
  rfl

end Resummarized

/-- A pick is an unused slot inside its group's window, and holds all that is
    wanted if a smaller piece will not do. -/
structure PickOk (fs : Efs) (desiredlen : Nat) (musthave : Bool) (pick : Pick) : Prop where
  cg : pick.cg < fs.fsNcg
  first : (fs.fsCgs pick.cg).cgNextd ≤ pick.slot
  last : pick.slot < (fs.fsCgs pick.cg).cgLastd
  unused : ((fs.fsCgs pick.cg).cgDsum pick.slot).dLength ≠ 0
  enough : musthave = true →
    (desiredlen : Int) ≤ ((fs.fsCgs pick.cg).cgDsum pick.slot).dLength

theorem Efs.Sound.setCg {fs : Efs} (sound : fs.Sound) {g : Nat} {cg : Cg}
    (ok : CgOk fs.toGeometry fs.fsDmap g cg) : (fs.setCg g cg).Sound := by
  intro i inside
  by_cases here : i = g
  · rw [here, Efs.setCg_same]
    exact ok
  · rw [Efs.setCg_other fs cg here]
    exact sound i inside

theorem Efs.Fits.setCg {fs : Efs} (fits : fs.Fits) {g : Nat} {cg : Cg}
    (ok : CgFits fs.toGeometry fs.fsDmap g cg) : (fs.setCg g cg).Fits := by
  intro i inside
  by_cases here : i = g
  · rw [here, Efs.setCg_same]
    exact ok
  · rw [Efs.setCg_other fs cg here]
    exact fits i inside

/-- How a group's search leaves its summary: what was listed before and is still
    in the window is as it was, unless the window was exhausted. -/
def Kept (old new : Cg) : Prop :=
  old.cgLastd ≤ old.cgNextd ∨
    (old.cgNextd ≤ new.cgNextd ∧ new.cgLastd = old.cgLastd ∧ new.cgDsum = old.cgDsum)

theorem Kept.refl (cg : Cg) : Kept cg cg := Or.inr ⟨Nat.le_refl _, rfl, rfl⟩

/-- What one group's search leaves behind, whichever of the two it is. -/
structure CgSearched (fs : Efs) (desiredlen : Nat) (musthave : Bool) (g : Nat)
    (found : Efs × Option Pick) : Prop where
  only : ∃ cg, found.1 = fs.setCg g cg ∧ Kept (fs.fsCgs g) cg
  sound : found.1.Sound
  fits : fs.Fits → found.1.Fits
  pick : ∀ pick, found.2 = some pick → pick.cg = g ∧ PickOk found.1 desiredlen musthave pick

/-- What a whole search leaves behind. -/
structure Searched (fs : Efs) (desiredlen : Nat) (musthave : Bool) (found : Efs × Option Pick) : Prop where
  same : Resummarized fs found.1
  sound : found.1.Sound
  fits : fs.Fits → found.1.Fits
  pick : ∀ pick, found.2 = some pick → PickOk found.1 desiredlen musthave pick

theorem CgSearched.searched {fs : Efs} {desiredlen g : Nat} {musthave : Bool}
    {found : Efs × Option Pick} (searched : CgSearched fs desiredlen musthave g found) :
    Searched fs desiredlen musthave found := by
  refine ⟨?_, searched.sound, searched.fits, fun pick here => (searched.pick pick here).2⟩
  obtain ⟨cg, only, _⟩ := searched.only
  rw [only]
  exact Resummarized.setCg fs g cg

/-- What a scan of `n` slots from `j` on comes back with: a slot that is long
    enough, or the longest of the unused ones. -/
def ScanOk (dsum : Nat → Cgdmap) (desiredlen n j : Nat) (savecgd : Option Nat) :
    Nat ⊕ Option Nat → Prop
  | .inl k =>
      (j ≤ k ∧ k < j + n) ∧ (dsum k).dLength ≠ 0 ∧ (desiredlen : Int) ≤ (dsum k).dLength
  | .inr none => savecgd = none ∧ ∀ k, j ≤ k → k < j + n → (dsum k).dLength = 0
  | .inr (some k) =>
      (savecgd = some k ∨ (j ≤ k ∧ k < j + n)) ∧ (dsum k).dLength ≠ 0 ∧
        (∀ s, savecgd = some s → (dsum s).dLength ≤ (dsum k).dLength) ∧
        ∀ i, j ≤ i → i < j + n → (dsum i).dLength ≠ 0 → (dsum i).dLength ≤ (dsum k).dLength

theorem scanDsum_ok {dsum : Nat → Cgdmap} {desiredlen n j : Nat} {savecgd : Option Nat}
    (saved : ∀ s, savecgd = some s → (dsum s).dLength ≠ 0) :
    ScanOk dsum desiredlen n j savecgd (scanDsum dsum desiredlen n j savecgd) := by
  induction n generalizing j savecgd with
  | zero =>
      cases savecgd with
      | none => exact ⟨rfl, fun k low high => by omega⟩
      | some s => exact ⟨Or.inl rfl, by grind, by grind, fun i low high => by omega⟩
  | succ n ih =>
      simp only [scanDsum]
      split
      next used =>
        have rest := @ih (j + 1) savecgd saved
        generalize scanDsum dsum desiredlen n (j + 1) savecgd = found at rest ⊢
        rcases found with k | _ | k <;> simp only [ScanOk] at rest ⊢ <;> grind
      split
      next unused enough => exact ⟨by omega, unused, enough⟩
      next unused small =>
        have longer : ∃ s, some (savedCgd dsum savecgd j) = some s ∧ (dsum s).dLength ≠ 0 ∧
            (s = j ∨ savecgd = some s) ∧ (dsum j).dLength ≤ (dsum s).dLength ∧
            ∀ i, savecgd = some i → (dsum i).dLength ≤ (dsum s).dLength := by
          cases savecgd with
          | none => exact ⟨j, rfl, unused, Or.inl rfl, le_refl _, fun i none => by cases none⟩
          | some s =>
              simp only [savedCgd, Option.some.injEq, exists_eq_left']
              split <;> grind
        obtain ⟨s, choice, positive, origin, here, before⟩ := longer
        rw [choice]
        have keep : ∀ i, some s = some i → (dsum i).dLength ≠ 0 := by grind
        have rest := @ih (j + 1) (some s) keep
        generalize scanDsum dsum desiredlen n (j + 1) (some s) = found at rest ⊢
        rcases found with k | _ | k <;> simp only [ScanOk] at rest ⊢ <;> grind

theorem firstUsable_some {dsum : Nat → Cgdmap} {desiredlen : Nat} {musthave : Bool} {n j k : Nat}
    (found : firstUsable dsum desiredlen musthave n j = some k) :
    (j ≤ k ∧ k < j + n) ∧ usable desiredlen musthave (dsum k) = true := by
  induction n generalizing j with
  | zero => cases found
  | succ n ih =>
      rw [firstUsable] at found
      split at found
      next here =>
        cases found
        exact ⟨by omega, here⟩
      next =>
        have rest := ih found
        exact ⟨by omega, rest.2⟩

theorem firstUsable_none {dsum : Nat → Cgdmap} {desiredlen : Nat} {musthave : Bool} {n j : Nat}
    (missed : firstUsable dsum desiredlen musthave n j = none) :
    ∀ k, j ≤ k → k < j + n → usable desiredlen musthave (dsum k) = false := by
  induction n generalizing j with
  | zero => exact fun k low high => by omega
  | succ n ih =>
      rw [firstUsable] at missed
      split at missed
      next => cases missed
      next here =>
        intro k low high
        rcases Nat.eq_or_lt_of_le low with rfl | later
        · simpa using here
        · exact ih missed k later (by omega)

theorem usable_length {desiredlen : Nat} {musthave : Bool} {cgd : Cgdmap}
    (use : usable desiredlen musthave cgd = true) :
    cgd.dLength ≠ 0 ∧ (musthave = true → (desiredlen : Int) ≤ cgd.dLength) := by
  simp only [usable, Bool.and_eq_true, decide_eq_true_eq, Bool.or_eq_true,
    Bool.not_eq_true'] at use
  exact ⟨use.1, fun must => use.2.resolve_left (by simp [must])⟩

section Search

variable {t : Tune} {fs : Efs} {g desiredlen : Nat} {musthave : Bool}

theorem PickOk.setCg {cg : Cg} {slot : Nat} {flag : Bool} (inside : g < fs.fsNcg)
    (first : cg.cgNextd ≤ slot) (last : slot < cg.cgLastd)
    (unused : (cg.cgDsum slot).dLength ≠ 0)
    (enough : musthave = true → (desiredlen : Int) ≤ (cg.cgDsum slot).dLength) :
    PickOk (fs.setCg g cg) desiredlen musthave ⟨g, slot, flag⟩ := by
  refine ⟨inside, ?_, ?_, ?_, ?_⟩ <;> rw [Efs.setCg_same] <;> assumption

/-- The start both group searches share: an exhausted summary is rebuilt. -/
theorem rebuilt_ok {minimumsize : Nat} {old fresh cg : Cg}
    (ok : CgOk fs.toGeometry fs.fsDmap g old) (freshOk : CgOk fs.toGeometry fs.fsDmap g fresh)
    (fresh_fits : CgFits fs.toGeometry fs.fsDmap g old → CgFits fs.toGeometry fs.fsDmap g fresh)
    (rebuilt : cg = if old.cgLastd ≤ old.cgNextd then
      efsBuilddsum fs fresh minimumsize t.dontstop else old) :
    CgOk fs.toGeometry fs.fsDmap g cg ∧ Kept old cg ∧
      (CgFits fs.toGeometry fs.fsDmap g old → CgFits fs.toGeometry fs.fsDmap g cg) := by
  split at rebuilt
  next exhausted =>
    rw [rebuilt]
    exact ⟨freshOk.builddsum, Or.inl exhausted, fun fits =>
      (fresh_fits fits).builddsum freshOk.firstbn freshOk.firstdbn⟩
  next =>
    rw [rebuilt]
    exact ⟨ok, Kept.refl old, id⟩

theorem fastCg_ok (sound : fs.Sound) (inside : g < fs.fsNcg) :
    CgSearched fs desiredlen musthave g (fastCg t fs g desiredlen musthave) := by
  rw [fastCg]
  dsimp only
  split
  next => exact ⟨⟨fs.fsCgs g, by simp, Kept.refl _⟩, sound, id, fun pick none => by cases none⟩
  next enough =>
    obtain ⟨cg, rebuilt⟩ : ∃ cg, cg = if (fs.fsCgs g).cgLastd ≤ (fs.fsCgs g).cgNextd then
      efsBuilddsum fs (fs.fsCgs g) (desiredlen / 2) t.dontstop else fs.fsCgs g := ⟨_, rfl⟩
    rw [← rebuilt]
    obtain ⟨ok, kept, cgFits⟩ := rebuilt_ok (sound g inside) (sound g inside) id rebuilt
    have only : ∃ new, fs.setCg g cg = fs.setCg g new ∧ Kept (fs.fsCgs g) new := ⟨cg, rfl, kept⟩
    have after := sound.setCg ok
    have fits : fs.Fits → (fs.setCg g cg).Fits := fun fits => fits.setCg (cgFits (fits g inside))
    split
    next => exact ⟨only, after, fits, fun pick none => by cases none⟩
    next window =>
      have scan : ScanOk cg.cgDsum desiredlen (cg.cgLastd - cg.cgNextd) cg.cgNextd none
          (scanDsum cg.cgDsum desiredlen (cg.cgLastd - cg.cgNextd) cg.cgNextd none) :=
        scanDsum_ok fun s none => by cases none
      generalize scanDsum cg.cgDsum desiredlen (cg.cgLastd - cg.cgNextd) cg.cgNextd none = found
        at scan ⊢
      rcases found with k | _ | k
      · obtain ⟨range, unused, long⟩ := scan
        refine ⟨only, after, fits, fun pick found => ?_⟩
        cases found
        exact ⟨rfl, PickOk.setCg inside range.1 (by omega) unused fun _ => long⟩
      · exact ⟨only, after, fits, fun pick none => by cases none⟩
      · obtain ⟨origin, unused, _⟩ := scan
        have range := origin.resolve_left (fun none => by cases none)
        dsimp only
        split
        next settle =>
          refine ⟨only, after, fits, fun pick found => ?_⟩
          cases found
          refine ⟨rfl, PickOk.setCg inside range.1 (by omega) unused fun must => ?_⟩
          simp [must] at settle
        next => exact ⟨only, after, fits, fun pick none => by cases none⟩

theorem slowCg_ok (sound : fs.Sound) (inside : g < fs.fsNcg) :
    CgSearched fs desiredlen musthave g (slowCg t fs g desiredlen musthave) := by
  rw [slowCg]
  dsimp only
  have ok := sound g inside
  obtain ⟨fresh, hfresh⟩ : ∃ fresh,
    fresh = { fs.fsCgs g with cgFirstdfree := (fs.fsCgs g).cgFirstdbn } := ⟨_, rfl⟩
  have freshOk : CgOk fs.toGeometry fs.fsDmap g fresh := by
    rw [hfresh]
    exact ⟨ok.firstbn, ok.firstdbn, ok.dfree, ok.slots, ok.window, ok.nonneg⟩
  obtain ⟨cg, rebuilt⟩ : ∃ cg, cg = if (fs.fsCgs g).cgLastd ≤ (fs.fsCgs g).cgNextd then
    efsBuilddsum fs fresh 1 t.dontstop else fs.fsCgs g := ⟨_, rfl⟩
  rw [← hfresh, ← rebuilt]
  have fresh_fits : CgFits fs.toGeometry fs.fsDmap g (fs.fsCgs g) →
      CgFits fs.toGeometry fs.fsDmap g fresh := fun fits => by
    rw [hfresh]
    exact ⟨fits.runs, fits.listed⟩
  obtain ⟨cgOk, kept, cgFits⟩ := rebuilt_ok ok freshOk fresh_fits rebuilt
  have fits : fs.Fits → (fs.setCg g cg).Fits := fun fits => fits.setCg (cgFits (fits g inside))
  split
  next => exact ⟨⟨cg, rfl, kept⟩, sound.setCg cgOk, fits, fun pick none => by cases none⟩
  next window =>
    split
    next use =>
      refine ⟨⟨cg, rfl, kept⟩, sound.setCg cgOk, fits, fun pick found => ?_⟩
      cases found
      exact ⟨rfl, PickOk.setCg inside (Nat.le_refl _) (by omega) (usable_length use).1
        (usable_length use).2⟩
    next =>
      refine ⟨⟨_, rfl, ?_⟩, sound.setCg ?_, fun fits => fits.setCg ?_, fun pick found => ?_⟩
      · exact kept.imp id fun same => ⟨Nat.le_succ_of_le same.1, same.2⟩
      · exact ⟨cgOk.firstbn, cgOk.firstdbn, cgOk.dfree, cgOk.slots,
          cgOk.window.later (Nat.le_succ _),
          fun small j low => cgOk.nonneg small j (Nat.le_of_succ_le low)⟩
      · have before := cgFits (fits g inside)
        exact ⟨before.runs, fun j low => before.listed j (Nat.le_of_succ_le low)⟩
      · simp only [Option.map_eq_some_iff] at found
        obtain ⟨slot, here, rfl⟩ := found
        have range := firstUsable_some here
        exact ⟨rfl, PickOk.setCg inside range.1.1 (by have := range.1.2; simp only at this ⊢; omega)
          (usable_length range.2).1 (usable_length range.2).2⟩

/-- Going on from one group to the rest of a search. -/
theorem Searched.next {found rest : Efs × Option Pick}
    (first : CgSearched fs desiredlen musthave g found)
    (others : Searched found.1 desiredlen musthave rest) :
    Searched fs desiredlen musthave rest where
  same := first.searched.same.trans others.same
  sound := others.sound
  fits := others.fits ∘ first.fits
  pick := others.pick

theorem fastSearch_ok (i g : Nat) (fs : Efs) (sound : fs.Sound) (some : i ≤ fs.fsNcg) :
    Searched fs desiredlen musthave (fastSearch t desiredlen musthave i g fs) := by
  induction i generalizing g fs with
  | zero => exact ⟨Resummarized.refl fs, sound, id, fun pick none => by cases none⟩
  | succ i ih =>
      rw [fastSearch]
      have inside : (if fs.fsNcg ≤ g then 0 else g) < fs.fsNcg := by split <;> omega
      generalize (if fs.fsNcg ≤ g then 0 else g) = here at inside
      have first : CgSearched fs desiredlen musthave here
          (fastCg t fs here desiredlen musthave) := fastCg_ok sound inside
      split
      next fs' pick h =>
        rw [h] at first
        exact first.searched
      next fs' h =>
        rw [h] at first
        refine Searched.next first (ih (here + 1) fs' first.sound ?_)
        have same : fs'.toGeometry = fs.toGeometry := first.searched.same.geometry
        rw [same]
        omega

theorem slowSearch_ok (i g : Nat) (fs : Efs) (sound : fs.Sound) (inside : g + i ≤ fs.fsNcg) :
    Searched fs desiredlen musthave (slowSearch t desiredlen musthave i g fs) := by
  induction i generalizing g fs with
  | zero => exact ⟨Resummarized.refl fs, sound, id, fun pick none => by cases none⟩
  | succ i ih =>
      rw [slowSearch]
      have first : CgSearched fs desiredlen musthave g
          (slowCg t fs g desiredlen musthave) := slowCg_ok sound (by omega)
      split
      next fs' pick h =>
        rw [h] at first
        exact first.searched
      next fs' h =>
        rw [h] at first
        refine Searched.next first (ih (g + 1) fs' first.sound ?_)
        have same : fs'.toGeometry = fs.toGeometry := first.searched.same.geometry
        rw [same]
        omega

end Search

/-! ## Changing the map -/

/-- Clearing or setting a range of one group's data area leaves the other
    groups' summaries right. -/
theorem CgOk.elsewhere {geo : Geometry} {dmap : Bits.Map} {g other b len : Nat} {cg : Cg} {v : Bool}
    (ok : CgOk geo dmap other cg) (different : other ≠ g)
    (low : geo.dataStart g ≤ b) (high : b + len ≤ geo.dataStart g + geo.dataLen) :
    CgOk geo (Bits.fill v dmap b len) other cg := by
  have apart : b + len ≤ geo.dataStart other ∨ geo.dataStart other + geo.dataLen ≤ b := by
    rcases Nat.lt_or_gt_of_ne different with before | after
    · have := geo.dataEnd_le before
      have : geo.cgimin g ≤ geo.dataStart g := Nat.le_add_right _ _
      omega
    · have := geo.dataEnd_le after
      have : geo.cgimin other ≤ geo.dataStart other := Nat.le_add_right _ _
      omega
  refine { ok with dfree := ?_, window := { ok.window with free := fun j left right i start stop => ?_ } }
  · rw [Bits.count_fill_outside apart]
    exact ok.dfree
  · have low' := ok.window.low j left right
    have high' := ok.window.high j left right
    rw [Bits.fill_outside (by omega)]
    exact ok.window.free j left right i start stop

/-- A change inside group `g` keeps the invariant if it does for that group. -/
theorem Efs.Sound.change {fs : Efs} {g b len : Nat} {v : Bool} {cg : Cg} (sound : fs.Sound)
    (low : fs.dataStart g ≤ b) (high : b + len ≤ fs.dataStart g + fs.dataLen)
    (ok : CgOk fs.toGeometry (Bits.fill v fs.fsDmap b len) g cg) :
    ∀ i < fs.fsNcg,
      CgOk fs.toGeometry (Bits.fill v fs.fsDmap b len) i ((fs.setCg g cg).fsCgs i) := by
  intro i inside
  by_cases here : i = g
  · rw [here, Efs.setCg_same]
    exact ok
  · rw [Efs.setCg_other fs cg here]
    exact (sound i inside).elsewhere here low high

/-- Lopping blocks off the front of one slot keeps the window. -/
theorem Window.take {dmap : Bits.Map} {lo hi nextd lastd slot len : Nat} {dsum : Nat → Cgdmap}
    (window : Window dmap lo hi dsum nextd lastd) (first : nextd ≤ slot) (last : slot < lastd)
    (within : (len : Int) ≤ (dsum slot).dLength) :
    Window (Bits.fill false dmap (dsum slot).dBn len) lo hi
      (fun j => if j = slot then ⟨(dsum slot).dBn + len, (dsum slot).dLength - len⟩ else dsum j)
      nextd lastd where
  low := fun j left right => by
    have := window.low j left right
    grind
  small := fun j left right => by
    have := window.small j left right
    grind
  high := fun j left right => by
    have := window.high j left right
    grind
  order := fun j k left middle right => by
    have := window.order j k left middle right
    grind
  free := fun j left right b start stop => by
    have free := window.free j left right b
    have apart := window.order j slot left
    have apart' := window.order slot j first
    by_cases here : j = slot
    · subst here
      simp only [if_true] at start stop
      rw [Bits.fill_outside (Or.inr start)]
      exact free (by omega) (by push_cast at stop; omega)
    · simp only [here, if_false] at start stop
      have outside : b < (dsum slot).dBn ∨ (dsum slot).dBn + len ≤ b := by omega
      rw [Bits.fill_outside outside]
      exact free start stop

/-- The free count of the changed group itself. -/
theorem CgOk.dfree_fill {geo : Geometry} {dmap : Bits.Map} {g b len : Nat} {cg : Cg} {v : Bool}
    (ok : CgOk geo dmap g cg) (low : geo.dataStart g ≤ b)
    (high : b + len ≤ geo.dataStart g + geo.dataLen) (whole : ∀ i < len, dmap (b + i) = !v) :
    short (if v then cg.cgDfree + len else cg.cgDfree - len) =
      short (Bits.count (Bits.fill v dmap b len) (geo.dataStart g) geo.dataLen) := by
  have change := Bits.count_fill (v := v) (m := dmap) low high
  rw [ok.dfree]
  cases v with
  | true =>
      rw [Bits.count_clear whole] at change
      simp only [if_true] at change ⊢
      rw [short_add]
      congr 1
      omega
  | false =>
      rw [Bits.count_set whole] at change
      simp only [Bool.false_eq_true, if_false] at change ⊢
      rw [short_sub]
      congr 1
      omega

/-- Changing one term of a sum over the groups. -/
theorem sum_range_change {f f' : Nat → Nat} {n g a b : Nat} (inside : g < n)
    (one : f' g + a = f g + b) (others : ∀ i < n, i ≠ g → f' i = f i) :
    ((List.range n).map f').sum + a = ((List.range n).map f).sum + b := by
  induction n with
  | zero => exact absurd inside (Nat.not_lt_zero g)
  | succ n ih =>
      simp only [List.range_succ, List.map_append, List.map_cons, List.map_nil,
        List.sum_append, List.sum_cons, List.sum_nil, Nat.add_zero]
      rcases Nat.lt_succ_iff_lt_or_eq.mp inside with before | rfl
      · have last := others n (Nat.lt_succ_self n) (by omega)
        have rest := ih before fun i left => others i (by omega)
        omega
      · have rest : (List.range g).map f' = (List.range g).map f :=
          List.map_congr_left fun i left => by
            have before := List.mem_range.mp left
            exact others i (by omega) (by omega)
        rw [rest]
        omega

/-- One routine gave `[b, b + len)` of group `g` the value `v`, where every bit
    had the other value, and kept the books. -/
structure Changed (v : Bool) (fs fs' : Efs) (g b len : Nat) : Prop where
  geometry : fs'.toGeometry = fs.toGeometry
  corrupted : fs'.fsCorrupted = fs.fsCorrupted
  readonly : fs'.fsReadonly = fs.fsReadonly
  inside : g < fs.fsNcg
  low : fs.dataStart g ≤ b
  high : b + len ≤ fs.dataStart g + fs.dataLen
  whole : ∀ i < len, fs.fsDmap (b + i) = !v
  dmap : fs'.fsDmap = Bits.fill v fs.fsDmap b len
  tfree : fs'.fsTfree = if v then fs.fsTfree + len else fs.fsTfree - len
  sound : fs'.Sound

/-- The data blocks free by the bit map follow the change. -/
theorem Changed.dataFree {v : Bool} {fs fs' : Efs} {g b len : Nat}
    (changed : Changed v fs fs' g b len) :
    (fs'.dataFree : Int) = if v then (fs.dataFree : Int) + len else (fs.dataFree : Int) - len := by
  have one := Bits.count_fill (v := v) (m := fs.fsDmap) changed.low changed.high
  have others : ∀ i < fs.fsNcg, i ≠ g →
      Bits.count (Bits.fill v fs.fsDmap b len) (fs.dataStart i) fs.dataLen =
        Bits.count fs.fsDmap (fs.dataStart i) fs.dataLen := by
    intro i _ different
    have low := changed.low
    have high := changed.high
    refine Bits.count_fill_outside ?_
    rcases Nat.lt_or_gt_of_ne different with before | after
    · have := fs.dataEnd_le before
      have : fs.cgimin g ≤ fs.dataStart g := Nat.le_add_right _ _
      omega
    · have := fs.dataEnd_le after
      have : fs.cgimin i ≤ fs.dataStart i := Nat.le_add_right _ _
      omega
  have sum := sum_range_change changed.inside one others
  rw [Efs.dataFree, Efs.dataFree, changed.geometry, changed.dmap]
  cases v with
  | true =>
      rw [Bits.count_clear changed.whole] at sum
      simp only [if_true] at sum ⊢
      omega
  | false =>
      rw [Bits.count_set changed.whole] at sum
      simp only [Bool.false_eq_true, if_false] at sum ⊢
      omega

/-- The books are in order after a step: the summaries are sound, and the free
    count of the superblock moved with the bit map. -/
structure Settled (fs fs' : Efs) : Prop where
  geometry : fs'.toGeometry = fs.toGeometry
  readonly : fs'.fsReadonly = fs.fsReadonly
  sound : fs'.Sound
  balance : fs'.fsTfree - fs'.dataFree = fs.fsTfree - fs.dataFree

theorem Settled.trans {fs fs' fs'' : Efs} (left : Settled fs fs') (right : Settled fs' fs'') :
    Settled fs fs'' :=
  ⟨right.geometry.trans left.geometry, right.readonly.trans left.readonly, right.sound, right.balance.trans left.balance⟩

theorem Changed.settled {v : Bool} {fs fs' : Efs} {g b len : Nat}
    (changed : Changed v fs fs' g b len) : Settled fs fs' := by
  refine ⟨changed.geometry, changed.readonly, changed.sound, ?_⟩
  rw [changed.tfree, changed.dataFree]
  split <;> omega

theorem Resummarized.settled {fs fs' : Efs} (same : Resummarized fs fs') (sound : fs'.Sound) :
    Settled fs fs' := by
  obtain ⟨_, _, rfl⟩ := same
  exact ⟨rfl, rfl, sound, rfl⟩

/-! ## The routines keep the books -/

/-- Taking a pick meets the corruption branch only where the length of a run
    has overflowed. -/
theorem takePick_ok {fs : Efs} {pick : Pick} {desiredlen : Nat} {musthave : Bool}
    (sound : fs.Sound) (ok : PickOk fs desiredlen musthave pick) :
    (((fs.fsCgs pick.cg).cgDsum pick.slot).dLength < 0 ∧
        takePick fs pick desiredlen = (fs, .corruption)) ∨
      ∃ bn len, (takePick fs pick desiredlen).2 = .found bn len ∧
        (len : Int) = min (desiredlen : Int) ((fs.fsCgs pick.cg).cgDsum pick.slot).dLength ∧
        Changed false fs (takePick fs pick desiredlen).1 pick.cg bn len := by
  have cgOk := sound pick.cg ok.cg
  have low := cgOk.window.low pick.slot ok.first ok.last
  have small := cgOk.window.small pick.slot ok.first ok.last
  have high := cgOk.window.high pick.slot ok.first ok.last
  have free := cgOk.window.free pick.slot ok.first ok.last
  obtain ⟨cgd, hcgd⟩ : ∃ cgd, cgd = (fs.fsCgs pick.cg).cgDsum pick.slot := ⟨_, rfl⟩
  obtain ⟨length, hlength⟩ : ∃ length : Int,
    length = if cgd.dLength < desiredlen then cgd.dLength else desiredlen := ⟨_, rfl⟩
  have least : length = min (desiredlen : Int) cgd.dLength := by
    split at hlength <;> omega
  rcases lt_or_ge cgd.dLength 0 with negative | nonneg
  · refine .inl ⟨hcgd ▸ negative, ?_⟩
    have overflowed : length < 0 := by omega
    rw [takePick]
    dsimp only
    rw [← hcgd, ← hlength, if_pos (by omega)]
  refine .inr ?_
  obtain ⟨len, rfl⟩ : ∃ len : Nat, length = len := ⟨length.toNat, by omega⟩
  have within : (len : Int) ≤ cgd.dLength := by omega
  have whole : ∀ i < len, fs.fsDmap (cgd.dBn + i) = true := fun i inside => by
    rw [hcgd] at within ⊢
    exact free _ (Nat.le_add_right _ _) (by push_cast; omega)
  have found : bftstset fs.fsDmap cgd.dBn len = len := by
    rw [bftstset_eq]
    exact Bits.run_full.mpr whole
  have bound : cgd.dBn + len ≤ fs.dataStart pick.cg + fs.dataLen := by
    rw [← hcgd] at high
    omega
  rw [← hcgd] at low small
  refine ⟨cgd.dBn, len, ?_, by rw [← hcgd]; exact least, ?_⟩
  · rw [takePick]
    dsimp only
    rw [← hcgd, ← hlength, Int.toNat_natCast, if_neg (by rw [found]; simp)]
  · rw [takePick]
    dsimp only
    rw [← hcgd, ← hlength, Int.toNat_natCast, if_neg (by rw [found]; simp)]
    refine ⟨rfl, rfl, rfl, ok.cg, low, bound, whole, bfclr_eq _ _ _, rfl, ?_⟩
    have stored : short (cgd.dLength - len) = cgd.dLength - len := short_fits (by omega) (by omega)
    have taken := cgOk.window.take ok.first ok.last (hcgd ▸ within)
    have dfree := cgOk.dfree_fill (v := false) low bound whole
    rw [← hcgd] at taken
    simp only [bfclr_eq, stored]
    refine sound.change low bound
      ⟨cgOk.firstbn, cgOk.firstdbn, dfree, cgOk.slots, taken.later ?_, fun fits j first last => ?_⟩
    · split
      next => exact Nat.le_succ _
      next => exact Nat.le_refl _
    · have later : (fs.fsCgs pick.cg).cgNextd ≤ j := by
        dsimp only at first
        split at first <;> omega
      have old := cgOk.nonneg fits j later last
      dsimp only
      split
      · dsimp only
        omega
      · exact old

/-- How `efs_alloc` can end.  Only a free run that does not fit its slot looks
    like corruption to it. -/
inductive AllocOk (fs : Efs) (desiredlen : Nat) (musthave : Bool) : Efs × Grant → Prop where
  | noMoreRoom {fs' : Efs} (same : Resummarized fs fs') (sound : fs'.Sound) :
      AllocOk fs desiredlen musthave (fs', .noMoreRoom)
  | corruption {fs' : Efs} (long : ¬fs.Fits) (same : Resummarized fs fs') (sound : fs'.Sound) :
      AllocOk fs desiredlen musthave (fs', .corruption)
  | found {fs' : Efs} {g bn len : Nat} (changed : Changed false fs fs' g bn len)
      (le : len ≤ desiredlen) (positive : 0 < desiredlen → 0 < len)
      (enough : musthave = true → len = desiredlen) :
      AllocOk fs desiredlen musthave (fs', .found bn len)

section Alloc

variable {t : Tune} {fs : Efs} {desiredlen : Nat} {musthave : Bool}

theorem AllocOk.of_resummarized {before : Efs} {out : Efs × Grant} (same : Resummarized before fs)
    (fits : before.Fits → fs.Fits) (ok : AllocOk fs desiredlen musthave out) : AllocOk before desiredlen musthave out := by
  cases ok with
  | noMoreRoom later sound => exact .noMoreRoom (same.trans later) sound
  | corruption long later sound => exact .corruption (long ∘ fits) (same.trans later) sound
  | found changed le positive enough =>
      obtain ⟨_, _, rfl⟩ := same
      exact .found ⟨changed.geometry, changed.corrupted, changed.readonly, changed.inside,
        changed.low, changed.high, changed.whole, changed.dmap, changed.tfree, changed.sound⟩ le positive enough

/-- A search that found something ends in a grant. -/
theorem Searched.take {found : Efs} {pick : Pick}
    (searched : Searched fs desiredlen musthave (found, some pick)) :
    AllocOk fs desiredlen musthave (takePick found pick desiredlen) := by
  have ok := searched.pick pick rfl
  refine AllocOk.of_resummarized searched.same searched.fits ?_
  have listed : found.Fits → 0 ≤ ((found.fsCgs pick.cg).cgDsum pick.slot).dLength := fun fits =>
    (fits pick.cg ok.cg).listed pick.slot ok.first ok.last
  obtain ⟨negative, out⟩ | ⟨bn, len, grant, least, changed⟩ := takePick_ok searched.sound ok
  · rw [out]
    exact .corruption (fun fits => absurd negative (not_lt.mpr (listed fits))) (Resummarized.refl found)
      searched.sound
  have unused := ok.unused
  have enough := ok.enough
  rw [show takePick found pick desiredlen = ((takePick found pick desiredlen).1, .found bn len) from
    Prod.ext rfl grant]
  exact .found changed (by omega) (fun _ => by omega) (fun must => by have := enough must; omega)

theorem bruteForce_ok (sound : fs.Sound) :
    AllocOk fs desiredlen musthave (bruteForce t fs desiredlen musthave) := by
  have searched : Searched fs desiredlen musthave
      (slowSearch t desiredlen musthave fs.fsNcg 0 fs) :=
    slowSearch_ok fs.fsNcg 0 fs sound (by omega)
  rw [bruteForce]
  split
  next fs' pick h =>
    rw [h] at searched
    exact searched.take
  next fs' h =>
    rw [h] at searched
    exact .noMoreRoom searched.same searched.sound

theorem efsAlloc_ok (inum : Nat) (sound : fs.Sound) :
    AllocOk fs desiredlen musthave (efsAlloc t fs inum desiredlen musthave) := by
  rw [efsAlloc]
  split
  next => exact .noMoreRoom (Resummarized.refl fs) sound
  split
  next => exact bruteForce_ok sound
  have searched : Searched fs desiredlen musthave
      (fastSearch t desiredlen musthave fs.fsNcg (fs.itocg inum) fs) :=
    fastSearch_ok fs.fsNcg (fs.itocg inum) fs sound (Nat.le_refl _)
  split
  next fs' pick h =>
    rw [h] at searched
    exact searched.take
  next fs' h =>
    rw [h] at searched
    have same : Resummarized fs { fs' with fsDiskfull := true } :=
      searched.same.trans ⟨_, _, rfl⟩
    have still : ({ fs' with fsDiskfull := true } : Efs).Sound := searched.sound
    split
    next => exact .noMoreRoom same still
    next => exact AllocOk.of_resummarized same searched.fits (bruteForce_ok still)

theorem AllocOk.settled {out : Efs × Grant} (ok : AllocOk fs desiredlen musthave out) :
    Settled fs out.1 := by
  cases ok with
  | noMoreRoom same sound => exact same.settled sound
  | corruption _ same sound => exact same.settled sound
  | found changed _ _ _ => exact changed.settled

end Alloc

/-! ### Extents -/

/-- An extent inside one group's data area, of a length an extent can have. -/
structure InData (geo : Geometry) (ex : Extent) : Prop where
  inside : geo.bbtocg ex.exBn < geo.fsNcg
  low : geo.dataStart (geo.bbtocg ex.exBn) ≤ ex.exBn
  high : ex.exBn + ex.exLength ≤ geo.dataStart (geo.bbtocg ex.exBn) + geo.dataLen
  positive : 0 < ex.exLength
  length : ex.exLength ≤ efsMaxextentlen

/-- An extent of used blocks inside one group's data area. -/
structure ValidExtent (fs : Efs) (ex : Extent) : Prop extends InData fs.toGeometry ex where
  used : ∀ i < ex.exLength, fs.fsDmap (ex.exBn + i) = false

/-- The tests of `efs_badextent` are exact. -/
theorem badExtent_eq_false {fs : Efs} {ex : Extent} :
    badExtent fs ex = false ↔ ValidExtent fs ex := by
  have size := fs.size_eq
  have some := fs.inodes_some
  have fit := fs.inodes_fit
  have room : 0 < fs.fsCgfsize := by omega
  obtain ⟨q, hq⟩ : ∃ q, q = fs.bbtocg ex.exBn := ⟨_, rfl⟩
  have start : fs.dataStart q = fs.fsFirstcg + q * fs.fsCgfsize + fs.fsCgisize := rfl
  have stop := fs.dataEnd q
  have cgimin : fs.cgimin q = fs.fsFirstcg + q * fs.fsCgfsize := rfl
  have used : bftstclr fs.fsDmap ex.exBn ex.exLength = ex.exLength ↔
      ∀ i < ex.exLength, fs.fsDmap (ex.exBn + i) = false := by
    rw [bftstclr_eq]
    exact Bits.run_full
  simp only [badExtent, Bool.or_eq_false_iff, decide_eq_false_iff_not, beq_eq_false_iff_ne,
    bne_eq_false_iff_eq, used, and_assoc]
  constructor
  · rintro ⟨above, positive, below, length, inodes, same, used⟩
    have split := Nat.div_add_mod (ex.exBn - fs.fsFirstcg) fs.fsCgfsize
    have last := Nat.lt_mul_div_succ (ex.exBn - fs.fsFirstcg + (ex.exLength - 1)) room
    rw [← same] at last
    rw [show (ex.exBn - fs.fsFirstcg) / fs.fsCgfsize = q from hq.symm] at split last
    rw [Nat.mul_succ, Nat.mul_comm] at last
    rw [Nat.mul_comm] at split
    refine ⟨⟨?_, ?_, ?_, by omega, by omega⟩, used⟩
    · rw [← hq]
      by_contra beyond
      have : fs.fsNcg * fs.fsCgfsize ≤ q * fs.fsCgfsize :=
        Nat.mul_le_mul_right _ (Nat.le_of_not_lt beyond)
      omega
    · rw [← hq]
      omega
    · rw [← hq]
      omega
  · rintro ⟨⟨inside, low, high, positive, length⟩, used⟩
    rw [← hq] at inside low high
    have within : fs.dataStart q + fs.dataLen ≤ fs.fsSize := fs.dataEnd_le_size inside
    obtain ⟨r, hr⟩ : ∃ r, ex.exBn = fs.cgimin q + r := ⟨ex.exBn - fs.cgimin q, by omega⟩
    have offset : ex.exBn - fs.fsFirstcg = r + fs.fsCgfsize * q := by
      rw [Nat.mul_comm]
      omega
    have rest : ex.exBn - fs.fsFirstcg + (ex.exLength - 1) =
        r + (ex.exLength - 1) + fs.fsCgfsize * q := by omega
    refine ⟨by omega, by omega, by omega, by omega, ?_, ?_, used⟩
    · rw [offset, Nat.add_mul_mod_self_left, Nat.mod_eq_of_lt (by omega)]
      omega
    · rw [rest, offset, Nat.add_mul_div_left _ _ room, Nat.add_mul_div_left _ _ room,
        Nat.div_eq_of_lt (by omega), Nat.div_eq_of_lt (by omega)]

/-- What survives `efs_cgdcheck` lies outside the region just allocated. -/
theorem efsCgdcheck_ok {geo : Geometry} {dmap : Bits.Map} {g bn len : Nat} {cg : Cg}
    (firstbn : cg.cgFirstbn = geo.cgimin g) (firstdbn : cg.cgFirstdbn = geo.dataStart g)
    (dfree : cg.cgDfree =
      short (Bits.count (Bits.fill false dmap bn len) (geo.dataStart g) geo.dataLen))
    (slots : cg.cgLastd ≤ cgDsums)
    (window : Window dmap (geo.dataStart g) (geo.dataStart g + geo.dataLen) cg.cgDsum
      cg.cgNextd cg.cgLastd)
    (nonneg : geo.Short → ∀ j, cg.cgNextd ≤ j → j < cg.cgLastd → 0 ≤ (cg.cgDsum j).dLength) :
    CgOk geo (Bits.fill false dmap bn len) g (efsCgdcheck cg bn len) := by
  rw [efsCgdcheck]
  split
  next => exact CgOk.exhausted firstbn firstdbn dfree slots slots
  next clear =>
    refine ⟨firstbn, firstdbn, dfree, slots,
      { window with free := fun j left right b start stop => ?_ }, nonneg⟩
    simp only [List.any_eq_true, not_exists, not_and, List.mem_range'_1, Bool.or_eq_true,
      Bool.and_eq_true, decide_eq_true_eq] at clear
    have apart := clear j (by omega)
    rw [Bits.fill_outside (by omega)]
    exact window.free j left right b start stop

/-- The blocks right behind an extent, up to `len` of them in all, are free ones
    of its group, and the extent stays a legal one with them. -/
def CanGrow (fs : Efs) (ex : Extent) (len : Nat) : Prop :=
  ex.exLength + len ≤ efsMaxextentlen ∧
    ∀ k < len, fs.InArea (fs.bbtocg ex.exBn) (ex.exBn + ex.exLength + k) ∧
      fs.fsDmap (ex.exBn + ex.exLength + k) = true

instance (fs : Efs) (ex : Extent) (len : Nat) : Decidable (CanGrow fs ex len) := by
  unfold CanGrow
  infer_instance

/-- How `efs_grow` can end. -/
inductive GrowOk (fs : Efs) (ex : Extent) (len : Nat) : Efs × Extent × Nat → Prop where
  | bad (invalid : ¬ValidExtent fs ex) :
      GrowOk fs ex len ({ fs with fsCorrupted := true }, ex, 0)
  | none (valid : ValidExtent fs ex) (stuck : 0 < len → ¬CanGrow fs ex 1) :
      GrowOk fs ex len (fs, ex, 0)
  | grown {fs' : Efs} {n : Nat} (valid : ValidExtent fs ex)
      (changed : Changed false fs fs' (fs.bbtocg ex.exBn) (ex.exBn + ex.exLength) n)
      (positive : 0 < n) (le : n ≤ len) (fits : ex.exLength + n ≤ efsMaxextentlen) :
      GrowOk fs ex len (fs', { ex with exLength := ex.exLength + n }, n)

theorem efsGrow_ok {fs : Efs} (ex : Extent) (len : Nat) (sound : fs.Sound) :
    GrowOk fs ex len (efsGrow fs ex len) := by
  by_cases bad : badExtent fs ex = true
  · rw [efsGrow_bad bad]
    refine .bad fun valid => ?_
    rw [badExtent_eq_false.mpr valid] at bad
    exact Bool.false_ne_true bad
  have valid := badExtent_eq_false.mp (Bool.eq_false_of_not_eq_true bad)
  rw [efsGrow, efsBadextent, if_neg bad]
  dsimp only
  have ok := sound _ valid.inside
  have low := valid.low
  have high := valid.high
  have area := fs.dataEnd (fs.bbtocg ex.exBn)
  have short := valid.length
  obtain ⟨g, hg⟩ : ∃ g, g = fs.bbtocg ex.exBn := ⟨_, rfl⟩
  rw [← hg] at ok low high area ⊢
  obtain ⟨room, hroom⟩ : ∃ room,
    room = if (fs.fsCgs g).cgFirstbn + fs.fsCgfsize ≤ ex.exBn + ex.exLength + len then
      (fs.fsCgs g).cgFirstbn + fs.fsCgfsize - (ex.exBn + ex.exLength) else len := ⟨_, rfl⟩
  rw [← hroom]
  rw [ok.firstbn] at hroom
  obtain ⟨want, hwant⟩ : ∃ want, want = if efsMaxextentlen ≤ ex.exLength + room then
    efsMaxextentlen - ex.exLength else room := ⟨_, rfl⟩
  rw [← hwant]
  have wanted : 0 < len → CanGrow fs ex 1 → 0 < want ∧ fs.fsDmap (ex.exBn + ex.exLength) = true := by
    intro some can
    have next := can.2 0 Nat.one_pos
    have inside := next.1.2.2
    have fits := can.1
    rw [← hg, area] at inside
    refine ⟨?_, next.2⟩
    split at hroom <;> split at hwant <;> omega
  split
  next none => exact .none valid fun some can => by have := (wanted some can).1; omega
  obtain ⟨n, hn⟩ : ∃ n, n = bftstset fs.fsDmap (ex.exBn + ex.exLength) want := ⟨_, rfl⟩
  rw [← hn]
  rw [bftstset_eq] at hn
  split
  next none =>
    refine .none valid fun some can => ?_
    have free := Bits.run_pos (wanted some can).1 |>.mpr (wanted some can).2
    rw [← hn, none] at free
    exact Nat.lt_irrefl 0 free
  next some =>
    have le : n ≤ want := hn ▸ Bits.run_le
    have whole : ∀ i < n, fs.fsDmap (ex.exBn + ex.exLength + i) = true := by
      rw [hn]
      exact fun i => Bits.run_value
    have wantLe : want ≤ room ∧ ex.exLength + want ≤ efsMaxextentlen := by
      split at hwant <;> omega
    have roomLe : room ≤ len ∧ ex.exBn + ex.exLength + room ≤ fs.cgimin g + fs.fsCgfsize := by
      split at hroom <;> omega
    rw [bits8_fits (Nat.lt_of_le_of_lt (Nat.le_trans (Nat.add_le_add_left le _) wantLe.2)
      (by decide))]
    refine .grown valid ?_ (Nat.pos_of_ne_zero some) (by omega) (by omega)
    have below : fs.dataStart g ≤ ex.exBn + ex.exLength := by omega
    have bound : ex.exBn + ex.exLength + n ≤ fs.dataStart g + fs.dataLen := by omega
    rw [← hg]
    refine ⟨rfl, rfl, rfl, hg ▸ valid.inside, below, bound, whole, bfclr_eq _ _ _, rfl, ?_⟩
    have cgOk := ok.dfree_fill (v := false) below bound whole
    simp only [bfclr_eq]
    refine sound.change below bound ?_
    split
    next => exact efsCgdcheck_ok ok.firstbn ok.firstdbn cgOk ok.slots ok.window ok.nonneg
    next exhausted =>
      exact CgOk.exhausted ok.firstbn ok.firstdbn cgOk ok.slots (Nat.le_of_not_lt exhausted)

/-- How `efs_free` can end. -/
inductive FreeOk (fs : Efs) (ex : Extent) : Efs → Prop where
  | corrupted (already : fs.fsCorrupted = true) : FreeOk fs ex fs
  | bad (invalid : ¬ValidExtent fs ex) : FreeOk fs ex { fs with fsCorrupted := true }
  | freed {fs' : Efs} (valid : ValidExtent fs ex)
      (changed : Changed true fs fs' (fs.bbtocg ex.exBn) ex.exBn ex.exLength) : FreeOk fs ex fs'

theorem efsFree_ok {fs : Efs} (ex : Extent) (sound : fs.Sound) :
    FreeOk fs ex (efsFree fs ex) := by
  rw [efsFree, efsBadextent]
  split
  next already => exact .corrupted already
  by_cases bad : badExtent fs ex = true
  · rw [if_pos bad]
    refine .bad fun valid => ?_
    rw [badExtent_eq_false.mpr valid] at bad
    exact Bool.false_ne_true bad
  have valid := badExtent_eq_false.mp (Bool.eq_false_of_not_eq_true bad)
  have ok := sound _ valid.inside
  rw [if_neg bad]
  refine .freed valid ⟨rfl, rfl, rfl, valid.inside, valid.low, valid.high, valid.used, bfset_eq _ _ _,
    rfl, ?_⟩
  have cgOk := ok.dfree_fill (v := true) valid.low valid.high valid.used
  dsimp only
  simp only [bfset_eq]
  exact sound.change valid.low valid.high
    (CgOk.exhausted ok.firstbn ok.firstdbn cgOk ok.slots ok.slots)

theorem Efs.Sound.corrupt {fs : Efs} (sound : fs.Sound) :
    Settled fs { fs with fsCorrupted := true } :=
  ⟨rfl, rfl, sound, rfl⟩

theorem GrowOk.settled {fs : Efs} {ex : Extent} {len : Nat} {out : Efs × Extent × Nat}
    (sound : fs.Sound) (ok : GrowOk fs ex len out) : Settled fs out.1 := by
  cases ok with
  | bad _ => exact sound.corrupt
  | none _ _ => exact ⟨rfl, rfl, sound, rfl⟩
  | grown _ changed _ _ _ => exact changed.settled

theorem FreeOk.settled {fs fs' : Efs} {ex : Extent} (sound : fs.Sound) (ok : FreeOk fs ex fs') :
    Settled fs fs' := by
  cases ok with
  | corrupted _ => exact ⟨rfl, rfl, sound, rfl⟩
  | bad _ => exact sound.corrupt
  | freed _ changed => exact changed.settled

/-! ## Runs of a mounted volume -/

theorem efsMountany_ok (t : Tune) (sb : Superblock) : Settled sb.incore (efsMountany t sb) := by
  have tfree : (efsMountany t sb).fsTfree = sb.incore.fsTfree := rfl
  have dataFree : (efsMountany t sb).dataFree = sb.incore.dataFree := by
    simp only [Efs.dataFree, efsMountany]
  refine ⟨rfl, rfl, fun g _ => ?_, by rw [tfree, dataFree]⟩
  have firstbn : (sb.incore.fsCgs g).cgFirstbn = sb.incore.cgimin g := rfl
  have firstdbn : (sb.incore.fsCgs g).cgFirstdbn = sb.incore.dataStart g := rfl
  have sane : sb.incore.fsCorrupted = false := rfl
  have writable : sb.incore.fsReadonly = false := rfl
  have ok : CgOk sb.incore.toGeometry sb.incore.fsDmap g
      (efsBuilddsum sb.incore (sb.incore.fsCgs g) t.efsBbsperlb true) :=
    efsBuilddsum_ok sane writable firstbn firstdbn (Or.inl rfl)
  exact ok

/-- A call into the allocator. -/
inductive Call where
  | alloc (inum desiredlen : Nat) (musthave : Bool)
  | grow (ex : Extent) (len : Nat)
  | free (ex : Extent)
  deriving Repr, DecidableEq

def Call.step (t : Tune) (fs : Efs) : Call → Efs
  | .alloc inum desiredlen musthave => (efsAlloc t fs inum desiredlen musthave).1
  | .grow ex len => (efsGrow fs ex len).1
  | .free ex => efsFree fs ex

theorem Call.step_settled {t : Tune} {fs : Efs} (call : Call) (sound : fs.Sound) :
    Settled fs (call.step t fs) := by
  cases call with
  | alloc inum desiredlen musthave => exact (efsAlloc_ok inum sound).settled
  | grow ex len => exact (efsGrow_ok ex len sound).settled sound
  | free ex => exact (efsFree_ok ex sound).settled sound

/-- The books are in order after a mount and any calls into the allocator. -/
theorem run_settled (t : Tune) (sb : Superblock) (calls : List Call) :
    Settled sb.incore (Run.exec (Call.step t) (efsMountany t sb) calls) :=
  have keep : ∀ fs (call : Call), Settled sb.incore fs → Settled sb.incore (call.step t fs) :=
    fun _ call settled => settled.trans (call.step_settled settled.sound)
  Run.invariant_always keep (efsMountany_ok t sb) calls

/-- Two slots of a window share no block. -/
theorem Window.disjoint {dmap : Bits.Map} {lo hi nextd lastd : Nat} {dsum : Nat → Cgdmap}
    (window : Window dmap lo hi dsum nextd lastd) {j k : Nat} (first : nextd ≤ j)
    (last : j < lastd) (first' : nextd ≤ k) (last' : k < lastd) (different : j ≠ k) (b : Nat) :
    ¬(((dsum j).dBn ≤ b ∧ (b : Int) < (dsum j).dBn + (dsum j).dLength) ∧
      (dsum k).dBn ≤ b ∧ (b : Int) < (dsum k).dBn + (dsum k).dLength) := by
  rintro ⟨⟨start, stop⟩, start', stop'⟩
  rcases Nat.lt_or_gt_of_ne different with before | after
  · have := window.order j k first before last'
    omega
  · have := window.order k j first' after last
    omega

/-- Free-space accounting is exact after a mount and any calls: `fs_tfree` has
    moved with the bit map, every group's `cg_dfree` counts its set bits, what
    is left of a summary lists disjoint free runs inside the group's data area,
    and no allocation that follows meets the corruption branch. -/
theorem accounting_exact (t : Tune) (sb : Superblock) (calls : List Call) (small : sb.Short) :
    let fs := Run.exec (Call.step t) (efsMountany t sb) calls
    fs.fsTfree - sb.fsTfree = fs.dataFree - sb.incore.dataFree ∧
    (∀ g < sb.fsNcg,
      (fs.fsCgs g).cgDfree = Bits.count fs.fsDmap (sb.dataStart g) sb.dataLen ∧
      (∀ j, (fs.fsCgs g).cgNextd ≤ j → j < (fs.fsCgs g).cgLastd →
        let cgd := (fs.fsCgs g).cgDsum j
        0 ≤ cgd.dLength ∧ sb.dataStart g ≤ cgd.dBn ∧
        (cgd.dBn : Int) + cgd.dLength ≤ (sb.dataStart g + sb.dataLen : Nat) ∧
        ∀ b, cgd.dBn ≤ b → (b : Int) < cgd.dBn + cgd.dLength → fs.fsDmap b = true) ∧
      (∀ j k, (fs.fsCgs g).cgNextd ≤ j → j < (fs.fsCgs g).cgLastd →
        (fs.fsCgs g).cgNextd ≤ k → k < (fs.fsCgs g).cgLastd → j ≠ k → ∀ b,
        let cgd := (fs.fsCgs g).cgDsum j
        let cgd' := (fs.fsCgs g).cgDsum k
        ¬((cgd.dBn ≤ b ∧ (b : Int) < cgd.dBn + cgd.dLength) ∧
          cgd'.dBn ≤ b ∧ (b : Int) < cgd'.dBn + cgd'.dLength))) ∧
    ∀ inum desiredlen musthave, (efsAlloc t fs inum desiredlen musthave).2 ≠ .corruption := by
  intro fs
  obtain ⟨geometry, _, sound, balance⟩ : Settled sb.incore fs := run_settled t sb calls
  refine ⟨?_, fun g inside => ?_, fun inum desiredlen musthave corruption => ?_⟩
  · have start : sb.incore.fsTfree = sb.fsTfree := rfl
    rw [start] at balance
    omega
  · have same : fs.toGeometry = sb.toGeometry := geometry
    have ok : CgOk fs.toGeometry fs.fsDmap g (fs.fsCgs g) := sound g (by rw [geometry]; exact inside)
    rw [same] at ok
    refine ⟨ok.exact small, fun j first last => ?_, fun j k first last first' last' different b =>
      ok.window.disjoint first last first' last' different b⟩
    exact ⟨ok.nonneg small j first last, ok.window.low j first last,
      ok.window.high j first last, ok.window.free j first last⟩
  · have ends : AllocOk fs desiredlen musthave (efsAlloc t fs inum desiredlen musthave) :=
      efsAlloc_ok inum sound
    have same : fs.toGeometry = sb.toGeometry := geometry
    have fits : fs.Fits := sound.fits (by rw [same]; exact small)
    generalize efsAlloc t _ inum desiredlen musthave = out at ends corruption
    cases ends with
    | noMoreRoom _ _ => cases corruption
    | corruption long _ _ => exact long fits
    | found _ _ _ _ => cases corruption

/-- One group with free runs of 5 and 10 blocks. -/
def fiveAndTen : Superblock where
  fsSize := 24
  fsFirstcg := 4
  fsCgfsize := 20
  fsCgisize := 1
  fsNcg := 1
  fsBmsize := 3
  size_eq := rfl
  bitmap_covers := by decide
  bitmap_limit := by decide
  bitmap_before := by decide
  inodes_some := by decide
  inodes_fit := by decide
  fsTfree := 15
  fsTinode := 1
  dmap := fun b => (5 ≤ b && b < 10) || (11 ≤ b && b < 21)

def production : Tune := ⟨4, true, by decide⟩

theorem accounting_exact_fiveAndTen :
    let fs := Run.exec (Call.step production) (efsMountany production fiveAndTen)
      [.alloc 2 10 false, .grow ⟨0, 11, 4, 0⟩ 6, .free ⟨0, 11, 10, 0⟩]
    fs.fsTfree - 15 = fs.dataFree - fiveAndTen.incore.dataFree ∧
      (fs.fsCgs 0).cgDfree = Bits.count fs.fsDmap 5 19 ∧
      (efsAlloc production fs 2 3 false).2 ≠ .corruption := by
  have exact := accounting_exact production fiveAndTen
    [.alloc 2 10 false, .grow ⟨0, 11, 4, 0⟩ 6, .free ⟨0, 11, 10, 0⟩] (by decide)
  exact ⟨exact.1, (exact.2.1 0 (by decide)).1, exact.2.2 2 3 false⟩

end Irix.ExtentFs
