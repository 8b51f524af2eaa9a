import Irix.Lib.Bits
import Irix.Lib.Run
import Irix.Bio.Memory

/-! # The counts of the buffers' pages

Whatever buffers are allocated and freed, and in whatever order the processes that
sleep go on, the count of a page is the number of its units that are in use, and a page
that is not being allocated is valid while there are any.  This is so as long as the
lengths fit `b_length` and the addresses `b_memaddr`.
-/

namespace Irix.Bio

open Lib Function

/-! ## What holds of the units -/

/-- The units from `low` up to `high`. -/
def Units (low high u : Nat) : Prop := low ≤ u ∧ u < high

/-- The units of the buffer's region. -/
def Mem.Region : Mem → Nat → Prop
  | .none => fun _ => False
  | .taking addr bLength _ _ => Units (addr - 1) (addr - 1 + bLength)
  | .has bMemaddr bLength => Units (bMemaddr - 1).toNat ((bMemaddr - 1).toNat + bLength)

/-- Those of them that are counted: while an allocation sleeps, those up to the page it
    has reached. -/
def Mem.Counted : Mem → Nat → Prop
  | .none => fun _ => False
  | .taking addr bLength loop _ => fun u => Units (addr - 1) (addr - 1 + bLength) u ∧ u / 8 ≤ loop.pg
  | .has bMemaddr bLength => Units (bMemaddr - 1).toNat ((bMemaddr - 1).toNat + bLength)

/-- The page that is being allocated for the buffer. -/
def Mem.Allocates : Mem → Nat → Prop
  | .taking _ _ loop .vmemall => fun pg => loop.pg = pg
  | _ => fun _ => False

/-- The loop goes on with unit `u`, of those up to `stop`, at page `pg`. -/
structure Goes (stop u i pg len : Nat) : Prop where
  len : len = bbtob (stop - u)
  rest : u < stop ∧ pg = u / 8 ∧ i = (stop + 7) / 8 - u / 8 ∨ u = stop ∧ i = 0

/-- A region, and a loop that has not gone beyond it. -/
def Mem.Regular : Mem → Prop
  | .none => True
  | .taking addr bLength loop _ => 0 < addr ∧ 0 < bLength ∧ ∃ u, loop.byteOffset = bbtob u ∧ addr - 1 ≤ u ∧
      u = min (8 * (loop.pg + 1)) (addr - 1 + bLength) ∧ Goes (addr - 1 + bLength) u loop.i (loop.pg + 1) loop.len
  | .has bMemaddr bLength => 0 < bMemaddr ∧ 0 < bLength

/-- The regions are apart and none of their units are free.  The addresses of all units fit
    `b_memaddr`. -/
structure Regions (bioMemmap : List Rmap.Mapent) (region : Nat → Nat → Prop) : Prop where
  map : ∃ segs n, bioMemmap = segs ++ List.replicate (n + 1) Rmap.Mapent.zero ∧ 0 < segs.length + n ∧
    Rmap.Pieces segs ∧ (∀ b u, region b u → ¬ Rmap.Covers segs (u + 1)) ∧
      ∀ x, Rmap.Covers segs x → x < 32768
  small : ∀ b u, region b u → u + 1 < 32768
  apart : ∀ {b b'}, b ≠ b' → ∀ u, region b u → ¬ region b' u

/-- Every page's count is that of its units in use. -/
def Counts (bioBbcnt : Nat → Bbcnt) (counted : Nat → Nat → Prop) : Prop :=
  ∃ map : Bits.Map, (∀ u, map u = true ↔ ∃ b, counted b u) ∧
    ∀ pg, (bioBbcnt pg).count = Bits.count map (8 * pg) 8

/-- A page is being allocated by one process, for a unit in use, or it is valid if any
    unit is. -/
structure Pages (bioBbcnt : Nat → Bbcnt) (pgV : Nat → Bool) (counted allocates : Nat → Nat → Prop) : Prop where
  held : ∀ pg, (bioBbcnt pg).wait = true ↔ ∃ b, allocates b pg
  alone : ∀ {b b' pg}, allocates b pg → allocates b' pg → b = b'
  used : ∀ {b pg}, allocates b pg → ∃ u, u / 8 = pg ∧ counted b u
  invalid : ∀ pg, (bioBbcnt pg).wait = true → pgV pg = false
  valid : ∀ pg, (bioBbcnt pg).wait = false → (pgV pg = true ↔ 0 < (bioBbcnt pg).count)
  wanted : ∀ pg, (bioBbcnt pg).wanted = true → (bioBbcnt pg).wait = true

/-! ## Counting the units of a page -/

section Page

variable {refs : Nat → Bbcnt} {counted : Nat → Nat → Prop} {before after : Nat → Prop} {ref : Bbcnt}
  {bp pg u k : Nat}

theorem exists_update {f : Nat → Nat → Prop} {g : Nat → Prop} {v : Nat} :
    (∃ b, update f bp g b v) ↔ g v ∨ ∃ b, b ≠ bp ∧ f b v := by
  constructor
  · rintro ⟨b, here⟩
    by_cases same : b = bp
    · subst same
      rw [update_self] at here
      exact Or.inl here
    · rw [update_of_ne same] at here
      exact Or.inr ⟨b, same, here⟩
  · rintro (here | ⟨b, other, here⟩)
    · exact ⟨bp, by rwa [update_self]⟩
    · exact ⟨b, by rwa [update_of_ne other]⟩

/-- Units of one page come into use. -/
theorem Counts.more (counts : Counts refs (update counted bp before))
    (units : ∀ v, after v ↔ before v ∨ Units u (u + k) v)
    (fresh : ∀ v, Units u (u + k) v → ¬ before v ∧ ∀ b, b ≠ bp → ¬ counted b v)
    (low : 8 * pg ≤ u) (high : u + k ≤ 8 * pg + 8) (count : ref.count = (refs pg).count + k) :
    Counts (update refs pg ref) (update counted bp after) := by
  obtain ⟨map, owned, same⟩ := counts
  refine ⟨Bits.fill true map u k, fun v => ?_, fun p => ?_⟩
  · have old := owned v
    rw [exists_update] at old ⊢
    rw [units]
    by_cases inside : u ≤ v ∧ v < u + k
    · rw [Bits.fill_inside inside.1 inside.2]
      exact iff_of_true rfl (Or.inl (Or.inr inside))
    · rw [Bits.fill_outside (by omega), old]
      have out : ¬ Units u (u + k) v := inside
      grind -ring -linarith
  · by_cases here : p = pg
    · subst here
      have filled := @Bits.count_fill map true (8 * p) 8 u k low high
      have clear : Bits.count map u k = 0 := by
        refine Bits.count_clear fun i less => ?_
        have free := fresh (u + i) ⟨by omega, by omega⟩
        by_contra used
        rcases exists_update.mp ((owned (u + i)).mp (by simpa using used)) with own | ⟨b, other, theirs⟩
        · exact free.1 own
        · exact free.2 b other theirs
      simp only [if_true, clear] at filled
      rw [update_self, count, same]
      omega
    · rw [update_of_ne here, same, Bits.count_fill_outside (by omega)]

/-- Units of one page go out of use. -/
theorem Counts.less (counts : Counts refs (update counted bp before))
    (units : ∀ v, before v ↔ after v ∨ Units u (u + k) v)
    (gone : ∀ v, Units u (u + k) v → ¬ after v ∧ ∀ b, b ≠ bp → ¬ counted b v)
    (low : 8 * pg ≤ u) (high : u + k ≤ 8 * pg + 8) (count : ref.count = (refs pg).count - k) :
    Counts (update refs pg ref) (update counted bp after) := by
  obtain ⟨map, owned, same⟩ := counts
  refine ⟨Bits.fill false map u k, fun v => ?_, fun p => ?_⟩
  · have old := owned v
    rw [exists_update] at old ⊢
    rw [units] at old
    by_cases inside : u ≤ v ∧ v < u + k
    · rw [Bits.fill_inside inside.1 inside.2]
      have free := gone v inside
      refine iff_of_false Bool.false_ne_true ?_
      rintro (own | ⟨b, other, theirs⟩)
      · exact free.1 own
      · exact free.2 b other theirs
    · rw [Bits.fill_outside (by omega), old]
      have out : ¬ Units u (u + k) v := inside
      grind -ring -linarith
  · by_cases here : p = pg
    · subst here
      have filled := @Bits.count_fill map false (8 * p) 8 u k low high
      have set : Bits.count map u k = k := by
        refine Bits.count_set fun i less => ?_
        rw [owned, exists_update, units]
        exact Or.inl (Or.inr ⟨by omega, by omega⟩)
      simp only [Bool.false_eq_true, if_false, set] at filled
      rw [update_self, count, same]
      omega
    · rw [update_of_ne here, same, Bits.count_fill_outside (by omega)]

theorem Counts.pos {counted : Nat → Nat → Prop} (counts : Counts refs counted) :
    0 < (refs pg).count ↔ ∃ u b, u / 8 = pg ∧ counted b u := by
  obtain ⟨map, owned, same⟩ := counts
  rw [same, Bits.count_pos]
  constructor
  · rintro ⟨i, less, used⟩
    obtain ⟨b, here⟩ := (owned _).mp used
    exact ⟨8 * pg + i, b, by omega, here⟩
  · rintro ⟨u, b, rfl, here⟩
    refine ⟨u % 8, Nat.mod_lt u (by decide), (owned _).mpr ⟨b, ?_⟩⟩
    rwa [Nat.div_add_mod]

theorem Counts.le {counted : Nat → Nat → Prop} (counts : Counts refs counted) : (refs pg).count ≤ 8 := by
  obtain ⟨map, -, same⟩ := counts
  rw [same]
  exact Bits.count_le _ _

end Page

/-! ## The loops -/

section Loops

variable {u stop i pg len : Nat}

theorem remainder_units (u len : Nat) : remainder (bbtob u) (bbtob len) = bbtob (min (8 - u % 8) len) := by
  simp only [remainder, bbtob, nbpg]
  omega

theorem btobbt_bbtob (n : Nat) : btobbt (bbtob n) = n := by
  simp only [btobbt, bbtob]
  omega

theorem pages_units (u len : Nat) : pages (bbtob u) (bbtob len) = (u + len + 7) / 8 - u / 8 := by
  simp only [pages, bbtob, nbpg]
  omega

theorem page_unit (u : Nat) : bbtob u / nbpg = u / 8 := by
  simp only [bbtob, nbpg]
  omega

/-- A turn of a loop over the pages. -/
theorem Goes.turn (goes : Goes stop u (i + 1) pg len) :
    ∃ k, remainder (bbtob u) len = bbtob k ∧ 0 < k ∧ u + k = min (8 * (pg + 1)) stop ∧ pg = u / 8 ∧
      8 * pg ≤ u ∧ u + k ≤ 8 * pg + 8 ∧ Goes stop (u + k) i (pg + 1) (len - bbtob k) := by
  obtain ⟨rfl, less, rfl, more⟩ | ⟨-, none⟩ : (len = bbtob (stop - u) ∧ u < stop ∧ pg = u / 8 ∧
      i + 1 = (stop + 7) / 8 - u / 8) ∨ u = stop ∧ i + 1 = 0 := by
    rcases goes.rest with ⟨less, here, more⟩ | none
    · exact Or.inl ⟨goes.len, less, here, more⟩
    · exact Or.inr none
  · refine ⟨min (8 - u % 8) (stop - u), remainder_units u (stop - u), by omega, by omega, rfl, by omega,
      by omega, ?_, ?_⟩
    · simp only [bbtob]
      omega
    · omega
  · omega

theorem Goes.start {first : Nat} (some : 0 < len) :
    Goes (first + len) first (pages (bbtob first) (bbtob len)) (bbtob first / nbpg) (bbtob len) := by
  rw [pages_units, page_unit]
  exact ⟨by rw [Nat.add_sub_cancel_left], Or.inl ⟨by omega, rfl, rfl⟩⟩

end Loops

section Flags

variable {refs : Nat → Bbcnt} {pgV : Nat → Bool} {counted allocates : Nat → Nat → Prop}
  {before after : Nat → Prop} {ref : Bbcnt} {bp pg : Nat}

theorem update_mono {v b : Nat} (grows : before v → after v) (here : update counted bp before b v) :
    update counted bp after b v := by
  by_cases same : b = bp
  · subst same
    rw [update_self] at here ⊢
    exact grows here
  · rwa [update_of_ne same] at here ⊢

/-- A page whose flag stays gets more units. -/
theorem Pages.more (pages : Pages refs pgV (update counted bp before) allocates)
    (grows : ∀ v, before v → after v) (wait : ref.wait = (refs pg).wait)
    (wanted : ref.wanted = true → ref.wait = true) (some : 0 < ref.count)
    (valid : ref.wait = false → pgV pg = true) :
    Pages (update refs pg ref) pgV (update counted bp after) allocates where
  held := by
    intro p
    by_cases here : p = pg
    · rw [here, update_self, wait]
      exact pages.held pg
    · rw [update_of_ne here]
      exact pages.held p
  alone := pages.alone
  used := by
    intro b p allocating
    obtain ⟨u, there, inUse⟩ := pages.used allocating
    exact ⟨u, there, update_mono (grows u) inUse⟩
  invalid := by
    intro p held
    by_cases here : p = pg
    · rw [here, update_self, wait] at held
      rw [here]
      exact pages.invalid pg held
    · rw [update_of_ne here] at held
      exact pages.invalid p held
  valid := by
    intro p free
    by_cases here : p = pg
    · rw [here, update_self] at free ⊢
      exact iff_of_true (valid free) some
    · rw [update_of_ne here] at free ⊢
      exact pages.valid p free
  wanted := by
    intro p flag
    by_cases here : p = pg
    · rw [here, update_self] at flag ⊢
      exact wanted flag
    · rw [update_of_ne here] at flag ⊢
      exact pages.wanted p flag

/-- A page that is not valid gets units, and its memory is being allocated for them. -/
theorem Pages.take {u : Nat} (pages : Pages refs pgV (update counted bp before) (update allocates bp fun _ => False))
    (grows : ∀ v, before v → after v) (free : (refs pg).wait = false) (wait : ref.wait = true)
    (invalid : pgV pg = false) (place : u / 8 = pg) (used : after u) :
    Pages (update refs pg ref) pgV (update counted bp after) (update allocates bp fun p => pg = p) where
  held := by
    intro p
    rw [exists_update]
    by_cases here : p = pg
    · rw [here, update_self]
      exact iff_of_true wait (Or.inl rfl)
    · rw [update_of_ne here, pages.held p, exists_update]
      simp only [false_or, Ne.symm here]
  alone := by
    have other : ∀ {b}, b ≠ bp → ¬ allocates b pg := by
      intro b different allocating
      have held := (pages.held pg).mpr (exists_update.mpr (Or.inr ⟨b, different, allocating⟩))
      rw [free] at held
      cases held
    intro b b' p left right
    by_cases first : b = bp
    · by_cases second : b' = bp
      · rw [first, second]
      · rw [first, update_self] at left
        rw [update_of_ne second] at right
        exact absurd (left ▸ right) (other second)
    · rw [update_of_ne first] at left
      by_cases second : b' = bp
      · rw [second, update_self] at right
        exact absurd (right ▸ left) (other first)
      · exact @Pages.alone _ _ _ _ pages b b' p (by rwa [update_of_ne first])
          (by rwa [update_of_ne second] at right ⊢)
  used := by
    intro b p allocating
    by_cases own : b = bp
    · subst own
      rw [update_self] at allocating
      exact ⟨u, place.trans allocating, by rwa [update_self]⟩
    · rw [update_of_ne own] at allocating
      obtain ⟨v, there, inUse⟩ := @Pages.used _ _ _ _ pages b p (by rwa [update_of_ne own])
      exact ⟨v, there, update_mono (grows v) inUse⟩
  invalid := by
    intro p held
    by_cases here : p = pg
    · rw [here]
      exact invalid
    · rw [update_of_ne here] at held
      exact pages.invalid p held
  valid := by
    intro p none
    by_cases here : p = pg
    · rw [here, update_self, wait] at none
      cases none
    · rw [update_of_ne here] at none ⊢
      exact pages.valid p none
  wanted := by
    intro p flag
    by_cases here : p = pg
    · rw [here, update_self]
      exact wait
    · rw [update_of_ne here] at flag ⊢
      exact pages.wanted p flag

end Flags

/-! ## Allocation -/

/-- What holds between the steps. -/
structure Sound (s : Cache) : Prop where
  regions : Regions s.bioMemmap fun b => (s.mem b).Region
  regular : ∀ b, (s.mem b).Regular
  counts : Counts s.bioBbcnt fun b => (s.mem b).Counted
  pages : Pages s.bioBbcnt s.pgV (fun b => (s.mem b).Counted) fun b => (s.mem b).Allocates

/-- What holds when the loop for a buffer has counted the units up to `u`. -/
structure Running (s : Cache) (bp first u stop : Nat) : Prop where
  regions : Regions s.bioMemmap (update (fun b => (s.mem b).Region) bp (Units first stop))
  regular : ∀ b, b ≠ bp → (s.mem b).Regular
  order : first ≤ u ∧ u ≤ stop
  counts : Counts s.bioBbcnt (update (fun b => (s.mem b).Counted) bp (Units first u))
  pages : Pages s.bioBbcnt s.pgV (update (fun b => (s.mem b).Counted) bp (Units first u))
    (update (fun b => (s.mem b).Allocates) bp fun _ => False)

section Alloc

variable {s : Cache} {bp first u stop i pg len : Nat}

theorem view_setMem {α : Type} (f : Mem → α) (s : Cache) (bp : Nat) (m : Mem) :
    (fun b => f ((s.setMem bp m).mem b)) = update (fun b => f (s.mem b)) bp (f m) := by
  funext b
  by_cases same : b = bp
  · subst same
    simp only [Cache.setMem, update_self]
  · simp only [Cache.setMem, update_of_ne same]

theorem Mem.Counted.region {m : Mem} {v : Nat} (used : m.Counted v) : m.Region v := by
  cases m with
  | none => exact used
  | taking => exact used.1
  | has => exact used

/-- A loop that sleeps has counted the units before it. -/
theorem counted_taking {addr bLength : Nat} {loop : Loop} {sleep : Sleep}
    (reached : u = min (8 * (loop.pg + 1)) (addr - 1 + bLength)) :
    (Mem.taking addr bLength loop sleep).Counted = Units (addr - 1) u := by
  funext v
  simp only [Mem.Counted, Units, eq_iff_iff]
  omega

/-- Units of the region that are not counted yet are nobody's. -/
theorem Running.fresh (running : Running s bp first u stop) {k : Nat} (within : u + k ≤ stop) {v : Nat}
    (here : Units u (u + k) v) : ¬ Units first u v ∧ ∀ b, b ≠ bp → ¬ (s.mem b).Counted v := by
  refine ⟨fun before => absurd here.1 (Nat.not_le.mpr before.2), fun b other used => ?_⟩
  refine @Regions.apart _ _ running.regions b bp other v ?_ ?_
  · rw [update_of_ne other]
    exact used.region
  · rw [update_self]
    exact ⟨Nat.le_trans running.order.1 here.1, Nat.lt_of_lt_of_le here.2 within⟩

theorem units_more {k v : Nat} (order : first ≤ u) : Units first (u + k) v ↔ Units first u v ∨ Units u (u + k) v := by
  simp only [Units]
  omega

theorem Running.more (running : Running s bp first u stop) {k : Nat} {ref : Bbcnt} (within : u + k ≤ stop)
    (low : 8 * pg ≤ u) (high : u + k ≤ 8 * pg + 8) (count : ref.count = (s.bioBbcnt pg).count + k) :
    Counts (update s.bioBbcnt pg ref) (update (fun b => (s.mem b).Counted) bp (Units first (u + k))) :=
  running.counts.more (fun _ => units_more running.order.1) (fun _ => running.fresh within) low high count

/-- The loop ends, or sleeps. -/
theorem Running.set (running : Running s bp first u stop) {m : Mem} {refs : Nat → Bbcnt} (regular : m.Regular)
    (region : m.Region = Units first stop)
    (counts : Counts refs (update (fun b => (s.mem b).Counted) bp m.Counted))
    (pages : Pages refs s.pgV (update (fun b => (s.mem b).Counted) bp m.Counted)
      (update (fun b => (s.mem b).Allocates) bp m.Allocates)) :
    Sound ({ s with bioBbcnt := refs }.setMem bp m) where
  regions := by
    rw [view_setMem Mem.Region, region]
    exact running.regions
  regular := by
    intro b
    by_cases same : b = bp
    · subst same
      simpa only [Cache.setMem, update_self] using regular
    · simpa only [Cache.setMem, update_of_ne same] using running.regular b same
  counts := by
    rw [view_setMem Mem.Counted]
    exact counts
  pages := by
    rw [view_setMem Mem.Counted, view_setMem Mem.Allocates]
    exact pages

/-- An address that fits is stored as it is. -/
theorem has_short {addr bLength : Nat} (some : 0 < addr) (small : addr < 32768) :
    (Mem.has (short addr) bLength).Region = Units (addr - 1) (addr - 1 + bLength) ∧
      0 < short addr := by
  have place : ((addr : Int) - 1).toNat = addr - 1 := by omega
  rw [Mem.Region, short_fits (by omega) (by omega), place]
  exact ⟨rfl, by omega⟩

theorem allocLoop_sound {addr bLength : Nat} (some : 0 < addr) (length : 0 < bLength)
    (running : Running s bp (addr - 1) u (addr - 1 + bLength)) (goes : Goes (addr - 1 + bLength) u i pg len) :
    Sound (allocLoop bp addr bLength i pg (bbtob u) len s) := by
  induction i generalizing s u pg len with
  | zero =>
      have done : u = addr - 1 + bLength := by
        rcases goes.rest with ⟨less, -, none⟩ | ⟨same, -⟩
        · omega
        · exact same
      subst done
      have small := running.regions.small bp (addr - 1) (by
        rw [update_self]
        exact ⟨Nat.le_refl _, by omega⟩)
      obtain ⟨region, positive⟩ := @has_short addr bLength some (by omega)
      have counted : (Mem.has (short addr) bLength).Counted = Units (addr - 1) (addr - 1 + bLength) :=
        region
      refine running.set ⟨positive, length⟩ region ?_ ?_
      · rw [counted]
        exact running.counts
      · rw [counted]
        exact running.pages
  | succ i ih =>
      obtain ⟨k, bytes, units, last, page, low, high, next⟩ := goes.turn
      have within : u + k ≤ addr - 1 + bLength := last ▸ Nat.min_le_right _ _
      have grows : ∀ v, Units (addr - 1) u v → Units (addr - 1) (u + k) v :=
        fun v before => ⟨before.1, Nat.lt_of_lt_of_le before.2 (Nat.le_add_right u k)⟩
      have reached : bbtob u + bbtob k = bbtob (u + k) := (Nat.mul_add 512 u k).symm
      rw [allocLoop, bytes, btobbt_bbtob, reached]
      dsimp only
      split
      next valid =>
        -- the page has its memory
        have free : (s.bioBbcnt pg).wait = false := by
          by_contra held
          rw [running.pages.invalid pg (by simpa using held)] at valid
          cases valid
        refine ih ⟨running.regions, running.regular, ⟨by have := running.order.1; omega, within⟩,
          running.more within low high rfl,
          running.pages.more grows rfl (running.pages.wanted pg) (by dsimp only; omega) fun _ => valid⟩ next
      next invalid =>
        rw [Bool.not_eq_true] at invalid
        have regular : ∀ sleep, (Mem.taking addr bLength ⟨i, pg, bbtob (u + k), len - bbtob k⟩ sleep).Regular :=
          fun _ => ⟨some, length, u + k, rfl, by have := running.order.1; omega, last, next⟩
        have counted : ∀ sleep, (Mem.taking addr bLength ⟨i, pg, bbtob (u + k), len - bbtob k⟩ sleep).Counted =
            Units (addr - 1) (u + k) := fun _ => counted_taking last
        split
        next held =>
          -- another process is allocating it
          refine running.set (regular .ref) rfl ?_ ?_
          · rw [counted]
            exact running.more within low high rfl
          · rw [counted]
            exact running.pages.more grows rfl (fun _ => held) (by dsimp only; omega) fun free => by
              dsimp only at free held
              rw [free] at held
              cases held
        next free =>
          refine running.set (regular .vmemall) rfl ?_ ?_
          · rw [counted]
            exact running.more within low high rfl
          · rw [counted]
            exact running.pages.take grows (by simpa using free) rfl invalid page.symm
              ⟨running.order.1, by omega⟩

/-- The page has its memory. -/
theorem Pages.finish {refs : Nat → Bbcnt} {pgV : Nat → Bool} {counted allocates : Nat → Nat → Prop}
    (pages : Pages refs pgV counted allocates) (allocating : ∀ p, allocates bp p ↔ pg = p)
    (some : 0 < (refs pg).count) :
    Pages (update refs pg { refs pg with wait := false, wanted := false }) (update pgV pg true) counted
      (update allocates bp fun _ => False) where
  held := by
    intro p
    rw [exists_update, false_or]
    by_cases here : p = pg
    · rw [here, update_self]
      refine iff_of_false Bool.false_ne_true ?_
      rintro ⟨b, other, also⟩
      exact other (pages.alone also ((allocating pg).mpr rfl))
    · rw [update_of_ne here, pages.held p]
      refine exists_congr fun b => ⟨fun also => ⟨fun same => ?_, also⟩, fun both => both.2⟩
      rw [same, allocating] at also
      exact here also.symm
  alone := by
    intro b b' p left right
    by_cases first : b = bp
    · rw [first, update_self] at left
      exact left.elim
    · by_cases second : b' = bp
      · rw [second, update_self] at right
        exact right.elim
      · rw [update_of_ne first] at left
        rw [update_of_ne second] at right
        exact pages.alone left right
  used := by
    intro b p also
    by_cases own : b = bp
    · rw [own, update_self] at also
      exact also.elim
    · rw [update_of_ne own] at also
      exact pages.used also
  invalid := by
    intro p held
    by_cases here : p = pg
    · rw [here, update_self] at held
      cases held
    · rw [update_of_ne here] at held ⊢
      exact pages.invalid p held
  valid := by
    intro p free
    by_cases here : p = pg
    · rw [here, update_self, update_self]
      exact iff_of_true rfl some
    · rw [update_of_ne here] at free ⊢
      rw [update_of_ne here]
      exact pages.valid p free
  wanted := by
    intro p flag
    by_cases here : p = pg
    · rw [here, update_self] at flag
      cases flag
    · rw [update_of_ne here] at flag ⊢
      exact pages.wanted p flag

/-- The state of a buffer whose loop goes on. -/
theorem Sound.running {addr bLength : Nat} {loop : Loop} {sleep : Sleep} (sound : Sound s)
    (mem : s.mem bp = .taking addr bLength loop sleep)
    {refs : Nat → Bbcnt} {pgV : Nat → Bool} (count : ∀ p, (refs p).count = (s.bioBbcnt p).count)
    (pages : Pages refs pgV (fun b => (s.mem b).Counted)
      (update (fun b => (s.mem b).Allocates) bp fun _ => False)) :
    0 < addr ∧ 0 < bLength ∧ ∃ u, loop.byteOffset = bbtob u ∧
      Running { s with bioBbcnt := refs, pgV := pgV } bp (addr - 1) u (addr - 1 + bLength) ∧
      Goes (addr - 1 + bLength) u loop.i (loop.pg + 1) loop.len := by
  have regular := sound.regular bp
  rw [mem] at regular
  obtain ⟨some, length, u, reached, low, last, goes⟩ := regular
  have within : u ≤ addr - 1 + bLength := last ▸ Nat.min_le_right _ _
  have region : update (fun b => (s.mem b).Region) bp (Units (addr - 1) (addr - 1 + bLength)) =
      fun b => (s.mem b).Region := by
    rw [update_eq_self_iff, mem]
    rfl
  have counted : update (fun b => (s.mem b).Counted) bp (Units (addr - 1) u) = fun b => (s.mem b).Counted := by
    rw [update_eq_self_iff, mem, counted_taking last]
  refine ⟨some, length, u, reached, ⟨?_, fun b _ => sound.regular b, ⟨low, within⟩, ?_, ?_⟩, goes⟩
  · rw [region]
    exact sound.regions
  · rw [counted]
    obtain ⟨map, owned, same⟩ := sound.counts
    exact ⟨map, owned, fun p => (count p).trans (same p)⟩
  · rw [counted]
    exact pages

/-- The processes that sleep until the page is there are told. -/
theorem wakeup_sound (sound : Sound s) (pg : Nat) : Sound (s.wakeup pg) := by
  have region : (fun b => ((s.wakeup pg).mem b).Region) = fun b => (s.mem b).Region := by
    funext b
    simp only [Cache.wakeup]
    cases s.mem b with
    | taking addr bLength loop sleep => cases sleep <;> rfl
    | none => rfl
    | has => rfl
  have counted : (fun b => ((s.wakeup pg).mem b).Counted) = fun b => (s.mem b).Counted := by
    funext b
    simp only [Cache.wakeup]
    cases s.mem b with
    | taking addr bLength loop sleep => cases sleep <;> rfl
    | none => rfl
    | has => rfl
  have allocates : (fun b => ((s.wakeup pg).mem b).Allocates) = fun b => (s.mem b).Allocates := by
    funext b
    simp only [Cache.wakeup]
    cases s.mem b with
    | taking addr bLength loop sleep =>
        cases sleep with
        | ref =>
            dsimp only
            split <;> rfl
        | vmemall => rfl
        | woken => rfl
    | none => rfl
    | has => rfl
  refine ⟨by rw [region]; exact sound.regions, fun b => ?_, by rw [counted]; exact sound.counts,
    by rw [counted, allocates]; exact sound.pages⟩
  have regular := sound.regular b
  simp only [Cache.wakeup]
  cases mem : s.mem b with
  | taking addr bLength loop sleep =>
      rw [mem] at regular
      cases sleep <;> exact regular
  | none => trivial
  | has =>
      rw [mem] at regular
      exact regular

theorem wakeup_vmemall {addr bLength : Nat} {loop : Loop}
    (mem : s.mem bp = .taking addr bLength loop .vmemall) (pg : Nat) :
    (s.wakeup pg).mem bp = .taking addr bLength loop .vmemall := by
  simp only [Cache.wakeup, mem]

theorem allocated_sound (sound : Sound s) : Sound (s.allocated bp) := by
  rw [Cache.allocated]
  split
  next addr bLength loop mem =>
    obtain ⟨s', sound', mem', refs, valid, eq⟩ : ∃ s', Sound s' ∧
        s'.mem bp = .taking addr bLength loop .vmemall ∧ s'.bioBbcnt = s.bioBbcnt ∧ s'.pgV = s.pgV ∧
        (if (s.bioBbcnt loop.pg).wanted = true then
          Cache.wakeup { s with pgV := update s.pgV loop.pg true } loop.pg
        else { s with pgV := update s.pgV loop.pg true }) = { s' with pgV := update s.pgV loop.pg true } := by
      split
      · exact ⟨s.wakeup loop.pg, wakeup_sound sound loop.pg, wakeup_vmemall mem loop.pg, rfl, rfl, rfl⟩
      · exact ⟨s, sound, mem, rfl, rfl, rfl⟩
    have allocates : ∀ p, (s'.mem bp).Allocates p ↔ loop.pg = p := by
      intro p
      rw [mem']
      rfl
    have some : 0 < (s'.bioBbcnt loop.pg).count := by
      obtain ⟨u, there, used⟩ := sound'.pages.used ((allocates loop.pg).mpr rfl)
      exact sound'.counts.pos.mpr ⟨u, bp, there, used⟩
    obtain ⟨addr_pos, length, u, reached, running, goes⟩ := sound'.running mem'
      (fun p => by
        by_cases here : p = loop.pg
        · rw [here, update_self]
        · rw [update_of_ne here])
      (sound'.pages.finish allocates some)
    dsimp only
    rw [eq, reached, ← refs]
    rw [← valid]
    exact allocLoop_sound addr_pos length running goes
  next => exact sound

theorem resume_sound (sound : Sound s) : Sound (s.resume bp) := by
  rw [Cache.resume]
  split
  next addr bLength loop mem =>
    have none : update (fun b => (s.mem b).Allocates) bp (fun _ => False) = fun b => (s.mem b).Allocates := by
      rw [update_eq_self_iff, mem]
      rfl
    obtain ⟨some, length, u, reached, running, goes⟩ := sound.running mem (fun _ => rfl)
      (by rw [none]; exact sound.pages)
    rw [reached]
    exact allocLoop_sound some length running goes
  next => exact sound

/-- A region is taken from the free ones. -/
theorem Regions.take {region : Nat → Nat → Prop} {segs segs' : List Rmap.Mapent}
    {n len : Nat} {place : Int} (apart : ∀ {b b'}, b ≠ b' → ∀ u, region b u → ¬ region b' u)
    (covered : ∀ b u, region b u → ¬ Rmap.Covers segs (u + 1))
    (bound : ∀ x, Rmap.Covers segs x → x < 32768) (small : ∀ b u, region b u → u + 1 < 32768)
    (took : Rmap.Took len place segs segs') (room : 0 < segs'.length + n) :
    Regions (segs' ++ List.replicate (n + 1) Rmap.Mapent.zero)
      (update region bp (Units (place.toNat - 1) (place.toNat - 1 + len))) := by
  have start := took.start
  have range : ∀ u : Nat, Units (place.toNat - 1) (place.toNat - 1 + len) u ↔ Rmap.Range len place (u + 1) := by
    intro u
    simp only [Units, Rmap.Range]
    omega
  refine ⟨⟨segs', n, rfl, room, took.pieces, fun b u here free => ?_,
    fun x free => bound x ((took.left x).mp free).1⟩, fun b u here => ?_,
    fun {b b'} different u left right => ?_⟩
  · obtain ⟨before, out⟩ := (took.left _).mp free
    by_cases own : b = bp
    · rw [own, update_self, range] at here
      exact out here
    · rw [update_of_ne own] at here
      exact covered b u here before
  · by_cases own : b = bp
    · rw [own, update_self, range] at here
      have := bound _ (took.free _ here)
      omega
    · rw [update_of_ne own] at here
      exact small b u here
  · by_cases first : b = bp
    · rw [first, update_self, range] at left
      rw [update_of_ne (fun same => different (first.trans same.symm))] at right
      exact covered b' u right (took.free _ left)
    · rw [update_of_ne first] at left
      by_cases second : b' = bp
      · rw [second, update_self, range] at right
        exact covered b u left (took.free _ right)
      · rw [update_of_ne second] at right
        exact apart different u left right

theorem bioAllocmem_sound (sound : Sound s) (fits : len < 65536) : Sound (s.bioAllocmem bp len) := by
  rw [Cache.bioAllocmem, ushort_fits fits]
  split
  next mem =>
    obtain ⟨⟨segs, n, slots, room, pieces, covered, bound⟩, small, apart⟩ := sound.regions
    by_cases some : 0 < len
    · have valid : ¬ ((len : Int) ≤ 0 ∨ ∃ limit ∈ Option.none, limit < (len : Int)) := by
        simp only [Option.not_mem_none, false_and, exists_false, or_false]
        omega
      rw [Rmap.rmalloc, if_neg valid, slots]
      rcases Rmap.rmallocSlots_pieces pieces (Int.natCast_pos.mpr some) n with
        ⟨failed, -⟩ | ⟨segs', place, n', found, same, took⟩
      · rw [failed]
        exact sound
      · rw [found]
        have start := took.start
        dsimp only
        rw [if_neg (by omega)]
        have counted : update (fun b => (s.mem b).Counted) bp (Units (place.toNat - 1) (place.toNat - 1)) =
            fun b => (s.mem b).Counted := by
          rw [update_eq_self_iff, mem]
          funext u
          simp only [Units, Mem.Counted, eq_iff_iff, iff_false]
          omega
        have allocates : update (fun b => (s.mem b).Allocates) bp (fun _ => False) =
            fun b => (s.mem b).Allocates := by
          rw [update_eq_self_iff, mem]
          rfl
        refine allocLoop_sound (by omega) some ⟨?_, fun b _ => sound.regular b, ⟨Nat.le_refl _, by omega⟩, ?_, ?_⟩
          (Goes.start some)
        · exact Regions.take apart covered bound small took (by omega)
        · rw [counted]
          exact sound.counts
        · rw [counted, allocates]
          exact sound.pages
    · have panics : (len : Int) ≤ 0 ∨ ∃ limit ∈ Option.none, limit < (len : Int) := Or.inl (by omega)
      rw [Rmap.rmalloc, if_pos panics]
      exact sound
  next => exact sound

end Alloc

/-! ## Release -/

section Free

variable {s : Cache} {bp first u stop i pg len k : Nat}

/-- A page loses units.  Its memory goes when it has none left and is not being allocated. -/
theorem Pages.less {refs : Nat → Bbcnt} {pgV : Nat → Bool} {counted allocates : Nat → Nat → Prop}
    {before after : Nat → Prop} (pages : Pages refs pgV (update counted bp before) allocates)
    (none : ∀ p, ¬ allocates bp p) (k : Nat) :
    Pages (update refs pg { refs pg with count := (refs pg).count - k })
      (if { refs pg with count := (refs pg).count - k } = Bbcnt.mk 0 false false then update pgV pg false else pgV)
      (update counted bp after) allocates where
  held := by
    intro p
    by_cases here : p = pg
    · rw [here, update_self]
      exact pages.held pg
    · rw [update_of_ne here]
      exact pages.held p
  alone := pages.alone
  used := by
    intro b p allocating
    have other : b ≠ bp := by
      rintro rfl
      exact none p allocating
    have inUse := pages.used allocating
    rw [update_of_ne other] at inUse ⊢
    exact inUse
  invalid := by
    intro p held
    have old : pgV p = false := by
      by_cases here : p = pg
      · rw [here, update_self] at held
        rw [here]
        exact pages.invalid pg held
      · rw [update_of_ne here] at held
        exact pages.invalid p held
    split
    · by_cases here : p = pg
      · rw [here, update_self]
      · rwa [update_of_ne here]
    · exact old
  valid := by
    intro p free
    by_cases here : p = pg
    · rw [here, update_self] at free ⊢
      split
      next empty =>
        rw [update_self]
        simp only [Bbcnt.mk.injEq] at empty
        simp [empty.1]
      next left =>
        have unwanted : (refs pg).wanted = false := by
          by_contra flag
          rw [pages.wanted pg (by simpa using flag)] at free
          cases free
        have remain : 0 < (refs pg).count - k := by
          by_contra gone
          exact left (by rw [Bbcnt.mk.injEq]; exact ⟨by omega, free, unwanted⟩)
        exact iff_of_true ((pages.valid pg free).mpr (by omega)) remain
    · rw [update_of_ne here] at free ⊢
      have old := pages.valid p free
      split
      · rwa [update_of_ne here]
      · exact old
  wanted := by
    intro p flag
    by_cases here : p = pg
    · rw [here, update_self] at flag ⊢
      exact pages.wanted pg flag
    · rw [update_of_ne here] at flag ⊢
      exact pages.wanted p flag

/-- Free the units of a region from `u` on, when nobody else's are counted there. -/
theorem freeLoop_sound {counted allocates : Nat → Nat → Prop} (none : ∀ p, ¬ allocates bp p)
    (alone : ∀ v, Units u stop v → ∀ b, b ≠ bp → ¬ counted b v) (goes : Goes stop u i pg len)
    (counts : Counts s.bioBbcnt (update counted bp (Units u stop)))
    (pages : Pages s.bioBbcnt s.pgV (update counted bp (Units u stop)) allocates) :
    ∃ refs pgV, freeLoop i pg (bbtob u) len s = { s with bioBbcnt := refs, pgV := pgV } ∧
      Counts refs (update counted bp (Units stop stop)) ∧
      Pages refs pgV (update counted bp (Units stop stop)) allocates := by
  induction i generalizing s u pg len with
  | zero =>
      have done : u = stop := by
        rcases goes.rest with ⟨less, -, none⟩ | ⟨same, -⟩
        · omega
        · exact same
      subst done
      exact ⟨_, _, rfl, counts, pages⟩
  | succ i ih =>
      obtain ⟨k, bytes, units, within, page, low, high, next⟩ := goes.turn
      have reached : bbtob u + bbtob k = bbtob (u + k) := (Nat.mul_add 512 u k).symm
      have split : ∀ v, Units u stop v ↔ Units (u + k) stop v ∨ Units u (u + k) v := by
        intro v
        simp only [Units]
        omega
      have gone : ∀ v, Units u (u + k) v → ¬ Units (u + k) stop v ∧ ∀ b, b ≠ bp → ¬ counted b v :=
        fun v here => ⟨fun later => absurd later.1 (Nat.not_le.mpr here.2), alone v ((split v).mpr (Or.inr here))⟩
      obtain ⟨refs, pgV, eq, counts', pages'⟩ := @ih
        { s with
          bioBbcnt := update s.bioBbcnt pg { s.bioBbcnt pg with count := (s.bioBbcnt pg).count - k }
          pgV := if { s.bioBbcnt pg with count := (s.bioBbcnt pg).count - k } = Bbcnt.mk 0 false false then
            update s.pgV pg false else s.pgV }
        (u + k) (pg + 1) (len - bbtob k) (fun v later => alone v ((split v).mpr (Or.inl later))) next
        (counts.less split gone low high rfl) (pages.less none k)
      refine ⟨refs, pgV, ?_, counts', pages'⟩
      rw [freeLoop, bytes, btobbt_bbtob, reached, ← eq]
      dsimp only [Cache.setRef]
      congr 1
      by_cases empty : { s.bioBbcnt pg with count := (s.bioBbcnt pg).count - k } = Bbcnt.mk 0 false false
      · rw [if_pos empty, if_pos empty]
      · rw [if_neg empty, if_neg empty]

/-- A region goes back to the free ones. -/
theorem Regions.give {region : Nat → Nat → Prop} {segs segs' : List Rmap.Mapent} {lost : Option Rmap.Mapent}
    {n addr bLength : Nat} (apart : ∀ {b b'}, b ≠ b' → ∀ u, region b u → ¬ region b' u)
    (covered : ∀ b u, region b u → ¬ Rmap.Covers segs (u + 1))
    (bound : ∀ x, Rmap.Covers segs x → x < 32768) (small : ∀ b u, region b u → u + 1 < 32768)
    (some : 0 < addr)
    (own : region bp = Units (addr - 1) (addr - 1 + bLength))
    (freed : Rmap.Freed bLength addr segs segs' lost) (room : 0 < segs'.length + n) :
    Regions (segs' ++ List.replicate (n + 1) Rmap.Mapent.zero) (update region bp fun _ => False) := by
  refine ⟨⟨segs', n, rfl, room, freed.pieces, fun b u here free => ?_, fun x free => ?_⟩,
    fun b u here => ?_, fun {b b'} different u left right => ?_⟩
  · have other : b ≠ bp := by
      rintro rfl
      rwa [update_self] at here
    rw [update_of_ne other] at here
    rcases (freed.units _).mp (Or.inl free) with before | ⟨low, high⟩
    · exact covered b u here before
    · refine apart other u here ?_
      rw [own]
      exact ⟨by omega, by omega⟩
  · rcases (freed.units _).mp (Or.inl free) with before | ⟨low, high⟩
    · exact bound x before
    · have inside := small bp (x - 1).toNat (by rw [own]; exact ⟨by omega, by omega⟩)
      omega
  · by_cases gone : b = bp
    · rw [gone, update_self] at here
      exact here.elim
    · rw [update_of_ne gone] at here
      exact small b u here
  · by_cases first : b = bp
    · rw [first, update_self] at left
      exact left
    · by_cases second : b' = bp
      · rw [second, update_self] at right
        exact right
      · rw [update_of_ne first] at left
        rw [update_of_ne second] at right
        exact apart different u left right

theorem bioFreemem_sound (sound : Sound s) : Sound (s.bioFreemem bp) := by
  rw [Cache.bioFreemem]
  split
  next memaddr bLength mem =>
    obtain ⟨⟨segs, n, slots, room, pieces, covered, bound⟩, small, apart⟩ := sound.regions
    have regular := sound.regular bp
    rw [mem] at regular
    obtain ⟨positive, length⟩ := regular
    obtain ⟨addr, rfl⟩ := Int.eq_ofNat_of_zero_le (Int.le_of_lt positive)
    have some : 0 < addr := by omega
    have place : ((addr : Int) - 1).toNat = addr - 1 := by omega
    have region : (s.mem bp).Region = Units (addr - 1) (addr - 1 + bLength) := by
      rw [mem, Mem.Region, place]
    have fresh : ∀ x, Rmap.Range bLength addr x → ¬ Rmap.Covers segs x := by
      rintro x ⟨low, high⟩ free
      refine covered bp (x - 1).toNat ?_ ?_
      · rw [region]
        exact ⟨by omega, by omega⟩
      · have place : ((x - 1).toNat : Int) + 1 = x := by omega
        rwa [place]
    obtain ⟨segs', lost, n', freed, same, leaves⟩ :=
      Rmap.rmfree_leaves pieces ⟨Int.natCast_pos.mpr length, Int.natCast_pos.mpr some⟩ fresh room
    have counted : update (fun b => (s.mem b).Counted) bp (Units (addr - 1) (addr - 1 + bLength)) =
        fun b => (s.mem b).Counted := by
      rw [update_eq_self_iff, mem, Mem.Counted, place]
    obtain ⟨refs, pgV, eq, counts, pages⟩ := @freeLoop_sound
      { s with bioMemmap := segs' ++ List.replicate (n' + 1) Rmap.Mapent.zero } bp (addr - 1)
      (addr - 1 + bLength) _ _ _ (fun b => (s.mem b).Counted) (fun b => (s.mem b).Allocates)
      (fun p => by rw [mem]; exact id)
      (fun v here b other used => apart other v used.region (by rw [region]; exact here))
      (Goes.start length) (by rw [counted]; exact sound.counts) (by rw [counted]; exact sound.pages)
    have none : Units (addr - 1 + bLength) (addr - 1 + bLength) = fun _ => False := by
      funext v
      simp only [Units, eq_iff_iff, iff_false]
      omega
    rw [none] at counts pages
    rw [slots, freed]
    dsimp only
    rw [place, eq]
    refine ⟨?_, fun b => ?_, ?_, ?_⟩
    · rw [view_setMem Mem.Region]
      exact Regions.give apart covered bound small some region leaves (by omega)
    · by_cases same : b = bp
      · subst same
        simp only [Cache.setMem, update_self]
        trivial
      · simp only [Cache.setMem, update_of_ne same]
        exact sound.regular b
    · rw [view_setMem Mem.Counted]
      exact counts
    · have quiet : update (fun b => (s.mem b).Allocates) bp (fun _ => False) = fun b => (s.mem b).Allocates := by
        rw [update_eq_self_iff, mem]
        rfl
      rw [view_setMem Mem.Counted, view_setMem Mem.Allocates, Mem.Allocates]
      · rw [quiet]
        exact pages
      · simp
  next => exact sound

end Free

/-! ## Runs -/

/-- The length asked for fits `b_length`. -/
def Event.Fits : Event → Prop
  | .bioAllocmem _ len => len < 65536
  | _ => True

instance (event : Event) : Decidable event.Fits := by
  unfold Event.Fits
  cases event <;> infer_instance

theorem step_sound {s : Cache} (event : Event) (sound : Sound s) (fits : event.Fits) :
    Sound (s.step event) := by
  cases event with
  | bioAllocmem bp len => exact bioAllocmem_sound sound fits
  | allocated bp => exact allocated_sound sound
  | resume bp => exact resume_sound sound
  | bioFreemem bp => exact bioFreemem_sound sound

theorem bioinit_sound {nbuf bbs : Nat} (bufs : 0 < nbuf) (some : 0 < bbs) (small : bbs < 32768) :
    Sound (bioinit nbuf bbs) where
  regions := by
    refine ⟨⟨[⟨bbs, 1⟩], nbuf + nbuf - 2, ?_, Nat.lt_of_lt_of_le Nat.zero_lt_one (Nat.le_add_right _ _), ⟨?_, ?_⟩,
      fun b u => False.elim, ?_⟩, fun b u => False.elim, fun {b b'} _ u => False.elim⟩
    · simp only [bioinit, Rmap.rminit, List.singleton_append, List.cons.injEq, true_and]
      congr 1
      omega
    · simp only [List.mem_singleton, forall_eq, Int.one_pos, and_true]
      omega
    · exact List.pairwise_singleton _ _
    · rintro x ⟨f, listed, -, stop⟩
      rw [List.mem_singleton] at listed
      rw [listed] at stop
      dsimp only at stop
      omega
  regular := fun b => trivial
  counts := by
    refine ⟨fun _ => false, fun u => ?_, fun pg => ?_⟩
    · simp [bioinit, Mem.Counted]
    · exact (Bits.count_clear fun _ _ => rfl).symm
  pages := by
    refine ⟨fun pg => ?_, fun {b b' pg} => False.elim, fun {b pg} => False.elim, fun pg held => ?_, fun pg free => ?_,
      fun pg flag => ?_⟩
    · simp [bioinit, Mem.Allocates]
    · cases held
    · simp [bioinit]
    · cases flag

/-- After any run the count of every page is that of its units in use: those of the
    buffers' regions, but of a region that is being allocated those up to the page its
    allocation has reached.  A page that is not being allocated is valid while the count
    is not zero.  The units of the cache must fit `b_memaddr`, and the lengths `b_length`. -/
theorem counts_exact {nbuf bbs : Nat} (bufs : 0 < nbuf) (some : 0 < bbs) (small : bbs < 32768)
    (events : List Event) (fits : ∀ event ∈ events, event.Fits) :
    let s := Run.exec Cache.step (bioinit nbuf bbs) events
    Counts s.bioBbcnt (fun b => (s.mem b).Counted) ∧
      (∀ pg, (s.bioBbcnt pg).count ≤ 8) ∧
      (∀ pg, (s.bioBbcnt pg).wait = false → (s.pgV pg = true ↔ 0 < (s.bioBbcnt pg).count)) ∧
      (∀ b b' u, b ≠ b' → (s.mem b).Region u → ¬ (s.mem b').Region u) ∧
      ((∀ b addr bLength loop sleep, s.mem b ≠ .taking addr bLength loop sleep) →
        Counts s.bioBbcnt (fun b => (s.mem b).Region) ∧ ∀ pg, (s.bioBbcnt pg).wait = false) := by
  intro s
  have sound : Sound s := Run.invariant (fun _ event => step_sound event)
    (bioinit_sound bufs some small) (Run.along_of_mem fun _ => fits)
  refine ⟨sound.counts, fun pg => sound.counts.le, sound.pages.valid, fun b b' u other => sound.regions.apart other u,
    fun done => ⟨?_, fun pg => ?_⟩⟩
  · have all : (fun b => (s.mem b).Region) = fun b => (s.mem b).Counted := by
      funext b
      cases mem : s.mem b with
      | none => rfl
      | taking addr bLength loop sleep => exact absurd mem (done b addr bLength loop sleep)
      | has => rfl
    rw [all]
    exact sound.counts
  · by_contra held
    obtain ⟨b, allocating⟩ := (sound.pages.held pg).mp (by simpa using held)
    cases mem : s.mem b with
    | none =>
        rw [mem] at allocating
        exact allocating
    | taking addr bLength loop sleep => exact done b addr bLength loop sleep mem
    | has =>
        rw [mem] at allocating
        exact allocating

/-- Two buffers share a page while it is being allocated, and the first is freed. -/
theorem counts_exact_shared :
    let s := Run.exec Cache.step (bioinit 2 100)
      [.bioAllocmem 0 3, .bioAllocmem 1 7, .allocated 0, .resume 1, .allocated 1, .bioFreemem 0]
    Counts s.bioBbcnt (fun b => (s.mem b).Counted) ∧ (s.bioBbcnt 0).count = 5 ∧ (s.bioBbcnt 1).count = 2 :=
  ⟨(counts_exact (by decide) (by decide) (by decide) _ (by decide)).1, by decide, by decide⟩

/-- An allocation that sleeps for its first page has not counted the units in its second. -/
theorem count_asleep :
    ¬ ∀ (nbuf bbs : Nat) (events : List Event), 0 < nbuf → 0 < bbs →
      let s := Run.exec Cache.step (bioinit nbuf bbs) events
      Counts s.bioBbcnt fun b => (s.mem b).Region := by
  intro exact
  have counts := exact 1 100 [.bioAllocmem 0 9] (by decide) (by decide)
  have region : (((bioinit 1 100).step (.bioAllocmem 0 9)).mem 0).Region = Units 0 9 := by
    have mem : ((bioinit 1 100).step (.bioAllocmem 0 9)).mem 0 = .taking 1 9 ⟨1, 0, 4096, 512⟩ .vmemall := by
      decide
    rw [mem]
    rfl
  have positive : 0 < (((bioinit 1 100).step (.bioAllocmem 0 9)).bioBbcnt 1).count :=
    counts.pos.mpr ⟨8, 0, rfl, by
      simp only [Run.exec_cons, Run.exec_nil, region]
      exact ⟨by decide, by decide⟩⟩
  exact absurd positive (by decide)

end Irix.Bio
