import Irix.Lib.Run
import Irix.Xns.Routes
import Mathlib.Data.Fintype.Card
import Mathlib.Data.Int.Order.Basic
import Mathlib.Order.Fin.Basic
import Mathlib.Tactic.Common

/-! # Who has which route

A process that has an entry has it alone, and what the entry says was reported
for the name, as long as the oldest entry is not locked when a slot is needed,
and no sleeper is left behind by the timer.
-/

namespace Irix.Xns

open Function Lib

/-! ## Names -/

/-- What continues a name that continues another one continues that. -/
theorem eqnstr_trans {a b c : List Char} {len : Nat} (first : eqnstr a b len = true)
    (second : eqnstr b c len = true) : eqnstr a c len = true := by
  induction c generalizing a b len with
  | nil =>
      cases a with
      | nil => rfl
      | cons x a =>
          cases b with
          | nil => exact first
          | cons y b =>
              rw [eqnstr] at first
              split at first
              next same => rwa [← same] at second
              next => cases first
  | cons z c ih =>
      cases b with
      | nil => cases second
      | cons y b =>
          rw [eqnstr] at second
          split at second
          next same =>
            subst same
            cases a with
            | nil => cases first
            | cons x a =>
                rw [eqnstr] at first ⊢
                split at first
                next same =>
                  subst same
                  rw [if_pos rfl]
                  split at first
                  next => cases first
                  next room =>
                    rw [if_neg room] at second ⊢
                    exact ih first second
                next => cases first
          next => cases second

/-- An entry with the first name serves those who look up the second one. -/
def Serves (name wanted : List Char) : Prop := name = wanted ∨ eqnstr name wanted NSIZE = true

section

variable {n m : Nat} {s : Rtab n m} {r : Fin n} {p : Fin m} {l : List (Fin n)}

/-- A reply has said this about the name. -/
def Rtab.Reported (s : Rtab n m) (name : List Char) (addr : Addr) : Prop :=
  ∃ name', (name', addr) ∈ s.reports ∧ eqnstr name' name NSIZE = true

theorem Rtab.Reported.serves {name wanted : List Char} {addr : Addr}
    (reported : s.Reported name addr) (serves : Serves name wanted) :
    s.Reported wanted addr := by
  obtain ⟨name', listed, same⟩ := reported
  rcases serves with rfl | continued
  · exact ⟨name', listed, same⟩
  · exact ⟨name', listed, eqnstr_trans same continued⟩

/-! ## The list of entries that are asked for -/

/-- The nodes of the list, which are those that are busy. -/
def Rtab.Listed (s : Rtab n m) (l : List (Fin n)) : Prop :=
  Links.Path s.active s.bcast l ∧ ∀ r, r ∈ l ↔ (s.route r).busy ≠ 0

theorem Rtab.Listed.short (listed : s.Listed l) : l.length ≤ n := by
  have length := listed.1.nodup.length_le_card
  rwa [Fintype.card_fin] at length

/-- Only one entry is taken from the list, and it is not busy any more. -/
theorem deactivate_spec (listed : s.Listed l) (r : Fin n) :
    (s.deactivate r).Listed (l.erase r) ∧
      (s.deactivate r).route = update s.route r { s.route r with busy := 0 } ∧
      (s.deactivate r).proc = s.proc ∧ (s.deactivate r).time = s.time ∧
      (s.deactivate r).reports = s.reports := by
  have nodup := listed.1.nodup
  have out : r ∉ l.erase r := fun again => (nodup.mem_erase_iff.mp again).1 rfl
  have members : ∀ r', r' ∈ l.erase r ↔
      (update s.route r { s.route r with busy := 0 } r').busy ≠ 0 := by
    intro r'
    rw [nodup.mem_erase_iff]
    by_cases same : r' = r
    · subst same
      simp only [ne_eq, not_true_eq_false, false_and, update_self]
    · rw [update_of_ne same, ← listed.2]
      exact and_iff_right same
  have path := listed.1
  -- the link of the entry is cleared at the end
  have cleared : ∀ {active : Fin n → Option (Fin n)} {bcast : Option (Fin n)},
      Links.Path active bcast (l.erase r) → Links.Path (update active r none) bcast (l.erase r) :=
    fun path => path.congr fun b listed => update_of_ne (ne_of_mem_of_not_mem listed out) ..
  cases first : s.bcast with
  | none =>
      have code : s.deactivate r = { s with
          route := update s.route r { s.route r with busy := 0 }
          active := update s.active r none } := by
        simp only [Rtab.deactivate, Rtab.set, first, reduceCtorEq, if_false]
      rw [code]
      rw [first, Links.path_none] at path
      subst path
      refine ⟨⟨cleared ?_, members⟩, rfl, rfl, rfl, rfl⟩
      exact first
  | some b =>
      rw [first] at path
      obtain ⟨rest, rfl, -⟩ := Links.path_some.mp path
      by_cases same : b = r
      · subst same
        have code : s.deactivate b = { s with
            route := update s.route b { s.route b with busy := 0 }
            bcast := s.active b
            active := update s.active b none } := by
          simp only [Rtab.deactivate, Rtab.set, first, if_true]
        rw [code]
        refine ⟨⟨cleared ?_, members⟩, rfl, rfl, rfl, rfl⟩
        rw [List.erase_cons_head]
        exact path.2
      · obtain ⟨r1, -, found, path'⟩ := path.unlink (Ne.symm same) listed.short
        have code : s.deactivate r = { s with
            route := update s.route r { s.route r with busy := 0 }
            active := update (Links.unlink s.active r r1) r none } := by
          simp only [Rtab.deactivate, Rtab.set, first, Option.some.injEq, same, if_false, found]
        rw [code]
        refine ⟨⟨cleared ?_, members⟩, rfl, rfl, rfl, rfl⟩
        rwa [← first] at path'

/-- An entry that is flushed is empty, unlocked and not asked for. -/
theorem rtabflush_spec (listed : s.Listed l) (r : Fin n) :
    (s.rtabflush r).Listed (l.erase r) ∧
      (s.rtabflush r).route =
        update s.route r { s.route r with lock := false, age := 0, name := [], busy := 0 } ∧
      (s.rtabflush r).proc = s.proc ∧ (s.rtabflush r).time = s.time ∧
      (s.rtabflush r).reports = s.reports := by
  let s' := s.set r fun route => { route with lock := false, age := 0, name := [] }
  have busy : ∀ r', (s'.route r').busy = (s.route r').busy := by
    intro r'
    by_cases same : r' = r
    · subst same
      simp only [s', Rtab.set, update_self]
    · simp only [s', Rtab.set, update_of_ne same]
  have listed' : s'.Listed l := ⟨listed.1, fun r' => by rw [busy, listed.2]⟩
  have code : s.rtabflush r = if (s'.route r).busy ≠ 0 then s'.deactivate r else s' := rfl
  rw [code]
  split
  next =>
    obtain ⟨list, route, rest⟩ := deactivate_spec listed' r
    refine ⟨list, ?_, rest⟩
    rw [route]
    simp only [s', Rtab.set, update_self, update_idem]
  next idle =>
    rw [not_not, busy] at idle
    have out : r ∉ l := fun busy => (listed.2 r).mp busy idle
    rw [List.erase_of_not_mem out]
    refine ⟨listed', ?_, rfl, rfl, rfl⟩
    simp only [s', Rtab.set, ← idle]

/-! ## Slots -/

/-- A slot that may be the least recently used one. -/
def Rtab.Used (s : Rtab n m) (r : Fin n) : Prop := (s.route r).busy = 0 ∧ 0 < (s.route r).age

/-- An empty slot. -/
def Rtab.Empty (s : Rtab n m) (r : Fin n) : Prop :=
  (s.route r).lock = false ∧ (s.route r).age = 0

/-- A slot that has the address for a name, and can be had. -/
def Rtab.Cached (s : Rtab n m) (name : List Char) (r : Fin n) : Prop :=
  (s.route r).age ≠ 0 ∧ (s.route r).lock = false ∧ (s.route r).busy = 0 ∧
    eqnstr (s.route r).name name NSIZE = true

/-- The least recently used slot, the first one of those that are equally old. -/
def Rtab.Oldest (s : Rtab n m) (r : Fin n) : Prop :=
  s.Used r ∧ ∀ r', s.Used r' →
    (s.route r).age ≤ (s.route r').age ∧ (r' < r → (s.route r).age < (s.route r').age)

instance (s : Rtab n m) (r : Fin n) : Decidable (s.Used r) := inferInstanceAs (Decidable (_ ∧ _))

instance (s : Rtab n m) (r : Fin n) : Decidable (s.Empty r) := inferInstanceAs (Decidable (_ ∧ _))

instance (s : Rtab n m) (name : List Char) (r : Fin n) : Decidable (s.Cached name r) :=
  inferInstanceAs (Decidable (_ ∧ _ ∧ _ ∧ _))

instance (s : Rtab n m) (r : Fin n) : Decidable (s.Oldest r) :=
  inferInstanceAs (Decidable (_ ∧ ∀ _, _ → _))

theorem findSlot_empty {rs : List (Fin n)} {new : Option (Fin n)}
    (found : s.findSlot rs new = (some r, true)) : s.Empty r := by
  induction rs generalizing new with
  | nil => cases found
  | cons r1 rs ih =>
      rw [Rtab.findSlot] at found
      split at found
      next empty =>
        cases found
        exact empty
      next =>
        split at found
        next => exact ih found
        next =>
          split at found
          next => exact ih found
          next => exact ih found

theorem older_spec {r1 : Fin n} {new : Option (Fin n)} (used : s.Used r1)
    (front : ∀ r0 ∈ new, s.Used r0 ∧ r0 < r1) :
    s.Used (s.older r1 new) ∧ s.older r1 new ≤ r1 ∧
      (s.route (s.older r1 new)).age ≤ (s.route r1).age ∧
      ∀ r0 ∈ new, (s.route (s.older r1 new)).age ≤ (s.route r0).age ∧
        (s.older r1 new ≠ r0 → (s.route (s.older r1 new)).age < (s.route r0).age) := by
  cases new with
  | none => exact ⟨used, le_refl _, le_refl _, fun r0 same => by cases same⟩
  | some r0 =>
      obtain ⟨used0, less⟩ := front r0 rfl
      rw [Rtab.older]
      split
      next aged =>
        refine ⟨used, le_refl _, le_refl _, fun r' same => ?_⟩
        cases same
        exact ⟨le_of_lt aged, fun _ => aged⟩
      next young =>
        refine ⟨used0, le_of_lt less, not_lt.mp young, fun r' same => ?_⟩
        cases same
        exact ⟨le_refl _, fun other => absurd rfl other⟩

theorem findSlot_oldest {rs : List (Fin n)} {new : Option (Fin n)}
    (sorted : rs.Pairwise (· < ·)) (front : ∀ r0 ∈ new, s.Used r0 ∧ ∀ r' ∈ rs, r0 < r')
    (found : s.findSlot rs new = (some r, false)) :
    s.Used r ∧ (∀ r' ∈ rs, ¬ s.Empty r') ∧
      (∀ r0 ∈ new, (s.route r).age ≤ (s.route r0).age ∧
        (r0 < r → (s.route r).age < (s.route r0).age)) ∧
      ∀ r' ∈ rs, s.Used r' →
        (s.route r).age ≤ (s.route r').age ∧ (r' < r → (s.route r).age < (s.route r').age) := by
  induction rs generalizing new with
  | nil =>
      cases found
      refine ⟨(front r rfl).1, fun _ listed => absurd listed List.not_mem_nil, fun r0 same => ?_,
        fun _ listed => absurd listed List.not_mem_nil⟩
      cases same
      exact ⟨Int.le_refl _, fun less => absurd less (lt_irrefl _)⟩
  | cons r1 rs ih =>
      obtain ⟨least, sorted'⟩ := List.pairwise_cons.mp sorted
      have front' : ∀ r0 ∈ new, s.Used r0 ∧ ∀ r' ∈ rs, r0 < r' := fun r0 some =>
        ⟨(front r0 some).1, fun r' listed => (front r0 some).2 r' (List.mem_cons_of_mem _ listed)⟩
      rw [Rtab.findSlot] at found
      split at found
      next => cases found
      next full =>
      split at found
      next busy =>
        obtain ⟨used, none, old, rest⟩ := ih sorted' front' found
        refine ⟨used, ?_, old, ?_⟩
        · rintro r' (_ | ⟨_, listed⟩)
          · exact full
          · exact none r' listed
        · rintro r' (_ | ⟨_, listed⟩) used'
          · exact absurd used'.1 busy
          · exact rest r' listed used'
      next idle =>
      split at found
      next aged =>
        have used1 : s.Used r1 := ⟨not_not.mp idle, aged⟩
        obtain ⟨used', first, younger, others⟩ := older_spec used1 fun r0 same =>
          ⟨(front r0 same).1, (front r0 same).2 r1 (List.mem_cons_self ..)⟩
        have before : ∀ r' ∈ rs, s.older r1 new < r' := fun r' listed =>
          lt_of_le_of_lt first (least r' listed)
        obtain ⟨used, none, old, rest⟩ := ih sorted' (fun r0 same => by
          cases same
          exact ⟨used', before⟩) found
        have oldest := old _ rfl
        refine ⟨used, ?_, fun r0 same => ?_, ?_⟩
        · rintro r' (_ | ⟨_, listed⟩)
          · exact full
          · exact none r' listed
        · have aged := others r0 same
          grind
        · rintro r' (_ | ⟨_, listed⟩) used'
          · refine ⟨le_trans oldest.1 younger, fun less => ?_⟩
            exact lt_of_lt_of_le (oldest.2 (lt_of_le_of_lt first less)) younger
          · exact rest r' listed used'
      next fresh =>
        obtain ⟨used, none, old, rest⟩ := ih sorted' front' found
        refine ⟨used, ?_, old, ?_⟩
        · rintro r' (_ | ⟨_, listed⟩)
          · exact full
          · exact none r' listed
        · rintro r' (_ | ⟨_, listed⟩) used'
          · exact absurd used'.2 fresh
          · exact rest r' listed used'

/-- The slots that a name may be given: an empty one, or the oldest one. -/
def Rtab.Vacant (s : Rtab n m) (name : List Char) (r : Fin n) : Prop :=
  s.Empty r ∨ (∀ r', ¬ s.Cached name r') ∧ (∀ r', ¬ s.Empty r') ∧ s.Oldest r

/-- A name is in the cache, or gets a slot to be asked for, or there is no slot. -/
theorem newroute_cases (s : Rtab n m) (name : List Char) :
    (∃ r, s.Cached name r ∧ s.newroute name =
      (s.set r fun route => { route with hit := true, age := s.time, lock := true }, some r)) ∨
    (∃ (r : Fin n) (hit : Bool), s.Vacant name r ∧ s.newroute name =
      (s.set r fun route => { route with hit, age := -4, lock := true }, some r)) ∨
    s.newroute name = (s, none) := by
  unfold Rtab.newroute
  split
  next r found =>
    have cached := List.find?_some found
    simp only [Bool.and_eq_true, decide_eq_true_eq, Bool.not_eq_true'] at cached
    exact .inl ⟨r, ⟨cached.1.1.1, cached.1.1.2, cached.1.2, cached.2⟩, rfl⟩
  next missed =>
    have none : ∀ r', ¬ s.Cached name r' := by
      intro r' cached
      have other := List.find?_eq_none.mp missed r' (List.mem_finRange r')
      apply other
      simp only [cached.2.1, cached.2.2.1, cached.2.2.2, decide_eq_true cached.1, Bool.not_false,
        decide_true, Bool.and_self]
    split
    next => exact .inr (.inr rfl)
    next r found => exact .inr (.inl ⟨r, (s.route r).hit, .inl (findSlot_empty found), rfl⟩)
    next r found =>
      have sorted : (List.finRange n).Pairwise (· < ·) := List.pairwise_lt_finRange n
      obtain ⟨used, full, -, old⟩ := findSlot_oldest sorted (fun _ none => by cases none) found
      refine .inr (.inl ⟨r, false, .inr ⟨none, fun r' => full r' (List.mem_finRange r'), used,
        fun r' => old r' (List.mem_finRange r')⟩, rfl⟩)

/-! ## Who has which entry -/

def Phase.entry : Phase n → Option (Fin n)
  | .idle => none
  | .waiting _ r => some r
  | .holding _ r => some r

/-- An entry that is asked for is locked and has no address; one that has an address
    has it from a reply. -/
structure Rtab.Sound (s : Rtab n m) (r : Fin n) : Prop where
  asked : (s.route r).busy ≠ 0 → (s.route r).lock = true ∧ (s.route r).age = 0
  age : 0 ≤ (s.route r).age
  known : (s.route r).age ≠ 0 → s.Reported (s.route r).name (s.route r).addr

/-- What a process waits for or has got is its own. -/
def Rtab.Fine (s : Rtab n m) : Phase n → Prop
  | .idle => True
  | .waiting name r => (s.route r).lock = true ∧
      ((s.route r).busy ≠ 0 ∧ ((s.route r).name = name ∨ (s.route r).name = []) ∨
        (s.route r).busy = 0 ∧ (s.route r).age ≠ 0 ∧ (s.route r).name = name)
  | .holding name r => (s.route r).lock = true ∧ (s.route r).busy = 0 ∧ (s.route r).age ≠ 0 ∧
      Serves (s.route r).name name

structure Inv (s : Rtab n m) : Prop where
  listed : ∃ l, s.Listed l
  sound : ∀ r, s.Sound r
  fine : ∀ p, s.Fine (s.proc p)
  single : ∀ p q r, (s.proc p).entry = some r → (s.proc q).entry = some r → p = q
  time : 0 < s.time

theorem Rtab.Fine.locked {phase : Phase n} (fine : s.Fine phase) (entry : phase.entry = some r) :
    (s.route r).lock = true := by
  cases phase with
  | idle => cases entry
  | waiting name r' =>
      cases entry
      exact fine.1
  | holding name r' =>
      cases entry
      exact fine.1

variable {s' : Rtab n m}

theorem Rtab.Fine.congr {phase : Phase n} (fine : s.Fine phase)
    (same : ∀ r, phase.entry = some r → s'.route r = s.route r) : s'.Fine phase := by
  cases phase with
  | idle => trivial
  | waiting name r =>
      have route := same r rfl
      simpa only [Rtab.Fine, route] using fine
  | holding name r =>
      have route := same r rfl
      simpa only [Rtab.Fine, route] using fine

theorem Rtab.Sound.congr (sound : s.Sound r) (same : s'.route r = s.route r)
    (more : ∀ report ∈ s.reports, report ∈ s'.reports) : s'.Sound r := by
  obtain ⟨asked, age, known⟩ := sound
  refine ⟨by rwa [same], by rwa [same], ?_⟩
  rw [same]
  intro aged
  obtain ⟨name', listed, serves⟩ := known aged
  exact ⟨name', more _ listed, serves⟩

/-- One entry changes, and with it the process that has it. -/
theorem Inv.change (inv : Inv s) (r : Fin n) (p : Fin m) (phase : Phase n)
    (routes : ∀ r' ≠ r, s'.route r' = s.route r') (procs : s'.proc = update s.proc p phase)
    (more : ∀ report ∈ s.reports, report ∈ s'.reports) (time : 0 < s'.time)
    (listed : ∃ l, s'.Listed l) (sound : s'.Sound r) (fine : s'.Fine phase)
    (mine : ∀ r', phase.entry = some r' → r' = r)
    (only : ∀ q ≠ p, (s.proc q).entry ≠ some r) : Inv s' where
  listed := listed
  time := time
  sound r' := by
    by_cases same : r' = r
    · exact same ▸ sound
    · exact (inv.sound r').congr (routes r' same) more
  fine q := by
    rw [procs]
    by_cases same : q = p
    · rw [same, update_self]
      exact fine
    · rw [update_of_ne same]
      refine (inv.fine q).congr fun r' entry => routes r' ?_
      rintro rfl
      exact only q same entry
  single q q' r' entry entry' := by
    rw [procs] at entry entry'
    by_cases same : q = p
    · by_cases same' : q' = p
      · exact same.trans same'.symm
      · rw [same, update_self] at entry
        rw [update_of_ne same', mine r' entry] at entry'
        exact absurd entry' (only q' same')
    · by_cases same' : q' = p
      · rw [same', update_self] at entry'
        rw [update_of_ne same, mine r' entry'] at entry
        exact absurd entry (only q same)
      · rw [update_of_ne same] at entry
        rw [update_of_ne same'] at entry'
        exact inv.single q q' r' entry entry'

/-- One entry changes, and the processes stay where they are. -/
theorem Inv.touch (inv : Inv s) (r : Fin n) (routes : ∀ r' ≠ r, s'.route r' = s.route r')
    (procs : s'.proc = s.proc) (more : ∀ report ∈ s.reports, report ∈ s'.reports)
    (time : 0 < s'.time) (listed : ∃ l, s'.Listed l) (sound : s'.Sound r)
    (fine : ∀ p, (s.proc p).entry = some r → s'.Fine (s.proc p)) : Inv s' where
  listed := listed
  time := time
  sound r' := by
    by_cases same : r' = r
    · exact same ▸ sound
    · exact (inv.sound r').congr (routes r' same) more
  fine p := by
    rw [procs]
    by_cases user : (s.proc p).entry = some r
    · exact fine p user
    · refine (inv.fine p).congr fun r' entry => routes r' ?_
      rintro rfl
      exact user entry
  single p q r' := by
    rw [procs]
    exact inv.single p q r'

/-! ## What happens to the entries -/

/-- What is asked of an event: a name that is not in the cache and finds no empty
    slot finds the oldest slot unlocked, nobody waits for an entry that has lost its
    name when a reply comes whose name is empty up to a colon, and nobody waits for
    an entry that the timer has tried more than 50 times. -/
def Fits (s : Rtab n m) : Event m → Prop
  | .getroute p name => s.proc p = .idle → (∀ r, ¬ s.Cached name.chars r) → (∀ r, ¬ s.Empty r) →
      ∀ r, s.Oldest r → (s.route r).lock = false
  | .remember direct name _ => direct = true → eqnstr name [] NSIZE = true →
      ∀ p r, (s.proc p).entry = some r → (s.route r).busy ≠ 0 → (s.route r).name ≠ []
  | .timer => ∀ p r, (s.proc p).entry = some r → (s.route r).busy ≤ 50
  | _ => True

instance (s : Rtab n m) : ∀ e, Decidable (Fits s e)
  | .getroute p name => inferInstanceAs (Decidable (s.proc p = .idle →
      (∀ r, ¬ s.Cached name.chars r) → (∀ r, ¬ s.Empty r) →
      ∀ r, s.Oldest r → (s.route r).lock = false))
  | .remember direct name _ =>
      inferInstanceAs (Decidable (direct = true → eqnstr name [] NSIZE = true →
        ∀ p r, (s.proc p).entry = some r → (s.route r).busy ≠ 0 → (s.route r).name ≠ []))
  | .timer =>
      inferInstanceAs (Decidable (∀ p r, (s.proc p).entry = some r → (s.route r).busy ≤ 50))
  | .resume _ | .interrupt _ | .connected _ | .failed _ | .clock _ => isTrue trivial

theorem Inv.unused (inv : Inv s) (unlocked : (s.route r).lock = false) (p : Fin m) :
    (s.proc p).entry ≠ some r := by
  intro entry
  cases unlocked.symm.trans ((inv.fine p).locked entry)

theorem Inv.vacant (inv : Inv s) {name : Hostname} (idle : s.proc p = .idle)
    (fits : Fits s (.getroute p name)) (vacant : s.Vacant name.chars r) :
    (s.route r).lock = false ∧ (s.route r).busy = 0 := by
  have unlocked : (s.route r).lock = false := by
    rcases vacant with empty | ⟨none, full, oldest⟩
    · exact empty.1
    · exact fits idle none full r oldest
  refine ⟨unlocked, ?_⟩
  by_contra busy
  cases unlocked.symm.trans ((inv.sound r).asked busy).1

/-- An entry that nobody has is put on the list for a name. -/
theorem Inv.activate (inv : Inv s) (unlocked : (s.route r).lock = false)
    (free : (s.route r).busy = 0) (hit : Bool) (name : List Char) :
    Inv (((s.set r fun route => { route with hit, age := -4, lock := true }).activate r
      name).become p (.waiting name r)) := by
  obtain ⟨l, listed⟩ := inv.listed
  have out : r ∉ l := fun busy => (listed.2 r).mp busy free
  refine inv.change r p (.waiting name r) (fun r' other => ?_) rfl (fun _ listed => listed)
    inv.time ⟨r :: l, ?_, fun r' => ?_⟩ ⟨?_, ?_, ?_⟩ ⟨?_, .inl ⟨?_, .inl ?_⟩⟩ (fun r' same => ?_)
    (fun q _ => inv.unused unlocked q)
  · simp only [Rtab.become, Rtab.activate, Rtab.set, update_of_ne other]
  · simp only [Rtab.become, Rtab.activate, Rtab.set]
    exact listed.1.push out
  · simp only [Rtab.become, Rtab.activate, Rtab.set, List.mem_cons]
    by_cases same : r' = r
    · simp only [same, update_self, true_or, ne_eq, one_ne_zero, not_false_eq_true]
    · simp only [same, update_of_ne same, false_or]
      exact listed.2 r'
  all_goals try simp only [Rtab.become, Rtab.activate, Rtab.set, update_self]
  · exact fun _ => ⟨trivial, trivial⟩
  · exact Int.le_refl 0
  · exact fun zero => absurd rfl zero
  · exact one_ne_zero
  · cases same
    rfl

theorem Inv.getroute (inv : Inv s) {name : Hostname} (idle : s.proc p = .idle)
    (fits : Fits s (.getroute p name)) : Inv (s.getroute p name) := by
  unfold Rtab.getroute
  rcases newroute_cases s name.chars with ⟨r, cached, route⟩ | ⟨r, hit, vacant, route⟩ | none
  · obtain ⟨aged, unlocked, free, same⟩ := cached
    rw [route]
    have young : ((s.set r fun route =>
        { route with hit := true, age := s.time, lock := true }).route r).age > 0 := by
      simp only [Rtab.set, update_self]
      exact inv.time
    simp only [if_pos young]
    obtain ⟨l, listed⟩ := inv.listed
    refine inv.change r p (.holding name.chars r) (fun r' other => ?_) rfl (fun _ listed => listed)
      inv.time ⟨l, listed.1, fun r' => ?_⟩ ⟨?_, ?_, ?_⟩ ⟨?_, ?_, ?_, .inr ?_⟩ (fun r' same => ?_)
      (fun q _ => inv.unused unlocked q)
    · simp only [Rtab.become, Rtab.set, update_of_ne other]
    · rw [listed.2 r']
      simp only [Rtab.become, Rtab.set, update_apply]
      split
      next same => rw [same]
      next => exact Iff.rfl
    all_goals try simp only [Rtab.become, Rtab.set, update_self]
    · exact fun busy => absurd free busy
    · exact le_of_lt inv.time
    · exact fun _ => (inv.sound r).known aged
    · exact free
    · exact ne_of_gt inv.time
    · exact same
    · cases same
      rfl
  · obtain ⟨unlocked, free⟩ := inv.vacant idle fits vacant
    rw [route]
    have old : ¬ ((s.set r fun route =>
        { route with hit, age := -4, lock := true }).route r).age > 0 := by
      simp only [Rtab.set, update_self]
      decide
    simp only [if_neg old]
    exact inv.activate unlocked free hit name.chars
  · rw [none]
    exact inv

/-- An entry is flushed that nobody else has, after whatever was done to it. -/
theorem Inv.flush (inv : Inv s) {r : Fin n} {t : Rtab n m}
    (routes : ∀ r' ≠ r, t.route r' = s.route r')
    (rest : t.proc = s.proc ∧ t.time = s.time ∧ t.reports = s.reports) {l : List (Fin n)}
    (listed : t.Listed l) (only : ∀ q ≠ p, (s.proc q).entry ≠ some r) :
    Inv ((t.rtabflush r).become p .idle) := by
  obtain ⟨listed', route, procs, time, reports⟩ := rtabflush_spec listed r
  refine inv.change r p .idle (fun r' other => ?_) ?_ (fun report listed => ?_) ?_
    ⟨l.erase r, listed'⟩ ⟨?_, ?_, ?_⟩ trivial (fun r' none => by cases none) only
  · simp only [Rtab.become, route, update_of_ne other, routes r' other]
  · simp only [Rtab.become, procs, rest.1]
  · rwa [Rtab.become, reports, rest.2.2]
  · simp only [Rtab.become, time, rest.2.1]
    exact inv.time
  all_goals simp only [Rtab.become, route, update_self]
  · exact fun busy => absurd rfl busy
  · exact Int.le_refl 0
  · exact fun zero => absurd rfl zero

theorem Inv.only (inv : Inv s) (entry : (s.proc p).entry = some r) :
    ∀ q ≠ p, (s.proc q).entry ≠ some r :=
  fun q other entry' => other (inv.single q p r entry' entry)

theorem Inv.connected (inv : Inv s) {name : List Char} (holding : s.proc p = .holding name r) :
    Inv ((s.set r fun route => { route with age := s.time, lock := false }).become p .idle) := by
  obtain ⟨l, listed⟩ := inv.listed
  have fine := inv.fine p
  rw [holding] at fine
  obtain ⟨-, free, aged, -⟩ := fine
  refine inv.change r p .idle (fun r' other => ?_) rfl (fun _ listed => listed) inv.time
    ⟨l, listed.1, fun r' => ?_⟩ ⟨?_, ?_, ?_⟩ trivial (fun r' none => by cases none)
    (inv.only (by rw [holding]; rfl))
  · simp only [Rtab.become, Rtab.set, update_of_ne other]
  · rw [listed.2 r']
    simp only [Rtab.become, Rtab.set, update_apply]
    split
    next same => rw [same]
    next => exact Iff.rfl
  all_goals simp only [Rtab.become, Rtab.set, update_self]
  · exact fun busy => absurd free busy
  · exact le_of_lt inv.time
  · exact fun _ => (inv.sound r).known aged

/-- A process moves on, and its entry stays as it is. -/
theorem Inv.become (inv : Inv s) {phase : Phase n} (fine : s.Fine phase)
    (mine : ∀ r, phase.entry = some r → (s.proc p).entry = some r) : Inv (s.become p phase) where
  listed := inv.listed
  sound r := (inv.sound r).congr rfl fun _ listed => listed
  time := inv.time
  fine q := by
    by_cases same : q = p
    · subst same
      simp only [Rtab.become, update_self]
      exact fine
    · simp only [Rtab.become, update_of_ne same]
      exact inv.fine q
  single := by
    have old : ∀ q r, ((s.become p phase).proc q).entry = some r → (s.proc q).entry = some r := by
      intro q r entry
      by_cases same : q = p
      · subst same
        simp only [Rtab.become, update_self] at entry
        exact mine r entry
      · simpa only [Rtab.become, update_of_ne same] using entry
    exact fun q q' r entry entry' => inv.single q q' r (old q r entry) (old q' r entry')

theorem Inv.resume (inv : Inv s) {name : List Char} (waiting : s.proc p = .waiting name r) :
    Inv (s.resume p name r) := by
  have fine := inv.fine p
  have entry : (s.proc p).entry = some r := by
    rw [waiting]
    rfl
  rw [waiting] at fine
  obtain ⟨locked, ⟨busy, known⟩ | ⟨free, aged, same⟩⟩ := fine
  · have fresh := ((inv.sound r).asked busy).2
    unfold Rtab.resume
    split
    next =>
      obtain ⟨l, listed⟩ := inv.listed
      obtain ⟨listed', route, rest⟩ := deactivate_spec listed r
      have gone : ((s.deactivate r).route r).age = 0 := by
        rw [route, update_self]
        exact fresh
      simp only [if_pos gone]
      refine inv.flush (fun r' other => ?_) rest listed' (inv.only entry)
      rw [route, update_of_ne other]
    next => exact inv
  · unfold Rtab.resume
    rw [if_pos (.inl aged)]
    simp only [if_neg (not_not.mpr free), if_neg aged]
    refine inv.become ⟨locked, free, aged, .inl same⟩ fun r' here => ?_
    cases here
    exact entry

/-- A reply goes to an entry that is asked for, or to none. -/
theorem rememberFrom_cases (name : List Char) (addr : Addr) (fuel : Nat) (head : Option (Fin n))
    (path : Links.Path s.active head l) :
    Rtab.rememberFrom name addr fuel head s = s ∨
      ∃ r ∈ l, eqnstr name (s.route r).name NSIZE = true ∧
        Rtab.rememberFrom name addr fuel head s =
          (s.set r fun route => { route with addr, age := s.time }).deactivate r := by
  induction fuel generalizing head l with
  | zero => exact .inl rfl
  | succ fuel ih =>
      cases head with
      | none => exact .inl rfl
      | some r =>
          obtain ⟨rest, rfl, path'⟩ := Links.path_some.mp path
          rw [Rtab.rememberFrom]
          split
          next same => exact .inr ⟨r, List.mem_cons_self .., same, rfl⟩
          next =>
            rcases ih (s.active r) path' with none | ⟨r', listed, same, found⟩
            · exact .inl none
            · exact .inr ⟨r', List.mem_cons_of_mem _ listed, same, found⟩

theorem Inv.reports (inv : Inv s) (reports : List (List Char × Addr))
    (more : ∀ report ∈ s.reports, report ∈ reports) : Inv { s with reports } where
  listed := inv.listed
  sound r := (inv.sound r).congr rfl more
  fine p := (inv.fine p).congr fun _ _ => rfl
  single := inv.single
  time := inv.time

theorem answer_spec (listed : s.Listed l) (r : Fin n) (addr : Addr) :
    ((s.set r fun route => { route with addr, age := s.time }).deactivate r).Listed (l.erase r) ∧
      ((s.set r fun route => { route with addr, age := s.time }).deactivate r).route =
        update s.route r { s.route r with addr, age := s.time, busy := 0 } ∧
      ((s.set r fun route => { route with addr, age := s.time }).deactivate r).proc = s.proc ∧
      ((s.set r fun route => { route with addr, age := s.time }).deactivate r).time = s.time ∧
      ((s.set r fun route => { route with addr, age := s.time }).deactivate r).reports =
        s.reports := by
  have listed' : (s.set r fun route => { route with addr, age := s.time }).Listed l := by
    refine ⟨listed.1, fun r' => ?_⟩
    rw [listed.2 r']
    simp only [Rtab.set, update_apply]
    split
    next same => rw [same]
    next => exact Iff.rfl
  obtain ⟨listed'', route, rest⟩ := deactivate_spec listed' r
  refine ⟨listed'', ?_, rest⟩
  rw [route]
  simp only [Rtab.set, update_self, update_idem]

theorem Inv.remember (inv : Inv s) {direct : Bool} {name : List Char} {addr : Addr}
    (fits : Fits s (.remember direct name addr)) : Inv (s.remember direct name addr) := by
  cases direct with
  | false => exact inv
  | true =>
      have inv' := inv.reports ((name, addr) :: s.reports) fun _ listed =>
        List.mem_cons_of_mem _ listed
      obtain ⟨l, listed⟩ := inv'.listed
      have code : s.remember true name addr = Rtab.rememberFrom name addr n s.bcast
          { s with reports := (name, addr) :: s.reports } := rfl
      rw [code]
      rcases rememberFrom_cases name addr n s.bcast listed.1 with none | ⟨r, member, same, found⟩
      · rw [none]
        exact inv'
      · rw [found]
        have busy : (s.route r).busy ≠ 0 := (listed.2 r).mp member
        obtain ⟨listed', route, procs, time, reports⟩ := answer_spec listed r addr
        generalize (({ s with reports := (name, addr) :: s.reports } : Rtab n m).set r
          fun route => { route with addr, age := s.time }).deactivate r = t at *
        have here := congrFun route r
        rw [update_self] at here
        refine inv'.touch r (fun r' other => ?_) procs (fun report listed => ?_) ?_
          ⟨_, listed'⟩ ⟨?_, ?_, ?_⟩ fun p entry => ?_
        · rw [route, update_of_ne other]
        · rwa [reports]
        · rw [time]
          exact inv.time
        all_goals try simp only [here]
        · exact fun busy => absurd rfl busy
        · exact le_of_lt inv.time
        · intro _
          refine ⟨name, ?_, same⟩
          rw [reports]
          exact List.mem_cons_self ..
        · have fine := inv.fine p
          have entry : (s.proc p).entry = some r := entry
          have named : (s.route r).name ≠ [] ∨ eqnstr name [] NSIZE ≠ true := by
            by_cases empty : eqnstr name [] NSIZE = true
            · exact .inl (fits rfl empty p r entry busy)
            · exact .inr empty
          cases phase : s.proc p with
          | idle => trivial
          | holding wanted r' =>
              rw [phase] at fine entry
              cases entry
              exact absurd fine.2.1 busy
          | waiting wanted r' =>
              rw [phase] at fine entry
              cases entry
              obtain ⟨locked, ⟨-, known⟩ | ⟨free, -⟩⟩ := fine
              · refine ⟨?_, .inr ⟨?_, ?_, ?_⟩⟩
                all_goals simp only [here]
                · exact locked
                · exact ne_of_gt inv.time
                · refine known.resolve_right fun empty => ?_
                  rcases named with some | other
                  · exact some empty
                  · exact other (empty ▸ same)
              · exact absurd free busy

/-- An entry is tried once more, and loses its name when it was tried often enough. -/
def Rtab.tried (s : Rtab n m) (r : Fin n) : Rtab n m :=
  let s := s.set r fun route => { route with busy := route.busy + 1 }
  if (s.route r).busy > 4 then s.set r fun route => { route with age := 0, name := [] } else s

theorem tried_route (s : Rtab n m) (r : Fin n) :
    ∃ name age, (s.tried r).route = update s.route r
        { s.route r with busy := (s.route r).busy + 1, name, age } ∧
      (name = (s.route r).name ∧ age = (s.route r).age ∨ name = [] ∧ age = 0) ∧
      (s.tried r).active = s.active ∧ (s.tried r).bcast = s.bcast ∧ (s.tried r).proc = s.proc ∧
      (s.tried r).time = s.time ∧ (s.tried r).reports = s.reports := by
  unfold Rtab.tried
  simp only
  split
  next =>
    refine ⟨[], 0, ?_, .inr ⟨rfl, rfl⟩, rfl, rfl, rfl, rfl, rfl⟩
    simp only [Rtab.set, update_self, update_idem]
  next => exact ⟨_, _, rfl, .inl ⟨rfl, rfl⟩, rfl, rfl, rfl, rfl, rfl⟩

/-- The rebroadcast loop.  The entries in front are done with. -/
theorem Inv.timerFrom (inv : Inv s) (fuel : Nat) {pre post : List (Fin n)}
    (listed : s.Listed (pre ++ post))
    (few : ∀ p, ∀ r ∈ post, (s.proc p).entry = some r → (s.route r).busy ≤ 50) :
    Inv (Rtab.timerFrom fuel post.head? s) := by
  induction fuel generalizing s pre post with
  | zero => exact inv
  | succ fuel ih =>
      cases post with
      | nil => exact inv
      | cons r post =>
          have nodup := listed.1.nodup
          have next : s.active r = post.head? := listed.1.append.2.head_eq
          have apart := (List.nodup_append.mp nodup).2.2
          have front : r ∉ pre := fun early => apart r early r (List.mem_cons_self ..) rfl
          have behind : r ∉ post := (List.nodup_cons.mp (List.nodup_append.mp nodup).2.1).1
          have busy : (s.route r).busy ≠ 0 := (listed.2 r).mp (by simp)
          rw [List.head?_cons, Rtab.timerFrom, next]
          split
          next many =>
            obtain ⟨listed', route, procs, time, reports⟩ := rtabflush_spec listed r
            rw [List.erase_append_right _ front, List.erase_cons_head] at listed'
            have unused : ∀ p, (s.proc p).entry ≠ some r := fun p entry =>
              absurd (few p r (List.mem_cons_self ..) entry) (not_le.mpr many)
            refine ih ?_ listed' fun p r' later entry => ?_
            · refine inv.touch r (fun r' other => ?_) procs (fun report listed => ?_) ?_
                ⟨_, listed'⟩ ⟨?_, ?_, ?_⟩ fun p entry => absurd entry (unused p)
              · simp only [route, update_of_ne other]
              · rwa [reports]
              · rw [time]
                exact inv.time
              all_goals simp only [route, update_self]
              · exact fun busy => absurd rfl busy
              · exact Int.le_refl 0
              · exact fun zero => absurd rfl zero
            · have other : r' ≠ r := ne_of_mem_of_not_mem later behind
              rw [route, update_of_ne other]
              rw [procs] at entry
              exact few p r' (List.mem_cons_of_mem _ later) entry
          next few' =>
            have code : (if ((s.set r fun route => { route with busy := route.busy + 1 }).route
                r).busy > 4 then
                (s.set r fun route => { route with busy := route.busy + 1 }).set r
                  fun route => { route with age := 0, name := [] }
              else s.set r fun route => { route with busy := route.busy + 1 }) = s.tried r := rfl
            simp only [code]
            obtain ⟨name, age, route, old, active, bcast, procs, time, reports⟩ := tried_route s r
            generalize s.tried r = t at *
            have here := congrFun route r
            rw [update_self] at here
            have fresh := ((inv.sound r).asked busy).2
            have zero : age = 0 := old.elim (fun same => same.2.trans fresh) And.right
            have listed' : t.Listed ((pre ++ [r]) ++ post) := by
              rw [List.append_assoc, Rtab.Listed, active, bcast]
              refine ⟨listed.1, fun r' => ?_⟩
              have member := listed.2 r'
              rw [List.singleton_append, member, route, update_apply]
              split
              next same => simp only [same, busy, ne_eq, not_false_eq_true, Nat.succ_ne_zero]
              next => exact Iff.rfl
            refine ih ?_ listed' fun p r' later entry => ?_
            · refine inv.touch r (fun r' other => ?_) procs (fun report listed => ?_) ?_
                ⟨_, listed'⟩ ⟨?_, ?_, ?_⟩ fun p entry => ?_
              · rw [route, update_of_ne other]
              · rwa [reports]
              · rw [time]
                exact inv.time
              all_goals try simp only [here, zero]
              · exact fun _ => ⟨((inv.sound r).asked busy).1, trivial⟩
              · exact Int.le_refl 0
              · exact fun zero => absurd rfl zero
              · have fine := inv.fine p
                cases phase : s.proc p with
                | idle => trivial
                | holding wanted r' =>
                    rw [phase] at fine entry
                    cases entry
                    exact absurd fine.2.1 busy
                | waiting wanted r' =>
                    rw [phase] at fine entry
                    cases entry
                    obtain ⟨locked, ⟨-, known⟩ | ⟨free, -⟩⟩ := fine
                    · refine ⟨?_, .inl ⟨?_, ?_⟩⟩
                      all_goals simp only [here]
                      · exact locked
                      · exact Nat.succ_ne_zero _
                      · rcases old with ⟨same, -⟩ | ⟨empty, -⟩
                        · exact same ▸ known
                        · exact .inr empty
                    · exact absurd free busy
            · have other : r' ≠ r := ne_of_mem_of_not_mem later behind
              rw [route, update_of_ne other]
              rw [procs] at entry
              exact few p r' (List.mem_cons_of_mem _ later) entry

/-- What is asked of an event keeps everything in order. -/
theorem Inv.step (inv : Inv s) {e : Event m} (fits : Fits s e) : Inv (s.step e) := by
  cases e with
  | getroute p name =>
      rw [Rtab.step]
      split
      next idle => exact inv.getroute idle fits
      next => exact inv
  | resume p =>
      cases phase : s.proc p with
      | waiting name r =>
          simp only [Rtab.step, phase]
          exact inv.resume phase
      | _ =>
          simp only [Rtab.step, phase]
          exact inv
  | interrupt p =>
      cases phase : s.proc p with
      | waiting name r =>
          simp only [Rtab.step, phase]
          exact inv.become trivial fun r none => by cases none
      | _ =>
          simp only [Rtab.step, phase]
          exact inv
  | connected p =>
      cases phase : s.proc p with
      | holding name r =>
          simp only [Rtab.step, phase]
          exact inv.connected phase
      | _ =>
          simp only [Rtab.step, phase]
          exact inv
  | failed p =>
      cases phase : s.proc p with
      | holding name r =>
          simp only [Rtab.step, phase]
          obtain ⟨l, listed⟩ := inv.listed
          refine inv.flush (fun _ _ => rfl) ⟨rfl, rfl, rfl⟩ listed (inv.only ?_)
          rw [phase]
          rfl
      | _ =>
          simp only [Rtab.step, phase]
          exact inv
  | remember direct name addr => exact inv.remember fits
  | timer =>
      obtain ⟨l, listed⟩ := inv.listed
      have few : ∀ p, ∀ r ∈ l, (s.proc p).entry = some r → (s.route r).busy ≤ 50 :=
        fun p r _ => fits p r
      have after := inv.timerFrom n (show s.Listed ([] ++ l) from listed) few
      rwa [← listed.1.head_eq] at after
  | clock time =>
      exact {
        listed := inv.listed
        sound := fun r => (inv.sound r).congr rfl fun _ listed => listed
        fine := fun p => (inv.fine p).congr fun _ _ => rfl
        single := inv.single
        time := Int.lt_add_one_of_le (Int.natCast_nonneg time) }

theorem Inv.initial (n m : Nat) : Inv (Rtab.initial n m) where
  listed := ⟨[], rfl, fun r => by simp only [List.not_mem_nil, Rtab.initial, ne_eq,
    not_true_eq_false]⟩
  sound _ := ⟨fun busy => absurd rfl busy, Int.le_refl 0, fun aged => absurd rfl aged⟩
  fine _ := trivial
  single _ _ _ none := by cases none
  time := Int.zero_lt_one

/-! ## The cache over its runs -/

/-- The entry that a process is handed was not locked. -/
def Unlocked (s : Rtab n m) : Event m → Prop
  | .getroute p name => s.proc p = .idle →
      ∀ r, (s.newroute name.chars).2 = some r → (s.route r).lock = false
  | _ => True

/-- The list has the entries that are busy, each one once, and what was returned for a
    name was reported for it. -/
def Rtab.Orderly (s : Rtab n m) : Prop :=
  (∃ l : List (Fin n), Links.Path s.active s.bcast l ∧ l.Nodup ∧
    ∀ r, r ∈ l ↔ (s.route r).busy ≠ 0) ∧
  ∀ p name r, s.proc p = .holding name r → s.Reported name (s.route r).addr

theorem Inv.orderly (inv : Inv s) : s.Orderly := by
  obtain ⟨l, listed⟩ := inv.listed
  refine ⟨⟨l, listed.1, listed.1.nodup, listed.2⟩, fun p name r holding => ?_⟩
  have fine := inv.fine p
  rw [holding] at fine
  exact ((inv.sound r).known fine.2.2.1).serves fine.2.2.2

theorem Inv.unlocked (inv : Inv s) {e : Event m} (fits : Fits s e) : Unlocked s e := by
  cases e with
  | getroute p name =>
      intro idle r handed
      rcases newroute_cases s name.chars with ⟨r', cached, route⟩ | ⟨r', hit, vacant, route⟩ | none
      · rw [route] at handed
        cases handed
        exact cached.2.1
      · rw [route] at handed
        cases handed
        exact (inv.vacant idle fits vacant).1
      · rw [none] at handed
        cases handed
  | _ => trivial

theorem orderly_along (n m : Nat) (events : List (Event m))
    (fits : Run.Along Rtab.step Fits (Rtab.initial n m) events) :
    Run.Along Rtab.step Unlocked (Rtab.initial n m) events ∧
      (Run.exec Rtab.step (Rtab.initial n m) events).Orderly :=
  have keep : ∀ s e, Inv s → Fits s e → Inv (Rtab.step s e) := fun _ _ inv fits => inv.step fits
  have start := Inv.initial n m
  ⟨Run.along_of_invariant keep (fun _ _ inv fits => inv.unlocked fits) start fits,
    (Run.invariant keep start fits).orderly⟩

theorem orderly_along_twoHosts :
    Run.Along Rtab.step Unlocked (Rtab.initial 2 2)
        [.getroute 0 ⟨['a'], List.cons_ne_nil _ _, by decide⟩,
          .getroute 1 ⟨['b'], List.cons_ne_nil _ _, by decide⟩, .timer,
          .remember true ['a', ':', 'x'] ⟨7, 8⟩, .resume 0, .connected 0, .interrupt 1,
          .getroute 1 ⟨['a'], List.cons_ne_nil _ _, by decide⟩] ∧
      (Run.exec Rtab.step (Rtab.initial 2 2)
        [.getroute 0 ⟨['a'], List.cons_ne_nil _ _, by decide⟩,
          .getroute 1 ⟨['b'], List.cons_ne_nil _ _, by decide⟩, .timer,
          .remember true ['a', ':', 'x'] ⟨7, 8⟩, .resume 0, .connected 0, .interrupt 1,
          .getroute 1 ⟨['a'], List.cons_ne_nil _ _, by decide⟩]).Orderly :=
  orderly_along 2 2 _ (by decide)

/-- One process gets an entry, and another one is interrupted in as many lookups as
    there are other entries. -/
def crowd : List (Event 2) :=
  .getroute 0 ⟨['a'], List.cons_ne_nil _ _, by decide⟩ :: .remember true ['a'] ⟨7, 8⟩ ::
    .resume 0 :: (List.replicate 19
      [.getroute 1 ⟨['b'], List.cons_ne_nil _ _, by decide⟩, .interrupt 1]).flatten

/-- A name that the timer gives up, and a reply without a name before the process runs. -/
def nameless : List (Event 2) :=
  [.getroute 0 ⟨['a'], List.cons_ne_nil _ _, by decide⟩, .timer, .timer, .timer, .timer,
    .remember true [] ⟨7, 8⟩, .resume 0]

/-- The entry that the first process has is handed to the second one, and an address that
    was not reported for a name is returned for it. -/
theorem crowd_locked_and_nameless_unreported :
    ¬ (∀ (m : Nat) (events : List (Event m)),
        Run.Along Rtab.step Unlocked (Rtab.initial RSIZE m) events) ∧
      ¬ ∀ (m : Nat) (events : List (Event m)),
        (Run.exec Rtab.step (Rtab.initial RSIZE m) events).Orderly := by
  constructor
  · intro always
    have along := always 2 (crowd ++ [.getroute 1 ⟨['c'], List.cons_ne_nil _ _, by decide⟩])
    have last := (Run.along_append.mp along).2.1
    have idle : (Run.exec Rtab.step (Rtab.initial RSIZE 2) crowd).proc 1 = .idle := by
      decide
    have handed : ((Run.exec Rtab.step (Rtab.initial RSIZE 2) crowd).newroute ['c']).2 =
        some 0 := by
      decide
    have locked : ((Run.exec Rtab.step (Rtab.initial RSIZE 2) crowd).route 0).lock = true := by
      decide
    cases locked.symm.trans (last idle 0 handed)
  · intro always
    have holding : (Run.exec Rtab.step (Rtab.initial RSIZE 2) nameless).proc 0 =
        .holding ['a'] 0 := by
      decide
    obtain ⟨name, listed, same⟩ := (always 2 nameless).2 0 ['a'] 0 holding
    have reports : (Run.exec Rtab.step (Rtab.initial RSIZE 2) nameless).reports =
        [([], ⟨7, 8⟩)] := by
      decide
    rw [reports] at listed
    obtain ⟨rfl, -⟩ := Prod.mk.inj (List.mem_singleton.mp listed)
    cases same

end

end Irix.Xns
