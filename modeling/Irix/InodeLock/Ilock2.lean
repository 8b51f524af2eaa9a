import Irix.Lib.Run
import Mathlib.Data.Fintype.Lattice
import Mathlib.Data.Fintype.EquivFin
import Mathlib.Order.WithBot

/-! # Locking two inodes

A process that has an inode locked and wants another one may wait for it only if it comes
later in the order of addresses. `ilock2` is for the others: it lets the one go before it
waits for the other.
-/

namespace Irix.InodeLock

open Function Lib.Run

/-- Where a process is. -/
inductive Pc (I : Type) where
  | idle
  /-- in `ilock (ip)`, to lock `ip2` afterwards, with `ilock2` or with `ilock` -/
  | first (ip ip2 : I) (two : Bool)
  /-- in `ilock (ip2)`, with `ip` locked -/
  | second (ip ip2 : I)
  /-- in `ilock2 (ip, ip2)`, in the `ilock (ip)` behind `iunlock (ip2)` -/
  | again (ip ip2 : I)
  /-- in `ilock2 (ip, ip2)`, in the `ilock (ip2)` behind `iunlock (ip)` -/
  | back (ip ip2 : I)
  | both (ip ip2 : I)
  /-- one of the two is unlocked -/
  | one (ip : I)

/-- The inodes and the processes. Which process has locked an inode is not in its flags. -/
structure Kernel (P I : Type) where
  /-- `ILOCKED` -/
  locked : I → Bool
  /-- `IWANT` -/
  want : I → Bool
  sleeping : P → Option I
  pc : P → Pc I
  holds : P → I → Bool

inductive Move (P I : Type) where
  /-- two inodes are to be locked, the second one with `ilock2` or with `ilock` -/
  | start (p : P) (ip ip2 : I) (two : Bool)
  /-- a process that is not asleep goes on; of two inodes it unlocks the one or the other
      first -/
  | resume (p : P) (other : Bool)

variable {P I : Type} [DecidableEq P]

namespace Kernel

section

variable [DecidableEq I] (s : Kernel P I) (p : P)

def goto (pc : Pc I) : Kernel P I := { s with pc := update s.pc p pc }

def wakeup (ip : I) : P → Option I := fun q => if s.sleeping q = some ip then none else s.sleeping q

/-- `while (ip->i_flag & ILOCKED)`: where the test fails the process can go on. -/
def enter (ip : I) (pc : Pc I) : Kernel P I :=
  if s.locked ip then
    { s with
      want := update s.want ip true
      sleeping := update s.sleeping p (some ip)
      pc := update s.pc p pc }
  else s.goto p pc

def lock (ip : I) : Kernel P I :=
  { s with
    locked := update s.locked ip true
    holds := update s.holds p (update (s.holds p) ip true) }

/-- `ILOCK`, to go on with `next`. -/
def ilock (ip : I) (pc : Pc I) (next : Kernel P I → Kernel P I) : Kernel P I :=
  if s.locked ip then s.enter p ip pc else next (s.lock p ip)

/-- `IUNLOCK` -/
def iunlock (ip : I) : Kernel P I :=
  { s with
    locked := update s.locked ip false
    want := update s.want ip false
    sleeping := if s.want ip then s.wakeup ip else s.sleeping
    holds := update s.holds p (update (s.holds p) ip false) }

/-- The loop of `ilock2`, from its beginning, with `ip2` locked. -/
def ilock2 (ip ip2 : I) : Kernel P I :=
  if s.locked ip then (s.iunlock p ip2).enter p ip (.again ip ip2)
  else s.ilock p ip (.second ip2 ip) fun s => s.goto p (.both ip ip2)

/-- The loop of `ilock2`, from where `ip` has been locked. -/
def ilock2Half (ip ip2 : I) : Kernel P I :=
  if s.locked ip2 then (s.iunlock p ip).enter p ip2 (.back ip ip2)
  else s.ilock p ip2 (.second ip ip2) fun s => s.goto p (.both ip ip2)

/-- With the first inode locked, the second one is locked. -/
def lockSecond (ip ip2 : I) (two : Bool) : Kernel P I :=
  if two then s.ilock2 p ip2 ip else s.ilock p ip2 (.second ip ip2) fun s => s.goto p (.both ip ip2)

def lockBoth (ip ip2 : I) (two : Bool) : Kernel P I :=
  s.ilock p ip (.first ip ip2 two) fun s => s.lockSecond p ip ip2 two

def resume (other : Bool) : Kernel P I :=
  if s.sleeping p = none then
    match s.pc p with
    | .idle => s
    | .first ip ip2 two => s.lockBoth p ip ip2 two
    | .second ip ip2 => s.ilock p ip2 (.second ip ip2) fun s => s.goto p (.both ip ip2)
    | .again ip ip2 => s.ilock p ip (.again ip ip2) fun s => s.ilock2Half p ip ip2
    | .back ip ip2 => s.ilock p ip2 (.back ip ip2) fun s => s.ilock2 p ip ip2
    | .both ip ip2 =>
        if other then (s.iunlock p ip2).goto p (.one ip) else (s.iunlock p ip).goto p (.one ip2)
    | .one ip => (s.iunlock p ip).goto p .idle
  else s

end

/-- By the documented scheme two inodes are locked with `ilock` only in their order. -/
def step [LinearOrder I] (s : Kernel P I) : Move P I → Kernel P I
  | .start p ip ip2 two =>
      match s.pc p with
      | .idle => if ip ≠ ip2 ∧ (two = false → ip < ip2) then s.lockBoth p ip ip2 two else s
      | _ => s
  | .resume p other => s.resume p other

def initial : Kernel P I where
  locked _ := false
  want _ := false
  sleeping _ := none
  pc _ := .idle
  holds _ _ := false

end Kernel

/-! ## Invariants -/

/-- What a process has locked. -/
def Pc.Held : Pc I → I → Prop
  | .second ip _, x => x = ip
  | .both ip ip2, x => x = ip ∨ x = ip2
  | .one ip, x => x = ip
  | _, _ => False

/-- What a process may wait for. -/
def Pc.waitsFor : Pc I → Option I
  | .first ip _ _ => some ip
  | .second _ ip2 => some ip2
  | .again ip _ => some ip
  | .back _ ip2 => some ip2
  | _ => none

/-- A process that waits with an inode locked waits for a later one. -/
def Pc.Ordered [LinearOrder I] : Pc I → Prop
  | .first ip ip2 two => ip ≠ ip2 ∧ (two = false → ip < ip2)
  | .second ip ip2 => ip < ip2
  | .again ip ip2 => ip ≠ ip2
  | .back ip ip2 => ip ≠ ip2
  | .both ip ip2 => ip ≠ ip2
  | _ => True

/-- What holds while a process runs, with what it has locked. -/
structure Running [LinearOrder I] (s : Kernel P I) (p : P) (held : I → Prop) : Prop where
  mine : ∀ x, s.holds p x = true ↔ held x
  others : ∀ q, q ≠ p → ∀ x, s.holds q x = true ↔ (s.pc q).Held x
  locked : ∀ x, s.locked x = true ↔ ∃ q, s.holds q x = true
  once : ∀ q r x, s.holds q x = true → s.holds r x = true → q = r
  asleep : ∀ q x, s.sleeping q = some x →
    q ≠ p ∧ (s.pc q).waitsFor = some x ∧ s.locked x = true ∧ s.want x = true
  ordered : ∀ q, q ≠ p → (s.pc q).Ordered

/-- What holds between the moves. -/
structure Sound [LinearOrder I] (s : Kernel P I) : Prop where
  holds : ∀ q x, s.holds q x = true ↔ (s.pc q).Held x
  locked : ∀ x, s.locked x = true ↔ ∃ q, s.holds q x = true
  once : ∀ q r x, s.holds q x = true → s.holds r x = true → q = r
  asleep : ∀ q x, s.sleeping q = some x →
    (s.pc q).waitsFor = some x ∧ s.locked x = true ∧ s.want x = true
  ordered : ∀ q, (s.pc q).Ordered

section

variable [LinearOrder I] {s : Kernel P I} {p : P} {held : I → Prop} {x y : I} {pc : Pc I}

omit [DecidableEq P] in
theorem Sound.running (sound : Sound s) (awake : s.sleeping p = none) :
    Running s p (s.pc p).Held where
  mine := sound.holds p
  others q _ := sound.holds q
  locked := sound.locked
  once := sound.once
  asleep q x sleeps := by
    refine ⟨?_, sound.asleep q x sleeps⟩
    rintro rfl
    rw [awake] at sleeps
    cases sleeps
  ordered q _ := sound.ordered q

theorem Running.lock (running : Running s p held) (free : s.locked x = false) :
    Running (s.lock p x) p fun y => y = x ∨ held y := by
  have none : ∀ q, s.holds q x = false := fun q => by
    by_contra some
    rw [Bool.not_eq_false] at some
    have := (running.locked x).mpr ⟨q, some⟩
    rw [free] at this
    cases this
  have holds : ∀ q y, (s.lock p x).holds q y = true ↔ (q = p ∧ y = x) ∨ s.holds q y = true := by
    intro q y
    by_cases me : q = p
    · by_cases here : y = x <;> simp [Kernel.lock, me, here]
    · simp [Kernel.lock, me]
  refine ⟨fun y => ?_, fun q other y => ?_, fun y => ?_, fun q r y => ?_, fun q y sleeps => ?_, running.ordered⟩
  · simp [holds, running.mine]
  · simp [other, running.others q other, Kernel.lock]
  · simp only [holds]
    by_cases here : y = x
    · simp [Kernel.lock, here]
    · simp [Kernel.lock, here, running.locked]
  · rw [holds, holds]
    intro first second
    cases first with
    | inl first =>
        obtain ⟨rfl, rfl⟩ := first
        cases second with
        | inl second => exact second.1.symm
        | inr second => exact absurd second (by simp [none])
    | inr first =>
        cases second with
        | inl second =>
            obtain ⟨rfl, rfl⟩ := second
            exact absurd first (by simp [none])
        | inr second => exact running.once q r y first second
  · obtain ⟨other, waits, locked, want⟩ := running.asleep q y sleeps
    refine ⟨other, waits, ?_, want⟩
    simp only [Kernel.lock]
    by_cases here : y = x
    · simp [here]
    · simp [here, locked]

theorem Running.iunlock (running : Running s p held) (mine : held x) :
    Running (s.iunlock p x) p fun y => y ≠ x ∧ held y := by
  have alone : ∀ q, s.holds q x = true → q = p := fun q holds =>
    running.once q p x holds ((running.mine x).mpr mine)
  have holds : ∀ q y, (s.iunlock p x).holds q y = true ↔ y ≠ x ∧ s.holds q y = true := by
    intro q y
    by_cases me : q = p
    · by_cases here : y = x <;> simp [Kernel.iunlock, me, here]
    · simp only [Kernel.iunlock, update_of_ne me, ne_eq]
      constructor
      · intro has
        refine ⟨?_, has⟩
        rintro rfl
        exact me (alone q has)
      · exact And.right
  have sleeping : ∀ q y, (s.iunlock p x).sleeping q = some y → y ≠ x ∧ s.sleeping q = some y := by
    intro q y sleeps
    simp only [Kernel.iunlock] at sleeps
    split at sleeps
    · next want =>
        simp only [Kernel.wakeup] at sleeps
        split at sleeps
        · cases sleeps
        · next other =>
            refine ⟨?_, sleeps⟩
            rintro rfl
            exact other sleeps
    · next none =>
        refine ⟨?_, sleeps⟩
        rintro rfl
        exact none (running.asleep q y sleeps).2.2.2
  refine ⟨fun y => ?_, fun q other y => ?_, fun y => ?_, fun q r y => ?_, fun q y sleeps => ?_, running.ordered⟩
  · rw [holds, running.mine]
  · rw [holds, running.others q other]
    refine ⟨And.right, fun has => ⟨?_, has⟩⟩
    rintro rfl
    exact other (alone q ((running.others q other y).mpr has))
  · simp only [holds]
    by_cases here : y = x
    · simp [Kernel.iunlock, here]
    · simp [Kernel.iunlock, here, running.locked]
  · rw [holds, holds]
    rintro ⟨-, first⟩ ⟨-, second⟩
    exact running.once q r y first second
  · obtain ⟨apart, sleeps⟩ := sleeping q y sleeps
    obtain ⟨other, waits, locked, want⟩ := running.asleep q y sleeps
    exact ⟨other, waits, by simp [Kernel.iunlock, apart, locked], by simp [Kernel.iunlock, apart, want]⟩

/-- The process stops where it is known what it has locked. -/
theorem Running.goto (running : Running s p held) (known : ∀ y, held y ↔ pc.Held y)
    (ordered : pc.Ordered) : Sound (s.goto p pc) := by
  refine ⟨fun q y => ?_, running.locked, running.once, fun q y sleeps => ?_, fun q => ?_⟩
  · by_cases me : q = p
    · subst me
      simp [Kernel.goto, running.mine, known]
    · simp [Kernel.goto, me, running.others q me]
  · obtain ⟨other, waits⟩ := running.asleep q y sleeps
    simp only [Kernel.goto, update_of_ne other]
    exact waits
  · by_cases me : q = p
    · subst me
      simpa [Kernel.goto] using ordered
    · simpa [Kernel.goto, me] using running.ordered q me

theorem Running.enter (running : Running s p held) (known : ∀ y, held y ↔ pc.Held y)
    (waits : pc.waitsFor = some x) (ordered : pc.Ordered) : Sound (s.enter p x pc) := by
  have stopped := running.goto known ordered
  unfold Kernel.enter
  split
  · next locked =>
      refine ⟨stopped.holds, stopped.locked, stopped.once, fun q y sleeps => ?_, stopped.ordered⟩
      by_cases me : q = p
      · subst me
        simp only [update_self, Option.some.injEq] at sleeps
        subst sleeps
        simp [waits, locked]
      · simp only [update_of_ne me] at sleeps
        obtain ⟨wants, lockedY, want⟩ := stopped.asleep q y sleeps
        refine ⟨wants, lockedY, ?_⟩
        by_cases here : y = x
        · simp [here]
        · simp only [update_of_ne here]
          exact want
  · exact stopped

/-- `ILOCK` keeps the invariant if what comes after it does. -/
theorem Running.ilock {next : Kernel P I → Kernel P I} (running : Running s p held)
    (known : ∀ y, held y ↔ pc.Held y) (waits : pc.waitsFor = some x) (ordered : pc.Ordered)
    (sound : ∀ s, Running s p (fun y => y = x ∨ held y) → Sound (next s)) :
    Sound (s.ilock p x pc next) := by
  unfold Kernel.ilock
  split
  · exact running.enter known waits ordered
  · next free => exact sound _ (running.lock (by simpa using free))

theorem Running.ilock_free {next : Kernel P I → Kernel P I} (running : Running s p held)
    (free : s.locked x = false)
    (sound : ∀ s, Running s p (fun y => y = x ∨ held y) → Sound (next s)) :
    Sound (s.ilock p x pc next) := by
  simp only [Kernel.ilock, free, Bool.false_eq_true, if_false]
  exact sound _ (running.lock free)

omit [DecidableEq P] in
theorem Running.congr {held' : I → Prop} (running : Running s p held) (same : ∀ y, held y ↔ held' y) :
    Running s p held' :=
  ⟨fun y => (running.mine y).trans (same y), running.others, running.locked, running.once,
    running.asleep, running.ordered⟩

/-- `ilock2` stops with nothing locked, or with both. -/
theorem Running.ilock2 (running : Running s p fun z => z = y) (apart : x ≠ y) :
    Sound (s.ilock2 p x y) := by
  unfold Kernel.ilock2
  split
  · exact (running.iunlock rfl).enter (by simp [Pc.Held]) rfl apart
  · next free =>
      refine running.ilock_free (by simpa using free) fun s both => ?_
      exact both.goto (fun z => Iff.rfl) apart

theorem Running.ilock2Half (running : Running s p fun z => z = x) (apart : x ≠ y) :
    Sound (s.ilock2Half p x y) := by
  unfold Kernel.ilock2Half
  split
  · exact (running.iunlock rfl).enter (by simp [Pc.Held]) rfl apart
  · next free =>
      refine running.ilock_free (by simpa using free) fun s both => ?_
      exact both.goto (fun z => or_comm) apart

theorem Running.lockSecond {two : Bool} (running : Running s p fun z => z = x)
    (ordered : x ≠ y ∧ (two = false → x < y)) : Sound (s.lockSecond p x y two) := by
  obtain ⟨apart, less⟩ := ordered
  cases two with
  | true => exact running.ilock2 apart.symm
  | false =>
      simp only [Kernel.lockSecond, Bool.false_eq_true, if_false]
      refine running.ilock (fun z => Iff.rfl) rfl (less rfl) fun s both => ?_
      exact both.goto (fun z => or_comm) apart

theorem Running.lockBoth {two : Bool} (running : Running s p fun _ => False)
    (ordered : x ≠ y ∧ (two = false → x < y)) : Sound (s.lockBoth p x y two) := by
  refine running.ilock (fun z => Iff.rfl) rfl ordered fun s one => ?_
  exact (one.congr fun z => iff_of_eq (or_false _)).lockSecond ordered

theorem Sound.resume (sound : Sound s) (p : P) (other : Bool) : Sound (s.resume p other) := by
  unfold Kernel.resume
  split
  · next awake =>
      have running := sound.running awake
      have ordered := sound.ordered p
      split
      · exact sound
      · next ip ip2 two here =>
          rw [here] at running ordered
          exact running.lockBoth ordered
      · next ip ip2 here =>
          rw [here] at running ordered
          refine running.ilock (fun z => Iff.rfl) rfl ordered fun s both => ?_
          exact both.goto (fun z => or_comm) (ne_of_lt ordered)
      · next ip ip2 here =>
          rw [here] at running ordered
          refine running.ilock (fun z => Iff.rfl) rfl ordered fun s one => ?_
          exact (one.congr fun z => iff_of_eq (or_false _)).ilock2Half ordered
      · next ip ip2 here =>
          rw [here] at running ordered
          refine running.ilock (fun z => Iff.rfl) rfl ordered fun s one => ?_
          exact (one.congr fun z => iff_of_eq (or_false _)).ilock2 ordered
      · next ip ip2 here =>
          rw [here] at running ordered
          split
          · refine (running.iunlock (x := ip2) (Or.inr rfl)).goto (fun z => ?_) trivial
            simp only [Pc.Held]
            constructor
            · rintro ⟨apart, rfl | rfl⟩
              · rfl
              · exact absurd rfl apart
            · rintro rfl
              exact ⟨ordered, Or.inl rfl⟩
          · refine (running.iunlock (x := ip) (Or.inl rfl)).goto (fun z => ?_) trivial
            simp only [Pc.Held]
            constructor
            · rintro ⟨apart, rfl | rfl⟩
              · exact absurd rfl apart
              · rfl
            · rintro rfl
              exact ⟨Ne.symm ordered, Or.inr rfl⟩
      · next ip here =>
          rw [here] at running
          refine (running.iunlock (x := ip) rfl).goto (fun z => ?_) trivial
          simp [Pc.Held]
  · exact sound

theorem Sound.step (sound : Sound s) (m : Move P I) : Sound (s.step m) := by
  cases m with
  | start p ip ip2 two =>
      simp only [Kernel.step]
      split
      · next idle =>
          split
          · next ordered =>
              have awake : s.sleeping p = none := by
                cases sleeps : s.sleeping p with
                | none => rfl
                | some x =>
                    have waits := (sound.asleep p x sleeps).1
                    rw [idle] at waits
                    cases waits
              have running := sound.running awake
              rw [idle] at running
              exact running.lockBoth ordered
          · exact sound
      · exact sound
  | resume p other => exact sound.resume p other

omit [DecidableEq P] in
theorem initial_sound : Sound (Kernel.initial : Kernel P I) where
  holds q x := by simp [Kernel.initial, Pc.Held]
  locked x := by simp [Kernel.initial]
  once q r x holds := by simp [Kernel.initial] at holds
  asleep q x sleeps := by simp [Kernel.initial] at sleeps
  ordered q := trivial

/-! ## No deadlock -/

/-- What a process that waits has locked, if anything. -/
def Pc.kept : Pc I → WithBot I
  | .second ip _ => ip
  | _ => ⊥

omit [DecidableEq P] in
/-- The process that has the last inode that is locked does not wait. -/
theorem Sound.awake [Finite P] [Nonempty P] (sound : Sound s) : ∃ p, s.sleeping p = none := by
  by_contra all
  simp only [not_exists] at all
  have asleep : ∀ p, ∃ x, s.sleeping p = some x := fun p => Option.ne_none_iff_exists'.mp (all p)
  -- whoever waits does so for an inode that another waiting process has locked
  have blocker : ∀ p, ∃ q ip ip2, s.pc q = .second ip ip2 ∧ (s.pc p).waitsFor = some ip := by
    intro p
    obtain ⟨x, sleeps⟩ := asleep p
    obtain ⟨waits, locked, -⟩ := sound.asleep p x sleeps
    obtain ⟨q, holds⟩ := (sound.locked x).mp locked
    obtain ⟨y, sleepsQ⟩ := asleep q
    have waitsQ := (sound.asleep q y sleepsQ).1
    have held := (sound.holds q x).mp holds
    cases here : s.pc q with
    | second ip ip2 =>
        rw [here] at held
        obtain rfl : x = ip := held
        exact ⟨q, x, ip2, here, waits⟩
    | idle | first | again | back =>
        rw [here] at held
        exact held.elim
    | both | one =>
        rw [here] at waitsQ
        cases waitsQ
  obtain ⟨p, last⟩ := Finite.exists_max fun p => (s.pc p).kept
  obtain ⟨q, ip, ip2, here, waits⟩ := blocker p
  have less := last q
  have ordered := sound.ordered p
  cases there : s.pc p with
  | second a b =>
      rw [there] at ordered waits
      obtain rfl : b = ip := Option.some.inj waits
      simp only [here, there, Pc.kept, WithBot.coe_le_coe] at less
      exact absurd ordered (not_lt.mpr less)
  | idle | first | again | back | both | one =>
      simp only [here, there, Pc.kept] at less
      exact absurd less (WithBot.not_coe_le_bot ip)

end

/-! ## Leaving with both -/

/-- The process is in a call that is to lock the two inodes. -/
def Pc.Acquires : Pc I → I → I → Prop
  | .first ip ip2 _, x, y => ip = x ∧ ip2 = y ∨ ip = y ∧ ip2 = x
  | .second ip ip2, x, y => ip = x ∧ ip2 = y ∨ ip = y ∧ ip2 = x
  | .again ip ip2, x, y => ip = x ∧ ip2 = y ∨ ip = y ∧ ip2 = x
  | .back ip ip2, x, y => ip = x ∧ ip2 = y ∨ ip = y ∧ ip2 = x
  | _, _, _ => False

/-- The process has come back with the two inodes. -/
def Pc.Returned : Pc I → I → I → Prop
  | .both ip ip2, x, y => ip = x ∧ ip2 = y ∨ ip = y ∧ ip2 = x
  | _, _, _ => False

section

variable [DecidableEq I] {s : Kernel P I} {p q : P} {x y a b : I} {pc : Pc I}

/-- The process goes on with the two inodes, or has got them. -/
def Pc.GoesOn (pc : Pc I) (x y : I) : Prop := pc.Acquires x y ∨ pc.Returned x y

omit [DecidableEq I] in
@[simp] theorem goto_pc : (s.goto p pc).pc p = pc := update_self ..

@[simp] theorem enter_pc : (s.enter p x pc).pc p = pc := by
  unfold Kernel.enter
  split
  · exact update_self ..
  · exact goto_pc

theorem ilock_pc (good : Pc I → Prop) {next : Kernel P I → Kernel P I} (here : good pc)
    (after : ∀ s, good ((next s).pc p)) : good ((s.ilock p x pc next).pc p) := by
  unfold Kernel.ilock
  split
  · rwa [enter_pc]
  · exact after _

theorem ilock2_goesOn (same : a = x ∧ b = y ∨ a = y ∧ b = x) :
    ((s.ilock2 p a b).pc p).GoesOn x y := by
  unfold Kernel.ilock2
  split
  · rw [enter_pc]
    exact .inl same
  · refine ilock_pc (Pc.GoesOn · x y) (.inl ?_) fun s => ?_
    · exact same.symm.imp And.symm And.symm
    · rw [goto_pc]
      exact .inr same

theorem ilock2Half_goesOn (same : a = x ∧ b = y ∨ a = y ∧ b = x) :
    ((s.ilock2Half p a b).pc p).GoesOn x y := by
  unfold Kernel.ilock2Half
  split
  · rw [enter_pc]
    exact .inl same
  · refine ilock_pc (Pc.GoesOn · x y) (.inl same) fun s => ?_
    rw [goto_pc]
    exact .inr same

theorem lockBoth_goesOn {two : Bool} (same : a = x ∧ b = y ∨ a = y ∧ b = x) :
    ((s.lockBoth p a b two).pc p).GoesOn x y := by
  refine ilock_pc (Pc.GoesOn · x y) (.inl same) fun s => ?_
  unfold Kernel.lockSecond
  split
  · exact ilock2_goesOn (same.symm.imp And.symm And.symm)
  · refine ilock_pc (Pc.GoesOn · x y) (.inl same) fun s => ?_
    rw [goto_pc]
    exact .inr same

theorem resume_goesOn {other : Bool} (acquires : (s.pc p).Acquires x y) :
    ((s.resume p other).pc p).GoesOn x y := by
  unfold Kernel.resume
  split
  · cases here : s.pc p with
    | first ip ip2 two =>
        rw [here] at acquires
        exact lockBoth_goesOn acquires
    | second ip ip2 =>
        rw [here] at acquires
        refine ilock_pc (Pc.GoesOn · x y) (.inl acquires) fun s => ?_
        rw [goto_pc]
        exact .inr acquires
    | again ip ip2 =>
        rw [here] at acquires
        exact ilock_pc (Pc.GoesOn · x y) (.inl acquires) fun s => ilock2Half_goesOn acquires
    | back ip ip2 =>
        rw [here] at acquires
        exact ilock_pc (Pc.GoesOn · x y) (.inl acquires) fun s => ilock2_goesOn acquires
    | idle | both | one =>
        rw [here] at acquires
        exact acquires.elim
  · exact .inl acquires

/-! Where the others are does not change. -/

omit [DecidableEq I] in
theorem goto_other (apart : q ≠ p) : (s.goto p pc).pc q = s.pc q := update_of_ne apart ..

theorem enter_other (apart : q ≠ p) : (s.enter p x pc).pc q = s.pc q := by
  unfold Kernel.enter
  split <;> exact update_of_ne apart ..

theorem ilock_other {next : Kernel P I → Kernel P I} (apart : q ≠ p)
    (after : ∀ s, (next s).pc q = s.pc q) : (s.ilock p x pc next).pc q = s.pc q := by
  unfold Kernel.ilock
  split
  · exact enter_other apart
  · exact after _

theorem ilock2_other (apart : q ≠ p) : (s.ilock2 p a b).pc q = s.pc q := by
  unfold Kernel.ilock2
  split
  · exact enter_other apart
  · exact ilock_other apart fun s => goto_other apart

theorem ilock2Half_other (apart : q ≠ p) : (s.ilock2Half p a b).pc q = s.pc q := by
  unfold Kernel.ilock2Half
  split
  · exact enter_other apart
  · exact ilock_other apart fun s => goto_other apart

theorem lockBoth_other {two : Bool} (apart : q ≠ p) : (s.lockBoth p a b two).pc q = s.pc q := by
  refine ilock_other apart fun s => ?_
  unfold Kernel.lockSecond
  split
  · exact ilock2_other apart
  · exact ilock_other apart fun s => goto_other apart

theorem resume_other {other : Bool} (apart : q ≠ p) : (s.resume p other).pc q = s.pc q := by
  unfold Kernel.resume
  split
  · split
    · rfl
    · exact lockBoth_other apart
    · exact ilock_other apart fun s => goto_other apart
    · exact ilock_other apart fun s => ilock2Half_other apart
    · exact ilock_other apart fun s => ilock2_other apart
    · split <;> exact goto_other apart
    · exact goto_other apart
  · rfl

end

section

variable [LinearOrder I] {s : Kernel P I} {p : P} {x y : I}

/-- A process that is to lock two inodes is at it until it has got them. -/
theorem step_goesOn (m : Move P I) (acquires : (s.pc p).Acquires x y) :
    ((s.step m).pc p).GoesOn x y := by
  cases m with
  | start q ip ip2 two =>
      simp only [Kernel.step]
      split
      · next idle =>
          split
          · have apart : p ≠ q := by
              rintro rfl
              rw [idle] at acquires
              exact acquires
            rw [lockBoth_other apart]
            exact .inl acquires
          · exact .inl acquires
      · exact .inl acquires
  | resume q other =>
      by_cases me : p = q
      · subst me
        exact resume_goesOn acquires
      · rw [Kernel.step, resume_other me]
        exact .inl acquires

omit [DecidableEq P] [LinearOrder I] in
theorem Pc.Returned.held {pc : Pc I} (returned : pc.Returned x y) : pc.Held x ∧ pc.Held y := by
  cases pc with
  | both ip ip2 =>
      rcases returned with ⟨rfl, rfl⟩ | ⟨rfl, rfl⟩
      · exact ⟨.inl rfl, .inr rfl⟩
      · exact ⟨.inr rfl, .inl rfl⟩
  | idle | first | second | again | back | one => exact returned.elim

/-- Inodes that no other process has locked are got at once. -/
theorem Sound.resume_free (sound : Sound s) {other : Bool} (awake : s.sleeping p = none)
    (acquires : (s.pc p).Acquires x y)
    (free : ∀ q, q ≠ p → s.holds q x = false ∧ s.holds q y = false) :
    ((s.resume p other).pc p).Returned x y := by
  have unlocked : ∀ z, z = x ∨ z = y → ¬ (s.pc p).Held z → s.locked z = false := by
    intro z which without
    by_contra locked
    rw [Bool.not_eq_false] at locked
    obtain ⟨q, holds⟩ := (sound.locked z).mp locked
    by_cases me : q = p
    · rw [me] at holds
      exact without ((sound.holds p z).mp holds)
    · rcases which with rfl | rfl
      · exact absurd holds (by simp [(free q me).1])
      · exact absurd holds (by simp [(free q me).2])
  have ordered := sound.ordered p
  have next : ∀ {a b : I}, a ≠ b → s.locked b = false → (s.lock p a).locked b = false := by
    intro a b apart free
    simp [Kernel.lock, apart.symm, free]
  unfold Kernel.resume
  rw [if_pos awake]
  cases here : s.pc p with
  | first ip ip2 two =>
      rw [here] at acquires ordered
      have firstFree := unlocked ip (by grind [Pc.Acquires]) (by simp [here, Pc.Held])
      have secondFree := unlocked ip2 (by grind [Pc.Acquires]) (by simp [here, Pc.Held])
      have then' := next ordered.1 secondFree
      cases two <;>
        simpa [Kernel.lockBoth, Kernel.ilock, firstFree, Kernel.lockSecond, Kernel.ilock2, then',
          Pc.Returned] using (by grind [Pc.Acquires])
  | second ip ip2 =>
      rw [here] at acquires ordered
      have secondFree := unlocked ip2 (by grind [Pc.Acquires])
        (by simpa [here, Pc.Held] using (ne_of_lt ordered).symm)
      simpa [Kernel.ilock, secondFree, Pc.Returned, Pc.Acquires] using acquires
  | again ip ip2 =>
      rw [here] at acquires ordered
      have firstFree := unlocked ip (by grind [Pc.Acquires]) (by simp [here, Pc.Held])
      have secondFree := unlocked ip2 (by grind [Pc.Acquires]) (by simp [here, Pc.Held])
      simpa [Kernel.ilock, firstFree, Kernel.ilock2Half, next ordered secondFree, Pc.Returned,
        Pc.Acquires] using acquires
  | back ip ip2 =>
      rw [here] at acquires ordered
      have firstFree := unlocked ip (by grind [Pc.Acquires]) (by simp [here, Pc.Held])
      have secondFree := unlocked ip2 (by grind [Pc.Acquires]) (by simp [here, Pc.Held])
      simpa [Kernel.ilock, secondFree, Kernel.ilock2, next ordered.symm firstFree, Pc.Returned,
        Pc.Acquires] using acquires
  | idle | both | one =>
      rw [here] at acquires
      exact acquires.elim

end

/-- Whatever the processes do, one of them does not wait, an inode is locked by one process
    only, and where a process has its two inodes, with `ilock2` or without, it has both locked:
    from the call on it is at it until it comes back with both, which it does at once where no
    other process has one of them. -/
theorem ilock2_protocol [Fintype P] [Inhabited P] [LinearOrder I] (moves : List (Move P I)) :
    (∃ p, (exec Kernel.step Kernel.initial moves).sleeping p = none) ∧
      (∀ p q ip, (exec Kernel.step Kernel.initial moves).holds p ip = true →
        (exec Kernel.step Kernel.initial moves).holds q ip = true → p = q) ∧
      (∀ p ip ip2, (exec Kernel.step Kernel.initial moves).pc p = .both ip ip2 →
        (exec Kernel.step Kernel.initial moves).holds p ip = true ∧
          (exec Kernel.step Kernel.initial moves).holds p ip2 = true) ∧
      (∀ p ip ip2 two, (exec Kernel.step Kernel.initial moves).pc p = .idle → ip ≠ ip2 →
        (two = false → ip < ip2) →
          (((exec Kernel.step Kernel.initial moves).step (.start p ip ip2 two)).pc p).GoesOn ip ip2) ∧
      (∀ p ip ip2 m, ((exec Kernel.step Kernel.initial moves).pc p).Acquires ip ip2 →
        (((exec Kernel.step Kernel.initial moves).step m).pc p).Acquires ip ip2 ∨
          (((exec Kernel.step Kernel.initial moves).step m).pc p).Returned ip ip2 ∧
            ((exec Kernel.step Kernel.initial moves).step m).holds p ip = true ∧
              ((exec Kernel.step Kernel.initial moves).step m).holds p ip2 = true) ∧
      ∀ p ip ip2 other, ((exec Kernel.step Kernel.initial moves).pc p).Acquires ip ip2 →
        (exec Kernel.step Kernel.initial moves).sleeping p = none →
        (∀ q, q ≠ p → (exec Kernel.step Kernel.initial moves).holds q ip = false ∧
          (exec Kernel.step Kernel.initial moves).holds q ip2 = false) →
          (((exec Kernel.step Kernel.initial moves).step (.resume p other)).pc p).Returned ip ip2 := by
  have sound := invariant_always (fun s m (sound : Sound s) => sound.step m)
    (initial_sound (P := P) (I := I)) moves
  refine ⟨sound.awake, sound.once, fun p ip ip2 here => ?_, fun p ip ip2 two idle apart less => ?_,
    fun p ip ip2 m acquires => ?_, fun p ip ip2 other acquires awake free => ?_⟩
  · rw [sound.holds, sound.holds, here]
    exact ⟨Or.inl rfl, Or.inr rfl⟩
  · simp only [Kernel.step, idle]
    rw [if_pos ⟨apart, less⟩]
    exact lockBoth_goesOn (.inl ⟨rfl, rfl⟩)
  · refine (step_goesOn m acquires).imp id fun returned => ⟨returned, ?_⟩
    rw [(sound.step m).holds, (sound.step m).holds]
    exact returned.held
  · exact sound.resume_free awake acquires free

end Irix.InodeLock
