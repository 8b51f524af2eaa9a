import Irix.Retrace.Sync
import Mathlib.Algebra.BigOperators.Group.Finset.Piecewise
import Mathlib.Algebra.Ring.Int.Defs

/-! # Nobody is stranded

Everyone who sleeps in `gsync` is on the list that the next retrace takes down, and
the counts are those of the channels.
-/

namespace Irix.Retrace

open Lib Function Links

/-- How many channels there are of a kind. -/
def number {n : Nat} (p : Fin n → Prop) [DecidablePred p] : Int := (Finset.univ.filter p).card

section Counting

variable {n : Nat} {p q : Fin n → Prop} [DecidablePred p] [DecidablePred q]

theorem number_congr (same : ∀ ic, p ic ↔ q ic) : number p = number q := by
  simp only [number, same]

/-- Only one channel changes. -/
theorem number_change {ic : Fin n} (same : ∀ other, other ≠ ic → (p other ↔ q other)) :
    number p + (if q ic then 1 else 0) = number q + (if p ic then 1 else 0) := by
  have rest : ∑ other ∈ Finset.univ.erase ic, (if p other then 1 else 0) =
      ∑ other ∈ Finset.univ.erase ic, (if q other then 1 else 0) := by
    apply Finset.sum_congr rfl
    intro other listed
    simp only [same other (Finset.ne_of_mem_erase listed)]
  have first := Finset.add_sum_erase Finset.univ (fun other => if p other then 1 else 0)
    (Finset.mem_univ ic)
  have second := Finset.add_sum_erase Finset.univ (fun other => if q other then 1 else 0)
    (Finset.mem_univ ic)
  simp only [number, Finset.card_filter]
  split
  all_goals split
  all_goals simp_all only [if_true, if_false]
  all_goals omega

theorem number_zero (none : ∀ ic, ¬ p ic) : number p = 0 := by
  rw [number, Finset.filter_false_of_mem fun ic _ => none ic]
  rfl

theorem number_pos {ic : Fin n} (some : p ic) : 0 < number p := by
  rw [number, Int.natCast_pos, Finset.card_pos]
  exact ⟨ic, Finset.mem_filter.mpr ⟨Finset.mem_univ ic, some⟩⟩

end Counting

/-- A channel in use, with a display mode. -/
def Gl.InMode {n : Nat} (gl : Gl n) (mode : Displaymode) (ic : Fin n) : Prop :=
  gl.icShmemptr ic = true ∧ gl.icDisplaymode ic = mode

instance Gl.decidableInMode {n : Nat} (gl : Gl n) (mode : Displaymode) :
    DecidablePred (gl.InMode mode) :=
  fun ic => inferInstanceAs (Decidable (gl.icShmemptr ic = true ∧ gl.icDisplaymode ic = mode))

/-- The next retrace wakes whoever sleeps in `dogsync`, and the counts are exact. -/
structure Good {n : Nat} (gl : Gl n) : Prop where
  goes : gl.hung = false
  listed : ∃ waiters, Path gl.icNext gl.syncwaiters waiters ∧
    ∀ ic, gl.proc ic = .asleep .dogsync false → waiters.count ic = 1
  wakes : ∀ env ic, gl.proc ic = .asleep .dogsync false →
    (gl.step (.retrace env)).proc ic = .asleep .dogsync true ∧
      ((gl.step (.retrace env)).step (.resume ic)).proc ic = .running
  ready : gl.numreadytoswap = number fun ic => gl.icSwapwaiting ic = true
  doubles : gl.glNumdoublebufferers = number (gl.InMode .mdDouble)
  rgbs : gl.glNumrgbs = number (gl.InMode .mdRgb)

/-- The same with the list, and channels that are not in use are in single buffer mode. -/
structure Sound {n : Nat} (gl : Gl n) (waiters : List (Fin n)) : Prop where
  goes : gl.hung = false
  path : Path gl.icNext gl.syncwaiters waiters
  sleepers : ∀ ic, gl.proc ic = .asleep .dogsync false → ic ∈ waiters
  ready : gl.numreadytoswap = number fun ic => gl.icSwapwaiting ic = true
  doubles : gl.glNumdoublebufferers = number (gl.InMode .mdDouble)
  rgbs : gl.glNumrgbs = number (gl.InMode .mdRgb)
  single : ∀ ic, gl.icShmemptr ic = false → gl.icDisplaymode ic = .mdSingle

section Sound

variable {n : Nat} {gl gl' : Gl n} {waiters : List (Fin n)} {ic : Fin n}

theorem sound_boot (n : Nat) : Sound (Gl.boot n) [] := by
  constructor
  case goes => rfl
  case path => rfl
  case sleepers => exact fun ic asleep => by cases asleep
  case ready => exact (number_zero fun ic => Bool.false_ne_true).symm
  case doubles => exact (number_zero fun ic inMode => Bool.false_ne_true inMode.1).symm
  case rgbs => exact (number_zero fun ic inMode => Bool.false_ne_true inMode.1).symm
  case single => exact fun ic _ => rfl

/-- What a channel's process does. -/
theorem Sound.moves (sound : Sound gl waiters) {proc : Fin n → Proc}
    (sleepers : ∀ ic, proc ic = .asleep .dogsync false → ic ∈ waiters) :
    Sound { gl with proc } waiters :=
  ⟨sound.goes, sound.path, sleepers, sound.ready, sound.doubles, sound.rgbs, sound.single⟩

theorem sleepers_update {proc : Fin n → Proc} {x : Proc}
    (sleepers : ∀ ic, proc ic = .asleep .dogsync false → ic ∈ waiters)
    (here : x = .asleep .dogsync false → ic ∈ waiters) :
    ∀ ic', update proc ic x ic' = .asleep .dogsync false → ic' ∈ waiters := by
  intro ic' asleep
  by_cases self : ic' = ic
  · rw [self] at asleep ⊢
    rw [update_self] at asleep
    exact here asleep
  · rw [update_of_ne self] at asleep
    exact sleepers ic' asleep

theorem Sound.returns (sound : Sound gl waiters) : Sound (gl.returns ic) waiters :=
  sound.moves (sleepers_update sound.sleepers Proc.noConfusion)

theorem wake_awake (x : Proc) : Gl.wake x ≠ .asleep .dogsync false := by
  cases x with
  | running => exact Proc.noConfusion
  | asleep call woken =>
      intro same
      cases same

theorem Sound.grWakeup (sound : Sound gl waiters) : Sound (gl.grWakeup ic) waiters :=
  sound.moves (sleepers_update sound.sleepers fun asleep => absurd asleep (wake_awake _))

theorem number_waiting (gl : Gl n) (ic : Fin n) (x : Bool) :
    (number fun other => update gl.icSwapwaiting ic x other = true) +
        (if gl.icSwapwaiting ic = true then 1 else 0) =
      (number fun other => gl.icSwapwaiting other = true) + (if x = true then 1 else 0) := by
  have change := @number_change n (fun other => update gl.icSwapwaiting ic x other = true)
    (fun other => gl.icSwapwaiting other = true) _ _ ic fun other apart => by rw [update_of_ne apart]
  simp only [update_self] at change
  exact change

/-- One channel goes over to another mode. -/
theorem number_mode {gl' : Gl n} (mode : Displaymode)
    (apart : ∀ other, other ≠ ic → (gl'.InMode mode other ↔ gl.InMode mode other)) :
    number (gl'.InMode mode) + (if gl.InMode mode ic then 1 else 0) =
      number (gl.InMode mode) + (if gl'.InMode mode ic then 1 else 0) :=
  number_change apart

/-- A channel in use goes over to another mode, and the counts go along. -/
theorem Sound.mode (sound : Sound gl waiters) (live : gl.icShmemptr ic = true)
    {mode : Displaymode} (glMode : Displaymode) {doubles rgbs : Int}
    (double : doubles + (if gl.icDisplaymode ic = .mdDouble then 1 else 0) =
      gl.glNumdoublebufferers + (if mode = .mdDouble then 1 else 0))
    (rgb : rgbs + (if gl.icDisplaymode ic = .mdRgb then 1 else 0) =
      gl.glNumrgbs + (if mode = .mdRgb then 1 else 0)) :
    Sound { gl with
      icDisplaymode := update gl.icDisplaymode ic mode
      glNumdoublebufferers := doubles
      glNumrgbs := rgbs
      glMode } waiters := by
  generalize moved : ({ gl with
      icDisplaymode := update gl.icDisplaymode ic mode
      glNumdoublebufferers := doubles
      glNumrgbs := rgbs
      glMode } : Gl n) = gl'
  have shmemptr : gl'.icShmemptr = gl.icShmemptr := by rw [← moved]
  have modes : gl'.icDisplaymode = update gl.icDisplaymode ic mode := by rw [← moved]
  have counts : ∀ m, number (gl'.InMode m) + (if gl.icDisplaymode ic = m then 1 else 0) =
      number (gl.InMode m) + (if mode = m then 1 else 0) := by
    intro m
    have change := @number_mode n gl ic gl' m fun other apart => by
      rw [Gl.InMode, Gl.InMode, shmemptr, modes, update_of_ne apart]
    simp only [Gl.InMode, shmemptr, modes, update_self, live, true_and] at change
    exact change
  constructor
  case goes => rw [← moved]; exact sound.goes
  case path => rw [← moved]; exact sound.path
  case sleepers => rw [← moved]; exact sound.sleepers
  case ready => rw [← moved]; exact sound.ready
  case doubles =>
    have := counts .mdDouble
    have := sound.doubles
    have : gl'.glNumdoublebufferers = doubles := by rw [← moved]
    omega
  case rgbs =>
    have := counts .mdRgb
    have := sound.rgbs
    have : gl'.glNumrgbs = rgbs := by rw [← moved]
    omega
  case single =>
    intro other unused
    rw [shmemptr] at unused
    have apart : other ≠ ic := by
      rintro rfl
      exact Bool.false_ne_true (unused.symm.trans live)
    rw [modes, update_of_ne apart]
    exact sound.single other unused

theorem Sound.setsinglebuffer (sound : Sound gl waiters) (live : gl.icShmemptr ic = true) :
    Sound (gl.setsinglebuffer ic) waiters := by
  rw [Gl.setsinglebuffer]
  cases mode : gl.icDisplaymode ic with
  | mdSingle =>
      exact sound.mode live gl.glMode (by simp only [mode, reduceCtorEq, if_false])
        (by simp only [mode, reduceCtorEq, if_false])
  | mdDouble =>
      exact sound.mode live _ (by simp only [mode, reduceCtorEq, if_true, if_false]; omega)
        (by simp only [mode, reduceCtorEq, if_false])
  | mdRgb =>
      exact sound.mode live _ (by simp only [mode, reduceCtorEq, if_false])
        (by simp only [mode, reduceCtorEq, if_true, if_false]; omega)

theorem Sound.setdoublebuffer (sound : Sound gl waiters) (live : gl.icShmemptr ic = true) :
    Sound (gl.setdoublebuffer ic) waiters := by
  rw [Gl.setdoublebuffer]
  cases mode : gl.icDisplaymode ic with
  | mdSingle =>
      exact sound.mode live _ (by simp only [mode, reduceCtorEq, if_true, if_false, add_zero])
        (by simp only [mode, reduceCtorEq, if_false])
  | mdDouble =>
      exact sound.mode live gl.glMode (by simp only [mode, if_true])
        (by simp only [mode, reduceCtorEq, if_false])
  | mdRgb =>
      exact sound.mode live _ (by simp only [mode, reduceCtorEq, if_true, if_false, add_zero])
        (by simp only [mode, reduceCtorEq, if_true, if_false]; omega)

theorem Sound.setrgbmode (sound : Sound gl waiters) (live : gl.icShmemptr ic = true) :
    Sound (gl.setrgbmode ic) waiters := by
  rw [Gl.setrgbmode]
  cases mode : gl.icDisplaymode ic with
  | mdSingle =>
      simp only [mode, reduceCtorEq, if_false, ne_eq, not_false_eq_true, if_true]
      exact sound.mode live _ (by simp only [mode, reduceCtorEq, if_false])
        (by simp only [mode, reduceCtorEq, if_true, if_false, add_zero])
  | mdDouble =>
      simp only [mode, reduceCtorEq, if_true, ne_eq, not_false_eq_true]
      exact sound.mode live _ (by simp only [mode, reduceCtorEq, if_true, if_false]; omega)
        (by simp only [mode, reduceCtorEq, if_true, if_false, add_zero])
  | mdRgb =>
      simp only [mode, reduceCtorEq, if_false, ne_eq, not_true_eq_false]
      exact sound.mode live gl.glMode (by simp only [mode, reduceCtorEq, if_false])
        (by simp only [mode, if_true])

/-- A free channel that does not wait is taken. -/
theorem Sound.grAlloc (sound : Sound gl waiters) (unused : gl.icShmemptr ic = false)
    (idle : gl.icSwapwaiting ic = false) : Sound (gl.grAlloc ic) waiters := by
  have modes : ∀ m, m ≠ .mdSingle → number ((gl.grAlloc ic).InMode m) = number (gl.InMode m) := by
    intro m other
    apply number_congr
    intro ic'
    by_cases self : ic' = ic
    · have single := sound.single ic unused
      simp only [self, Gl.InMode, Gl.grAlloc, unused, update_self, single, Bool.false_eq_true,
        false_and, true_and, iff_false]
      exact Ne.symm other
    · simp only [Gl.InMode, Gl.grAlloc, update_of_ne self]
  constructor
  case goes => exact sound.goes
  case path => exact sound.path
  case sleepers => exact sleepers_update sound.sleepers Proc.noConfusion
  case ready =>
    have change := number_waiting gl ic false
    simp only [idle, Bool.false_eq_true, if_false, add_zero] at change
    exact sound.ready.trans change.symm
  case doubles => exact sound.doubles.trans (modes .mdDouble Displaymode.noConfusion).symm
  case rgbs => exact sound.rgbs.trans (modes .mdRgb Displaymode.noConfusion).symm
  case single =>
    intro ic' unused'
    have apart : ic' ≠ ic := by
      rintro rfl
      simp only [Gl.grAlloc, update_self] at unused'
      cases unused'
    rw [Gl.grAlloc] at unused'
    simp only [update_of_ne apart] at unused'
    exact sound.single ic' unused'

/-- The channel is taken off the list. -/
theorem Sound.unlinkSync (sound : Sound gl waiters) (ic : Fin n) :
    ∃ icNext syncwaiters, gl.unlinkSync ic = { gl with icNext, syncwaiters } ∧
      Path icNext syncwaiters (waiters.erase ic) := by
  have path := sound.path
  rw [Gl.unlinkSync]
  cases head : gl.syncwaiters with
  | none =>
      rw [head, path_none] at path
      have same : gl = { gl with syncwaiters := none } := by rw [← head]
      refine ⟨gl.icNext, none, same, ?_⟩
      rw [path]
      rfl
  | some first =>
      rw [head] at path
      obtain ⟨rest, rfl, after⟩ := path_some.mp path
      by_cases here : ic = first
      · refine ⟨gl.icNext, gl.icNext ic, if_pos here, ?_⟩
        rw [here, List.erase_cons_head]
        exact after
      · have enough : (first :: rest).length ≤ n := by
          have bound := path.nodup.length_le_card
          rw [Fintype.card_fin] at bound
          exact bound
        obtain ⟨icptr, -, eq, path'⟩ := Path.unlink path here enough
        refine ⟨_, some first, ?_, path'⟩
        dsimp only
        rw [if_neg here, eq]

/-- A channel that is not in RGB mode is freed. -/
theorem Sound.grFree (sound : Sound gl waiters) (live : gl.icShmemptr ic = true)
    (other : gl.icDisplaymode ic ≠ .mdRgb) : Sound (gl.grFree ic) (waiters.erase ic) := by
  obtain ⟨icNext, syncwaiters, eq, path⟩ := sound.unlinkSync ic
  have sleepers : ∀ ic', update gl.proc ic .running ic' = .asleep .dogsync false →
      ic' ∈ waiters.erase ic := by
    intro ic' asleep
    by_cases self : ic' = ic
    · rw [self, update_self] at asleep
      cases asleep
    · rw [update_of_ne self] at asleep
      exact (List.mem_erase_of_ne self).mpr (sound.sleepers ic' asleep)
  have modes : ∀ gl' : Gl n, gl'.icShmemptr = update gl.icShmemptr ic false →
      (∀ ic', ic' ≠ ic → gl'.icDisplaymode ic' = gl.icDisplaymode ic') →
      ∀ m, number (gl'.InMode m) + (if gl.icDisplaymode ic = m then 1 else 0) =
        number (gl.InMode m) := by
    intro gl' shmemptr same m
    have change := @number_mode n gl ic gl' m fun other apart => by
      rw [Gl.InMode, Gl.InMode, shmemptr, update_of_ne apart, same other apart]
    simp only [Gl.InMode, shmemptr, update_self, live, true_and, Bool.false_eq_true, false_and,
      if_false, add_zero] at change
    exact change
  have singles : ∀ modes : Fin n → Displaymode, modes ic = .mdSingle →
      (∀ ic', ic' ≠ ic → modes ic' = gl.icDisplaymode ic') →
      ∀ ic', update gl.icShmemptr ic false ic' = false → modes ic' = .mdSingle := by
    intro modes here same ic' unused
    by_cases self : ic' = ic
    · rw [self]
      exact here
    · rw [update_of_ne self] at unused
      rw [same ic' self]
      exact sound.single ic' unused
  rw [Gl.grFree, eq]
  by_cases double : gl.icDisplaymode ic = .mdDouble
  · dsimp only
    rw [if_pos double]
    have same : ∀ ic', ic' ≠ ic → update gl.icDisplaymode ic .mdSingle ic' = gl.icDisplaymode ic' :=
      fun ic' apart => update_of_ne apart ..
    have waits := number_waiting gl ic false
    simp only [Bool.false_eq_true, if_false, add_zero] at waits
    have counts := modes { gl with
      icShmemptr := update gl.icShmemptr ic false
      icDisplaymode := update gl.icDisplaymode ic .mdSingle } rfl same
    constructor
    case goes => exact sound.goes
    case path => exact path
    case sleepers => exact sleepers
    case ready =>
      have before := sound.ready
      show (if gl.icSwapwaiting ic = true then gl.numreadytoswap - 1 else gl.numreadytoswap) =
        number fun other => update gl.icSwapwaiting ic false other = true
      split at waits
      next waiting =>
        rw [if_pos waiting]
        omega
      next idle =>
        rw [if_neg idle]
        omega
    case doubles =>
      have counted := counts .mdDouble
      rw [if_pos double] at counted
      exact (eq_sub_of_add_eq (counted.trans sound.doubles.symm)).symm
    case rgbs =>
      have counted := counts .mdRgb
      rw [if_neg other, add_zero] at counted
      exact sound.rgbs.trans counted.symm
    case single => exact singles _ (update_self ..) same
  · dsimp only
    rw [if_neg double]
    have mode : gl.icDisplaymode ic = .mdSingle := by
      cases mode : gl.icDisplaymode ic with
      | mdSingle => rfl
      | mdDouble => exact absurd mode double
      | mdRgb => exact absurd mode other
    constructor
    case goes => exact sound.goes
    case path => exact path
    case sleepers => exact sleepers
    case ready => exact sound.ready
    case doubles =>
      have counts := modes { gl with icShmemptr := update gl.icShmemptr ic false } rfl
        (fun _ _ => rfl) .mdDouble
      rw [if_neg double, add_zero] at counts
      exact sound.doubles.trans counts.symm
    case rgbs =>
      have counts := modes { gl with icShmemptr := update gl.icShmemptr ic false } rfl
        (fun _ _ => rfl) .mdRgb
      rw [if_neg other, add_zero] at counts
      exact sound.rgbs.trans counts.symm
    case single => exact singles _ mode fun _ _ => rfl

theorem Sound.dogsync (sound : Sound gl waiters) (fresh : ic ∉ waiters) :
    Sound (gl.dogsync ic) (ic :: waiters) := by
  constructor
  case goes => exact sound.goes
  case path => exact sound.path.push fresh
  case sleepers =>
    exact sleepers_update (fun ic' asleep => List.mem_cons_of_mem _ (sound.sleepers ic' asleep))
      fun _ => List.mem_cons_self ..
  case ready => exact sound.ready
  case doubles => exact sound.doubles
  case rgbs => exact sound.rgbs
  case single => exact sound.single

theorem Sound.dowaitforswapLoop (sound : Sound gl waiters) :
    Sound (gl.dowaitforswapLoop ic) waiters := by
  rw [Gl.dowaitforswapLoop]
  split
  · exact sound.moves (sleepers_update sound.sleepers fun asleep => by cases asleep)
  · exact sound.returns

theorem Sound.dowaitforswap (sound : Sound gl waiters) (idle : gl.icSwapwaiting ic = false) :
    Sound (gl.dowaitforswap ic) waiters := by
  apply Sound.dowaitforswapLoop
  have change := number_waiting gl ic true
  simp only [idle, Bool.false_eq_true, if_false, add_zero, if_true] at change
  refine ⟨sound.goes, sound.path, sound.sleepers, ?_, sound.doubles, sound.rgbs, sound.single⟩
  rw [sound.ready]
  exact change.symm

theorem Sound.resume (sound : Sound gl waiters)
    (comes : gl.proc ic = .asleep .dogsync true → gl.syncwaiters = none ∨ ic ∈ waiters) :
    Sound (gl.resume ic) waiters := by
  rw [Gl.resume]
  split
  next asleep =>
    rw [Gl.dogsyncLoop]
    split
    · exact sound.returns
    next more =>
      rcases comes asleep with none | listed
      · exact absurd none more
      · exact sound.moves (sleepers_update sound.sleepers fun _ => listed)
  next => exact sound.dowaitforswapLoop
  next => exact sound

theorem Sound.wakeupswappers (sound : Sound gl waiters)
    (used : ∀ ic, gl.icSwapwaiting ic = true → gl.icShmemptr ic = true) (interval : Int) :
    Sound (gl.wakeupswappers interval) waiters := by
  constructor
  case goes => exact sound.goes
  case path => exact sound.path
  case sleepers =>
    intro ic asleep
    rw [Gl.wakeupswappers] at asleep
    dsimp only at asleep
    split at asleep
    · exact absurd asleep (wake_awake _)
    · exact sound.sleepers ic asleep
  case ready =>
    symm
    apply number_zero
    intro ic waiting
    obtain ⟨waits, unused⟩ := Bool.and_eq_true_iff.mp waiting
    rw [used ic waits] at unused
    cases unused
  case doubles => exact sound.doubles
  case rgbs => exact sound.rgbs
  case single => exact sound.single

/-- The retrace finds time for a swap. -/
def Gl.Swaps (gl : Gl n) (env : Env) : Prop :=
  ¬ 0 < gl.glSwapCount ∧ 0 < gl.numreadytoswap ∧ 0 < gl.neededtoswap env ∧
    gl.neededtoswap env ≤ gl.numreadytoswap ∧ env.busy = false

theorem Sound.countdown {env : Env} (sound : Sound gl waiters)
    (used : gl.Swaps env → ∀ ic, gl.icSwapwaiting ic = true → gl.icShmemptr ic = true) :
    Sound (gl.countdown env) waiters := by
  rw [Gl.countdown]
  split
  · exact ⟨sound.goes, sound.path, sound.sleepers, sound.ready, sound.doubles, sound.rgbs,
      sound.single⟩
  next now =>
    split
    next ready =>
      split
      · exact ⟨sound.goes, sound.path, sound.sleepers, sound.ready, sound.doubles, sound.rgbs,
          sound.single⟩
      next idle =>
        exact sound.wakeupswappers
          (used ⟨now, ready.1, ready.2.1, ready.2.2, Bool.not_eq_true _ ▸ idle⟩) _
    next => exact sound

theorem Sound.wakeupSync (sound : Sound gl waiters) :
    gl.wakeupSync = { gl with
      syncwaiters := none
      proc := fun ic => if ic ∈ waiters then Gl.wake (gl.proc ic) else gl.proc ic } := by
  have walked := sound.path.walk_card
  rw [Fintype.card_fin] at walked
  rw [Gl.wakeupSync, walked]

theorem Sound.retraceevent {env : Env} (sound : Sound gl waiters)
    (used : gl.Swaps env → ∀ ic, gl.icSwapwaiting ic = true → gl.icShmemptr ic = true) :
    Sound (gl.retraceevent env) [] := by
  rw [Gl.retraceevent, sound.wakeupSync]
  apply Sound.countdown
  · refine ⟨sound.goes, rfl, fun ic asleep => ?_, sound.ready, sound.doubles, sound.rgbs,
      sound.single⟩
    dsimp only at asleep
    split at asleep
    · exact absurd asleep (wake_awake _)
    next out => exact absurd (sound.sleepers ic asleep) out
  · exact used

/-- A retrace of which the process of a channel takes notice. -/
theorem Sound.wakes (sound : Sound gl waiters) (asleep : gl.proc ic = .asleep .dogsync false)
    (env : Env) : (gl.retraceevent env).hung = false ∧ (gl.retraceevent env).syncwaiters = none ∧
      (gl.retraceevent env).proc ic = .asleep .dogsync true := by
  have listed := sound.sleepers ic asleep
  rw [Gl.retraceevent, sound.wakeupSync]
  generalize woken : ({ gl with
      syncwaiters := none
      proc := fun ic => if ic ∈ waiters then Gl.wake (gl.proc ic) else gl.proc ic } : Gl n) = gl'
  have goes : gl'.hung = false := by rw [← woken]; exact sound.goes
  have none : gl'.syncwaiters = none := by rw [← woken]
  have awake : gl'.proc ic = .asleep .dogsync true := by
    rw [← woken]
    exact (if_pos listed).trans (congrArg Gl.wake asleep)
  rw [Gl.countdown]
  split
  · exact ⟨goes, none, awake⟩
  · split
    · split
      · exact ⟨goes, none, awake⟩
      · refine ⟨goes, none, ?_⟩
        rw [Gl.wakeupswappers]
        dsimp only
        split
        · exact congrArg Gl.wake awake
        · exact awake
    · exact ⟨goes, none, awake⟩

theorem step_enabled {e : Event n} (goes : gl.hung = false) (enabled : gl.Enabled e) :
    gl.step e = gl.act e :=
  if_pos ⟨goes, enabled⟩

theorem Sound.good (sound : Sound gl waiters) : Good gl := by
  constructor
  case goes => exact sound.goes
  case listed =>
    exact ⟨waiters, sound.path, fun ic asleep =>
      List.count_eq_one_of_mem sound.path.nodup (sound.sleepers ic asleep)⟩
  case wakes =>
    intro env ic asleep
    obtain ⟨goes, none, awake⟩ := sound.wakes asleep env
    have retrace : gl.step (.retrace env) = gl.retraceevent env :=
      step_enabled sound.goes trivial
    have resume : (gl.retraceevent env).step (.resume ic) = (gl.retraceevent env).resume ic :=
      step_enabled goes trivial
    rw [retrace, resume]
    refine ⟨awake, ?_⟩
    rw [Gl.resume, awake]
    dsimp only
    rw [Gl.dogsyncLoop, if_pos none]
    exact update_self ..
  case ready => exact sound.ready
  case doubles => exact sound.doubles
  case rgbs => exact sound.rgbs

/-- On the list of sync waiters. -/
def Gl.Queued (gl : Gl n) (ic : Fin n) : Prop :=
  ic ∈ (Links.walk gl.icNext n gl.syncwaiters).getD []

theorem Sound.queued (sound : Sound gl waiters) : gl.Queued ic ↔ ic ∈ waiters := by
  have walked := sound.path.walk_card
  rw [Fintype.card_fin] at walked
  rw [Gl.Queued, walked, Option.getD_some]

/-- Nobody who has been freed waits for a swap. -/
def Gl.WaitersUsed (gl : Gl n) : Prop :=
  ∀ ic, gl.icSwapwaiting ic = true → gl.icShmemptr ic = true

/-- What does no harm. -/
def Gl.Allowed (gl : Gl n) : Event n → Prop
  | .alloc ic | .dowaitforswap ic => gl.icSwapwaiting ic = false
  | .free ic => gl.icDisplaymode ic ≠ .mdRgb
  | .dogsync ic => ¬ gl.Queued ic
  | .resume ic => gl.proc ic = .asleep .dogsync true → gl.syncwaiters = none ∨ gl.Queued ic
  | .wakeupswappers _ => gl.WaitersUsed
  | .retrace env => gl.Swaps env → gl.WaitersUsed
  | _ => True

theorem Sound.step {e : Event n} (sound : Sound gl waiters)
    (allowed : gl.Enabled e → gl.Allowed e) : ∃ waiters', Sound (gl.step e) waiters' := by
  by_cases enabled : gl.Enabled e
  · have fine := allowed enabled
    rw [step_enabled sound.goes enabled]
    cases e with
    | alloc ic => exact ⟨_, sound.grAlloc enabled fine⟩
    | free ic => exact ⟨_, sound.grFree enabled fine⟩
    | dogsync ic => exact ⟨_, sound.dogsync (sound.queued.not.mp fine)⟩
    | dowaitforswap ic => exact ⟨_, sound.dowaitforswap fine⟩
    | setsinglebuffer ic => exact ⟨_, sound.setsinglebuffer enabled.1⟩
    | setdoublebuffer ic => exact ⟨_, sound.setdoublebuffer enabled.1⟩
    | setrgbmode ic => exact ⟨_, sound.setrgbmode enabled.1⟩
    | retrace env => exact ⟨_, sound.retraceevent fine⟩
    | wakeupswappers interval => exact ⟨_, sound.wakeupswappers fine interval⟩
    | wakeup ic => exact ⟨_, sound.grWakeup⟩
    | resume ic => exact ⟨_, sound.resume fun asleep => (fine asleep).imp_right sound.queued.mp⟩
    | signal ic => exact ⟨_, sound.returns⟩
  · have stays : gl.step e = gl := if_neg fun both => enabled both.2
    rw [stays]
    exact ⟨waiters, sound⟩

/-! ## What does harm -/

theorem Sound.alloc_harm (sound : Sound gl waiters) (waiting : gl.icSwapwaiting ic = true) :
    ¬ Good (gl.grAlloc ic) := by
  intro good
  have count := number_waiting gl ic false
  have after : gl.numreadytoswap = number fun other => update gl.icSwapwaiting ic false other = true :=
    good.ready
  simp only [waiting, if_true, Bool.false_eq_true, if_false] at count
  have before := sound.ready
  omega

theorem Sound.free_harm (sound : Sound gl waiters) (live : gl.icShmemptr ic = true)
    (rgb : gl.icDisplaymode ic = .mdRgb) : ¬ Good (gl.grFree ic) := by
  intro good
  obtain ⟨icNext, syncwaiters, eq, -⟩ := sound.unlinkSync ic
  have shmemptr : (gl.grFree ic).icShmemptr = update gl.icShmemptr ic false := by
    rw [Gl.grFree, eq]
    dsimp only
    rw [if_neg (by rw [rgb]; exact Displaymode.noConfusion)]
  have modes : (gl.grFree ic).icDisplaymode = gl.icDisplaymode := by
    rw [Gl.grFree, eq]
    dsimp only
    rw [if_neg (by rw [rgb]; exact Displaymode.noConfusion)]
  have rgbs : (gl.grFree ic).glNumrgbs = gl.glNumrgbs := by
    rw [Gl.grFree, eq]
    dsimp only
    rw [if_neg (by rw [rgb]; exact Displaymode.noConfusion)]
  have change := @number_mode n gl ic (gl.grFree ic) .mdRgb fun other apart => by
    rw [Gl.InMode, Gl.InMode, shmemptr, modes, update_of_ne apart]
  have here : gl.InMode .mdRgb ic := ⟨live, rgb⟩
  have gone : ¬ (gl.grFree ic).InMode .mdRgb ic := by
    rw [Gl.InMode, shmemptr, update_self]
    exact fun both => Bool.false_ne_true both.1
  rw [if_pos here, if_neg gone] at change
  have before := sound.rgbs
  have after := good.rgbs
  omega

theorem Sound.dogsync_harm (sound : Sound gl waiters) (listed : ic ∈ waiters) :
    ¬ Good (gl.dogsync ic) := by
  intro good
  obtain ⟨waiters', path, -⟩ := good.listed
  exact sound.path.push_again listed path

theorem Sound.dowaitforswap_harm (sound : Sound gl waiters) (waiting : gl.icSwapwaiting ic = true) :
    ¬ Good (gl.dowaitforswap ic) := by
  intro good
  have count := number_waiting gl ic true
  have again : update gl.icSwapwaiting ic true ic = true := update_self ..
  have after : gl.numreadytoswap + 1 =
      number fun other => update gl.icSwapwaiting ic true other = true := by
    have ready := good.ready
    rw [Gl.dowaitforswap, Gl.dowaitforswapLoop, if_pos again] at ready
    exact ready
  simp only [waiting, if_true] at count
  have before := sound.ready
  omega

theorem Sound.resume_harm (sound : Sound gl waiters)
    (asleep : gl.proc ic = .asleep .dogsync true) (more : gl.syncwaiters ≠ none)
    (out : ic ∉ waiters) : ¬ Good (gl.resume ic) := by
  intro good
  rw [Gl.resume, asleep] at good
  dsimp only at good
  rw [Gl.dogsyncLoop, if_neg more] at good
  obtain ⟨waiters', path, listed⟩ := good.listed
  have once : waiters'.count ic = 1 := listed ic (update_self ..)
  have same : waiters' = waiters := path.unique sound.path
  rw [same, List.count_eq_zero_of_not_mem out] at once
  exact Nat.zero_ne_one once

theorem wakeupswappers_harm (unused : ¬ gl.WaitersUsed) (interval : Int) :
    ¬ Good (gl.wakeupswappers interval) := by
  intro good
  rw [Gl.WaitersUsed] at unused
  push Not at unused
  obtain ⟨ic, waiting, free⟩ := unused
  have ready : 0 = number fun ic => (gl.icSwapwaiting ic && !gl.icShmemptr ic) = true := good.ready
  have left : (gl.icSwapwaiting ic && !gl.icShmemptr ic) = true := by
    rw [waiting, Bool.eq_false_iff.mpr free]
    rfl
  have pos := @number_pos n (fun ic => (gl.icSwapwaiting ic && !gl.icShmemptr ic) = true) _ ic left
  omega

theorem countdown_swaps {env : Env} (swaps : gl.Swaps env) :
    gl.countdown env = gl.wakeupswappers env.glMaxSwapInterval := by
  obtain ⟨now, ready, some, enough, idle⟩ := swaps
  rw [Gl.countdown, if_neg now, if_pos ⟨ready, some, enough⟩, if_neg (Bool.eq_false_iff.mp idle)]

theorem Sound.retrace_harm {env : Env} (sound : Sound gl waiters) (swaps : gl.Swaps env)
    (unused : ¬ gl.WaitersUsed) : ¬ Good (gl.retraceevent env) := by
  rw [Gl.retraceevent, sound.wakeupSync]
  generalize woken : ({ gl with
      syncwaiters := none
      proc := fun ic => if ic ∈ waiters then Gl.wake (gl.proc ic) else gl.proc ic } : Gl n) = gl'
  have swaps' : gl'.Swaps env := by rw [← woken]; exact swaps
  have unused' : ¬ gl'.WaitersUsed := by rw [← woken]; exact unused
  rw [countdown_swaps swaps']
  exact wakeupswappers_harm unused' _

theorem Sound.harm {e : Event n} (sound : Sound gl waiters) (enabled : gl.Enabled e)
    (forbidden : ¬ gl.Allowed e) : ¬ Good (gl.step e) := by
  rw [step_enabled sound.goes enabled]
  cases e with
  | alloc ic => exact sound.alloc_harm ((Bool.not_eq_false _).mp forbidden)
  | free ic => exact sound.free_harm enabled (not_not.mp forbidden)
  | dogsync ic => exact sound.dogsync_harm (sound.queued.mp (not_not.mp forbidden))
  | dowaitforswap ic => exact sound.dowaitforswap_harm ((Bool.not_eq_false _).mp forbidden)
  | setsinglebuffer ic => exact absurd trivial forbidden
  | setdoublebuffer ic => exact absurd trivial forbidden
  | setrgbmode ic => exact absurd trivial forbidden
  | retrace env =>
      obtain ⟨swaps, unused⟩ := Classical.not_imp.mp forbidden
      exact sound.retrace_harm swaps unused
  | wakeupswappers interval => exact wakeupswappers_harm forbidden interval
  | wakeup ic => exact absurd trivial forbidden
  | resume ic =>
      obtain ⟨asleep, lost⟩ := Classical.not_imp.mp forbidden
      obtain ⟨more, out⟩ := not_or.mp lost
      exact sound.resume_harm asleep more fun listed => out (sound.queued.mpr listed)
  | signal ic => exact absurd trivial forbidden

end Sound

/-- Nobody is stranded and all counts are exact in exactly those runs that do no harm. -/
theorem good_iff_allowed {n : Nat} (es : List (Event n)) :
    (∀ before after, es = before ++ after → Good (Run.exec Gl.step (Gl.boot n) before)) ↔
      Run.Along Gl.step (fun gl e => gl.Enabled e → gl.Allowed e) (Gl.boot n) es := by
  refine @Run.along_iff _ _ _ _ (fun gl => ∃ waiters, Sound gl waiters) Good ?_ ?_ ?_ _
    ⟨[], sound_boot n⟩ es
  · rintro gl e ⟨waiters, sound⟩ allowed
    exact sound.step allowed
  · rintro gl ⟨waiters, sound⟩
    exact sound.good
  · rintro gl e ⟨waiters, sound⟩ forbidden
    obtain ⟨enabled, forbidden⟩ := Classical.not_imp.mp forbidden
    exact sound.harm enabled forbidden

/-- Channel 1 enters `gsync` between the retrace that wakes channel 0 and its running. -/
theorem stranded : ¬ Good (Run.exec Gl.step (Gl.boot 2)
    [.alloc 0, .alloc 1, .dogsync 0, .retrace ⟨false, false, 0⟩, .dogsync 1, .resume 0]) := by
  intro good
  have woken := (good.wakes ⟨false, false, 0⟩ 0 rfl).1
  exact absurd woken (by decide)

end Irix.Retrace
