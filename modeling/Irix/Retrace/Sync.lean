import Irix.Lib.Links
import Irix.Lib.Run
import Mathlib.Logic.Function.Basic
import Mathlib.Order.Fin.Basic
import Mathlib.Tactic.Common

/-! # Waiting for the retrace

Graphics processes wait for the next vertical retrace in `gsync`, and for the next
swap of the buffers.  One input channel belongs to each of them.
-/

namespace Irix.Retrace

open Lib Function

inductive Displaymode where
  | mdSingle
  | mdDouble
  | mdRgb
  deriving Repr, DecidableEq

/-- The calls in which a process sleeps. -/
inductive Call where
  | dogsync
  | dowaitforswap
  deriving Repr, DecidableEq

/-- What the process of a channel does: it has been woken once it may run again. -/
inductive Proc where
  | running
  | asleep (call : Call) (woken : Bool)
  deriving Repr, DecidableEq

/-- The input channels, each field by channel, and the globals. -/
structure Gl (n : Nat) where
  icShmemptr : Fin n → Bool
  icNext : Fin n → Option (Fin n)
  icSwapwaiting : Fin n → Bool
  icDisplaymode : Fin n → Displaymode
  proc : Fin n → Proc
  syncwaiters : Option (Fin n)
  numreadytoswap : Int
  glNumdoublebufferers : Int
  glNumrgbs : Int
  glSwapCount : Int
  glNeedtodoswaps : Bool
  glMode : Displaymode
  /-- A loop over a circle of links is never left. -/
  hung : Bool

/-- What else decides about a swap. -/
structure Env where
  glWmswapanytime : Bool
  /-- `PIPEISBUSY || gl_lock` -/
  busy : Bool
  glMaxSwapInterval : Int

/-- What happens: the calls of the processes, and what runs them. -/
inductive Event (n : Nat) where
  | alloc (ic : Fin n)
  | free (ic : Fin n)
  | dogsync (ic : Fin n)
  | dowaitforswap (ic : Fin n)
  | setsinglebuffer (ic : Fin n)
  | setdoublebuffer (ic : Fin n)
  | setrgbmode (ic : Fin n)
  | retrace (env : Env)
  | wakeupswappers (glMaxSwapInterval : Int)
  | wakeup (ic : Fin n)
  | resume (ic : Fin n)
  | signal (ic : Fin n)

namespace Gl

variable {n : Nat} (gl : Gl n)

/-- No channel is in use. -/
def boot (n : Nat) : Gl n where
  icShmemptr := fun _ => false
  icNext := fun _ => none
  icSwapwaiting := fun _ => false
  icDisplaymode := fun _ => .mdSingle
  proc := fun _ => .running
  syncwaiters := none
  numreadytoswap := 0
  glNumdoublebufferers := 0
  glNumrgbs := 0
  glSwapCount := 0
  glNeedtodoswaps := false
  glMode := .mdSingle
  hung := false

/-- `gr_wakeup` lets the process run that sleeps at the address of its channel. -/
def wake : Proc → Proc
  | .running => .running
  | .asleep call _ => .asleep call true

def grWakeup (ic : Fin n) : Gl n := { gl with proc := update gl.proc ic (wake (gl.proc ic)) }

/-- `gr_sleep` -/
def grSleep (ic : Fin n) (call : Call) : Gl n :=
  { gl with proc := update gl.proc ic (.asleep call false) }

/-- A call is over. -/
def returns (ic : Fin n) : Gl n := { gl with proc := update gl.proc ic .running }

/-- `gr_alloc` -/
def grAlloc (ic : Fin n) : Gl n :=
  { gl with
    icShmemptr := update gl.icShmemptr ic true
    icSwapwaiting := update gl.icSwapwaiting ic false
    proc := update gl.proc ic .running }

/-- Remove from the list of sync waiters. -/
def unlinkSync (ic : Fin n) : Gl n :=
  match gl.syncwaiters with
  | none => gl
  | some first =>
      if ic = first then { gl with syncwaiters := gl.icNext ic }
      else
        match Links.before gl.icNext ic n first with
        | none => { gl with hung := true }
        | some icptr => { gl with icNext := Links.unlink gl.icNext ic icptr }

/-- Clean up the state of a double buffered channel. -/
def freeDouble (ic : Fin n) : Gl n :=
  let numreadytoswap := if gl.icSwapwaiting ic then gl.numreadytoswap - 1 else gl.numreadytoswap
  let last : Bool := gl.glNumdoublebufferers - 1 = 0 ∧ gl.glNumrgbs = 0
  { gl with
    numreadytoswap
    icSwapwaiting := update gl.icSwapwaiting ic false
    icDisplaymode := update gl.icDisplaymode ic .mdSingle
    glNumdoublebufferers := gl.glNumdoublebufferers - 1
    glNeedtodoswaps := if numreadytoswap = 0 ∨ last then false else gl.glNeedtodoswaps
    glMode := if last then .mdSingle else gl.glMode }

/-- `gr_free` -/
def grFree (ic : Fin n) : Gl n :=
  let gl := gl.unlinkSync ic
  let gl := if gl.icDisplaymode ic = .mdDouble then gl.freeDouble ic else gl
  { gl with
    icShmemptr := update gl.icShmemptr ic false
    proc := update gl.proc ic .running }

/-- `while(syncwaiters) gr_sleep(...)` -/
def dogsyncLoop (ic : Fin n) : Gl n :=
  if gl.syncwaiters = none then gl.returns ic else gl.grSleep ic .dogsync

def dogsync (ic : Fin n) : Gl n :=
  { gl with icNext := update gl.icNext ic gl.syncwaiters, syncwaiters := some ic }.dogsyncLoop ic

/-- `while(ic->ic_swapwaiting) gr_sleep(...)` -/
def dowaitforswapLoop (ic : Fin n) : Gl n :=
  if gl.icSwapwaiting ic then gl.grSleep ic .dowaitforswap else gl.returns ic

def dowaitforswap (ic : Fin n) : Gl n :=
  { gl with
    icSwapwaiting := update gl.icSwapwaiting ic true
    numreadytoswap := gl.numreadytoswap + 1 }.dowaitforswapLoop ic

/-- A process goes on that has been woken. -/
def resume (ic : Fin n) : Gl n :=
  match gl.proc ic with
  | .asleep .dogsync true => gl.dogsyncLoop ic
  | .asleep .dowaitforswap true => gl.dowaitforswapLoop ic
  | _ => gl

def setsinglebuffer (ic : Fin n) : Gl n :=
  let gl := match gl.icDisplaymode ic with
    | .mdDouble =>
        let glNumdoublebufferers := gl.glNumdoublebufferers - 1
        { gl with
          glNumdoublebufferers
          glMode := if glNumdoublebufferers = 0 ∧ gl.glNumrgbs = 0 then .mdSingle else gl.glMode }
    | .mdRgb =>
        let glNumrgbs := gl.glNumrgbs - 1
        { gl with
          glNumrgbs
          glMode :=
            if glNumrgbs = 0 then if gl.glNumdoublebufferers ≠ 0 then .mdDouble else .mdSingle
            else gl.glMode }
    | .mdSingle => gl
  { gl with icDisplaymode := update gl.icDisplaymode ic .mdSingle }

def setdoublebuffer (ic : Fin n) : Gl n :=
  let gl := match gl.icDisplaymode ic with
    | .mdSingle =>
        { gl with
          glNumdoublebufferers := gl.glNumdoublebufferers + 1
          glMode := if gl.glNumdoublebufferers = 0 ∧ gl.glNumrgbs = 0 then .mdDouble else gl.glMode }
    | .mdRgb =>
        let glNumrgbs := gl.glNumrgbs - 1
        { gl with
          glNumdoublebufferers := gl.glNumdoublebufferers + 1
          glNumrgbs
          glMode := if glNumrgbs = 0 then .mdDouble else gl.glMode }
    | .mdDouble => gl
  { gl with icDisplaymode := update gl.icDisplaymode ic .mdDouble }

def setrgbmode (ic : Fin n) : Gl n :=
  let gl :=
    if gl.icDisplaymode ic = .mdDouble then
      { gl with glNumdoublebufferers := gl.glNumdoublebufferers - 1 }
    else gl
  let gl :=
    if gl.icDisplaymode ic ≠ .mdRgb then
      { gl with
        glNumrgbs := gl.glNumrgbs + 1
        glMode := if gl.glNumrgbs = 0 then .mdRgb else gl.glMode }
    else gl
  { gl with icDisplaymode := update gl.icDisplaymode ic .mdRgb }

/-- Everyone who waits for the swap is woken. -/
def wakeupswappers (glMaxSwapInterval : Int) : Gl n :=
  { gl with
    icSwapwaiting := fun ic => gl.icSwapwaiting ic && !gl.icShmemptr ic
    proc := fun ic =>
      if gl.icShmemptr ic ∧ gl.icSwapwaiting ic then wake (gl.proc ic) else gl.proc ic
    glSwapCount := glMaxSwapInterval
    numreadytoswap := 0
    glNeedtodoswaps := false }

/-- So many are to be ready before the buffers are swapped. -/
def neededtoswap (env : Env) : Int :=
  if env.glWmswapanytime then gl.glNumdoublebufferers - 1 else gl.glNumdoublebufferers

/-- Count down for the next swap. -/
def countdown (env : Env) : Gl n :=
  if 0 < gl.glSwapCount then { gl with glSwapCount := gl.glSwapCount - 1 }
  else if 0 < gl.numreadytoswap ∧ 0 < gl.neededtoswap env ∧
      gl.neededtoswap env ≤ gl.numreadytoswap then
    if env.busy then { gl with glNeedtodoswaps := true }
    else gl.wakeupswappers env.glMaxSwapInterval
  else gl

/-- The list is taken down before it is followed. -/
def wakeupSync : Gl n :=
  match Links.walk gl.icNext n gl.syncwaiters with
  | none => { gl with syncwaiters := none, hung := true }
  | some waiters =>
      { gl with
        syncwaiters := none
        proc := fun ic => if ic ∈ waiters then wake (gl.proc ic) else gl.proc ic }

def retraceevent (env : Env) : Gl n := gl.wakeupSync.countdown env

/-- What can happen next. -/
def Enabled : Event n → Prop
  | .alloc ic => gl.icShmemptr ic = false
  | .free ic => gl.icShmemptr ic = true
  | .dogsync ic | .setsinglebuffer ic | .setdoublebuffer ic | .setrgbmode ic =>
      gl.icShmemptr ic = true ∧ gl.proc ic = .running
  | .dowaitforswap ic =>
      gl.icShmemptr ic = true ∧ gl.proc ic = .running ∧ gl.icDisplaymode ic = .mdDouble
  | _ => True

instance decidableEnabled (e : Event n) : Decidable (gl.Enabled e) := by
  cases e
  all_goals
    simp only [Enabled]
    infer_instance

/-- What an event does. -/
def act : Event n → Gl n
  | .alloc ic => gl.grAlloc ic
  | .free ic => gl.grFree ic
  | .dogsync ic => gl.dogsync ic
  | .dowaitforswap ic => gl.dowaitforswap ic
  | .setsinglebuffer ic => gl.setsinglebuffer ic
  | .setdoublebuffer ic => gl.setdoublebuffer ic
  | .setrgbmode ic => gl.setrgbmode ic
  | .retrace env => gl.retraceevent env
  | .wakeupswappers interval => gl.wakeupswappers interval
  | .wakeup ic => gl.grWakeup ic
  | .resume ic => gl.resume ic
  | .signal ic => gl.returns ic

/-- One event.  Nothing happens any more after a circle has been entered. -/
def step (e : Event n) : Gl n := if gl.hung = false ∧ gl.Enabled e then gl.act e else gl

end Gl

end Irix.Retrace
