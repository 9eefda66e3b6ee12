import Staut.Abt.Waitlist
import Staut.Lib.Run
import Mathlib.Data.Rat.Defs
import Mathlib.Data.List.Range

/-!
# Condition variables (`argobots/src/cond.c`, `abti_cond.h`)

Any number of threads on one condition variable: `ABT_cond_wait`, `ABT_cond_timedwait`,
`ABT_cond_clockwait`, `ABT_cond_signal` and `ABT_cond_broadcast`, with the polling and sleeping
loops of the functions in `abti_waitlist.h`. What a thread does under the spinlock of the condition
variable between two of its control points is one step; every look at `state` or at a clock outside
the lock is one as well.

* `Fn.clock` is the clock that a wait reads, `State.expired` the test against its target.
* `State.run` is the next step of a thread.
* `State.call`, `status`, `ret` are the history: the waits in the order of their arrival in the
  list, what has become of each, and what it has returned.
-/

set_option autoImplicit false

namespace Abt

open Run

structure Timespec where
  sec : Int
  nsec : Int

/-- `convert_timespec_to_sec` and `ABTD_time_read_sec`, without rounding. -/
def Timespec.toSec (t : Timespec) : ℚ := t.sec + t.nsec / 10 ^ 9

def clockRealtime : Int := 0
def clockMonotonic : Int := 1

/-- What the clocks show at each moment. -/
abbrev Clocks := Int → Nat → Timespec

inductive Fn
  | wait
  | timedwait (abstime : Timespec)
  | clockwait (clkid : Int) (abstime : Timespec)

/-- `tar_time`. -/
def Fn.target : Fn → Option Timespec
  | .wait => none
  | .timedwait abstime => some abstime
  | .clockwait _ abstime => some abstime

def Fn.timed (f : Fn) : Bool := f.target.isSome

/-- `ABTI_get_wtime` reads `CLOCK_REALTIME`; `ABTI_get_wtime2` gets the clock of the condition
variable, whatever the argument of `ABT_cond_clockwait`. -/
def Fn.clock (clkid : Int) : Fn → Int
  | .clockwait _ _ => clkid
  | _ => clockRealtime

/-- A wait: the `ABTI_thread` that it puts into the list (the structure of the ULT itself, or one on
the stack), and whether it sleeps on the futex or polls (a ULT that is suspended does neither). -/
structure Wait where
  fn : Fn
  mutex : Nat
  node : Nat
  sleeps : Bool

/-- The list part of the function that the wait calls. -/
def Waitlist.enter (wl : Waitlist) (w : Wait) : Option Waitlist :=
  if w.fn.timed then wl.waitTimedout w.node else wl.wait w.node

inductive Op
  | wait (w : Wait)
  | signal
  | broadcast

/-- Where a thread is in a wait, after it has entered the list: the loop over the futex (`top`,
`check`, and `again` to take the lock), the polling loop (`poll`, `clock`, and `expire` to take the
lock), and the label `timeout`. -/
inductive Loc
  | top
  | check
  | again
  | poll
  | clock
  | expire
  | timeout

inductive Pc
  | idle
  | acquire (op : Op)
  | locked (op : Op)
  | enqueue (w : Wait)
  | waiting (w : Wait) (c : Nat) (loc : Loc)
  | relock (w : Wait) (c : Nat) (isTimedout : Bool)

/-- The structure that a thread has in use. -/
def Pc.node : Pc → Option Nat
  | .acquire (.wait w) => some w.node
  | .locked (.wait w) => some w.node
  | .enqueue w => some w.node
  | .waiting w _ _ => some w.node
  | _ => none

inductive Status
  | waiting
  | signalled
  | timedout
deriving DecidableEq

structure Call where
  thread : Nat
  wait : Wait
  since : Nat

structure State where
  wl : Waitlist
  clkid : Int
  lock : Option Nat
  waiterMutex : Option Nat
  owner : Nat → Option Nat
  pc : Nat → Pc
  now : Nat
  calls : Nat
  call : Nat → Call
  status : Nat → Status
  ret : Nat → Option Bool

namespace State

def goto (s : State) (t : Nat) (pc : Pc) : State := { s with pc := Function.update s.pc t pc }

def unlock (s : State) : State := { s with lock := none }

def isReady (s : State) (w : Wait) : Bool := (s.wl.mem w.node).ready

/-- `cur_time >= target_time`. -/
def expired (clocks : Clocks) (s : State) (w : Wait) : Bool :=
  match w.fn.target with
  | none => false
  | some ts => ts.toSec ≤ (clocks (w.fn.clock s.clkid) s.now).toSec

/-- The waits that have entered the list and were neither signalled nor timed out, in the order of
their arrival. -/
def pending (s : State) : List Nat := (List.range s.calls).filter fun c => s.status c = .waiting

/-- Their structures. -/
def nodes (s : State) : List Nat := s.pending.map fun c => (s.call c).wait.node

/-- The list after a wake-up, with the waiters that were made ready. -/
def wake (s : State) (r : Waitlist × List Nat) : State :=
  { s with
    wl := r.1
    status := fun c => if c ∈ s.pending ∧ (s.call c).wait.node ∈ r.2 then .signalled
      else s.status c }

/-- The list after a new waiter has entered it. -/
def arrive (s : State) (t : Nat) (w : Wait) (wl : Waitlist) : State :=
  { s with
    wl := wl
    calls := s.calls + 1
    call := Function.update s.call s.calls ⟨t, w, s.now⟩
    status := Function.update s.status s.calls .waiting }

/-- The list after the waiter of the call `c` has come to the label `timeout`. -/
def leave (s : State) (c : Nat) (r : Waitlist × Bool) : State :=
  { s with wl := r.1, status := if r.2 then Function.update s.status c .timedout else s.status }

/-- Taking the lock of the condition variable, or spinning on it. -/
def acquire (s : State) (t : Nat) (pc : Pc) : State :=
  match s.lock with
  | none => { s with lock := some t }.goto t pc
  | some _ => s

/-- A thread in a wait. -/
def runWait (clocks : Clocks) (s : State) (t : Nat) (w : Wait) (c : Nat) : Loc → Option State
  | .top => some (s.goto t (.waiting w c (if s.expired clocks w then .timeout else .check)))
  | .check =>
    some (s.unlock.goto t (if s.isReady w then .relock w c false else .waiting w c .poll))
  | .again => some (s.acquire t (.waiting w c .top))
  | .poll =>
    if s.isReady w then some (s.goto t (.relock w c false))
    else if w.sleeps then some (s.goto t (.waiting w c .again))
    else some (s.goto t (.waiting w c (if w.fn.timed then .clock else .poll)))
  | .clock => some (s.goto t (.waiting w c (if s.expired clocks w then .expire else .poll)))
  | .expire => some (s.acquire t (.waiting w c .timeout))
  | .timeout => do
    let r ← s.wl.timeout w.node
    return (s.leave c r).unlock.goto t (.relock w c r.2)

/-- The next step of a thread inside a call. -/
def run (clocks : Clocks) (fuel : Nat) (s : State) (t : Nat) : Option State :=
  match s.pc t with
  | .idle => none
  | .acquire op => some (s.acquire t (.locked op))
  | .locked (.wait w) =>
    if s.waiterMutex = none ∨ s.waiterMutex = some w.mutex then
      some ({ s with
        waiterMutex := some w.mutex
        owner := Function.update s.owner w.mutex none }.goto t (.enqueue w))
    else some (s.unlock.goto t .idle)
  | .locked .signal => some ((s.wake s.wl.signal).unlock.goto t .idle)
  | .locked .broadcast => do
    let r ← s.wl.broadcast fuel
    return (s.wake r).unlock.goto t .idle
  | .enqueue w => do
    let wl ← s.wl.enter w
    let s' := s.arrive t w wl
    return if w.sleeps then s'.goto t (.waiting w s.calls .top)
      else s'.unlock.goto t (.waiting w s.calls .poll)
  | .waiting w c loc => s.runWait clocks t w c loc
  | .relock w c r =>
    some (if s.owner w.mutex = none then
      { s with
        owner := Function.update s.owner w.mutex (some t)
        ret := Function.update s.ret c (some r) }.goto t .idle
      else s)

end State

inductive Label
  | run (t fuel : Nat)
  | start (t : Nat) (op : Op)
  | lock (t mutex : Nat)
  | unlock (t mutex : Nat)
  | tick
  | links (a : Nat) (next prev : Option Nat)

/-- A wait is called with the mutex held, and with a structure that no other thread has in use. -/
def State.CanStart (s : State) (t : Nat) : Op → Prop
  | .wait w => s.owner w.mutex = some t ∧ ∀ u, (s.pc u).node ≠ some w.node
  | _ => True

/-- The threads, the passing of time, and writes to structures that are not in the list (a ULT that
was resumed is linked into a pool, a stack is used again). -/
def condSys (clocks : Clocks) (clkid : Int) : LTS State Label where
  init s := s.clkid = clkid ∧ s.wl.head = none ∧ s.wl.tail = none ∧ s.lock = none ∧
    s.waiterMutex = none ∧ (∀ t, s.pc t = .idle) ∧ s.calls = 0 ∧ ∀ c, s.ret c = none
  step s l s' :=
    match l with
    | .run t fuel => s.run clocks fuel t = some s'
    | .start t op => s.pc t = .idle ∧ s.CanStart t op ∧ s' = s.goto t (.acquire op)
    | .lock t m => s.pc t = .idle ∧ s.owner m = none ∧
        s' = { s with owner := Function.update s.owner m (some t) }
    | .unlock t m => s.pc t = .idle ∧ s.owner m = some t ∧
        s' = { s with owner := Function.update s.owner m none }
    | .tick => s' = { s with now := s.now + 1 }
    | .links a next prev => a ∉ s.nodes ∧
        s' = { s with wl := s.wl.set a fun n => { n with next := next, prev := prev } }

end Abt
