import Mathlib.Logic.Function.Basic

/-!
# The list of waiters (`argobots/src/include/abti_waitlist.h`)

An `ABTI_waitlist` and the `ABTI_thread` structures that it links, as far as the list uses them. All
functions here run under the lock of the condition variable. `none` is a `NULL` dereference or a
failed `ABTI_ASSERT`.
-/

set_option autoImplicit false

namespace Abt

/-- `p_next`, `p_prev`, and `state` (`ABT_THREAD_STATE_READY` or not) of an `ABTI_thread`. -/
structure Thread where
  next : Option Nat
  prev : Option Nat
  ready : Bool

structure Waitlist where
  head : Option Nat
  tail : Option Nat
  mem : Nat → Thread

namespace Waitlist

def set (w : Waitlist) (a : Nat) (f : Thread → Thread) : Waitlist :=
  { w with mem := Function.update w.mem a (f (w.mem a)) }

/-- `p_waitlist->p_tail->p_next = a`. -/
def linkTail (w : Waitlist) (a : Nat) : Option Waitlist :=
  match w.tail with
  | none => none
  | some t => some (w.set t fun n => { n with next := some a })

/-- The list part of `ABTI_waitlist_wait_and_unlock`: `p_prev` is not set. -/
def wait (w : Waitlist) (a : Nat) : Option Waitlist := do
  let w := w.set a fun n => { n with ready := false, next := none }
  let w ← match w.head with
    | none => some { w with head := some a }
    | some _ => w.linkTail a
  return { w with tail := some a }

/-- The list part of `ABTI_waitlist_wait_timedout_and_unlock` and of its variant with a clock. -/
def waitTimedout (w : Waitlist) (a : Nat) : Option Waitlist := do
  let w := w.set a fun n => { n with ready := false, next := none }
  let w ← match w.head with
    | none => some ({ w with head := some a }.set a fun n => { n with prev := none })
    | some _ => (w.linkTail a).map fun w' => w'.set a fun n => { n with prev := w.tail }
  return { w with tail := some a }

/-- What both wake-ups do to a waiter. -/
def wake (w : Waitlist) (a : Nat) : Waitlist :=
  w.set a fun n => { n with next := none, ready := true }

/-- `ABTI_waitlist_signal`, with the waiters it makes ready. -/
def signal (w : Waitlist) : Waitlist × List Nat :=
  match w.head with
  | none => (w, [])
  | some a =>
    let next := (w.mem a).next
    ({ w.wake a with head := next, tail := if next = none then none else w.tail }, [a])

/-- The loop of `ABTI_waitlist_broadcast`. -/
def broadcastLoop : Nat → Waitlist → Nat → Option (Waitlist × List Nat)
  | 0, _, _ => none
  | fuel + 1, w, a =>
    match (w.mem a).next with
    | none => some (w.wake a, [a])
    | some b => (broadcastLoop fuel (w.wake a) b).map fun r => (r.1, a :: r.2)

/-- `ABTI_waitlist_broadcast`. -/
def broadcast (fuel : Nat) (w : Waitlist) : Option (Waitlist × List Nat) :=
  match w.head with
  | none => some (w, [])
  | some a => (broadcastLoop fuel w a).map fun r => ({ r.1 with head := none, tail := none }, r.2)

/-- From the label `timeout` on, with `is_timedout`. The type of the structure on the caller's stack
is always `ABTI_THREAD_TYPE_EXT`. -/
def timeout (w : Waitlist) (a : Nat) : Option (Waitlist × Bool) :=
  if (w.mem a).ready then some (w, false)
  else
    let next := (w.mem a).next
    if w.head = some a then
      match next with
      | some _ => some ({ w with head := next }, true)
      | none => if w.tail = some a then some ({ w with head := none, tail := none }, true) else none
    else
      match (w.mem a).prev with
      | none => none
      | some p =>
        let w' := w.set p fun n => { n with next := next }
        match next with
        | some b => some (w'.set b fun n => { n with prev := some p }, true)
        | none => if w.tail = some a then some ({ w' with tail := some p }, true) else none

end Waitlist

end Abt
