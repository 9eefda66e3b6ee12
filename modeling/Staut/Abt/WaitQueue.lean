import Staut.Abt.Waitlist

/-!
# A spinlock and its list of waiters (`abti_waitlist.h`, `abtd_spinlock.h`)

The wait without a timeout, `ABTI_waitlist_wait_and_unlock`, as a mutex (`waiter_lock`, `waitlist`),
a condition variable and a readers-writer lock use it. A thread enters its own structure into the
list.

* A ULT is suspended, and `lock` is released as it leaves; it goes on when it has been made ready.
* An external thread looks at its `state` under the lock, and sleeps on the futex, which releases
  the lock; it may come back from there at any time.
-/

set_option autoImplicit false

namespace Abt

structure WaitQueue where
  lock : Option Nat
  wl : Waitlist

/-- Where a thread is in `ABTI_waitlist_wait_and_unlock`: before it is in the list, suspended, or,
for an external thread, at the top of its loop, at the quick check behind the futex, and at the lock
again. -/
inductive Sleep
  | enter
  | suspended
  | check
  | quick
  | again
deriving DecidableEq

namespace WaitQueue

def isReady (q : WaitQueue) (t : Nat) : Bool := (q.wl.mem t).ready

def unlock (q : WaitQueue) : WaitQueue := { q with lock := none }

/-- Taking the spinlock, or spinning on it. -/
def acquire (q : WaitQueue) (t : Nat) : Option WaitQueue :=
  match q.lock with
  | none => some { q with lock := some t }
  | some _ => none

/-- The next step of a thread in `ABTI_waitlist_wait_and_unlock`; without a place it has returned.
-/
def sleep (ext : Bool) (q : WaitQueue) (t : Nat) : Sleep → Option (WaitQueue × Option Sleep)
  | .enter => do
    let wl ← q.wl.wait t
    return if ext then ({ q with wl }, some .check) else ({ lock := none, wl }, some .suspended)
  | .suspended => some (q, if q.isReady t then none else some .suspended)
  | .check => some (q.unlock, if q.isReady t then none else some .quick)
  | .quick => some (q, if q.isReady t then none else some .again)
  | .again =>
    match q.acquire t with
    | some q' => some (q', some .check)
    | none => some (q, some .again)

/-- `ABTI_waitlist_broadcast`. -/
def broadcast (fuel : Nat) (q : WaitQueue) : Option WaitQueue :=
  (q.wl.broadcast fuel).map fun r => { q with wl := r.1 }

end WaitQueue

end Abt
