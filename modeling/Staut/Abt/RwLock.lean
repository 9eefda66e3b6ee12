import Staut.Abt.WaitQueue
import Staut.Lib.Run

/-!
# Readers-writer locks (`argobots/src/rwlock.c`)

Any number of threads on one lock: `ABT_rwlock_rdlock`, `ABT_rwlock_wrlock` and `ABT_rwlock_unlock`,
with `ABTI_cond_wait` and `ABTI_cond_broadcast` on its condition variable. Its mutex is taken and
released in one step each: that a mutex of Argobots is one that at most one thread has is shown in
`Abt.Mutex`, and not used here. `reader_count` is a natural number: it counts read locks that are
held, and would need 2^64 of them to overflow.

`State.holds` is the history: who has the lock, and how.
-/

set_option autoImplicit false

namespace Abt.RwLock

open Run

inductive Kind
  | rdlock
  | wrlock
deriving DecidableEq

/-- Where a thread is. `lock`, `test`, `count` and `done` are the functions that take the lock, and
`condLock`, `register`, `fail`, `release` and `wait` the call of `ABTI_cond_wait` in their loop,
behind which is `lock` again. `unlock`, `clear`, `notify`, `broadcast` and `quiet` are
`ABT_rwlock_unlock`, up to `done`. -/
inductive Pc
  | idle
  | lock (k : Kind)
  | test (k : Kind)
  | condLock (k : Kind)
  | register (k : Kind)
  | fail
  | release (k : Kind)
  | wait (k : Kind) (l : Sleep)
  | count (k : Kind)
  | done
  | unlock
  | clear
  | notify
  | broadcast
  | quiet
deriving DecidableEq

def Pc.resume (k : Kind) : Option Sleep → Pc
  | none => .lock k
  | some l => .wait k l

structure State where
  /-- Who has the mutex, and its address. -/
  mutex : Option Nat
  addr : Nat
  cond : WaitQueue
  waiterMutex : Option Nat
  readerCount : Nat
  writeFlag : Bool
  pc : Nat → Pc
  holds : List (Nat × Kind)

namespace State

def goto (s : State) (t : Nat) (pc : Pc) : State := { s with pc := Function.update s.pc t pc }

/-- The condition of the loop. -/
def blocked (s : State) : Kind → Bool
  | .rdlock => s.writeFlag
  | .wrlock => s.writeFlag || s.readerCount != 0

/-- The mutex is taken, or waited for. -/
def lockMutex (s : State) (t : Nat) (pc : Pc) : State :=
  match s.mutex with
  | none => { s with mutex := some t }.goto t pc
  | some _ => s

/-- The spinlock of the condition variable is taken, or spun on. -/
def lockCond (s : State) (t : Nat) (pc : Pc) : State :=
  match s.cond.acquire t with
  | some q => { s with cond := q }.goto t pc
  | none => s

/-- The next step of a thread inside a call; `none` is a `NULL` dereference or a failed assertion.
-/
def run (ext : Nat → Bool) (fuel : Nat) (s : State) (t : Nat) : Option State :=
  match s.pc t with
  | .idle => none
  | .lock k => some (s.lockMutex t (.test k))
  | .test k => some (s.goto t (if s.blocked k then .condLock k else .count k))
  | .condLock k => some (s.lockCond t (.register k))
  | .register k =>
    some (if s.waiterMutex = none ∨ s.waiterMutex = some s.addr then
      { s with waiterMutex := some s.addr }.goto t (.release k)
    else s.goto t .fail)
  | .fail => some ({ s with cond := s.cond.unlock }.goto t .done)
  | .release k => some ({ s with mutex := none }.goto t (.wait k .enter))
  | .wait k l => do
    let r ← s.cond.sleep (ext t) t l
    return { s with cond := r.1 }.goto t (.resume k r.2)
  | .count .rdlock =>
    some ({ s with readerCount := s.readerCount + 1, holds := (t, .rdlock) :: s.holds }.goto t
      .done)
  | .count .wrlock => some
      ({ s with writeFlag := true, holds := (t, .wrlock) :: s.holds }.goto t .done)
  | .done => some ({ s with mutex := none }.goto t .idle)
  | .unlock => some (s.lockMutex t .clear)
  | .clear =>
    if s.writeFlag then
      some ({ s with writeFlag := false, holds := s.holds.erase (t, .wrlock) }.goto t .notify)
    else if 0 < s.readerCount then
      some ({ s with readerCount := s.readerCount - 1, holds := s.holds.erase (t, .rdlock) }.goto t
        .notify)
    else none
  | .notify => some (s.lockCond t .broadcast)
  | .broadcast => do
    let q ← s.cond.broadcast fuel
    return { s with cond := q }.goto t .quiet
  | .quiet => some ({ s with cond := s.cond.unlock }.goto t .done)

end State

inductive Label
  | run (t fuel : Nat)
  | call (t : Nat) (k : Kind)
  | unlock (t : Nat)
  | links (a : Nat) (next prev : Option Nat)

/-- The threads, and writes to the links of threads that do not wait here. `ABT_rwlock_unlock` is
called by a thread that has the lock. -/
def sys (ext : Nat → Bool) : LTS State Label where
  init s := s.mutex = none ∧ s.cond.lock = none ∧ s.cond.wl.head = none ∧ s.cond.wl.tail = none ∧
    s.waiterMutex = none ∧ s.readerCount = 0 ∧ s.writeFlag = false ∧ (∀ t, s.pc t = .idle) ∧
    s.holds = []
  step s l s' :=
    match l with
    | .run t fuel => s.run ext fuel t = some s'
    | .call t k => s.pc t = .idle ∧ s' = s.goto t (.lock k)
    | .unlock t => s.pc t = .idle ∧ (∃ k, (t, k) ∈ s.holds) ∧ s' = s.goto t .unlock
    | .links a next prev => (∀ k l, s.pc a ≠ .wait k l) ∧ s' = { s with cond := { s.cond with
        wl := s.cond.wl.set a fun n => { n with next := next, prev := prev } } }

end Abt.RwLock
