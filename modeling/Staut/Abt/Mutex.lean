import Staut.Abt.WaitQueue
import Staut.Lib.Run

/-!
# Mutexes (`argobots/src/mutex.c`, `abti_mutex.h`)

Any number of threads on one mutex, recursive or not: `ABT_mutex_lock`, `ABT_mutex_trylock`,
`ABT_mutex_spinlock` and `ABT_mutex_unlock`. What a thread does between two accesses to memory that
others write is one step.

* `State.run` is the next step of a thread; `none` is a `NULL` dereference or a failed
  `ABTI_ASSERT`.
* `State.owner` and `State.depth` are the history: who has set `lock`, and how many calls that took
  the mutex a thread has not undone yet.
-/

set_option autoImplicit false

namespace Abt.Mutex

open Run

inductive Kind
  | lock
  | trylock
  | spinlock
deriving DecidableEq

/-- Where a thread is. `entry`: before `owner_id` is looked at. `attempt`, `waiter`, `retry`,
`leave` and `wait` are `ABTI_mutex_lock_no_recursion`, and `taken` is behind it; `unlock` is the
entry of `ABTI_mutex_unlock`, and `toRelease`, `release`, `wake` and `released` are
`ABTI_mutex_unlock_no_recursion`. -/
inductive Pc
  | idle
  | entry (k : Kind)
  | attempt
  | waiter
  | retry
  | leave
  | wait (l : Sleep)
  | trylock
  | spin
  | taken
  | unlock
  | toRelease
  | release
  | wake
  | released
deriving DecidableEq

/-- The function without recursion that a call goes on to. -/
def Kind.body : Kind → Pc
  | .lock => .attempt
  | .trylock => .trylock
  | .spinlock => .spin

/-- Behind a step of the wait: the loop tries again after it has returned. -/
def Pc.resume : Option Sleep → Pc
  | none => .attempt
  | some l => .wait l

/-- `nestingCnt` is the `int nesting_cnt` in the runs of `Nested`. -/
structure State where
  lock : Bool
  /-- `waiter_lock` and `waitlist`. -/
  queue : WaitQueue
  recursive : Bool
  ownerId : Option Nat
  nestingCnt : Nat
  pc : Nat → Pc
  owner : Option Nat
  depth : Nat → Nat

namespace State

def goto (s : State) (t : Nat) (pc : Pc) : State := { s with pc := Function.update s.pc t pc }

/-- `lock` is set by `t`. -/
def take (s : State) (t : Nat) (pc : Pc) : State :=
  { s with lock := true, owner := some t }.goto t pc

/-- A call returns with the mutex. -/
def enter (s : State) (t : Nat) : State :=
  { s with depth := Function.update s.depth t (s.depth t + 1) }.goto t .idle

/-- `waiter_lock` is taken, or spun on. -/
def acquire (s : State) (t : Nat) (pc : Pc) : State :=
  match s.queue.acquire t with
  | some q => { s with queue := q }.goto t pc
  | none => s

/-- The next step of a thread inside a call. -/
def run (ext : Nat → Bool) (fuel : Nat) (s : State) (t : Nat) : Option State :=
  match s.pc t with
  | .idle => none
  | .entry k =>
    some (if s.recursive ∧ s.ownerId = some t then { s with nestingCnt := s.nestingCnt + 1 }.enter t
      else s.goto t k.body)
  | .attempt => some (if s.lock then s.goto t .waiter else s.take t .taken)
  | .waiter => some (s.acquire t .retry)
  | .retry => some (if s.lock then s.goto t (.wait .enter) else s.take t .leave)
  | .leave => some ({ s with queue := s.queue.unlock }.goto t .taken)
  | .wait l => do
    let r ← s.queue.sleep (ext t) t l
    return { s with queue := r.1 }.goto t (.resume r.2)
  | .trylock => some (if s.lock then s.goto t .idle else s.take t .taken)
  | .spin => some (if s.lock then s else s.take t .taken)
  | .taken =>
    if s.recursive then
      if s.nestingCnt = 0 then some ({ s with ownerId := some t }.enter t) else none
    else some (s.enter t)
  | .unlock =>
    some (if s.recursive then
      if s.nestingCnt = 0 then { s with ownerId := none }.goto t .toRelease
      else { s with nestingCnt := s.nestingCnt - 1 }.goto t .idle
    else s.goto t .toRelease)
  | .toRelease => some (s.acquire t .release)
  | .release => some ({ s with lock := false, owner := none }.goto t .wake)
  | .wake => do
    let q ← s.queue.broadcast fuel
    return { s with queue := q }.goto t .released
  | .released => some ({ s with queue := s.queue.unlock }.goto t .idle)

end State

inductive Label
  | run (t fuel : Nat)
  | call (t : Nat) (k : Kind)
  | unlock (t : Nat)
  | links (a : Nat) (next prev : Option Nat)

/-- A thread that has the mutex does not wait for it, unless it is a recursive one. -/
def State.CanCall (s : State) (t : Nat) (k : Kind) : Prop :=
  k = .trylock ∨ s.recursive = true ∨ s.depth t = 0

/-- The threads, and writes to the links of threads that do not wait here (a ULT that runs is in no
list of this mutex, and is linked into others). `ABT_mutex_unlock` is called with the mutex held. -/
def sys (ext : Nat → Bool) : LTS State Label where
  init s := s.lock = false ∧ s.queue.lock = none ∧ s.queue.wl.head = none ∧ s.queue.wl.tail = none ∧
    s.ownerId = none ∧ s.nestingCnt = 0 ∧ (∀ t, s.pc t = .idle) ∧ s.owner = none ∧
    ∀ t, s.depth t = 0
  step s l s' :=
    match l with
    | .run t fuel => s.run ext fuel t = some s'
    | .call t k => s.pc t = .idle ∧ s.CanCall t k ∧ s' = s.goto t (.entry k)
    | .unlock t => s.pc t = .idle ∧ 0 < s.depth t ∧
        s' = { s with depth := Function.update s.depth t (s.depth t - 1) }.goto t .unlock
    | .links a next prev => (∀ l, s.pc a ≠ .wait l) ∧ s' = { s with queue := { s.queue with
        wl := s.queue.wl.set a fun n => { n with next := next, prev := prev } } }

/-- The largest `int`. -/
def INT_MAX : Nat := 2147483647

/-- No thread nests so many calls that `nesting_cnt` would overflow. -/
def Nested (s : State) : Label → Prop
  | .call t _ => s.depth t ≤ INT_MAX
  | _ => True

end Abt.Mutex
