import Staut.Lib.Run
import Mathlib.Logic.Function.Basic

/-!
# `pthread_once` on cores that run one ULT at a time (`mylib/mylib.c`)

Any number of ULTs call `pthread_once` on one control. A ULT stays on the core that `pthread_create`
gave it (`core`), a core runs one ULT, and it changes to another one only when the running ULT
yields. That can be outside of `pthread_once`, and in `init_routine`, as often as it likes. The loop
that waits for the initialiser is made of `_mm_pause`, which does not yield. The compare-and-swap,
the store and each load of the control are steps.

The history holds how often `init_routine` was started, whether it has returned, and for each call
that has returned whether `init_routine` had returned before.
-/

set_option autoImplicit false

namespace Pthread

open Run

/-- `ini_val`, `run_val` and `end_val`. -/
def iniVal : Int := 0
def runVal : Int := 1
def endVal : Int := 2

/-- Where a ULT is: not in `pthread_once`, before the compare-and-swap, in `init_routine`, before
the store, in the loop. -/
inductive OncePc
  | outside
  | cas
  | init
  | store
  | wait
deriving DecidableEq

structure Once where
  onceControl : Int
  pc : Nat → OncePc
  running : Nat → Option Nat
  started : Nat
  finished : Bool
  rets : List Bool

inductive OnceOp
  | sched (t : Nat)
  | yield (t : Nat)
  | call (t : Nat)
  | run (t : Nat)
  | finish (t : Nat)

namespace Once

def goto (s : Once) (t : Nat) (pc : OncePc) : Once := { s with pc := Function.update s.pc t pc }

def setRunning (s : Once) (c : Nat) (r : Option Nat) : Once :=
  { s with running := Function.update s.running c r }

/-- `return 0`. -/
def ret (s : Once) (t : Nat) : Once := { s.goto t .outside with rets := s.rets ++ [s.finished] }

/-- The next step of `pthread_once` itself. -/
def run (s : Once) (t : Nat) : Option Once :=
  match s.pc t with
  | .cas =>
    some (if s.onceControl = iniVal then
      { s with onceControl := runVal, started := s.started + 1 }.goto t .init
    else s.goto t .wait)
  | .store => some ({ s with onceControl := endVal }.ret t)
  | .wait => some (if s.onceControl ≠ endVal then s else s.ret t)
  | _ => none

/-- A core without a running ULT takes one, and the ULT that a core runs yields, calls
`pthread_once`, goes on in it, or returns from `init_routine`. -/
def step (core : Nat → Nat) (s : Once) : OnceOp → Option Once
  | .sched t =>
    if s.running (core t) = none then some (s.setRunning (core t) (some t)) else none
  | .yield t =>
    if s.running (core t) = some t ∧ (s.pc t = .outside ∨ s.pc t = .init) then
      some (s.setRunning (core t) none)
    else none
  | .call t =>
    if s.running (core t) = some t ∧ s.pc t = .outside then some (s.goto t .cas) else none
  | .run t => if s.running (core t) = some t then s.run t else none
  | .finish t =>
    if s.running (core t) = some t ∧ s.pc t = .init then some
      ({ s with finished := true }.goto t .store) else none

/-- `PTHREAD_ONCE_INIT`, and all cores free. -/
def new : Once where
  onceControl := iniVal
  pc := fun _ => .outside
  running := fun _ => none
  started := 0
  finished := false
  rets := []

end Once

/-- The core of the ULT with number `my_tid`, as `pthread_create` places it. -/
def placedOn (N_CORE myTid : Nat) : Nat := myTid % N_CORE

/-- The ULTs on given cores. -/
def once (core : Nat → Nat) : LTS Once OnceOp where
  init s := s = .new
  step s op s' := s.step core op = some s'

/-- Started once, and before any call is past its compare-and-swap; no call returns before the end
of `init_routine`; and no core runs the waiting loop while the ULT in `init_routine` is suspended on
it. -/
structure OnceRight (core : Nat → Nat) (s : Once) : Prop where
  once : s.started ≤ 1
  started : ∀ t, s.pc t = .init ∨ s.pc t = .store ∨ s.pc t = .wait → s.started = 1
  returned : s.rets ≠ [] → s.started = 1
  finished : ∀ r ∈ s.rets, r = true
  free : ∀ t u, s.pc t = .init → s.running (core t) = some u → s.pc u ≠ .wait

end Pthread
