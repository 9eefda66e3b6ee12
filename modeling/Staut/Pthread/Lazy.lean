import Staut.Lib.Run
import Mathlib.Logic.Function.Basic
import Mathlib.Algebra.Group.Nat.Defs
import Mathlib.Algebra.Group.Int.Defs

/-!
# Lazy initialisation of mutexes and condition variables (`mylib/mylib.c`)

`get_abt_mutex` and `get_abt_cond` on one statically initialised object, by any number of ULTs. The
first 8 bytes of the object (`State.word`) are first a 32-bit flag (`my_magic_t`: zero, or
`0xffffffff` while the object is being initialised) and then the 64-bit address of a wrapper that
holds the Argobots handle. Each load, compare-and-swap and store is one step.

The history holds the wrappers created for the object and the results of the calls. `malloc` returns
any address that is not `NULL`, 16-byte aligned, and not that of an earlier wrapper.
`real_pthread_condattr_getclock` is a parameter: `none` where it does not return, and the program
ends.
-/

set_option autoImplicit false

namespace Pthread

open Run

/-- Which of the two functions. -/
inductive Obj
  | mutex
  | cond
deriving DecidableEq

def oldMagic : Nat := 0x0
def newMagic : Nat := 0xffffffff

/-- Where a ULT is: the first test of `get_abt_mutex`, the compare-and-swap, in `pthread_*_init`
before `malloc`, before the call of `real_pthread_condattr_getclock` or before the store of the
address, the polling loop, the final load. -/
inductive Pc
  | idle
  | test
  | cas
  | create
  | clock (wrap : Nat)
  | store (wrap : Nat)
  | wait
  | load
deriving DecidableEq

structure State where
  word : Nat
  pc : Nat → Pc
  wraps : List Nat
  rets : List Nat
  crashed : Bool

/-- `*p_magic`: the low half of the word. -/
def State.magic (s : State) : Nat := s.word % 2 ^ 32

def State.goto (s : State) (t : Nat) (pc : Pc) : State := { s with pc := Function.update s.pc t pc }

/-- The address of the handle in a wrapper, behind its `magic`. -/
def handleOf (wrap : Nat) : Nat := wrap + 8

/-- `get_abt_cond` has no test before its compare-and-swap. -/
def Obj.entry : Obj → Pc
  | .mutex => .test
  | .cond => .cas

/-- `pthread_cond_init` looks for the clock of its attribute first. -/
def Obj.created (wrap : Nat) : Obj → Pc
  | .mutex => .store wrap
  | .cond => .clock wrap

/-- The ULT that has initialised a mutex goes through the polling loop as well. -/
def Obj.initialised : Obj → Pc
  | .mutex => .wait
  | .cond => .load

/-- One step of ULT `t`; `a` is what `malloc` returns, if it is called. -/
def State.step (getclock : Option Int → Option Int) (o : Obj) (s : State) (t a : Nat) : State :=
  match s.pc t with
  | .idle => s.goto t o.entry
  | .test => s.goto t (if s.magic = oldMagic then .cas else .wait)
  | .cas =>
    if s.magic = oldMagic then
      { s with word := s.word / 2 ^ 32 * 2 ^ 32 + newMagic }.goto t .create
    else s.goto t .wait
  | .create => { s with wraps := s.wraps ++ [a] }.goto t (o.created a)
  | .clock wrap =>
    -- `get_abt_cond` calls `pthread_cond_init(cond, NULL)`
    match getclock none with
    | some _ => s.goto t (.store wrap)
    | none => { s with crashed := true }
  | .store wrap => { s with word := wrap }.goto t o.initialised
  | .wait => if s.magic = newMagic then s else s.goto t .load
  | .load => { s with rets := s.rets ++ [handleOf s.word] }.goto t .idle

/-- What `malloc` can return. -/
def Fresh (s : State) (a : Nat) : Prop := a ≠ 0 ∧ a % 16 = 0 ∧ a < 2 ^ 64 ∧ a ∉ s.wraps

instance (s : State) (a : Nat) : Decidable (Fresh s a) := inferInstanceAs (Decidable (_ ∧ _))

/-- The ULTs on an all-zero object; a label is a ULT and the result of `malloc`. -/
def lazy (getclock : Option Int → Option Int) (o : Obj) : LTS State (Nat × Nat) where
  init s := s.word = 0 ∧ (∀ t, s.pc t = .idle) ∧ s.wraps = [] ∧ s.rets = [] ∧ s.crashed = false
  step s l s' := s.crashed = false ∧ (s.pc l.1 = .create → Fresh s l.2) ∧
    s' = s.step getclock o l.1 l.2

end Pthread
