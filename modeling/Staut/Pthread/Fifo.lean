import Staut.Lib.Run
import Staut.Lib.Cyclic

/-!
# The queue of spare wrappers (`mylib/myfifo.hpp`)

`MyFIFO<QD, T>`, from which `mylib.c` takes the wrappers of mutexes and condition variables, and to
which it gives them back, when `USE_MYFIFO` is set. Any number of threads call `push` and `pop`;
each load, compare-and-swap and store is a step. A pointer is an `Option T`, with `none` for
`nullptr`.

The history holds the entries in the order in which their pushes advanced `wp` (entry `n` is that of
push `n`), the number of advances of `rp`, what was stored for each entry, and what each pop that
advanced `rp` returned. A pop that finds the queue empty returns `nullptr` and leaves no trace, and
neither does a push that finds it full. The constructor does not write `que`.
-/

set_option autoImplicit false

namespace Pthread

open Run Cyclic

variable {T : Type}

/-- Where a thread is: before its load of its own index, before its load of the other one, before
its compare-and-swap, and, with the number it has got, before its access to `que`. -/
inductive FifoPc (T : Type)
  | idle
  | pushLoad (entry : Option T)
  | pushTest (entry : Option T) (oldWp : Nat)
  | pushCas (entry : Option T) (oldWp : Nat)
  | pushStore (entry : Option T) (oldWp n : Nat)
  | popLoad
  | popTest (oldRp : Nat)
  | popCas (oldRp : Nat)
  | popRead (oldRp n : Nat)

structure Fifo (T : Type) where
  wp : Nat
  rp : Nat
  que : Nat → Option T
  pc : Nat → FifoPc T
  pushes : List (Option T)
  pops : Nat
  filled : Nat → Option (Option T)
  got : List (Nat × Option T)

inductive FifoOp (T : Type)
  | push (t : Nat) (entry : Option T)
  | pop (t : Nat)
  | run (t : Nat)

namespace Fifo

def goto (s : Fifo T) (t : Nat) (pc : FifoPc T) : Fifo T :=
  { s with pc := Function.update s.pc t pc }

/-- The compare-and-swap of `wp` succeeds. -/
def reserve (QD : Nat) (s : Fifo T) (entry : Option T) (oldWp : Nat) : Fifo T :=
  { s with wp := (oldWp + 1) % QD, pushes := s.pushes ++ [entry] }

/-- `que[old_wp] = entry`. -/
def store (s : Fifo T) (entry : Option T) (oldWp n : Nat) : Fifo T :=
  { s with
    que := Function.update s.que oldWp entry
    filled := Function.update s.filled n (some entry) }

/-- The compare-and-swap of `rp` succeeds. -/
def take (QD : Nat) (s : Fifo T) (oldRp : Nat) : Fifo T :=
  { s with rp := (oldRp + 1) % QD, pops := s.pops + 1 }

/-- `return que[old_rp]`. -/
def read (s : Fifo T) (oldRp n : Nat) : Fifo T := { s with got := s.got ++ [(n, s.que oldRp)] }

/-- The next step of the call that thread `t` is in. -/
def run (QD : Nat) (s : Fifo T) (t : Nat) : Option (Fifo T) :=
  match s.pc t with
  | .idle => none
  | .pushLoad entry => some (s.goto t (.pushTest entry s.wp))
  | .pushTest entry oldWp =>
    some (s.goto t (if (oldWp + 1) % QD = s.rp then .idle else .pushCas entry oldWp))
  | .pushCas entry oldWp =>
    some (if s.wp = oldWp then
      (s.reserve QD entry oldWp).goto t (.pushStore entry oldWp s.pushes.length)
    else s.goto t (.pushLoad entry))
  | .pushStore entry oldWp n => some ((s.store entry oldWp n).goto t .idle)
  | .popLoad => some (s.goto t (.popTest s.rp))
  | .popTest oldRp => some (s.goto t (if oldRp = s.wp then .idle else .popCas oldRp))
  | .popCas oldRp =>
    some (if s.rp = oldRp then (s.take QD oldRp).goto t (.popRead oldRp s.pops)
    else s.goto t .popLoad)
  | .popRead oldRp n => some ((s.read oldRp n).goto t .idle)

def step (QD : Nat) (s : Fifo T) : FifoOp T → Option (Fifo T)
  | .push t entry =>
    match s.pc t with
    | .idle => some (s.goto t (.pushLoad entry))
    | _ => none
  | .pop t =>
    match s.pc t with
    | .idle => some (s.goto t .popLoad)
    | _ => none
  | .run t => s.run QD t

/-- The constructor's object. -/
def new (que : Nat → Option T) : Fifo T where
  wp := 0
  rp := 0
  que := que
  pc := fun _ => .idle
  pushes := []
  pops := 0
  filled := fun _ => none
  got := []

end Fifo

/-- All interleavings. -/
def fifo (T : Type) (QD : Nat) : LTS (Fifo T) (FifoOp T) where
  init s := ∃ que, s = Fifo.new que
  step s op s' := s.step QD op = some s'

/-- The number of entries between the indices is that of the pushes less that of the pops, with room
for at most `QD - 1`; the pop with number `n` returned what push `n` has stored; no number is
returned twice. -/
structure FifoRight (QD : Nat) (s : Fifo T) : Prop where
  le : s.pops ≤ s.pushes.length
  size : s.pushes.length - s.pops ≤ QD - 1
  between : cycLen QD s.rp s.wp = s.pushes.length - s.pops
  stored : ∀ r ∈ s.got, s.filled r.1 = some r.2
  order : ∀ r ∈ s.got, s.pushes[r.1]? = some r.2
  once : (s.got.map (·.1)).Nodup

end Pthread
