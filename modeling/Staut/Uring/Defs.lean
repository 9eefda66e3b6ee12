import Staut.Lib.Run
import Mathlib.Logic.Function.Basic
import Mathlib.Algebra.Group.Nat.Defs
import Mathlib.Algebra.Group.Int.Defs

/-!
# io_uring submission and completion (`mylib/iouringlib.c`, `mylib/hook.c`)

`struct submitter` with the rings it shares with the kernel, and `iouring_get_sqe`, `iouring_op` and
`iouring_check` on it. The ring counters are `unsigned` and run freely (modulo `2 ^ 32`); an index
is a counter masked with `ring_mask`.

`Uring.ring` is one core's ring with its ULTs and the kernel. A ULT in `__io_uring_read` or
`__io_uring_write` submits its operation and then polls; it can be left only at its yields, so
while a ULT is inside `iouring_check` (`State.checking`, one completion entry per step) only the
kernel goes on (the `printf` at an error is taken not to yield). The operations are numbered in the
order in which they got an entry, and the state carries the history the result speaks about: the
operation of each entry, the operations whose completions were posted, and those whose ULT left the
polling loop.
-/

set_option autoImplicit false

namespace Uring

open Run

-- irreducible, so that no proof runs through a ring of this size
@[irreducible] def IOURING_DEPTH : Nat := 1024

theorem IOURING_DEPTH_eq : IOURING_DEPTH = 1024 := by unfold IOURING_DEPTH; rfl

/-- `*ring_mask` of both rings: they have `IOURING_DEPTH` entries. -/
def ringMask : Nat := IOURING_DEPTH - 1

inductive Opcode
  | IORING_OP_READ
  | IORING_OP_WRITE
deriving DecidableEq, Inhabited

/-- `struct io_uring_sqe`. -/
structure Sqe where
  opcode : Opcode
  flags : Nat
  ioprio : Nat
  fd : Int
  off : Nat
  addr : Nat
  len : Nat
  userData : Nat
  bufIndex : Nat
deriving Inhabited

/-- `struct io_uring_cqe`. -/
structure Cqe where
  userData : Nat
  res : Int
deriving Inhabited

/-- `struct submitter`, with the rings it points to. -/
structure Submitter where
  sqHead : Nat
  sqTail : Nat
  array : Nat → Nat
  sqes : Nat → Sqe
  cqHead : Nat
  cqTail : Nat
  cqes : Nat → Cqe
  polled : Nat
  doneFlag : Nat → Nat
deriving Inhabited

/-- `iouring_setup(s, polled)` on rings that hold `m`. -/
def iouringSetup (m : Submitter) (polled : Nat) : Submitter where
  sqHead := 0
  sqTail := 0
  array i := if i < IOURING_DEPTH then i else m.array i
  sqes := m.sqes
  cqHead := 0
  cqTail := 0
  cqes := m.cqes
  polled := polled
  doneFlag i := if i < IOURING_DEPTH then 1 else m.doneFlag i

/-- `iouring_get_sqe`; `none` is its -1. -/
def iouringGetSqe (s : Submitter) : Option Nat × Submitter :=
  let nextTail := (s.sqTail + 1) % 2 ^ 32
  if nextTail = s.sqHead then (none, s)
  else (some (s.sqTail &&& ringMask), { s with sqTail := nextTail })

/-- The arguments of `iouring_read` and `iouring_write`. -/
structure Args where
  op : Opcode
  fd : Int
  buf : Nat
  count : Nat
  off : Nat

/-- The submission entry that `iouring_op` fills in. -/
def Args.sqe (a : Args) (index : Nat) : Sqe where
  flags := 0
  fd := a.fd
  opcode := a.op
  addr := a.buf
  len := a.count % 2 ^ 32
  bufIndex := 0
  ioprio := 0
  off := a.off
  userData := index

def iouringOp (s : Submitter) (a : Args) : Option Nat × Submitter :=
  match iouringGetSqe s with
  | (none, s) => (none, s)
  | (some index, s) =>
    (some index, { s with
      sqes := Function.update s.sqes index (a.sqe index)
      doneFlag := Function.update s.doneFlag index 0 })

/-- One round of `iouring_check`'s loop at the local `head` with `reaped` entries taken so far:
the values for the next round, or `none` when the function returns. -/
def iouringCheck (s : Submitter) (head reaped : Nat) : Submitter × Option (Nat × Nat) :=
  if head = s.cqTail then (if reaped = 0 then s else { s with cqHead := head }, none)
  else
    let cqe := s.cqes (head &&& ringMask)
    if cqe.res < 0 then (s, none)
    else ({ s with doneFlag := Function.update s.doneFlag cqe.userData 1 },
      some ((head + 1) % 2 ^ 32, reaped + 1))

/-- `done_flag[sqe_id]`; at -1 this is the member before the array. -/
def Submitter.flag (s : Submitter) : Option Nat → Nat
  | some i => s.doneFlag i
  | none => s.polled

/-! ## One core's ring -/

/-- Where a ULT is in `__io_uring_read`/`__io_uring_write`, with its `sqe_id` and the number of
its operation. -/
inductive Pc
  | idle
  | submit (sqeId op : Option Nat)
  | poll (sqeId op : Option Nat)
deriving DecidableEq

structure State where
  sub : Submitter
  ults : Nat → Pc
  checking : Option (Nat × Nat × Nat)
  inflight : List (Nat × Sqe)
  ops : Nat
  entryOp : Nat → Nat
  posted : List Nat
  left : List (Option Nat)

/-- `iouring_read` or `iouring_write` of ULT `u`. -/
def State.op (s : State) (u : Nat) (a : Args) : State :=
  match iouringOp s.sub a with
  | (none, sub) => { s with sub := sub, ults := Function.update s.ults u (.submit none none) }
  | (some index, sub) => { s with
      sub := sub
      ults := Function.update s.ults u (.submit (some index) (some s.ops))
      ops := s.ops + 1
      entryOp := Function.update s.entryOp index s.ops }

/-- The kernel takes the next submission entry. -/
def State.take (s : State) : State :=
  let i := s.sub.array (s.sub.sqHead &&& ringMask)
  { s with
    sub := { s.sub with sqHead := (s.sub.sqHead + 1) % 2 ^ 32 }
    inflight := s.inflight ++ [(s.entryOp i, s.sub.sqes i)] }

/-- The kernel completes its `i`-th operation in flight. -/
def State.complete (s : State) (i : Nat) (e : Nat × Sqe) (res : Int) : State :=
  { s with
    sub := { s.sub with
      cqes := Function.update s.sub.cqes (s.sub.cqTail &&& ringMask) ⟨e.2.userData, res⟩
      cqTail := (s.sub.cqTail + 1) % 2 ^ 32 }
    inflight := s.inflight.eraseIdx i
    posted := s.posted ++ [e.1] }

/-- One round of `iouring_check`; after the last one the ULT tests its flag and leaves the polling
loop or yields. -/
def State.check (s : State) (u head reaped : Nat) (sqeId op : Option Nat) : State :=
  match iouringCheck s.sub head reaped with
  | (sub, some (head, reaped)) => { s with sub := sub, checking := some (u, head, reaped) }
  | (sub, none) =>
    if sub.flag sqeId ≠ 0 then
      { s with
        sub := sub, checking := none, ults := Function.update s.ults u .idle
        left := s.left ++ [op] }
    else { s with sub := sub, checking := none }

inductive Label
  | op (u : Nat) (a : Args)
  | submit (u : Nat) (taken : Bool)
  | getevents (u : Nat)
  | check
  | complete (i : Nat) (res : Int)

/-- `io_uring_enter` takes the entry it is given or refuses; completions come in any order, with
results of 0 or more, while the completion ring has room. -/
inductive Step : State → Label → State → Prop
  | op {s : State} {u : Nat} (a : Args) : s.checking = none → s.ults u = .idle →
      Step s (.op u a) (s.op u a)
  | submit {s : State} {u : Nat} {sqeId op : Option Nat} : s.checking = none →
      s.ults u = .submit sqeId op → s.sub.sqHead ≠ s.sub.sqTail →
      Step s (.submit u true) { s.take with ults := Function.update s.ults u (.poll sqeId op) }
  | refused {s : State} {u : Nat} {sqeId op : Option Nat} : s.checking = none →
      s.ults u = .submit sqeId op →
      Step s (.submit u false) { s with ults := Function.update s.ults u (.poll sqeId op) }
  | getevents {s : State} {u : Nat} {sqeId op : Option Nat} : s.checking = none →
      s.ults u = .poll sqeId op →
      Step s (.getevents u) { s with checking := some (u, s.sub.cqHead, 0) }
  | check {s : State} {u head reaped : Nat} {sqeId op : Option Nat} :
      s.checking = some (u, head, reaped) → s.ults u = .poll sqeId op →
      Step s .check (s.check u head reaped sqeId op)
  | complete {s : State} {i : Nat} {e : Nat × Sqe} {res : Int} : s.inflight[i]? = some e →
      (s.sub.cqTail + 2 ^ 32 - s.sub.cqHead) % 2 ^ 32 < IOURING_DEPTH → 0 ≤ res →
      Step s (.complete i res) (s.complete i e res)

/-- The ring of one core after `iouring_setup`, before any operation. -/
def ring : LTS State Label where
  init s := ∃ m f, s = ⟨iouringSetup m 0, fun _ => .idle, none, [], 0, f, [], []⟩
  step := Step

end Uring
