import Staut.Lib.Run
import Staut.Lib.PhaseRing
import Staut.Nvme.Defs

/-!
# The rings of a queue pair (`mylib/nvme.cc`)

The two rings between a queue pair and its device, for any number of entries.

* `cqRing n`: calls of `check_cq`, one after the other, with a device that posts completions of any
  commands. The device knows the host's place in the ring from the head doorbell, and does not post
  when `n - 1` entries are unreaped according to it.
* `sqRing n`: requests (`new_sqe`, then `sq_doorbell`) and calls of `check_cq`, with a device that
  fetches the submitted entries in order, at its own pace, and completes what it has fetched in any
  order.

One look of `check_cq` at an entry is one step, so that device steps fall anywhere in its loop.
-/

set_option autoImplicit false

namespace Nvme

open CSem Run PhaseRing

/-- A completion entry posted at the device's place in the ring. -/
def QP.post (qp : QP) (posted cid : Nat) : QP :=
  { qp with cqe := Function.update qp.cqe (posted % qp.nCqe) ⟨cid, phaseOf qp.nCqe posted⟩ }

/-- The constructor, for queues of `n` entries. -/
def QP.newOf (n : Nat) (m : QP) : QP :=
  { QP.new 1 m with
    nSqe := n
    nCqe := n
    sqe := fun i => ⟨.flush, (0, 0), 0, 0, if i < n then i else 0⟩ }

/-! ## Completions -/

/-- A completion ring. `checking`: a `check_cq` in progress, and whether it has reaped something;
`start`: how much had been reaped when it began. -/
structure Cq where
  qp : QP
  mem : Nat → UInt8
  checking : Option Bool
  start : Nat
  posted : List Nat
  reaped : List Nat

inductive CqLabel
  | call
  | look
  | post (cid : Nat)
  | other (qp : QP) (mem : Nat → UInt8)

/-- A look of `check_cq`. -/
def Cq.look (s : Cq) (b : Bool) : Cq :=
  if s.qp.cqReady then
    { s with
      qp := (s.qp.reap s.mem).1
      mem := (s.qp.reap s.mem).2
      checking := some true
      reaped := s.reaped ++ [(s.qp.cqe s.qp.cqHead).cid] }
  else { s with qp := s.qp.leaveCq b, checking := none }

/-- `other`: requests and device steps that leave the completion ring alone. -/
inductive CqStep (n : Nat) : Cq → CqLabel → Cq → Prop
  | call {s : Cq} : s.checking = none →
      CqStep n s .call { s with checking := some false, start := s.reaped.length }
  | look {s : Cq} {b : Bool} : s.checking = some b → CqStep n s .look (s.look b)
  | post {s : Cq} (cid : Nat) : (s.posted.length % n + n - s.qp.cqDoorbell) % n < n - 1 →
      CqStep n s (.post cid)
        { s with qp := s.qp.post s.posted.length cid, posted := s.posted ++ [cid] }
  | other {s : Cq} {qp : QP} {mem : Nat → UInt8} : qp.nCqe = s.qp.nCqe → qp.cqHead = s.qp.cqHead →
      qp.cqPhase = s.qp.cqPhase → qp.cqe = s.qp.cqe → qp.cqDoorbell = s.qp.cqDoorbell →
      CqStep n s (.other qp mem) { s with qp := qp, mem := mem }

def cqRing (n : Nat) : LTS Cq CqLabel where
  init s := ∃ m mem, s = ⟨QP.newOf n m, mem, none, 0, [], []⟩
  step := CqStep n

/-! ## Submissions -/

inductive SqPc
  | idle
  | newSqe
  | checkCq (req reaped : Bool)
deriving DecidableEq

/-- Both rings, by command ids: what was submitted, of which the device has fetched the first
`fetched`, what it is working on, and what it posted. -/
structure Sq where
  qp : QP
  mem : Nat → UInt8
  pc : SqPc
  submitted : List Nat
  fetched : Nat
  pending : List Nat
  posted : List Nat
  reaped : List Nat

/-- A request past the polling loop: `new_sqe` takes the entry at the tail, its caller fills it in
(but not its id), and `sq_doorbell` writes the new tail. -/
structure Submits (qp qp' : QP) : Prop where
  nSqe : qp'.nSqe = qp.nSqe
  nCqe : qp'.nCqe = qp.nCqe
  sqTail : qp'.sqTail = (qp.sqTail + 1) % qp.nSqe
  cqHead : qp'.cqHead = qp.cqHead
  cqPhase : qp'.cqPhase = qp.cqPhase
  doneFlag : qp'.doneFlag = Function.update qp.doneFlag qp.sqTail 0
  cid : ∀ i, (qp'.sqe i).cid = (qp.sqe i).cid
  cqe : qp'.cqe = qp.cqe
  cqDoorbell : qp'.cqDoorbell = qp.cqDoorbell
  sqDoorbell : qp'.sqDoorbell = qp'.sqTail

def Sq.submit (s : Sq) (qp : QP) : Sq :=
  { s with qp := qp, pc := .idle, submitted := s.submitted ++ [(s.qp.sqe s.qp.sqTail).cid] }

/-- A look of `check_cq`; `req` tells whether it was called by `new_sqe`. -/
def Sq.look (s : Sq) (req b : Bool) : Sq :=
  if s.qp.cqReady then
    { s with
      qp := (s.qp.reap s.mem).1
      mem := (s.qp.reap s.mem).2
      pc := .checkCq req true
      reaped := s.reaped ++ [(s.qp.cqe s.qp.cqHead).cid] }
  else { s with qp := s.qp.leaveCq b, pc := if req then .newSqe else .idle }

inductive SqLabel
  | request
  | check
  | poll
  | submit
  | look
  | fetch
  | complete (i : Nat)

inductive SqStep : Sq → SqLabel → Sq → Prop
  | request {s : Sq} : s.pc = .idle → SqStep s .request { s with pc := .newSqe }
  | check {s : Sq} : s.pc = .idle → SqStep s .check { s with pc := .checkCq false false }
  | poll {s : Sq} : s.pc = .newSqe → s.qp.doneFlag s.qp.sqTail = 0 →
      SqStep s .poll { s with pc := .checkCq true false }
  | submit {s : Sq} {qp : QP} : s.pc = .newSqe → s.qp.doneFlag s.qp.sqTail ≠ 0 → Submits s.qp qp →
      SqStep s .submit (s.submit qp)
  | look {s : Sq} {req b : Bool} : s.pc = .checkCq req b → SqStep s .look (s.look req b)
  | fetch {s : Sq} {cid : Nat} : s.submitted[s.fetched]? = some cid →
      SqStep s .fetch { s with fetched := s.fetched + 1, pending := s.pending ++ [cid] }
  | complete {s : Sq} {i cid : Nat} : s.pending[i]? = some cid → SqStep s (.complete i)
      { s with
        qp := s.qp.post s.posted.length cid
        pending := s.pending.eraseIdx i
        posted := s.posted ++ [cid] }

def sqRing (n : Nat) : LTS Sq SqLabel where
  init s := ∃ m mem, s = ⟨QP.newOf n m, mem, .idle, [], 0, [], [], []⟩
  step := SqStep

/-- The commands submitted and not yet fetched. -/
def Sq.unfetched (s : Sq) : Nat := s.submitted.length - s.fetched

/-- The doorbell just written tells the device what is pending. -/
def Sq.NotOverrun (n : Nat) (s : Sq) : Prop :=
  s.unfetched ≤ n - 1 ∧ s.qp.sqDoorbell ≠ s.fetched % n

/-- The requests that no `check_cq` has found completed. -/
def Sq.unreaped (s : Sq) : Nat := s.submitted.length - s.reaped.length

/-- With one more request, at most `n - 1` wait for their completion. -/
def Sq.Spare (n : Nat) (s : Sq) : Prop := s.unreaped + 1 ≤ n - 1

end Nvme
