import Staut.Lib.Run
import Staut.Lib.PhaseRing
import Staut.Nvme.Defs

/-!
# One I/O queue pair and its device

`Nvme.Queue` is a queue pair with the call that runs on it (`Pc`: calls are not interrupted by
other callers), the device behind it, and the history that the results speak about: the requests
issued so far, the command ids reaped and the copies made by `check_cq`. `Queue.host` is one step of
the running call, with one look at a completion entry per step, so that device steps
(`Queue.complete`) fall anywhere, inside `new_sqe`'s polling loop too. The device completes
outstanding commands in any order; a read places its data in the bounce buffer and the completion
goes to the next position of the ring, with the phase bit of its pass.

`Nvme.queue cfg did coreId` is the transition system.
-/

set_option autoImplicit false

namespace Nvme

open CSem Run PhaseRing

/-- A request as the queue pair took it. -/
structure Issued where
  req : Req
  cid : Nat
  rid : Int

/-- A submitted command: the number of the request and the submission entry. -/
structure Cmd where
  seq : Nat
  sqe : Sqe

/-- A completed command, with the data a read placed in its bounce buffer. -/
structure Done where
  cmd : Cmd
  data : List UInt8

/-- The device: the commands it still has and the completions it posted, oldest first. -/
structure Dev where
  outstanding : List Cmd
  posted : List Done

/-- A call that polls: a request in `new_sqe`, or `nvme_check`. -/
inductive Call
  | req (r : Req)
  | check (rid : Int)

/-- Where the running call is: `newSqe` at the test of the polling loop, `checkCq` at the phase
test (the flag tells whether this `check_cq` has reaped something). -/
inductive Pc
  | idle
  | newSqe (r : Req)
  | checkCq (c : Call) (reaped : Bool)

structure Queue where
  qp : QP
  pc : Pc
  dev : Dev
  issued : List Issued
  reaped : List Nat
  copies : List (Nat × List UInt8)

/-- What a step returns to the caller of a request or of `nvme_check`. -/
inductive Out
  | none
  | rid (rid : Int)
  | check (rid : Int) (b : Bool)
deriving DecidableEq

/-- A queue pair just constructed. -/
def Queue.new (qid : Nat) (m : QP) : Queue :=
  ⟨QP.new qid m, .idle, ⟨[], []⟩, [], [], []⟩

/-- The copy that reaping the next entry makes. -/
def QP.copyOut (qp : QP) : List (Nat × List UInt8) :=
  let cid := (qp.cqe qp.cqHead).cid
  match qp.rbuf cid with
  | some dst => [(dst, qp.bounce cid (qp.len cid))]
  | none => []

/-- One round of `check_cq`'s loop. -/
def Queue.reap (q : Queue) (mem : Nat → UInt8) : Queue × (Nat → UInt8) :=
  ({ q with
      qp := (q.qp.reap mem).1
      reaped := q.reaped ++ [(q.qp.cqe q.qp.cqHead).cid]
      copies := q.copies ++ q.qp.copyOut }, (q.qp.reap mem).2)

def Queue.leaveCq (q : Queue) (reaped : Bool) : Queue := { q with qp := q.qp.leaveCq reaped }

/-- A request past the polling loop, up to the doorbell and the return. -/
def Queue.submit (cfg : Cfg) (did coreId : Nat) (q : Queue) (mem : Nat → UInt8) (r : Req) : Queue :=
  let cid := q.qp.sqTail
  let qp := q.qp.request cfg mem r
  { q with
    qp := qp
    pc := .idle
    dev := { q.dev with outstanding := q.dev.outstanding ++ [⟨q.issued.length, qp.sqe cid⟩] }
    issued := q.issued ++ [⟨r, cid, ridOf cfg did coreId cid⟩] }

/-- One step of the running call. -/
def Queue.host (cfg : Cfg) (did coreId : Nat) (q : Queue) (mem : Nat → UInt8) :
    Option (Queue × (Nat → UInt8) × Out) :=
  match q.pc with
  | .idle => none
  | .newSqe r =>
    if q.qp.doneFlag q.qp.sqTail = 0 then some ({ q with pc := .checkCq (.req r) false }, mem,
      .none)
    else some (q.submit cfg did coreId mem r, mem, .rid (ridOf cfg did coreId q.qp.sqTail))
  | .checkCq c reaped =>
    if q.qp.cqReady then
      let (q, mem) := q.reap mem
      some ({ q with pc := .checkCq c true }, mem, .none)
    else
      let q := q.leaveCq reaped
      match c with
      | .req r => some ({ q with pc := .newSqe r }, mem, .none)
      | .check rid => some ({ q with pc := .idle }, mem, .check rid (q.qp.done (ridCid rid).toNat))

/-- `nvme_check(rid)` up to its `check_cq`. -/
def Queue.callCheck (q : Queue) (rid : Int) : Queue × Out :=
  if q.qp.done (ridCid rid).toNat then (q, .check rid true)
  else ({ q with pc := .checkCq (.check rid) false }, .none)

/-- What a completed command leaves in the shared memory: a read's data, and the completion
entry. -/
def QP.complete (qp : QP) (posted : Nat) (c : Cmd) (data : List UInt8) : QP :=
  { qp with
    buf4k := if c.sqe.opc = .read then (qp.storeBuf c.sqe.prp1 data).buf4k else qp.buf4k
    cqe := Function.update qp.cqe (posted % qp.nCqe) ⟨c.sqe.cid, phaseOf qp.nCqe posted⟩ }

/-- The device completes its `i`-th outstanding command. -/
def Queue.complete (q : Queue) (i : Nat) (c : Cmd) (data : List UInt8) : Queue :=
  { q with
    qp := q.qp.complete q.dev.posted.length c data
    dev := ⟨q.dev.outstanding.eraseIdx i, q.dev.posted ++ [⟨c, data⟩]⟩ }

/-- Steps: a call begins, the running call goes on, the device completes a command, or the
application writes its memory. -/
inductive Act
  | request (r : Req)
  | check (rid : Int)
  | host
  | complete (i : Nat) (data : List UInt8)
  | app (mem : Nat → UInt8)

/-- The queue pair of drive `did` and core `coreId`. A request comes here when its sector is
on the drive, a check when its `rid` (0 or more) decodes to this queue pair. -/
def queue (cfg : Cfg) (did coreId : Nat) : LTS (Queue × (Nat → UInt8)) (Act × Out) where
  init s := ∃ m, s.1 = Queue.new (coreId + 1) m
  step s a s' :=
    match a with
    | (.request r, o) => s.1.pc = .idle ∧ r.Fits ∧ driveOf cfg r.lba = did ∧ o = .none ∧
        s' = ({ s.1 with pc := .newSqe r }, s.2)
    | (.check rid, o) => s.1.pc = .idle ∧ 0 ≤ rid ∧ ridDid cfg rid = did ∧
        ridQid cfg rid = coreId + 1 ∧ s' = ((s.1.callCheck rid).1, s.2) ∧ o = (s.1.callCheck rid).2
    | (.host, o) => s.1.host cfg did coreId s.2 = some (s'.1, s'.2, o)
    | (.complete i data, o) => ∃ c, s.1.dev.outstanding[i]? = some c ∧
        (c.sqe.opc = .read → data.length = 512 * (c.sqe.cdw12 + 1)) ∧ o = .none ∧
        s' = (s.1.complete i c data, s.2)
    | (.app mem, o) => o = .none ∧ s' = (s.1, mem)

end Nvme
