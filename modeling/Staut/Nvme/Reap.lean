import Staut.Nvme.Rings

/-!
# What `check_cq` copies, on any queue pair (`mylib/nvme.cc`)

A queue pair with the calls that use it, one after the other: `nvme_read_req`, `nvme_write_req` and
`nvme_check` on an I/O queue, and on the admin queue the commands of `__nvme_init` and `create_qp`,
each with its `req_and_wait`. The device fetches the submitted entries in order, completes what it
has fetched in any order, and writes to the bounce buffers at any time.

The history holds which command took each id last, and the copies. What an admin command writes into
its submission entry is left out: it keeps the entry's id.
-/

set_option autoImplicit false

namespace Nvme

open CSem Run PhaseRing

inductive AdminCmd
  | identify
  | createCq (newQid : Nat)
  | createSq (newQid : Nat)

/-- A command that takes an id. -/
inductive Taken
  | read (r : Req)
  | write (r : Req)
  | admin (c : AdminCmd)

/-- The commands of a queue: requests have queue `core_id + 1`. -/
def Taken.On (qid : Nat) : Taken → Prop
  | .read r => qid ≠ 0 ∧ r.opc = .read
  | .write r => qid ≠ 0 ∧ r.opc = .write
  | .admin _ => qid = 0

/-- What comes after a `check_cq`: the test of `new_sqe`'s loop, the end of `nvme_check`, or the
test of `req_and_wait`'s loop. -/
inductive AfterCq
  | newSqe (t : Taken)
  | check
  | wait (cid : Nat)

inductive ReapPc
  | idle
  | newSqe (t : Taken)
  | checkCq (a : AfterCq) (reaped : Bool)

/-- A `memcpy` of `check_cq`: for which id, where to, how much, and which command took the id last.
-/
structure Copy where
  cid : Nat
  dst : Nat
  len : Nat
  taken : Option Taken

structure Reap where
  qp : QP
  mem : Nat → UInt8
  pc : ReapPc
  submitted : List Nat
  fetched : Nat
  pending : List Nat
  posted : List Nat
  reaped : List Nat
  taken : Nat → Option Taken
  copies : List Copy

/-- An admin command past `new_sqe`'s loop, up to the doorbell of `req_and_wait`. -/
def QP.adminReq (qp : QP) : QP :=
  let qp := qp.newSqe.1
  { qp with sqDoorbell := qp.sqTail }

def QP.take (cfg : Cfg) (qp : QP) (mem : Nat → UInt8) : Taken → QP
  | .read r => qp.readReq cfg r
  | .write r => qp.writeReq cfg mem r
  | .admin _ => qp.adminReq

/-- Requests return, admin commands wait. -/
def Taken.pc (cid : Nat) : Taken → ReapPc
  | .admin _ => .checkCq (.wait cid) false
  | _ => .idle

def AfterCq.pc (qp : QP) : AfterCq → ReapPc
  | .newSqe t => .newSqe t
  | .check => .idle
  | .wait cid => if qp.done cid then .idle else .checkCq (.wait cid) false

namespace Reap

/-- A command past `new_sqe`'s loop. -/
def submit (cfg : Cfg) (s : Reap) (t : Taken) : Reap :=
  { s with
    qp := s.qp.take cfg s.mem t
    pc := t.pc s.qp.sqTail
    submitted := s.submitted ++ [(s.qp.sqe s.qp.sqTail).cid]
    taken := Function.update s.taken s.qp.sqTail (some t) }

/-- The copy that a look makes. -/
def copyOut (s : Reap) : List Copy :=
  let cid := (s.qp.cqe s.qp.cqHead).cid
  match s.qp.rbuf cid with
  | some dst => [⟨cid, dst, s.qp.len cid, s.taken cid⟩]
  | none => []

/-- A look of `check_cq`. -/
def look (s : Reap) (a : AfterCq) (b : Bool) : Reap :=
  if s.qp.cqReady then
    { s with
      qp := (s.qp.reap s.mem).1
      mem := (s.qp.reap s.mem).2
      pc := .checkCq a true
      reaped := s.reaped ++ [(s.qp.cqe s.qp.cqHead).cid]
      copies := s.copies ++ s.copyOut }
  else { s with qp := s.qp.leaveCq b, pc := a.pc s.qp }

/-- The device completes a command that it has fetched. -/
def complete (s : Reap) (i cid : Nat) : Reap :=
  { s with
    qp := s.qp.post s.posted.length cid
    pending := s.pending.eraseIdx i
    posted := s.posted ++ [cid] }

end Reap

inductive ReapLabel
  | request (t : Taken)
  | check
  | poll
  | submit
  | look
  | fetch
  | complete (i : Nat)
  | dma (buf4k : Nat → Nat → UInt8)
  | app (mem : Nat → UInt8)

inductive ReapStep (cfg : Cfg) (qid : Nat) : Reap → ReapLabel → Reap → Prop
  | request {s : Reap} {t : Taken} : s.pc = .idle → t.On qid →
      ReapStep cfg qid s (.request t) { s with pc := .newSqe t }
  | check {s : Reap} : s.pc = .idle →
      ReapStep cfg qid s .check { s with pc := .checkCq .check false }
  | poll {s : Reap} {t : Taken} : s.pc = .newSqe t → s.qp.doneFlag s.qp.sqTail = 0 →
      ReapStep cfg qid s .poll { s with pc := .checkCq (.newSqe t) false }
  | submit {s : Reap} {t : Taken} : s.pc = .newSqe t → s.qp.doneFlag s.qp.sqTail ≠ 0 →
      ReapStep cfg qid s .submit (s.submit cfg t)
  | look {s : Reap} {a : AfterCq} {b : Bool} : s.pc = .checkCq a b →
      ReapStep cfg qid s .look (s.look a b)
  | fetch {s : Reap} {cid : Nat} : s.submitted[s.fetched]? = some cid →
      ReapStep cfg qid s .fetch { s with fetched := s.fetched + 1, pending := s.pending ++ [cid] }
  | complete {s : Reap} {i cid : Nat} : s.pending[i]? = some cid →
      ReapStep cfg qid s (.complete i) (s.complete i cid)
  | dma {s : Reap} (buf4k : Nat → Nat → UInt8) :
      ReapStep cfg qid s (.dma buf4k) { s with qp := { s.qp with buf4k := buf4k } }
  | app {s : Reap} (mem : Nat → UInt8) : ReapStep cfg qid s (.app mem) { s with mem := mem }

/-- Queue `qid`, whose object is built in memory that holds `m`. -/
def reaping (cfg : Cfg) (qid : Nat) (m : QP) : LTS Reap ReapLabel where
  init s := ∃ mem, s = ⟨QP.new qid m, mem, .idle, [], 0, [], [], [], fun _ => none, []⟩
  step := ReapStep cfg qid

/-- Every copy is for the read that took the id last, to its buffer and of its length. -/
def CopiesRight (s : Reap) : Prop :=
  ∀ c ∈ s.copies, ∃ r, c.taken = some (.read r) ∧ c.dst = r.buf ∧ c.len = r.len

end Nvme
