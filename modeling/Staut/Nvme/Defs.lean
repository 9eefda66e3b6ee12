import Staut.Lib.CSem
import Mathlib.Logic.Function.Basic

/-!
# NVMe queue pairs (`mylib/nvme.cc`)

The `QP` object with the memory it shares with the device (submission and completion entries, the
bounce buffers), and the straight-line parts of `new_sqe`, `check_cq`, `nvme_read_req`,
`nvme_write_req` and `nvme_check`; the polling loops are the steps of `Staut.Nvme.Queue`.

The process memory outside the queue pairs is `Nat → UInt8`, a `char *` is an address in it and
`NULL` is `none`. A bounce buffer's address is its 2 MB page and the offset in it; the pages are
physically contiguous, so the physical address the device is given names the same bytes.
-/

set_option autoImplicit false

open CSem

namespace Nvme

def N_ULT_PER_CORE : Nat := 512
def BLKSZ : Nat := 4096
-- irreducible, so that no proof runs through a queue of this size
@[irreducible] def QD : Nat := N_ULT_PER_CORE * 2
def AQD : Nat := 8
def RAID_FACTOR : Nat := 4096 / 512
def N_2MB_PAGE : Nat := max (QD * BLKSZ / (2 * 1024 * 1024)) 1

theorem QD_eq : QD = 1024 := by unfold QD N_ULT_PER_CORE; rfl
theorem N_2MB_PAGE_eq : N_2MB_PAGE = 2 := by rw [N_2MB_PAGE, QD_eq]; decide

/-- The build's constants. -/
structure Cfg where
  N_CORE : Nat
  ND : Nat
  READ_DEG : Nat
  WRITE_DEG : Nat

/-- The commands of an I/O queue (`OPC` 0x0 in a cleared entry, 0x1, 0x2). -/
inductive Opc
  | flush
  | write
  | read
deriving DecidableEq, Inhabited

/-- `sqe_t`. -/
structure Sqe where
  opc : Opc
  prp1 : Nat × Nat
  cdw10 : Nat
  cdw12 : Nat
  cid : Nat
deriving Inhabited

/-- `cqe_t`: the command's id and the phase bit. -/
structure Cqe where
  cid : Nat
  p : Nat
deriving Inhabited

/-- `class QP`. -/
structure QP where
  nSqe : Nat
  nCqe : Nat
  sqTail : Nat
  cqHead : Nat
  cqPhase : Nat
  doneFlag : Nat → Nat
  rbuf : Nat → Option Nat
  len : Nat → Nat
  sqe : Nat → Sqe
  cqe : Nat → Cqe
  buf4k : Nat → Nat → UInt8
  sqDoorbell : Nat
  cqDoorbell : Nat
deriving Inhabited

/-- The constructor `QP(qid, regs32)` in memory that holds `m`: `rbuf` and `len` are not set. -/
def QP.new (qid : Nat) (m : QP) : QP where
  nSqe := if qid = 0 then AQD else QD
  nCqe := if qid = 0 then AQD else QD
  sqTail := 0
  cqHead := 0
  cqPhase := 1
  doneFlag _ := 2
  rbuf := m.rbuf
  len := m.len
  sqe i := ⟨.flush, (0, 0), 0, 0, if i < (if qid = 0 then AQD else QD) then i else 0⟩
  cqe _ := ⟨0, 0⟩
  buf4k _ _ := 0
  sqDoorbell := 0
  cqDoorbell := 0

/-! ## Bounce buffers -/

/-- `get_buf4k` and `buf4k_pa`: page and offset of a command's bounce buffer. -/
def getBuf4k (cid : Nat) : Nat × Nat := (cid % N_2MB_PAGE, BLKSZ * (cid / N_2MB_PAGE))

/-- The first `n` bytes of a bounce buffer. -/
def QP.bounce (qp : QP) (cid n : Nat) : List UInt8 :=
  load (qp.buf4k (getBuf4k cid).1) (getBuf4k cid).2 n

/-- Bytes copied to a bounce buffer. -/
def QP.storeBuf (qp : QP) (a : Nat × Nat) (bs : List UInt8) : QP :=
  { qp with buf4k := Function.update qp.buf4k a.1 (store (qp.buf4k a.1) a.2 bs) }

/-! ## Completions -/

/-- `cqe->SF.P == cq_phase` at `cq_head`. -/
def QP.cqReady (qp : QP) : Bool := (qp.cqe qp.cqHead).p = qp.cqPhase

/-- The body of `check_cq`'s loop: copy out a read's data, mark the command done, go on to the next
entry. -/
def QP.reap (qp : QP) (mem : Nat → UInt8) : QP × (Nat → UInt8) :=
  let cid := (qp.cqe qp.cqHead).cid
  let mem :=
    match qp.rbuf cid with
    | some dst => store mem dst (qp.bounce cid (qp.len cid))
    | none => mem
  let wrap := qp.cqHead + 1 = qp.nCqe
  ({ qp with
      doneFlag := Function.update qp.doneFlag cid 1
      cqHead := if wrap then 0 else qp.cqHead + 1
      cqPhase := if wrap then qp.cqPhase ^^^ 1 else qp.cqPhase }, mem)

/-- `check_cq` past its loop: the head doorbell is written once, if something was reaped. -/
def QP.leaveCq (qp : QP) (reaped : Bool) : QP :=
  if reaped then { qp with cqDoorbell := qp.cqHead } else qp

def QP.done (qp : QP) (cid : Nat) : Bool := qp.doneFlag cid = 1

/-! ## Requests -/

/-- The arguments of `nvme_read_req` and `nvme_write_req` (`opc` tells which). -/
structure Req where
  opc : Opc
  lba : Int
  numBlk : Nat
  len : Nat
  buf : Nat

/-- What the callers keep to: one of the two requests, for at most one bounce buffer. -/
structure Req.Fits (r : Req) : Prop where
  opc : r.opc = .read ∨ r.opc = .write
  pos : 1 ≤ r.numBlk
  blk : r.numBlk * 512 ≤ BLKSZ
  len : r.len ≤ r.numBlk * 512

/-- The drive a sector is striped to. -/
def driveOf (cfg : Cfg) (lba : Int) : Int := (lba.tdiv RAID_FACTOR).tmod cfg.ND

/-- The sector on that drive, as stored in the 32-bit `CDW10`. -/
def cdw10Of (cfg : Cfg) (lba : Int) : Nat :=
  ((((lba.tdiv RAID_FACTOR).tdiv cfg.ND) * RAID_FACTOR + lba.tmod RAID_FACTOR) % 2 ^ 32).toNat

/-- `new_sqe` past its polling loop. -/
def QP.newSqe (qp : QP) : QP × Nat :=
  ({ qp with
      doneFlag := Function.update qp.doneFlag qp.sqTail 0
      sqTail := (qp.sqTail + 1) % qp.nSqe }, qp.sqTail)

/-- The submission entry of a request. -/
def QP.fillSqe (cfg : Cfg) (qp : QP) (cid : Nat) (r : Req) : QP :=
  { qp with sqe := Function.update qp.sqe cid { qp.sqe cid with
      prp1 := getBuf4k cid
      opc := r.opc
      cdw10 := cdw10Of cfg r.lba
      cdw12 := r.numBlk - 1 } }

/-- `nvme_read_req` past `new_sqe`'s loop. -/
def QP.readReq (cfg : Cfg) (qp : QP) (r : Req) : QP :=
  let (qp, cid) := qp.newSqe
  let qp := qp.fillSqe cfg cid r
  { qp with
    rbuf := Function.update qp.rbuf cid (some r.buf)
    len := Function.update qp.len cid r.len
    sqDoorbell := qp.sqTail }

/-- `nvme_write_req` past `new_sqe`'s loop. -/
def QP.writeReq (cfg : Cfg) (qp : QP) (mem : Nat → UInt8) (r : Req) : QP :=
  let (qp, cid) := qp.newSqe
  let qp := qp.storeBuf (getBuf4k cid) (load mem r.buf r.len)
  let qp := qp.fillSqe cfg cid r
  { qp with
    rbuf := Function.update qp.rbuf cid none
    len := Function.update qp.len cid 0
    sqDoorbell := qp.sqTail }

def QP.request (cfg : Cfg) (qp : QP) (mem : Nat → UInt8) (r : Req) : QP :=
  match r.opc with
  | .read => qp.readReq cfg r
  | _ => qp.writeReq cfg mem r

/-! ## Request ids -/

/-- The `int` that a request returns. -/
def ridOf (cfg : Cfg) (did coreId cid : Nat) : Int :=
  wrap32 (did * QD * cfg.N_CORE + coreId * QD + cid)

/-- `nvme_check`'s drive, queue id and command id of a request id. -/
def ridDid (cfg : Cfg) (rid : Int) : Int := (rid.tdiv QD).tdiv cfg.N_CORE
def ridQid (cfg : Cfg) (rid : Int) : Int := (rid.tdiv QD).tmod cfg.N_CORE + 1
def ridCid (rid : Int) : Int := rid.tmod QD

end Nvme
