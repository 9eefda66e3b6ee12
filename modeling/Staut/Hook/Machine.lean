import Staut.Hook.Impl
import Staut.Nvme.Queue

/-!
# An I/O call on the queue pairs

`Hook.Machine` is one `read_impl` or `write_impl` in progress together with the queue pairs of all
drives and cores. `Machine.cpu` is the next step of the call: its own step, the start of a request
or of `nvme_check`, or a step of the request or check that runs on a queue pair (`Machine.busy`).
The history is the list of requests of the call (`Machine.rqs`), each with the answer 1 of
`nvme_check`, if there was one since the request was made.

In `Hook.machine cfg` the devices complete commands at any time, other cores run at any time, and
other callers of the same core run where the call yields, in its polling loop. A call that indexes
outside a table or fails an `assert` has no next state.
-/

set_option autoImplicit false

namespace Hook

open CSem Run Myfs Nvme

/-- A request of the call: its drive, its number on the queue pair and the id it returned;
`checked`: `nvme_check` has answered 1 for the id since. -/
structure Rq where
  did : Nat
  seq : Nat
  rid : Int
  checked : Bool

def Rq.check (rid : Int) (r : Rq) : Rq := if r.rid = rid then { r with checked := true } else r

/-- `q did coreId` is `qps[did][coreId + 1]` with its device. -/
structure Machine where
  fs : State
  q : Nat → Nat → Queue
  mem : Nat → UInt8
  call : IoCall
  busy : Option (Nat × Nat)
  rqs : List Rq

def Machine.setQueue (m : Machine) (did coreId : Nat) (q : Queue) : Machine :=
  { m with q := Function.update m.q did (Function.update (m.q did) coreId q) }

/-- The queue pair of `did` and `coreId` made a step with result `o`: the call goes on when the
request or check it waits for returns. -/
def Machine.answer (cfg : Cfg) (m : Machine) (did coreId : Nat) (q : Queue) (mem : Nat → UInt8)
    (o : Out) : Machine :=
  let m' := { m.setQueue did coreId q with mem := mem, busy := some (did, coreId) }
  match o, m.call.next cfg with
  | .rid rid, .req _ _ _ cont =>
    { m' with
      call := cont rid
      busy := none
      rqs := m.rqs ++ [⟨did, (m.q did coreId).issued.length, rid, false⟩] }
  | .check _ b, .check rid cont =>
    { m' with
      call := cont b
      busy := none
      rqs := if b then m.rqs.map (Rq.check rid) else m.rqs }
  | _, _ => m'

/-- `nvme_read_req` or `nvme_write_req` from its start. -/
def Machine.startReq (cfg : Cfg) (m : Machine) (fs : State) (r : Req) : Option Machine :=
  let did := (driveOf cfg r.lba).toNat
  let q := m.q did m.call.coreId
  match q.pc with
  | .idle => some { m.setQueue did m.call.coreId { q with pc := .newSqe r } with
      fs := fs
      busy := some (did, m.call.coreId) }
  | _ => none

/-- `nvme_check` from its start, on the queue pair that the id names. -/
def Machine.startCheck (cfg : Cfg) (m : Machine) (rid : Int) : Option Machine :=
  if 0 ≤ rid ∧ ridDid cfg rid < cfg.ND then
    let did := (ridDid cfg rid).toNat
    let coreId := (ridQid cfg rid).toNat - 1
    let q := m.q did coreId
    match q.pc with
    | .idle => some (m.answer cfg did coreId (q.callCheck rid).1 m.mem (q.callCheck rid).2)
    | _ => none
  else none

/-- The next step of the call. -/
def Machine.cpu (cfg : Cfg) (m : Machine) : Option Machine :=
  match m.busy with
  | some (did, coreId) =>
    ((m.q did coreId).host cfg did coreId m.mem).map fun (q, mem, o) =>
      m.answer cfg did coreId q mem o
  | none =>
    match m.call.next cfg with
    | .tau c => some { m with call := c }
    | .req offset write r _ =>
      (myfsGetLba m.fs m.call.hookfd offset write).toOption.bind fun (lba, fs) =>
        m.startReq cfg fs (r lba)
    | .check rid _ => m.startCheck cfg rid
    | .ret => none

/-- The loops are done; `myfs_decrement_ref` is left. -/
def Machine.Returned (cfg : Cfg) (m : Machine) : Prop := m.busy = none ∧ m.call.next cfg = .ret

/-- `nvme_check` has answered 1 for every request of the call. -/
def Machine.AllChecked (m : Machine) : Prop := ∀ r ∈ m.rqs, r.checked = true

/-- The command of a request is with the device. -/
def Machine.Outstanding (m : Machine) (r : Rq) : Prop :=
  ∃ c ∈ (m.q r.did m.call.coreId).dev.outstanding, c.seq = r.seq

/-- At `ult_yield`, other callers of the core run. -/
def Machine.AtYield (m : Machine) : Prop := m.busy = none ∧ ∃ rqK k, m.call.pc = .wait rqK k

/-- A call that starts, on queue pairs with any past. -/
structure Machine.Starts (cfg : Cfg) (m : Machine) : Prop where
  call : ∃ kind fs i len pos buf rid,
    ioImpl kind fs i len pos buf m.call.coreId rid = .ok (m.fs, m.call)
  core : m.call.coreId < cfg.N_CORE
  queues : ∀ did < cfg.ND, ∀ coreId < cfg.N_CORE, ∃ mem,
    (queue cfg did coreId).Reach (m.q did coreId, mem)
  idle : ∀ did < cfg.ND, (m.q did m.call.coreId).pc = .idle
  busy : m.busy = none
  rqs : m.rqs = []

/-- A step of the call, or a step on the queue pair of `did` and `coreId` by its device or by
another caller. -/
inductive MLabel
  | cpu
  | queue (did coreId : Nat) (a : Act) (o : Out)

def machine (cfg : Cfg) : LTS Machine MLabel where
  init m := m.Starts cfg
  step m l m' :=
    match l with
    | .cpu => m.cpu cfg = some m'
    | .queue did coreId a o => did < cfg.ND ∧ coreId < cfg.N_CORE ∧
        ((∃ i data, a = .complete i data) ∨ coreId ≠ m.call.coreId ∨ m.AtYield) ∧
        ∃ q mem, (queue cfg did coreId).step (m.q did coreId, m.mem) (a, o) (q, mem) ∧
          m' = { m.setQueue did coreId q with mem := mem }

end Hook
