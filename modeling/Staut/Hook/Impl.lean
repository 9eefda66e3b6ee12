import Staut.Myfs.Defs
import Staut.Nvme.Defs

/-!
# `read_impl` and `write_impl` (`mylib/hook.c`)

The two I/O functions as one machine. `IoCall` holds the local variables of a running call and where
it is in the batch loops; `IoCall.next` is what it does next: a step of its own, a request
(`myfs_get_lba` for the sector, then `nvme_read_req` or `nvme_write_req`), a call of `nvme_check`,
or the end of the loops, after which only `myfs_decrement_ref` is left. The two functions test for
the end of the range at different places: `read_impl` before a request, `write_impl` after it, and
then without counting the request.

`j` and `blksz` are `int`, `len` and `pos` are `loff_t`; `/` and `%` on them round towards zero.
-/

set_option autoImplicit false

namespace Hook

open CSem Myfs Nvme

inductive Kind
  | read
  | write
deriving DecidableEq

/-- Where a call is: the `while` test, the `for` test of the request loop, or the polling loop of
`rid[k]`. -/
inductive IoPc
  | outer
  | inner (rqK : Nat)
  | wait (rqK k : Nat)
deriving DecidableEq

/-- A running `read_impl` or `write_impl`. -/
structure IoCall where
  kind : Kind
  hookfd : Nat
  len : Int
  pos : Int
  buf : Nat
  coreId : Nat
  blksz : Int
  j : Int
  rid : Nat → Int
  pc : IoPc

/-- What a call does next. -/
inductive Eff
  | tau (c : IoCall)
  | req (offset : Nat) (write : Int) (r : Int → Req) (k : Int → IoCall)
  | check (rid : Int) (k : Bool → IoCall)
  | ret

/-- `DIV_CEIL`. -/
def divCeil (x y : Int) : Int := (x + y - 1).tdiv y

/-- The request of the round at `j`, given its sector. -/
def IoCall.request (c : IoCall) (opc : Opc) (lba : Int) : Req where
  opc := opc
  lba := lba
  numBlk := (divCeil c.blksz 512).toNat
  len := (min c.blksz (c.len - c.j)).toNat
  buf := (c.buf + c.j).toNat

/-- After the request: `rid[rq_k]` is set and `j` advanced. -/
def IoCall.issued (c : IoCall) (rqK : Nat) (rid : Int) : IoCall :=
  { c with rid := Function.update c.rid rqK rid, j := wrap32 (c.j + c.blksz) }

def IoCall.next (cfg : Cfg) (c : IoCall) : Eff :=
  match c.pc with
  | .outer => if c.j < c.len then .tau { c with pc := .inner 0 } else .ret
  | .inner rqK =>
    match c.kind with
    | .read =>
      if rqK < cfg.READ_DEG then
        if c.j ≥ c.len then .tau { c with pc := .wait rqK 0 }
        else .req (u64 (c.pos + c.j)) 0 (c.request .read) fun rid =>
          { c.issued rqK rid with pc := .inner (rqK + 1) }
      else .tau { c with pc := .wait rqK 0 }
    | .write =>
      if rqK < cfg.WRITE_DEG then
        .req (u64 (c.pos + c.j)) 1 (c.request .write) fun rid =>
          let c := c.issued rqK rid
          { c with pc := if c.j ≥ c.len then .wait rqK 0 else .inner (rqK + 1) }
      else .tau { c with pc := .wait rqK 0 }
  | .wait rqK k =>
    if k < rqK then
      .check (c.rid k) fun b => if b then { c with pc := .wait rqK (k + 1) } else c
    else .tau { c with pc := .outer }

/-- The chunk size that both functions start with. -/
def blkszOf (len pos : Int) : Int := if len.tmod BLKSZ ≠ 0 ∨ pos.tmod BLKSZ ≠ 0 then 512 else BLKSZ

/-- `read_impl` up to its loops; `rid` is the uninitialised array. -/
def readImpl (s : State) (hookfd : Nat) (len pos : Int) (buf coreId : Nat) (rid : Nat → Int) :
    Except Fault (State × IoCall) :=
  let s := (myfsIncrementRef s hookfd).1
  let fileSize := myfsGetSize s hookfd
  let len := if u64 (pos + len) > fileSize then wrap64 (fileSize - pos) else len
  if pos.tmod 512 ≠ 0 then .error .assertFailed
  else
    let blksz := if pos.tmod BLKSZ + len ≤ BLKSZ then wrap32 len else blkszOf len pos
    .ok (s, ⟨.read, hookfd, len, pos, buf, coreId, blksz, 0, rid, .outer⟩)

/-- `write_impl` up to its loops. -/
def writeImpl (s : State) (hookfd : Nat) (len pos : Int) (buf coreId : Nat) (rid : Nat → Int) :
    Except Fault (State × IoCall) :=
  if pos.tmod 512 ≠ 0 then .error .assertFailed
  else
    let s := (myfsIncrementRef s hookfd).1
    .ok (s, ⟨.write, hookfd, len, pos, buf, coreId, blkszOf len pos, 0, rid, .outer⟩)

def ioImpl : Kind → State → Nat → Int → Int → Nat → Nat → (Nat → Int) →
    Except Fault (State × IoCall)
  | .read => readImpl
  | .write => writeImpl

end Hook
