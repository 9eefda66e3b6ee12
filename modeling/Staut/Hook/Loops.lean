import Staut.Lib.Run
import Staut.Hook.Impl

/-!
# The chunk loops (`mylib/hook.c`)

`read_impl` and `write_impl` each have two versions of their loop: the batched one that is compiled
(`IoCall.next`) and a disabled one that makes one request after the other. `loops cfg c` is the
batched loops of the call `c` with any answers of the layers below, and the requests issued so far
as history; `plainLoop c` is the disabled loop.
-/

set_option autoImplicit false

namespace Hook

open CSem Run Myfs Nvme

/-- A request as the loops issue it: file offset, sectors, bytes, and offset in the buffer. -/
structure Issue where
  offset : Nat
  numBlk : Nat
  len : Nat
  bufOffset : Int
deriving DecidableEq

/-- The round at `j` of the disabled loop. -/
def IoCall.issue (c : IoCall) (j : Int) : Issue where
  offset := u64 (c.pos + j)
  numBlk := (divCeil c.blksz 512).toNat
  len := (min c.blksz (c.len - j)).toNat
  bufOffset := j

/-- `for (j=0; j<len; j+=blksz)` from `j` on, if it ends within `n` rounds. -/
def plainLoop (c : IoCall) : Nat → Int → Option (List Issue)
  | n, j =>
    if j < c.len then
      match n with
      | 0 => none
      | n + 1 => (plainLoop c n (wrap32 (j + c.blksz))).map (c.issue j :: ·)
    else some []

/-- What the layers below answer: the sector and the id of a request, or the result of a check. -/
inductive Answer
  | none
  | req (lba rid : Int)
  | check (b : Bool)

def loops (cfg : Cfg) (c : IoCall) : LTS (IoCall × List Issue) Answer where
  init s := s = (c, [])
  step s a s' :=
    match s.1.next cfg, a with
    | .tau c, .none => s' = (c, s.2)
    | .req offset _ r cont, .req lba rid =>
      s' = (cont rid, s.2 ++ [⟨offset, (r lba).numBlk, (r lba).len, (r lba).buf - s.1.buf⟩])
    | .check _ cont, .check b => s' = (cont b, s.2)
    | _, _ => False

/-- The run in which every check is answered with 1 (and every request with the id 0). -/
def IoCall.polled (cfg : Cfg) (c : IoCall) : Option IoCall :=
  match c.next cfg with
  | .tau c => some c
  | .req _ _ _ cont => some (cont 0)
  | .check _ cont => some (cont true)
  | .ret => none

/-- The requests follow each other from `a` to `b`. -/
def Follow : Int → Int → List Issue → Prop
  | a, b, [] => a = b
  | a, b, r :: rs => r.bufOffset = a ∧ Follow (a + r.len) b rs

/-- The requests partition the range of the call, in order, each within one aligned unit of `BLKSZ`
bytes (which is a stripe unit), so within one block of the file. -/
structure CoversRange (c : IoCall) (l : List Issue) : Prop where
  follow : Follow 0 c.len l
  offset : ∀ r ∈ l, r.offset = u64 (c.pos + r.bufOffset)
  size : ∀ r ∈ l, 1 ≤ r.len ∧ r.len ≤ 512 * r.numBlk ∧ r.len ≤ BLKSZ
  window : ∀ r ∈ l, r.offset % BLKSZ + 512 * r.numBlk ≤ BLKSZ
  block : ∀ r ∈ l, (r.offset + 512 * r.numBlk - 1) / MYFS_BLOCK_SIZE = r.offset / MYFS_BLOCK_SIZE

/-! ## The counters -/

/-- The part of a transfer that is left to do: a read ends at the end of the file. -/
def transferLen (kind : Kind) (fileSize : Nat) (len pos : Int) : Int :=
  match kind with
  | .read => if u64 (pos + len) > fileSize then wrap64 (fileSize - pos) else len
  | .write => len

/-- What is assigned to `blksz`, before it is made an `int`. -/
def chunkSize (kind : Kind) (len pos : Int) : Int :=
  if kind = .read ∧ pos.tmod BLKSZ + len ≤ BLKSZ then len else blkszOf len pos

/-- A value of type `int`. -/
def IsInt (x : Int) : Prop := -2 ^ 31 ≤ x ∧ x < 2 ^ 31

/-- `ceil(len/blksz)`, or nothing. -/
def requestCount (len blksz : Int) : Nat := if len ≤ 0 then 0 else (divCeil len blksz).toNat

/-- Neither `blksz` nor `j` leaves the range of `int`, and the loops of the call `c` come to an end
(when every check is answered by 1), having issued a request for each of the chunks. -/
structure CountersRight (cfg : Cfg) (c : IoCall) : Prop where
  blksz : IsInt (chunkSize c.kind c.len c.pos) ∧ c.blksz = chunkSize c.kind c.len c.pos
  j : ∀ c' l, (loops cfg c).Reach (c', l) → ∀ offset write r cont,
    c'.next cfg = .req offset write r cont → IsInt (c'.j + c'.blksz)
  ends : Evt (IoCall.polled cfg) (fun c => c.next cfg = .ret) c
  issued : ∀ c' l, (loops cfg c).Reach (c', l) → c'.next cfg = .ret →
    l.map (·.bufOffset) =
      (List.range (requestCount c.len c.blksz)).map fun k : Nat => (k : Int) * c.blksz

/-- Lengths for which the counters are wide enough. -/
def CountersFit (kind : Kind) (len : Int) : Prop :=
  len ≤ 2 ^ 31 - 512 ∧ (kind = .read → -2 ^ 31 ≤ len)

/-- A short read that starts at a negative position (whose remainder is negative in C) and ends
behind the unit it starts in. -/
def Straddles (kind : Kind) (pos len : Int) : Prop :=
  kind = .read ∧ pos.tmod BLKSZ < 0 ∧ -pos.tmod BLKSZ < len ∧ pos.tmod BLKSZ + len ≤ BLKSZ

end Hook
