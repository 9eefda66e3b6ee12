import Staut.Lib.Tile
import Staut.Hook.Sys
import Staut.Hook.Writes

/-!
# Sequential I/O on one descriptor

`SYS_read` and `SYS_write` take their position from `cur_pos` when they start and advance it when
they end. `Hook.seqIo env cfg fd` is `Hook.sys` from any state in which no such call is in progress
on `fd`, with a history: `Seq.start` is `cur_pos[fd]` then, `Seq.ranges` are the ranges of the
sequential calls made on `fd` since, in the order of their starts.
-/

set_option autoImplicit false

namespace Hook

open CSem Run Myfs Nvme Tile

structure Seq where
  sys : Sys
  start : Nat
  ranges : List Range

/-- The range of a sequential call that is redirected on `fd`. -/
def Label.range (s : Sys) (fd : Nat) : Label → List Range
  | .io true op fd' count _ _ _ =>
    if fd' = fd ∧ 0 ≤ s.hookfds fd then
      match op.adv count with
      | some n => [⟨op.pos (s.curPos fd), n⟩]
      | none => []
    else []
  | _ => []

/-- By how much an I/O call in progress will advance `cur_pos[fd]`. -/
def Active.pending (fd : Nat) (a : Active) : Nat :=
  if a.fd.toNat = fd then (a.adv.getD 0).toNat else 0

/-- By how much the calls in progress will advance `cur_pos[fd]`. -/
def Sys.pending (s : Sys) (fd : Nat) : Nat := (s.calls.map (Active.pending fd)).sum

/-- The file offsets of a range. -/
def Range.offsets (r : Range) : Set Nat := {o | r.Covers o}

def total (rs : List Range) : Nat := (rs.map fun r => r.len.toNat).sum

def seqIo (env : Env) (cfg : Cfg) (fd : Nat) : LTS Seq Label where
  init s := s.start = s.sys.curPos fd ∧ s.start < 2 ^ 64 ∧ s.ranges = [] ∧
    ∀ a ∈ s.sys.calls, a.fd.toNat = fd → a.adv = none
  step s l s' := Step env cfg s.sys l s'.sys ∧ s'.start = s.start ∧
    s'.ranges = s.ranges ++ l.range s.sys fd

/-- The ranges are disjoint and follow each other from `p` on. -/
def Consecutive (p : Nat) (rs : List Range) : Prop :=
  Tiled (2 ^ 64) p (total rs) (rs.map Range.offsets)

/-- The descriptor stays open, and the counts of the calls on it are sizes that add up to at most
`2 ^ 64` bytes. -/
def Steady (fd : Nat) (s : Seq) (l : Label) : Prop :=
  (∀ ult f ret, l = .openat ult f ret → ret ≠ fd) ∧
    ∀ r ∈ l.range s.sys fd, 0 ≤ r.len ∧ total s.ranges + r.len.toNat ≤ 2 ^ 64

/-- A sequential call starts when no other one is in progress on the descriptor (calls of length 0
aside). -/
def Alone (fd : Nat) (s : Seq) (l : Label) : Prop :=
  ∀ r ∈ l.range s.sys fd, 0 < r.len → s.sys.pending fd = 0

end Hook
