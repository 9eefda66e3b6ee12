import Staut.Hook.Sys
import Staut.Hook.Machine

/-!
# The result of a hooked read (`mylib/hook.c`)

`SYS_read` and `pread64` on a redirected descriptor as a whole: `hookIo` enters `read_impl`, the
call runs on the queue pairs (`Hook.hookedRead`), and in the end `Sys.finish` advances `cur_pos` and
`count` is returned (`hookRet`).

The statuses that the device returns stand beside the run, by drive and number of the command:
`check_cq` does not look at them. What a failed command leaves in its bounce buffer, new bytes or
the old ones, is what `Act.complete` allows of any command.
-/

set_option autoImplicit false

namespace Hook

open CSem Run Myfs Nvme

/-- `pos` is a `loff_t`. -/
def Io.Fits : Io → Prop
  | .read | .write => True
  | .pread pos | .pwrite pos => -2 ^ 63 ≤ pos ∧ pos < 2 ^ 63

/-- `read_impl`, entered by the call `op` on `fd` in the state `s`; `count` becomes a `loff_t`. -/
def hookedRead (cfg : Cfg) (s : Sys) (op : Io) (fd : Int) (count : Nat) : LTS Machine MLabel where
  init m := m.Starts cfg ∧ op.kind = .read ∧ ∃ buf rid s' a,
    hookIo s op fd (wrap64 count) buf m.call.coreId rid = .ok s' ∧ s'.calls = s.calls ++ [a] ∧
      s'.fs = m.fs ∧ a.call = m.call
  step := (machine cfg).step

/-- `return count`, as a `long`. -/
def hookRet (count : Nat) : Int := wrap64 count

/-- Whether the command with this number on this drive completes with success. -/
abbrev Statuses := Nat → Nat → Bool

/-- The bytes that `check_cq` stored for a request, once it has reaped the completion: the length of
the copy that `Queue.Finished` speaks of. -/
def Machine.bytesOf (m : Machine) (r : Rq) : Nat :=
  let q := m.q r.did m.call.coreId
  match (q.dev.posted.take q.reaped.length).find? (·.cmd.seq = r.seq), q.issued[r.seq]? with
  | some d, some x => (d.data.take x.req.len).length
  | _, _ => 0

/-- The bytes that commands which completed with success stored for the call. -/
def Machine.stored (m : Machine) (ok : Statuses) : Nat :=
  (m.rqs.map fun r => if ok r.did r.seq then m.bytesOf r else 0).sum

def Machine.AllOk (m : Machine) (ok : Statuses) : Prop := ∀ r ∈ m.rqs, ok r.did r.seq = true

/-- The size of the file behind a descriptor. -/
def Sys.size (s : Sys) (fd : Int) : Nat := myfsGetSize s.fs (s.hookfds fd.toNat).toNat

/-- The position of the call `op` on `fd`. -/
def Sys.posOf (s : Sys) (op : Io) (fd : Int) : Int := op.pos (s.curPos fd.toNat)

/-- The value that the call `op` of state `s` returns, with its read at its end in `m`, tells what
was stored, and `cur_pos` goes on by it. -/
structure Truthful (s : Sys) (op : Io) (fd : Int) (count : Nat) (m : Machine)
    (ok : Statuses) : Prop where
  stored : hookRet count = m.stored ok
  full : m.AllOk ok → hookRet count = min (count : Int) (max 0 (s.size fd - s.posOf op fd))
  advanced : ∀ (t : Sys) (k : Nat) (a : Active), a.fd = fd → a.adv = op.adv (wrap64 count) →
    a.adv ≠ none → (t.finish k a).curPos fd.toNat = u64 (t.curPos fd.toNat + hookRet count)

/-- The range is within the file. -/
def Within (s : Sys) (op : Io) (fd : Int) (count : Nat) : Prop :=
  0 ≤ s.posOf op fd ∧ s.posOf op fd + count ≤ s.size fd

end Hook
