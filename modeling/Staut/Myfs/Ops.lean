import Staut.Lib.Run
import Staut.Myfs.Defs

/-!
# Runs of `myfs` calls

`Myfs.ops` takes each `myfs` call as one step, from a superblock just set up by
`myfs_superblock_init`.
-/

set_option autoImplicit false

namespace Myfs

open CSem Run

/-- A `myfs` call. -/
inductive Op
  | open (filename : CStr)
  | unlink (filename : CStr)
  | getLba (i offset : Nat) (write : Int)
  | unlinkFd (fd : Nat)
  | close (fd : Nat)
  | incrementRef (hookfd : Nat)
  | decrementRef (hookfd : Nat)

def Op.run (s : State) : Op → Except Fault State
  | .open f => (myfsOpen s f).map (·.2)
  | .unlink f => .ok (myfsUnlink s f)
  | .getLba i offset write => (myfsGetLba s i offset write).map (·.2)
  | .unlinkFd fd => .ok (myfsUnlinkFd s fd)
  | .close fd => .ok (myfsClose s fd)
  | .incrementRef i => .ok (myfsIncrementRef s i).1
  | .decrementRef i => .ok (myfsDecrementRef s i)

/-- All sequences of `myfs` calls. -/
def ops : LTS State Op where
  init s := ∃ sb, s.sb = myfsSuperblockInit sb
  step s op s' := op.run s = .ok s'

end Myfs
