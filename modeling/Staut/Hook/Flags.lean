import Staut.Hook.Open

/-!
# Opens and closes (`mylib/hook.c`, `mylib/myfs.c`)

`fdOps env` has the sequences of hooked `openat` and `close` calls, the failed ones too: the writes
of a failed open to `hookfds` and `cur_pos` are in neither table, and what is left of it is what
`myfs_open` does. `FlagsRight` says what `MYFS_FILE_OPENED` is for.
-/

set_option autoImplicit false

namespace Hook

open CSem Run Myfs

inductive FdOp
  | openat (filename : CStr) (ret : Int)
  | close (fd : Int)

inductive FdStep (env : Env) : Sys → FdOp → Sys → Prop
  | openat {s s' : Sys} {filename : CStr} {ret : Int} : 0 ≤ ret → s.kfds ret = none →
      hookOpenat env s filename ret = .ok s' → FdStep env s (.openat filename ret) s'
  | failed {s : Sys} {filename : CStr} {ret : Int} {o : Opened} : ret < 0 →
      hookOpenatStores env s.fs filename ret = .ok o →
      FdStep env s (.openat filename ret) { s with fs := o.fs }
  | close {s s' : Sys} {fd : Int} : hookClose s fd = .ok s' → FdStep env s (.close fd) s'

def fdOps (env : Env) : LTS Sys FdOp where
  init s := (∃ sb, s.fs = myfsMount sb) ∧ ∀ i < MAX_HOOKFD, s.hookfds i = NOT_USED_FD
  step := FdStep env

/-- `fd` is open and redirected to slot `i`. -/
def Sys.Maps (s : Sys) (fd i : Nat) : Prop := fd < MAX_HOOKFD ∧ s.kfds fd ≠ none ∧ s.hookfds fd = i

/-- `MYFS_FILE_OPENED` is set exactly for the slots with an open descriptor. -/
def FlagsRight (s : Sys) : Prop :=
  ∀ i, (s.fs.fileStates i).flags &&& MYFS_FILE_OPENED ≠ 0 ↔ ∃ fd, s.Maps fd i

/-- The slot that `filename` names: the first whose name starts with it, or, when there is none, the
first unnamed one. -/
def Names (sb : Superblock) (filename : CStr) (i : Nat) : Prop :=
  i < MYFS_MAX_FILES ∧
    ((nameMatches filename (sb.file i) = true ∧ ∀ k < i, nameMatches filename (sb.file k) = false) ∨
      ((∀ k < MYFS_MAX_FILES, nameMatches filename (sb.file k) = false) ∧
        (sb.file i).name = .empty ∧ ∀ k < i, (sb.file k).name ≠ .empty))

/-- An open that the kernel refuses is of a file that is open, or not redirected; a close is of the
only descriptor of its file. -/
def KeepsFlags (env : Env) (s : Sys) : FdOp → Prop
  | .openat filename ret => isHookedFilename env filename = .ok true → ret < 0 →
      ∃ i, Names s.fs.sb filename i ∧ ∃ fd, s.Maps fd i
  | .close fd => ∀ i : Nat, s.hookfds fd.toNat = i → ∀ other, s.Maps other i → (other : Int) = fd

end Hook
