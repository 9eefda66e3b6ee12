import Staut.Lib.Run
import Staut.Hook.Impl

/-!
# `hook_function` (`mylib/hook.c`)

The hooked system calls with the library's descriptor table (`hookfds`, `cur_pos`), the file store
and the I/O calls in progress. The kernel's own descriptor table stands beside it (`Sys.kfds`): what
each descriptor denotes, with the slot that `myfs_open` gave to that open, if it was called.

A hooked call is one step up to its first yield; `read_impl` and `write_impl` are interleaved with
everything else (`Label.resume` is one step of a call in progress, with whatever the NVMe layer
answers). `Label.other` is any call of the default branch, or any other call from outside a ULT: the
kernel may do anything to its table. A call that indexes outside a table or fails an `assert` has no
next state.
-/

set_option autoImplicit false

namespace Hook

open CSem Run Myfs Nvme

@[irreducible] def MAX_HOOKFD : Nat := 1024
def NOT_USED_FD : Int := -1

theorem MAX_HOOKFD_eq : MAX_HOOKFD = 1024 := by unfold MAX_HOOKFD; rfl

/-- `hooked_filenames` and `hooked_rocksdb_dir`. -/
structure Env where
  hookedFilenames : List CStr
  hookedRocksdbDir : Option CStr

/-- ".sst". -/
def sstSuffix : List UInt8 := [46, 115, 115, 116]
def sstFilenameLen : Nat := 7

/-- The suffix is compared from a fixed place after the directory, wherever the name ends. -/
def isHookedFilename (env : Env) (filename : CStr) : Except Fault Bool :=
  let ret := env.hookedFilenames.any fun h => strncmp h.strlen h.bytes filename.bytes = 0
  match env.hookedRocksdbDir with
  | none => .ok ret
  | some dir =>
    if strncmp dir.strlen dir.bytes filename.bytes = 0 then
      if filename.strlen < dir.strlen + sstFilenameLen then .error .outOfBounds
      else .ok (ret || strncmp sstSuffix.length sstSuffix
        (filename.bytes.drop (dir.strlen + sstFilenameLen)) = 0)
    else .ok ret

/-- An open descriptor of the kernel: the number of the open, the path (`none` for what was not
opened by a path), and the slot `myfs_open` returned for it. -/
structure Desc where
  id : Nat
  path : Option CStr
  slot : Option Nat
deriving DecidableEq

/-- An I/O call in progress: the descriptor it was made on (with what this denoted then) and the
count by which `cur_pos` is advanced in the end. -/
structure Active where
  call : IoCall
  fd : Int
  desc : Option Desc
  adv : Option Int

structure Sys where
  fs : State
  hookfds : Nat → Int
  curPos : Nat → Nat
  calls : List Active
  kfds : Int → Option Desc
  opens : Nat

/-! ## The kernel's table -/

/-- The kernel's part of an `openat` that returns `ret`. -/
def Sys.kopen (s : Sys) (filename : CStr) (ret : Int) (slot : Option Nat) : Sys :=
  if 0 ≤ ret then
    { s with
      kfds := Function.update s.kfds ret (some ⟨s.opens, some filename, slot⟩)
      opens := s.opens + 1 }
  else s

def Sys.kclose (s : Sys) (fd : Int) : Sys := { s with kfds := Function.update s.kfds fd none }

/-! ## Hooked calls -/

/-- `hookfds[fd]`. -/
def Sys.hookfd (s : Sys) (fd : Int) : Except Fault Int :=
  if 0 ≤ fd ∧ fd < MAX_HOOKFD then .ok (s.hookfds fd.toNat) else .error .outOfBounds

/-- `hook_openat`; a negative `ret` passes the test against `MAX_HOOKFD`. -/
def hookOpenat (env : Env) (s : Sys) (filename : CStr) (ret : Int) : Except Fault Sys := do
  if ← isHookedFilename env filename then
    if ret < MAX_HOOKFD then
      let (i, fs) ← myfsOpen s.fs filename
      if ret < 0 then throw .outOfBounds
      else
        pure { s.kopen filename ret (some i) with
          fs := fs
          hookfds := Function.update s.hookfds ret.toNat i
          curPos := Function.update s.curPos ret.toNat 0 }
    else throw .assertFailed
  else pure (s.kopen filename ret none)

/-- `SYS_close`. -/
def hookClose (s : Sys) (fd : Int) : Except Fault Sys := do
  let hookfd ← s.hookfd fd
  if 0 ≤ hookfd then
    pure (Sys.kclose { s with
      fs := myfsClose s.fs hookfd.toNat
      hookfds := Function.update s.hookfds fd.toNat NOT_USED_FD } fd)
  else pure (s.kclose fd)

/-- `SYS_read`, `pread64`, `SYS_write`, `pwrite64`. -/
inductive Io
  | read
  | pread (pos : Int)
  | write
  | pwrite (pos : Int)

def Io.kind : Io → Kind
  | .read | .pread _ => .read
  | .write | .pwrite _ => .write

/-- The position of the transfer, given `cur_pos`. -/
def Io.pos (curPos : Nat) : Io → Int
  | .read | .write => wrap64 curPos
  | .pread pos | .pwrite pos => pos

/-- By how much `cur_pos` is advanced. -/
def Io.adv (count : Int) : Io → Option Int
  | .read | .write => some count
  | .pread _ | .pwrite _ => none

/-- The four transfers up to the loops of `read_impl` or `write_impl`. `fd` is the descriptor as the
register `a2` has it, extended to 64 bits; the narrowing `int fd = a2` is left out. -/
def hookIo (s : Sys) (op : Io) (fd : Int) (count : Int) (buf coreId : Nat) (rid : Nat → Int) :
    Except Fault Sys := do
  let hookfd ← s.hookfd fd
  if 0 ≤ hookfd then
    let (fs, c) ← ioImpl op.kind s.fs hookfd.toNat count (op.pos (s.curPos fd.toNat)) buf coreId rid
    pure { s with fs := fs, calls := s.calls ++ [⟨c, fd, s.kfds fd, op.adv count⟩] }
  else pure s

/-- `newfstatat` (262): the size, when the descriptor is redirected. -/
def hookNewfstatat (s : Sys) (fd : Int) : Except Fault (Option Nat) := do
  if 0 ≤ fd then
    let hookfd ← s.hookfd fd
    if 0 ≤ hookfd then pure (some (myfsGetSize s.fs hookfd.toNat)) else pure none
  else pure none

/-- The end of an I/O call: `myfs_decrement_ref`, then `cur_pos`. -/
def Sys.finish (s : Sys) (k : Nat) (a : Active) : Sys :=
  { s with
    fs := myfsDecrementRef s.fs a.call.hookfd
    calls := s.calls.eraseIdx k
    curPos :=
      match a.adv with
      | some n => Function.update s.curPos a.fd.toNat (u64 (s.curPos a.fd.toNat + n))
      | none => s.curPos }

/-- One step of the `k`-th call in progress; `rid` and `done` are the answers of the NVMe layer. -/
def Sys.resume (cfg : Cfg) (s : Sys) (k : Nat) (a : Active) (rid : Int) (done : Bool) :
    Except Fault Sys :=
  match a.call.next cfg with
  | .tau c => .ok { s with calls := s.calls.set k { a with call := c } }
  | .req offset write _ cont => do
    let (_, fs) ← myfsGetLba s.fs a.call.hookfd offset write
    pure { s with fs := fs, calls := s.calls.set k { a with call := cont rid } }
  | .check _ cont => .ok { s with calls := s.calls.set k { a with call := cont done } }
  | .ret => .ok (s.finish k a)

/-- A system call with its context (`ult`: made by a ULT) and the kernel's result where it matters,
or a step of a call in progress. -/
inductive Label
  | openat (ult : Bool) (filename : CStr) (ret : Int)
  | close (ult : Bool) (fd : Int)
  | io (ult : Bool) (op : Io) (fd count : Int) (buf coreId : Nat) (rid : Nat → Int)
  | newfstatat (ult : Bool) (fd : Int)
  | unlink (ult : Bool) (pathname : CStr)
  | resume (k : Nat) (rid : Int) (done : Bool)
  | other (kfds : Int → Option Desc)

/-- `hook_function`: outside a ULT every call goes to the kernel. -/
inductive Step (env : Env) (cfg : Cfg) : Sys → Label → Sys → Prop
  | openat {s s' : Sys} {filename : CStr} {ret : Int} : (0 ≤ ret → s.kfds ret = none) →
      hookOpenat env s filename ret = .ok s' → Step env cfg s (.openat true filename ret) s'
  | kopenat {s : Sys} {filename : CStr} {ret : Int} : (0 ≤ ret → s.kfds ret = none) →
      Step env cfg s (.openat false filename ret) (s.kopen filename ret none)
  | close {s s' : Sys} {fd : Int} : hookClose s fd = .ok s' → Step env cfg s (.close true fd) s'
  | kclose {s : Sys} {fd : Int} : Step env cfg s (.close false fd) (s.kclose fd)
  | io {s s' : Sys} {op : Io} {fd count : Int} {buf coreId : Nat} {rid : Nat → Int} :
      hookIo s op fd count buf coreId rid = .ok s' →
      Step env cfg s (.io true op fd count buf coreId rid) s'
  | kio {s : Sys} {op : Io} {fd count : Int} {buf coreId : Nat} {rid : Nat → Int} :
      Step env cfg s (.io false op fd count buf coreId rid) s
  | newfstatat {s : Sys} {fd : Int} {r : Option Nat} : hookNewfstatat s fd = .ok r →
      Step env cfg s (.newfstatat true fd) s
  | knewfstatat {s : Sys} {fd : Int} : Step env cfg s (.newfstatat false fd) s
  | unlink {s : Sys} {pathname : CStr} :
      Step env cfg s (.unlink true pathname) { s with fs := myfsUnlink s.fs pathname }
  | kunlink {s : Sys} {pathname : CStr} : Step env cfg s (.unlink false pathname) s
  | resume {s s' : Sys} {k : Nat} {a : Active} {rid : Int} {done : Bool} : s.calls[k]? = some a →
      s.resume cfg k a rid done = .ok s' → Step env cfg s (.resume k rid done) s'
  | other {s : Sys} {kfds : Int → Option Desc} : Step env cfg s
      (.other kfds) { s with kfds := kfds }

/-- The process after `__hook_init` with the superblock mounted; nothing was opened by a path yet.
-/
def sys (env : Env) (cfg : Cfg) : LTS Sys Label where
  init s := (∃ sb, s.fs = myfsMount sb) ∧ (∀ i < MAX_HOOKFD, s.hookfds i = NOT_USED_FD) ∧
    (∀ fd d, s.kfds fd = some d → d.path = none) ∧ s.calls = [] ∧ s.opens = 0
  step := Step env cfg

end Hook
