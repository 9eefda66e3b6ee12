import Staut.Zpoline.Defs

/-!
# The trampoline of the block device (`blkdev/main.c`)

The same design as `mylib/zpoline.c` with another page: `nop`s with one short jump over their
middle, and code that moves the stack pointer over the red zone before it jumps to the hook through
`%r11`. Nothing is pushed on the way, so the hook has nothing to discard; the return address is 128
bytes further up.
-/

set_option autoImplicit false

namespace Zpoline.Blkdev

open X86

/-- The code that skips the red zone and jumps to `asm_syscall_hook`. -/
def jump_to_hook (asm_syscall_hook : Addr) : List (BitVec 8) :=
  [0x48, 0x81, 0xec, 0x80, 0x00, 0x00, 0x00, 0x49, 0xbb] ++
    (List.range 8).map (fun k => asm_syscall_hook.extractLsb' (8 * k) 8) ++ [0x41, 0xff, 0xe3]

def setup_trampoline (asm_syscall_hook : Addr) : Memory := fun a =>
  let i := a.toNat
  if i = 214 then 0xeb
  else if i = 215 then 127
  else if i < NR_syscalls then 0x90
  else (jump_to_hook asm_syscall_hook).getD (i - NR_syscalls) 0

structure Labels where
  syscall_addr : Addr
  asm_syscall_hook : Addr
  do_rt_sigreturn : Addr
  syscall_hook : Addr
  /-- The address after the text. -/
  hook_end : Addr

def asm_syscall_hook (L : Labels) : List (Addr × List Instr) :=
  [(L.asm_syscall_hook, [.op (.cmpImm 15 .rax), .jcc .e L.do_rt_sigreturn] ++
      (save_and_align 136).map .op ++ [.call L.syscall_hook] ++ restore.map .op ++
      [.op (.add 128 .rsp), .ret]),
    (L.do_rt_sigreturn, [.op (.add 136 .rsp), .jmp L.syscall_addr])]

/-- The start of a thread: the new stack gets the return address, for `clone3` through the arguments
in memory (`flags`, `stack` and `stack_size` are its words 0, 5 and 6). -/
def syscall_hook (hook_fn : HookFn) (bm : Bitmap) (rdi rsi rdx _rcx r8 r9 r10_on_stack rax_on_stack
    retptr : Word) (m : Memory) : Option (Word × Memory) :=
  match is_replaced_instruction_addr bm (retptr - 2) with
  | some true =>
    let m :=
      if rax_on_stack = NR_clone3 ∧ read64 m rdi &&& CLONE_VM ≠ 0 then
        let m := write64 m (rdi + 48) (read64 m (rdi + 48) - 8)
        write64 m (read64 m (rdi + 40) + read64 m (rdi + 48)) retptr
      else m
    if rax_on_stack = NR_clone ∧ rdi &&& CLONE_VM ≠ 0 then
      hook_fn rax_on_stack rdi (rsi - 8) rdx r10_on_stack r8 r9 (write64 m (rsi - 8) retptr)
    else hook_fn rax_on_stack rdi rsi rdx r10_on_stack r8 r9 m
  | _ => none

def result (E : Env) (s : State) : Option (Word × Memory) :=
  syscall_hook E.hook_fn E.bm (s.reg .rdi) (s.reg .rsi) (s.reg .rdx) (s.reg .rcx)
    (s.reg .r8) (s.reg .r9)
    (read64 s.mem (s.reg .rsp + 8)) (read64 s.mem (s.reg .rsp + 16))
      (read64 s.mem (s.reg .rsp + 24)) s.mem

/-- `syscall_hook` from its entry to its return. -/
def call (E : Env) (s : State) : Option State :=
  (result E s).map fun r => s.returned r.1 r.2 (E.scratch s) (E.flags s)

/-- The page and the text are loaded. -/
structure Loaded (M : Machine) (L : Labels) (E : Env) : Prop where
  trampoline : ∀ a : Addr, a.toNat < 0x1000 →
    M.foreign a = none ∧ M.fetch a = decode (setup_trampoline L.asm_syscall_hook) a
  hook : Assembled M (asm_syscall_hook L) L.hook_end
  call : M.foreign L.syscall_hook = some (call E)

end Zpoline.Blkdev
