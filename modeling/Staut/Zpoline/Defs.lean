import Staut.Lib.CallStack

/-!
# The system call trampoline (`mylib/zpoline.c`)

A rewritten `syscall` is a `call *%rax` (`do_rewrite`), which lands on the page at address 0 at the
number of the system call. `setup_trampoline` fills that page: jumps that slide down to
`NR_syscalls`, then a jump to `asm_syscall_hook`, which saves the registers, calls the C function
`syscall_hook` and returns behind the call. The system call is the business of `hook_fn`
(`enter_syscall` until a hook is loaded).

* The text of `____asm_impl` is a list of blocks, one for each label; `Labels` says where they
  stand.
* `Env`: what the C function gets from outside: `hook_fn`, the bitmap of the rewritten instructions,
  and what it leaves in the registers that it does not keep.
* `int3` and a failed `assert` stop the program: the function does not return.
-/

set_option autoImplicit false

namespace Zpoline

open X86

/-! ## The rewritten instructions (`bm_mem`) -/

/-- `bm_mem`, by its bytes. -/
abbrev Bitmap := Nat → BitVec 8

def bitmap_set (bm : Bitmap) (val : Nat) : Bitmap :=
  Function.update bm (val / 8) (bm (val / 8) ||| 1 <<< (val % 8))

def is_bitmap_set (bm : Bitmap) (val : Nat) : Bool := bm (val / 8) &&& 1 <<< (val % 8) ≠ 0

def record_replaced_instruction_addr (bm : Bitmap) (addr : Addr) : Option Bitmap :=
  if addr.toNat < 2 ^ 48 then some (bitmap_set bm addr.toNat) else none

def is_replaced_instruction_addr (bm : Bitmap) (addr : Addr) : Option Bool :=
  if addr.toNat < 2 ^ 48 then some (is_bitmap_set bm addr.toNat) else none

/-! ## The page at address 0 -/

def NR_syscalls : Nat := 512

/-- The code that saves `%rax` and jumps to `asm_syscall_hook`. -/
def jump_to_hook (asm_syscall_hook : Addr) : List (BitVec 8) :=
  [0x50, 0x48, 0xb8] ++ (List.range 8).map (fun k => asm_syscall_hook.extractLsb' (8 * k) 8) ++
    [0xff, 0xe0]

def setup_trampoline (asm_syscall_hook : Addr) : Memory := fun a =>
  let i := a.toNat
  if i < NR_syscalls then
    if NR_syscalls - 0x6a - 2 < i then 0x90
    else if i % 3 = 0 then 0xeb
    else if i % 3 = 1 then 0x6a
    else 0x90
  else (jump_to_hook asm_syscall_hook).getD (i - NR_syscalls) 0

/-! ## `____asm_impl` -/

structure Labels where
  enter_syscall : Addr
  syscall_addr : Addr
  asm_syscall_hook : Addr
  skip_pop : Addr
  do_rt_sigreturn : Addr
  syscall_hook : Addr
  /-- The addresses after the two texts. -/
  enter_end : Addr
  hook_end : Addr

def enter_syscall (L : Labels) : List (Addr × List Instr) :=
  [(L.enter_syscall, [.op (.mov .rdi .rax), .op (.mov .rsi .rdi), .op (.mov .rdx .rsi),
    .op (.mov .rcx .rdx), .op (.mov .r8 .r10), .op (.mov .r9 .r8), .op (.load 8 .rsp .r9)]),
      (L.syscall_addr, [.syscall, .ret])]

/-- Restores `%rax`, and computes from it whether the trampoline has pushed `0x90`. -/
def discard_pushed : List Op :=
  [.pop .rax, .push .rdi, .push .rax, .movImm 0xaaaaaaaaaaaaaaab .rdi, .imul .rdi .rax,
    .cmp .rdi .rax, .pop .rax, .pop .rdi]

/-- The registers that are saved around the call. -/
def saved : List Reg := [.r11, .r9, .r8, .rdi, .rsi, .rdx, .rcx]

/-- Up to the call: the stack is aligned, the registers are saved, and the arguments that go on the
stack are pushed; the return address stands `disp` bytes above `%rbp`. -/
def save_and_align (disp : Word) : List Op :=
  [.push .rbp, .mov .rsp .rbp, .and (-16) .rsp] ++ saved.map .push ++
    [.pushMem disp .rbp, .push .rax, .push .r10]

/-- After the call: `%r10`, past two arguments, and the saved registers. -/
def restore : List Op := [.pop .r10, .add 16 .rsp] ++ saved.reverse.map .pop ++ [.leave]

def asm_syscall_hook (L : Labels) : List (Addr × List Instr) :=
  [(L.asm_syscall_hook, discard_pushed.map .op ++ [.jcc .b L.skip_pop, .op (.add 8 .rsp)]),
    (L.skip_pop, [.op (.cmpImm 15 .rax), .jcc .e L.do_rt_sigreturn] ++ (save_and_align 8).map .op ++
      [.call L.syscall_hook] ++ restore.map .op ++ [.ret]),
    (L.do_rt_sigreturn, [.op (.add 8 .rsp), .jmp L.syscall_addr])]

/-! ## `syscall_hook` -/

def NR_clone : Word := 56

def NR_clone3 : Word := 435

def CLONE_VM : Word := 0x100

def ENOSYS : Word := 38

/-- A function that stands for the system call: the number and the six arguments, and memory. -/
abbrev HookFn := Word → Word → Word → Word → Word → Word → Word → Memory → Option (Word × Memory)

def syscall_hook (hook_fn : HookFn) (bm : Bitmap) (rdi rsi rdx _rcx r8 r9 r10_on_stack rax_on_stack
    retptr : Word) (m : Memory) : Option (Word × Memory) :=
  match is_replaced_instruction_addr bm (retptr - 2) with
  | some true =>
    if rax_on_stack = NR_clone3 then some (-ENOSYS, m)
    else if rax_on_stack = NR_clone ∧ rdi &&& CLONE_VM ≠ 0 then
      -- the new thread returns on its own stack
      hook_fn rax_on_stack rdi (rsi - 8) rdx r10_on_stack r8 r9 (write64 m (rsi - 8) retptr)
    else hook_fn rax_on_stack rdi rsi rdx r10_on_stack r8 r9 m
  | _ => none

structure Env where
  hook_fn : HookFn
  bm : Bitmap
  scratch : State → Reg → Word
  flags : State → Flags

/-- What `syscall_hook` returns, its arguments read from the state at its entry by the calling
convention. -/
def Env.result (E : Env) (s : State) : Option (Word × Memory) :=
  syscall_hook E.hook_fn E.bm (s.reg .rdi) (s.reg .rsi) (s.reg .rdx) (s.reg .rcx)
    (s.reg .r8) (s.reg .r9)
    (read64 s.mem (s.reg .rsp + 8)) (read64 s.mem (s.reg .rsp + 16))
      (read64 s.mem (s.reg .rsp + 24)) s.mem

/-- `syscall_hook` from its entry to its return. -/
def Env.call (E : Env) (s : State) : Option State :=
  (E.result s).map fun r => s.returned r.1 r.2 (E.scratch s) (E.flags s)

/-! ## The kernel -/

/-- What the kernel does for a system call: the number, the six arguments and memory. -/
abbrev Sys := Word → Word → Word → Word → Word → Word → Word → Memory → Word × Memory

/-- The `syscall` instruction: the kernel has `%rcx` and `%r11` for the return. -/
structure Kernel (kernel : State → State) (sys : Sys) : Prop where
  rip : ∀ s, (kernel s).rip = s.rip
  result : ∀ s, ((kernel s).reg .rax, (kernel s).mem) = sys (s.reg .rax) (s.reg .rdi) (s.reg .rsi)
    (s.reg .rdx) (s.reg .r10) (s.reg .r8) (s.reg .r9) s.mem
  reg : ∀ s r, r ≠ .rax → r ≠ .rcx → r ≠ .r11 → (kernel s).reg r = s.reg r

/-- The page and the text are loaded. -/
structure Loaded (M : Machine) (L : Labels) (E : Env) : Prop where
  trampoline : ∀ a : Addr, a.toNat < 0x1000 →
    M.foreign a = none ∧ M.fetch a = decode (setup_trampoline L.asm_syscall_hook) a
  hook : Assembled M (asm_syscall_hook L) L.hook_end
  enter : Assembled M (enter_syscall L) L.enter_end
  call : M.foreign L.syscall_hook = some E.call

end Zpoline
