import Staut.Zpoline.Defs
import Staut.Lib.CSem

/-!
# Rewriting (`do_rewrite`, `disassemble_and_rewrite`)

The disassembler goes over a region of code instruction by instruction; for each it prints pieces of
text through `do_rewrite` and returns its length. Where a piece starts with the name of a system
call instruction, its two bytes become `call *%rax`, and the address is recorded in the bitmap.
`enter_syscall`'s own instruction is left as it is.
-/

set_option autoImplicit false

namespace Zpoline

open X86 CSem

/-- `"syscall"` and `"sysenter"`. -/
def syscallText : List UInt8 := [0x73, 0x79, 0x73, 0x63, 0x61, 0x6c, 0x6c]

def sysenterText : List UInt8 := [0x73, 0x79, 0x73, 0x65, 0x6e, 0x74, 0x65, 0x72]

/-- The test of `do_rewrite` on a printed piece. -/
def isSyscallText (buf : List UInt8) : Bool :=
  strncmp 7 buf syscallText = 0 ∨ strncmp 8 buf sysenterText = 0

/-- The code and the bitmap. -/
structure Rewriting where
  code : Memory
  bm : Bitmap

/-- `ptr` is the address of the instruction. -/
def do_rewrite (syscall_addr ptr : Addr) (w : Rewriting) (buf : List UInt8) : Option Rewriting :=
  if isSyscallText buf then
    if ptr = syscall_addr then some w
    else do
      let bm ← record_replaced_instruction_addr w.bm ptr
      some { code := Function.update (Function.update w.code ptr 0xff) (ptr + 1) 0xd0, bm }
  else some w

/-- The disassembler on a buffer: `disasm code a n` is what it prints for the instruction at `a`,
with `n` bytes of the buffer from there on, and the length. It looks at these bytes only, and the
instructions of system calls have two bytes at least. -/
structure Disassembler where
  disasm : Memory → Addr → Nat → List (List UInt8) × Nat
  pos : ∀ code a n, 0 < n → 0 < (disasm code a n).2
  le : ∀ code a n, 0 < n → (disasm code a n).2 ≤ n
  within : ∀ code code' a n,
    (∀ k < n, code' (a + BitVec.ofNat 64 k) = code (a + BitVec.ofNat 64 k)) →
    disasm code' a n = disasm code a n
  two : ∀ code a n, (disasm code a n).1.any isSyscallText = true → 2 ≤ (disasm code a n).2

/-- The loop over the instructions; it needs no more turns than there are bytes. -/
def sweep (D : Disassembler) (syscall_addr code : Addr) (code_size : Nat) :
    Nat → Nat → Rewriting → Option Rewriting
  | 0, _, w => some w
  | fuel + 1, off, w =>
    if off < code_size then do
      let p := D.disasm w.code (code + BitVec.ofNat 64 off) (code_size - off)
      let w ← p.1.foldlM (do_rewrite syscall_addr (code + BitVec.ofNat 64 off)) w
      sweep D syscall_addr code code_size fuel (off + p.2) w
    else some w

/-- Without its two calls of `mprotect`, whose asserts end the program if they fail. -/
def disassemble_and_rewrite (D : Disassembler) (syscall_addr code : Addr) (code_size : Nat)
    (w : Rewriting) :
    Option Rewriting :=
  sweep D syscall_addr code code_size code_size 0 w

/-! ## What there is to rewrite -/

/-- The offsets at which the instructions of the code start, as the disassembler finds them. -/
def boundaries (D : Disassembler) (mem : Memory) (code : Addr) (code_size : Nat) : Nat →
    Nat → List Nat
  | 0, _ => []
  | fuel + 1, off =>
    if off < code_size then
      off :: boundaries D mem code code_size fuel
        (off + (D.disasm mem (code + BitVec.ofNat 64 off) (code_size - off)).2)
    else []

/-- The system call instructions among them, but for `enter_syscall`'s own. -/
def isSite (D : Disassembler) (mem : Memory) (syscall_addr code : Addr)
    (code_size off : Nat) : Bool :=
  (D.disasm mem (code + BitVec.ofNat 64 off) (code_size - off)).1.any isSyscallText &&
    code + BitVec.ofNat 64 off != syscall_addr

def sites (D : Disassembler) (mem : Memory) (syscall_addr code : Addr)
    (code_size : Nat) : List Nat :=
  (boundaries D mem code code_size code_size 0).filter (isSite D mem syscall_addr code code_size)

end Zpoline
