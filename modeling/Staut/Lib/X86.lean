import Staut.Lib.Run
import Mathlib.Logic.Function.Basic
import Mathlib.Algebra.Group.Nat.Defs

/-!
# A subset of x86-64

Registers, byte memory, the flags and the instructions that call trampolines are made of. Code is
fetched through a function of its own (a page is not written while code on it runs), data is the
memory of the state.

* `Op`: straight-line instructions, `Instr` adds the control transfers. `decode` reads an
  instruction from bytes.
* `Machine`: what is fetched, what `syscall` does, and the functions that run in one step (the state
  at their return). `Placed M a is b`: the instructions stand at successive addresses from `a` to
  `b`; `Placed.block` runs the straight-line code at their head.
-/

set_option autoImplicit false

namespace X86

abbrev Word := BitVec 64

abbrev Addr := BitVec 64

abbrev Memory := Addr → BitVec 8

inductive Reg
  | rax | rcx | rdx | rbx | rsp | rbp | rsi | rdi
  | r8 | r9 | r10 | r11 | r12 | r13 | r14 | r15
deriving DecidableEq, Repr

/-- The registers that a function keeps for its caller (besides the stack pointer). -/
def calleeSaved : List Reg := [.rbx, .rbp, .r12, .r13, .r14, .r15]

/-! ## Words in memory -/

def read16 (m : Memory) (a : Addr) : BitVec 16 := m (a + 1) ++ m a

def read32 (m : Memory) (a : Addr) : BitVec 32 := m (a + 3) ++ m (a + 2) ++ m (a + 1) ++ m a

/-- The little-endian word at `a`. -/
def read64 (m : Memory) (a : Addr) : Word :=
  m (a + 7) ++ m (a + 6) ++ m (a + 5) ++ m (a + 4) ++ m (a + 3) ++ m (a + 2) ++ m (a + 1) ++ m a

/-- The lowest `n` bytes of `v` are written at `a`. -/
def writeBytes {w : Nat} (n : Nat) (m : Memory) (a : Addr) (v : BitVec w) : Memory := fun x =>
  if (x - a).toNat < n then v.extractLsb' (8 * (x - a).toNat) 8 else m x

def write64 (m : Memory) (a : Addr) (v : Word) : Memory := writeBytes 8 m a v

section
variable {m m' : Memory} {a x : Addr} {v : Word}

theorem read64_congr (h : ∀ x, (x - a).toNat < 8 → m' x = m x) : read64 m' a = read64 m a := by
  unfold read64
  rw [h a (by bv_omega), h (a + 1) (by bv_omega), h (a + 2) (by bv_omega), h (a + 3) (by bv_omega),
    h (a + 4) (by bv_omega), h (a + 5) (by bv_omega), h (a + 6) (by bv_omega),
    h (a + 7) (by bv_omega)]

theorem read32_congr (h : ∀ x, (x - a).toNat < 4 → m' x = m x) : read32 m' a = read32 m a := by
  unfold read32
  rw [h a (by bv_omega), h (a + 1) (by bv_omega), h (a + 2) (by bv_omega), h (a + 3) (by bv_omega)]

theorem read16_congr (h : ∀ x, (x - a).toNat < 2 → m' x = m x) : read16 m' a = read16 m a := by
  unfold read16
  rw [h a (by bv_omega), h (a + 1) (by bv_omega)]

theorem writeBytes_of_not {w n : Nat} {v : BitVec w} (h : ¬ (x - a).toNat < n) :
    writeBytes n m a v x = m x := if_neg h

theorem write64_of_not (h : ¬ (x - a).toNat < 8) : write64 m a v x = m x := if_neg h

theorem writeBytes_byte {w n : Nat} {v : BitVec w} (k : Nat) (hk : k < n) (hn : n ≤ 8) :
    writeBytes n m a v (a + BitVec.ofNat 64 k) = v.extractLsb' (8 * k) 8 := by
  have hx : (a + BitVec.ofNat 64 k - a).toNat = k := by bv_omega
  unfold writeBytes
  rw [hx, if_pos hk]

theorem read64_of_bytes (h : ∀ k < 8, m (a + BitVec.ofNat 64 k) = v.extractLsb' (8 * k) 8) :
    read64 m a = v := by
  have h0 := h 0 (by decide)
  rw [BitVec.add_zero] at h0
  unfold read64
  rw [h0, show a + 1 = a + BitVec.ofNat 64 1 from rfl, h 1 (by decide),
    show a + 2 = a + BitVec.ofNat 64 2 from rfl, h 2 (by decide),
    show a + 3 = a + BitVec.ofNat 64 3 from rfl, h 3 (by decide),
    show a + 4 = a + BitVec.ofNat 64 4 from rfl, h 4 (by decide),
    show a + 5 = a + BitVec.ofNat 64 5 from rfl, h 5 (by decide),
    show a + 6 = a + BitVec.ofNat 64 6 from rfl, h 6 (by decide),
    show a + 7 = a + BitVec.ofNat 64 7 from rfl, h 7 (by decide)]
  apply BitVec.eq_of_getLsbD_eq
  intro j hj
  simp only [BitVec.getLsbD_append, BitVec.getLsbD_extractLsb']
  have hw : ∀ k, k = j → v.getLsbD k = v.getLsbD j := fun _ h => h ▸ rfl
  repeat' split
  all_goals
    rw [decide_eq_true (by omega), Bool.true_and]
    exact hw _ (by omega)

theorem read64_write64 (m : Memory) (a : Addr) (v : Word) : read64 (write64 m a v) a = v :=
  read64_of_bytes fun k hk => writeBytes_byte k hk (by decide)

theorem read32_write32 (m : Memory) (a : Addr) (v : BitVec 32) :
    read32 (writeBytes 4 m a v) a = v := by
  have h : ∀ k < 4, writeBytes 4 m a v (a + BitVec.ofNat 64 k) = v.extractLsb' (8 * k) 8 :=
    fun k hk => writeBytes_byte k hk (by decide)
  have h0 := h 0 (by decide)
  rw [BitVec.add_zero] at h0
  unfold read32
  rw [h0, show a + 1 = a + BitVec.ofNat 64 1 from rfl, h 1 (by decide),
    show a + 2 = a + BitVec.ofNat 64 2 from rfl, h 2 (by decide),
    show a + 3 = a + BitVec.ofNat 64 3 from rfl, h 3 (by decide)]
  apply BitVec.eq_of_getLsbD_eq
  intro j hj
  simp only [BitVec.getLsbD_append, BitVec.getLsbD_extractLsb']
  have hw : ∀ k, k = j → v.getLsbD k = v.getLsbD j := fun _ h => h ▸ rfl
  repeat' split
  all_goals
    rw [decide_eq_true (by omega), Bool.true_and]
    exact hw _ (by omega)

theorem read16_write16 (m : Memory) (a : Addr) (v : BitVec 16) :
    read16 (writeBytes 2 m a v) a = v := by
  have h : ∀ k < 2, writeBytes 2 m a v (a + BitVec.ofNat 64 k) = v.extractLsb' (8 * k) 8 :=
    fun k hk => writeBytes_byte k hk (by decide)
  have h0 := h 0 (by decide)
  rw [BitVec.add_zero] at h0
  unfold read16
  rw [h0, show a + 1 = a + BitVec.ofNat 64 1 from rfl, h 1 (by decide)]
  apply BitVec.eq_of_getLsbD_eq
  intro j hj
  simp only [BitVec.getLsbD_append, BitVec.getLsbD_extractLsb']
  have hw : ∀ k, k = j → v.getLsbD k = v.getLsbD j := fun _ h => h ▸ rfl
  repeat' split
  all_goals
    rw [decide_eq_true (by omega), Bool.true_and]
    exact hw _ (by omega)

end

/-- A stack pointer is aligned. -/
theorem align16 (x : Word) : x &&& (-16 : Word) = x - BitVec.ofNat 64 (x.toNat % 16) := by
  have hmask : ∀ i < 64, (-16 : Word).getLsbD i = decide (4 ≤ i) := by decide
  have hshift : x &&& (-16 : Word) = x >>> 4 <<< 4 := by
    apply BitVec.eq_of_getLsbD_eq
    intro i hi
    rw [BitVec.getLsbD_and, hmask i hi, BitVec.getLsbD_shiftLeft, BitVec.getLsbD_ushiftRight]
    by_cases h4 : 4 ≤ i
    · rw [show 4 + (i - 4) = i by omega]
      simp [hi, h4]
    · simp [h4]
  have hx := x.isLt
  rw [hshift]
  apply BitVec.eq_of_toNat_eq
  rw [BitVec.toNat_shiftLeft, BitVec.toNat_ushiftRight, Nat.shiftRight_eq_div_pow, Nat.shiftLeft_eq]
  bv_omega

/-! ## States -/

structure Flags where
  cf : Bool
  zf : Bool
  sf : Bool
  ovf : Bool
deriving DecidableEq, Repr

/-- The flags after `a - b`. -/
def Flags.sub (a b : Word) : Flags where
  cf := a.toNat < b.toNat
  zf := a = b
  sf := (a - b).msb
  ovf := a.msb != b.msb && (a - b).msb != a.msb

/-- The flags after `a + b`. -/
def Flags.add (a b : Word) : Flags where
  cf := (a + b).toNat < a.toNat
  zf := a + b = 0
  sf := (a + b).msb
  ovf := a.msb == b.msb && (a + b).msb != a.msb

/-- The flags after a bitwise operation with the result `v`. -/
def Flags.bitwise (v : Word) : Flags where
  cf := false
  zf := v = 0
  sf := v.msb
  ovf := false

/-- What a function keeps of the floating-point units: the control and status register of SSE, and
the control word of the x87 unit. -/
structure Fpu where
  mxcsr : BitVec 32
  cw : BitVec 16
deriving DecidableEq, Repr

/-- What a core has of its own. -/
structure Cpu where
  reg : Reg → Word
  flags : Flags
  fpu : Fpu
  rip : Addr

structure State extends Cpu where
  mem : Memory

namespace State

def set (s : State) (r : Reg) (v : Word) : State := { s with reg := Function.update s.reg r v }

def setFlags (s : State) (f : Flags) : State := { s with flags := f }

def goto (s : State) (a : Addr) : State := { s with rip := a }

/-- The word on top of the stack. -/
def top (s : State) : Word := read64 s.mem (s.reg .rsp)

def push (s : State) (v : Word) : State :=
  { s.set .rsp (s.reg .rsp - 8) with mem := write64 s.mem (s.reg .rsp - 8) v }

def drop (s : State) : State := s.set .rsp (s.reg .rsp + 8)

section
variable (s : State) (r r' : Reg) (v : Word) (f : Flags) (a : Addr)

@[simp] theorem set_rip : (s.set r v).rip = s.rip := rfl

@[simp] theorem set_mem : (s.set r v).mem = s.mem := rfl

@[simp] theorem set_flags : (s.set r v).flags = s.flags := rfl

@[simp] theorem set_fpu : (s.set r v).fpu = s.fpu := rfl

@[simp] theorem set_reg_self : (s.set r v).reg r = v := Function.update_self ..

theorem set_reg_of_ne (h : r' ≠ r) : (s.set r v).reg r' = s.reg r' := Function.update_of_ne h ..

@[simp] theorem setFlags_reg : (s.setFlags f).reg = s.reg := rfl

@[simp] theorem setFlags_flags : (s.setFlags f).flags = f := rfl

@[simp] theorem setFlags_rip : (s.setFlags f).rip = s.rip := rfl

@[simp] theorem setFlags_mem : (s.setFlags f).mem = s.mem := rfl

@[simp] theorem goto_reg : (s.goto a).reg = s.reg := rfl

@[simp] theorem goto_flags : (s.goto a).flags = s.flags := rfl

@[simp] theorem goto_fpu : (s.goto a).fpu = s.fpu := rfl

@[simp] theorem goto_rip : (s.goto a).rip = a := rfl

@[simp] theorem goto_mem : (s.goto a).mem = s.mem := rfl

@[simp] theorem goto_goto (b : Addr) : (s.goto a).goto b = s.goto b := rfl

@[simp] theorem goto_self : s.goto s.rip = s := rfl

theorem goto_push : (s.goto a).push v = (s.push v).goto a := rfl

@[simp] theorem push_rip : (s.push v).rip = s.rip := rfl

@[simp] theorem push_flags : (s.push v).flags = s.flags := rfl

@[simp] theorem push_fpu : (s.push v).fpu = s.fpu := rfl

@[simp] theorem push_mem : (s.push v).mem = write64 s.mem (s.reg .rsp - 8) v := rfl

@[simp] theorem push_rsp : (s.push v).reg .rsp = s.reg .rsp - 8 := by simp [push, set]

theorem push_reg_of_ne (h : r ≠ .rsp) : (s.push v).reg r = s.reg r := Function.update_of_ne h ..

@[simp] theorem drop_rip : s.drop.rip = s.rip := rfl

@[simp] theorem drop_flags : s.drop.flags = s.flags := rfl

@[simp] theorem drop_fpu : s.drop.fpu = s.fpu := rfl

@[simp] theorem drop_mem : s.drop.mem = s.mem := rfl

@[simp] theorem drop_rsp : s.drop.reg .rsp = s.reg .rsp + 8 := s.set_reg_self ..

theorem drop_reg_of_ne (h : r ≠ .rsp) : s.drop.reg r = s.reg r := Function.update_of_ne h ..

@[simp] theorem top_push : (s.push v).top = v := by
  unfold top
  rw [push_mem, push_rsp, read64_write64]

end

end State

/-! ## Instructions -/

/-- Straight-line instructions. Operands stand in the order of the AT&T syntax: the destination is
last. -/
inductive Op
  | nop
  | push (r : Reg)
  | pushImm (v : Word)
  | pushMem (disp : Word) (base : Reg)
  | pop (r : Reg)
  | mov (src dst : Reg)
  | movImm (v : Word) (dst : Reg)
  | load (disp : Word) (base dst : Reg)
  | store (src : Reg) (disp : Word) (base : Reg)
  | lea (disp : Word) (base dst : Reg)
  | add (v : Word) (dst : Reg)
  | sub (v : Word) (dst : Reg)
  | and (v : Word) (dst : Reg)
  | imul (src dst : Reg)
  | cmp (src dst : Reg)
  | cmpImm (v : Word) (dst : Reg)
  | leave
  | stmxcsr (disp : Word) (base : Reg)
  | fnstcw (disp : Word) (base : Reg)
  | ldmxcsr (disp : Word) (base : Reg)
  | fldcw (disp : Word) (base : Reg)
deriving DecidableEq, Repr

/-- The effect of an instruction, its address apart. `imul` keeps the flags that it leaves
undefined; `ldmxcsr` is used for values that `stmxcsr` has stored, so that it does not fault. -/
def Op.exec : Op → State → State
  | .nop, s => s
  | .push r, s => s.push (s.reg r)
  | .pushImm v, s => s.push v
  | .pushMem d b, s => s.push (read64 s.mem (s.reg b + d))
  | .pop r, s => s.drop.set r s.top
  | .mov a b, s => s.set b (s.reg a)
  | .movImm v b, s => s.set b v
  | .load d a b, s => s.set b (read64 s.mem (s.reg a + d))
  | .store a d b, s => { s with mem := write64 s.mem (s.reg b + d) (s.reg a) }
  | .lea d a b, s => s.set b (s.reg a + d)
  | .add v b, s => (s.set b (s.reg b + v)).setFlags (.add (s.reg b) v)
  | .sub v b, s => (s.set b (s.reg b - v)).setFlags (.sub (s.reg b) v)
  | .and v b, s => (s.set b (s.reg b &&& v)).setFlags (.bitwise (s.reg b &&& v))
  | .imul a b, s =>
    let wide : Bool := (s.reg a * s.reg b).toInt ≠ (s.reg a).toInt * (s.reg b).toInt
    (s.set b (s.reg a * s.reg b)).setFlags { s.flags with cf := wide, ovf := wide }
  | .cmp a b, s => s.setFlags (.sub (s.reg b) (s.reg a))
  | .cmpImm v b, s => s.setFlags (.sub (s.reg b) v)
  | .leave, s =>
    let s := s.set .rsp (s.reg .rbp)
    s.drop.set .rbp s.top
  | .stmxcsr d b, s => { s with mem := writeBytes 4 s.mem (s.reg b + d) s.fpu.mxcsr }
  | .fnstcw d b, s => { s with mem := writeBytes 2 s.mem (s.reg b + d) s.fpu.cw }
  | .ldmxcsr d b, s => { s with fpu := { s.fpu with mxcsr := read32 s.mem (s.reg b + d) } }
  | .fldcw d b, s => { s with fpu := { s.fpu with cw := read16 s.mem (s.reg b + d) } }

def execs (ops : List Op) (s : State) : State := ops.foldl (fun s o => o.exec s) s

theorem execs_cons (o : Op) (ops : List Op) (s : State) :
    execs (o :: ops) s = execs ops (o.exec s) := rfl

theorem execs_append (ops ops' : List Op) (s : State) :
    execs (ops ++ ops') s = execs ops' (execs ops s) :=
  List.foldl_append ..

@[simp] theorem Op.exec_rip (o : Op) (s : State) : (o.exec s).rip = s.rip := by
  cases o <;> rfl

@[simp] theorem execs_rip (ops : List Op) (s : State) : (execs ops s).rip = s.rip := by
  induction ops generalizing s with
  | nil => rfl
  | cons o ops ih => rw [execs_cons, ih, Op.exec_rip]

/-- The effect does not depend on where the code stands. -/
theorem Op.exec_goto (o : Op) (s : State) (a : Addr) : o.exec (s.goto a) = (o.exec s).goto a := by
  cases o <;> rfl

theorem execs_goto (ops : List Op) (s : State) (a : Addr) :
    execs ops (s.goto a) = (execs ops s).goto a := by
  induction ops generalizing s with
  | nil => rfl
  | cons o ops ih => rw [execs_cons, execs_cons, Op.exec_goto, ih]

/-- Conditions: equal, below (unsigned), greater (signed). -/
inductive Cond
  | e | b | g
deriving DecidableEq, Repr

def Cond.holds : Cond → Flags → Bool
  | .e, f => f.zf
  | .b, f => f.cf
  | .g, f => !f.zf && f.sf == f.ovf

inductive Instr
  | op (o : Op)
  | jmp (t : Addr)
  | jcc (c : Cond) (t : Addr)
  | jmpReg (r : Reg)
  | call (t : Addr)
  | callReg (r : Reg)
  | ret
  | syscall
  | sysenter
deriving DecidableEq, Repr

/-- The 4-byte little-endian immediate at `a`, sign-extended. -/
def imm32 (code : Memory) (a : Addr) : Word :=
  (code (a + 3) ++ code (a + 2) ++ code (a + 1) ++ code a).signExtend 64

/-- The instruction at `a` and the address after it. -/
def decode (code : Memory) (a : Addr) : Option (Instr × Addr) :=
  let b0 := code a
  let b1 := code (a + 1)
  let b2 := code (a + 2)
  if b0 = 0x90 then some (.op .nop, a + 1)
  else if b0 = 0x50 then some (.op (.push .rax), a + 1)
  else if b0 = 0x6a then some (.op (.pushImm (b1.signExtend 64)), a + 2)
  else if b0 = 0x7f then some (.jcc .g (a + 2 + b1.signExtend 64), a + 2)
  else if b0 = 0xeb then some (.jmp (a + 2 + b1.signExtend 64), a + 2)
  else if b0 = 0x48 ∧ b1 = 0xb8 then some (.op (.movImm (read64 code (a + 2)) .rax), a + 10)
  else if b0 = 0x49 ∧ b1 = 0xbb then some (.op (.movImm (read64 code (a + 2)) .r11), a + 10)
  else if b0 = 0x48 ∧ b1 = 0x81 ∧ b2 = 0xec then some (.op (.sub (imm32 code (a + 3)) .rsp), a + 7)
  else if b0 = 0xff ∧ b1 = 0xe0 then some (.jmpReg .rax, a + 2)
  else if b0 = 0x41 ∧ b1 = 0xff ∧ b2 = 0xe3 then some (.jmpReg .r11, a + 3)
  else if b0 = 0xff ∧ b1 = 0xd0 then some (.callReg .rax, a + 2)
  else if b0 = 0x0f ∧ b1 = 0x05 then some (.syscall, a + 2)
  else if b0 = 0x0f ∧ b1 = 0x34 then some (.sysenter, a + 2)
  else none

section
variable {code : Memory} {a : Addr}

theorem decode_nop (h : code a = 0x90) : decode code a = some (.op .nop, a + 1) := by
  unfold decode
  simp only [h]
  rfl

theorem decode_push_rax (h : code a = 0x50) : decode code a = some (.op (.push .rax), a + 1) := by
  unfold decode
  simp only [h]
  rfl

theorem decode_pushImm (h : code a = 0x6a) :
    decode code a = some (.op (.pushImm ((code (a + 1)).signExtend 64)), a + 2) := by
  unfold decode
  simp only [h]
  rfl

theorem decode_jg (h : code a = 0x7f) :
    decode code a = some (.jcc .g (a + 2 + (code (a + 1)).signExtend 64), a + 2) := by
  unfold decode
  simp only [h]
  rfl

theorem decode_jmp (h : code a = 0xeb) :
    decode code a = some (.jmp (a + 2 + (code (a + 1)).signExtend 64), a + 2) := by
  unfold decode
  simp only [h]
  rfl

theorem decode_movImm_rax (h : code a = 0x48) (h1 : code (a + 1) = 0xb8) :
    decode code a = some (.op (.movImm (read64 code (a + 2)) .rax), a + 10) := by
  unfold decode
  simp only [h, h1]
  rfl

theorem decode_movImm_r11 (h : code a = 0x49) (h1 : code (a + 1) = 0xbb) :
    decode code a = some (.op (.movImm (read64 code (a + 2)) .r11), a + 10) := by
  unfold decode
  simp only [h, h1]
  rfl

theorem decode_sub_rsp (h : code a = 0x48) (h1 : code (a + 1) = 0x81) (h2 : code (a + 2) = 0xec) :
    decode code a = some (.op (.sub (imm32 code (a + 3)) .rsp), a + 7) := by
  unfold decode
  simp only [h, h1, h2]
  rfl

theorem decode_jmp_rax (h : code a = 0xff) (h1 : code (a + 1) = 0xe0) :
    decode code a = some (.jmpReg .rax, a + 2) := by
  unfold decode
  simp only [h, h1]
  rfl

theorem decode_jmp_r11 (h : code a = 0x41) (h1 : code (a + 1) = 0xff) (h2 : code (a + 2) = 0xe3) :
    decode code a = some (.jmpReg .r11, a + 3) := by
  unfold decode
  simp only [h, h1, h2]
  rfl

theorem decode_call_rax (h : code a = 0xff) (h1 : code (a + 1) = 0xd0) :
    decode code a = some (.callReg .rax, a + 2) := by
  unfold decode
  simp only [h, h1]
  rfl

end

/-! ## Machines -/

structure Machine where
  fetch : Addr → Option (Instr × Addr)
  /-- What a system call does, the instruction pointer standing behind it. -/
  kernel : State → State
  /-- The functions that run in one step: from the state at the entry to the state at the return. -/
  foreign : Addr → Option (State → Option State)

def Instr.exec (kernel : State → State) (next : Addr) (s : State) : Instr → State
  | .op o => (o.exec s).goto next
  | .jmp t => s.goto t
  | .jcc c t => s.goto (if c.holds s.flags then t else next)
  | .jmpReg r => s.goto (s.reg r)
  | .call t => (s.push next).goto t
  | .callReg r => (s.push next).goto (s.reg r)
  | .ret => s.drop.goto s.top
  | .syscall => kernel (s.goto next)
  | .sysenter => kernel (s.goto next)

def Machine.step (M : Machine) (s : State) : Option State :=
  match M.foreign s.rip with
  | some f => f s
  | none =>
    match M.fetch s.rip with
    | some (i, next) => some (i.exec M.kernel next s)
    | none => none

/-- `n` steps. -/
def Machine.run (M : Machine) : Nat → State → Option State
  | 0, s => some s
  | n + 1, s => (M.step s).bind (M.run n)

/-- The instruction at `a`, which is no function's entry. -/
def At (M : Machine) (a : Addr) (i : Instr) (next : Addr) : Prop :=
  M.foreign a = none ∧ M.fetch a = some (i, next)

/-- Code at successive addresses from `a`, with `b` after the last instruction. -/
def Placed (M : Machine) (a : Addr) : List Instr → Addr → Prop
  | [], b => a = b
  | i :: is, b => ∃ next, At M a i next ∧ Placed M next is b

/-- Blocks of code behind their labels, each up to the next label. -/
def Assembled (M : Machine) : List (Addr × List Instr) → Addr → Prop
  | [], _ => True
  | [(a, is)], b => Placed M a is b
  | (a, is) :: (c, js) :: rest, b => Placed M a is c ∧ Assembled M ((c, js) :: rest) b

instance (M : Machine) (a : Addr) (i : Instr) (next : Addr) : Decidable (At M a i next) :=
  haveI : Decidable (M.foreign a = none) := decidable_of_iff _ Option.isNone_iff_eq_none
  inferInstanceAs (Decidable (_ ∧ _))

instance Placed.dec (M : Machine) (b : Addr) : (a : Addr) → (is : List Instr) →
    Decidable (Placed M a is b)
  | a, [] => inferInstanceAs (Decidable (a = b))
  | a, i :: is =>
    match h : M.fetch a with
    | none => .isFalse (by
      rintro ⟨_, ha, _⟩
      cases h.symm.trans ha.2)
    | some (j, next) =>
      haveI := Placed.dec M b next is
      decidable_of_iff (At M a i next ∧ Placed M next is b) (by
        refine ⟨fun hp => ⟨next, hp⟩, ?_⟩
        rintro ⟨_, ha, hp⟩
        cases h.symm.trans ha.2
        exact ⟨ha, hp⟩)

instance Assembled.dec (M : Machine) (b : Addr) : (bs : List (Addr × List Instr)) →
    Decidable (Assembled M bs b)
  | [] => .isTrue trivial
  | [(a, is)] => inferInstanceAs (Decidable (Placed M a is b))
  | (a, is) :: (c, js) :: rest =>
    haveI := Assembled.dec M b ((c, js) :: rest)
    inferInstanceAs (Decidable (Placed M a is c ∧ Assembled M ((c, js) :: rest) b))

/-- Code from `a` on, with one address for each instruction. -/
def listing : Addr → List Instr → Addr → Option (Instr × Addr)
  | _, [], _ => none
  | a, i :: is, x => if x = a then some (i, a + 1) else listing (a + 1) is x

section
variable {M : Machine} {Q : State → Prop} {s : State} {b next : Addr} {i : Instr} {is : List Instr}

theorem Machine.step_at (h : At M s.rip i next) : M.step s = some (i.exec M.kernel next s) := by
  unfold Machine.step
  rw [h.1]
  simp only [h.2]

theorem Machine.step_foreign {f : State → Option State} (h : M.foreign s.rip = some f) : M.step s =
    f s := by
  unfold Machine.step
  rw [h]

theorem At.run (h : At M s.rip i next) (he : Run.Evt M.step Q (i.exec M.kernel next s)) :
    Run.Evt M.step Q s :=
  .next (Machine.step_at h) he

/-- The first instruction of placed code. -/
theorem Placed.one (h : Placed M s.rip (i :: is) b)
    (he : ∀ next, Placed M next is b → Run.Evt M.step Q (i.exec M.kernel next s)) :
    Run.Evt M.step Q s := by
  obtain ⟨next, ha, hp⟩ := h
  exact ha.run (he next hp)

/-- A conditional jump at the head of placed code. -/
theorem Placed.jcc {c : Cond} {t : Addr} (h : Placed M s.rip (.jcc c t :: is) b)
    (ht : c.holds s.flags = true → Run.Evt M.step Q (s.goto t))
    (hf : c.holds s.flags = false → ∀ next, Placed M next is b → Run.Evt M.step Q (s.goto next)) :
    Run.Evt M.step Q s := by
  refine h.one fun next hp => ?_
  rw [Instr.exec]
  cases hc : c.holds s.flags with
  | true => exact ht hc
  | false => exact hf hc next hp

/-- `n` steps are a run. -/
theorem Machine.run_evt {t : State} {n : Nat} (h : M.run n s = some t) (he : Run.Evt M.step Q t) :
    Run.Evt M.step Q s := by
  induction n generalizing s with
  | zero =>
    cases h
    exact he
  | succ n ih =>
    obtain ⟨s', hs, hr⟩ := Option.bind_eq_some_iff.1 h
    exact .next hs (ih hr)

/-- The steps of straight-line code and of what comes after it. -/
theorem Placed.run_block {ops : List Op} (n : Nat) (h : Placed M s.rip (ops.map .op ++ is) b) :
    ∃ next, Placed M next is b ∧ M.run (ops.length + n) s = M.run n ((execs ops s).goto next) := by
  induction ops generalizing s with
  | nil => exact ⟨s.rip, h, by rw [List.length_nil, Nat.zero_add]; rfl⟩
  | cons o ops ih =>
    obtain ⟨next, ha, hp⟩ := h
    obtain ⟨next', hp', hr⟩ := ih (s := (o.exec s).goto next) hp
    refine ⟨next', hp', ?_⟩
    rw [List.length_cons, Nat.add_right_comm, Machine.run, Machine.step_at ha]
    refine hr.trans ?_
    rw [execs_goto]
    rfl

/-- Straight-line code at the head of placed code. -/
theorem Placed.block {ops : List Op} (h : Placed M s.rip (ops.map .op ++ is) b)
    (he : ∀ next, Placed M next is b → Run.Evt M.step Q ((execs ops s).goto next)) :
    Run.Evt M.step Q s := by
  induction ops generalizing s with
  | nil => exact he s.rip h
  | cons o ops ih =>
    refine h.one fun next hp => ih hp fun next' hp' => ?_
    rw [Instr.exec, execs_goto]
    exact he next' hp'

end

end X86
