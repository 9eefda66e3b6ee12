import Staut.Lib.CallStack

/-!
# Context switches (`argobots/src/arch/fcontext/fcontext_x86_64_sysv_elf_gas.S`, `abtd_fcontext.h`)

The functions that switch between user-level threads, instruction by instruction (with
`ABTD_FCONTEXT_PRESERVE_FPU`), and any number of threads that use them on any number of execution
streams.

* A thread that is switched out leaves a frame on its stack and the frame's address in its
  `fcontext_t`. The history has the state of its call (`Status.saved`).
* A function `.._with_call_fcontext` calls `f_cb` on the new stack. The old thread can be resumed
  from then on: other streams may run it before the call is over.
* `sys`: in between, a stream writes to memory as it likes, but not to a context or to a frame that
  is still needed.
-/

set_option autoImplicit false

namespace Fcontext

open X86 Run

/-! ## The code -/

/-- The head of every function that leaves a context behind. -/
def save : List Op :=
  [.push .rbp, .push .rbx, .push .r15, .push .r14, .push .r13, .push .r12, .lea (-8) .rsp .rsp,
    .stmxcsr 0 .rsp, .fnstcw 4 .rsp]

/-- The end of every function that goes on with a context. -/
def restore : List Op :=
  [.ldmxcsr 0 .rsp, .fldcw 4 .rsp, .lea 8 .rsp .rsp, .pop .r12, .pop .r13, .pop .r14, .pop .r15,
    .pop .rbx, .pop .rbp, .pop .r8]

/-- `old` is the register of `p_old_ctx`, if there is one; `new` goes to the new stack, and `cont`
and `exit` come behind the call of `f_cb`, if there is one. -/
structure Fn where
  old : Option Reg
  new : List Op
  calls : Bool
  cont : List Op
  exit : Reg

namespace Fn

def head (f : Fn) : List Op :=
  (match f.old with
    | some r => save ++ [.store .rsp 0 r]
    | none => []) ++ f.new

def tail (f : Fn) : List Instr := f.cont.map .op ++ [.jmpReg f.exit]

def code (f : Fn) : List Instr :=
  f.head.map .op ++ if f.calls then .callReg .rsi :: f.tail else f.tail

/-- The instructions up to the call of `f_cb`, or to the end. -/
def steps (f : Fn) : Nat := f.head.length + if f.calls then 1 else f.tail.length

end Fn

def switch_fcontext : Fn where
  old := some .rsi
  new := [.load 0 .rdi .rsp]
  calls := false
  cont := restore
  exit := .r8

def jump_fcontext : Fn where
  old := none
  new := [.load 0 .rdi .rsp]
  calls := false
  cont := restore
  exit := .r8

def init_and_switch_fcontext : Fn where
  old := some .rcx
  new := [.and (-16) .rdx, .lea (-8) .rdx .rsp]
  calls := false
  cont := []
  exit := .rsi

def init_and_jump_fcontext : Fn where
  old := none
  new := [.and (-16) .rdx, .lea (-8) .rdx .rsp]
  calls := false
  cont := []
  exit := .rsi

def switch_with_call_fcontext : Fn where
  old := some .rcx
  new := [.load 0 .rdx .rsp]
  calls := true
  cont := restore
  exit := .r8

def jump_with_call_fcontext : Fn where
  old := none
  new := [.load 0 .rdx .rsp]
  calls := true
  cont := restore
  exit := .r8

def init_and_switch_with_call_fcontext : Fn where
  old := some .r9
  new := [.and (-16) .r8, .mov .rdx .r12, .mov .rcx .r13, .mov .r8 .rsp]
  calls := true
  cont := [.lea (-8) .rsp .rsp, .mov .r12 .rdi]
  exit := .r13

def init_and_jump_with_call_fcontext : Fn where
  old := none
  new := [.and (-16) .r8, .mov .rdx .r12, .mov .rcx .r13, .mov .r8 .rsp]
  calls := true
  cont := [.lea (-8) .rsp .rsp, .mov .r12 .rdi]
  exit := .r13

/-! ## The threads -/

/-- Where the contexts and the stacks are. A stack has room for a return address at its top. -/
structure Layout (ι : Type) where
  ctx : ι → Addr
  stack : ι → Addr → Prop
  stacktop : ι → Addr
  ctx_apart : ∀ i j x, i ≠ j → (x - ctx i).toNat < 8 → ¬ (x - ctx j).toNat < 8
  stack_apart : ∀ i j x, i ≠ j → stack i x → ¬ stack j x
  ctx_stack : ∀ i j x, (x - ctx i).toNat < 8 → ¬ stack j x
  not_null : ∀ i, ¬ stack i 0
  top : ∀ i x, (x - ((stacktop i &&& -16) - 8)).toNat < 8 → stack i x

/-- A call of `ABTI_ythread_context_switch` (`saves`) or `ABTI_ythread_context_jump`, or of their
variants with `f_cb` and `cb_arg`. -/
structure Switch where
  saves : Bool
  cb : Option (Word × Word)

/-- The function that such a call ends in, and its arguments; `started` is
`ABTD_ythread_context_is_started`. -/
def Switch.call (c : Switch) (started : Bool) (old new stacktop wrapper : Word) : Fn × List Word :=
  match c.saves, c.cb, started with
  | true, none, true => (switch_fcontext, [new, old])
  | true, none, false => (init_and_switch_fcontext, [new, wrapper, stacktop, old])
  | false, none, true => (jump_fcontext, [new])
  | false, none, false => (init_and_jump_fcontext, [new, wrapper, stacktop])
  | true, some (f, arg), true => (switch_with_call_fcontext, [arg, f, new, old])
  | true, some (f, arg), false =>
    (init_and_switch_with_call_fcontext, [arg, f, new, wrapper, stacktop, old])
  | false, some (f, arg), true => (jump_with_call_fcontext, [arg, f, new])
  | false, some (f, arg), false =>
    (init_and_jump_with_call_fcontext, [arg, f, new, wrapper, stacktop])

/-- The arguments of a call, by the calling convention. -/
def Passed (s : X86.State) (args : List Word) : Prop :=
  ∀ p ∈ [Reg.rdi, .rsi, .rdx, .rcx, .r8, .r9].zip args, s.reg p.1 = p.2

/-- The frame of the call in `s`, up to its return address. -/
def InFrame (s : X86.State) (x : Addr) : Prop := (x - (s.reg .rsp - 56)).toNat < 64

/-- A thread that has not run, that runs on a stream, that has left with a call, or that has left
for good. -/
inductive Status (κ : Type)
  | fresh
  | running (e : κ)
  | saved (s : X86.State)
  | gone

/-- What a stream runs: a thread's own code, or `f_cb` with the rest of `f` behind it. `entry` is
the state at its entry, and `back` the call that the thread of this stack has left with, if it has
run before. -/
inductive Mode
  | own
  | callback (f : Fn) (back : Option X86.State) (entry : X86.State)

structure State (ι κ : Type) where
  cpu : κ → Cpu
  mem : Memory
  cur : κ → ι
  mode : κ → Mode
  status : ι → Status κ

section
variable {ι κ : Type} [DecidableEq ι] [DecidableEq κ]

namespace State

/-- A stream's core, with the memory. -/
def on (s : State ι κ) (e : κ) : X86.State := { s.cpu e with mem := s.mem }

def put (s : State ι κ) (e : κ) (t : X86.State) : State ι κ :=
  { s with cpu := Function.update s.cpu e t.toCpu, mem := t.mem }

def setMode (s : State ι κ) (e : κ) (m : Mode) : State ι κ :=
  { s with mode := Function.update s.mode e m }

def setStatus (s : State ι κ) (i : ι) (st : Status κ) : State ι κ :=
  { s with status := Function.update s.status i st }

/-- The stream `e` comes from one thread to another. -/
def switch (s : State ι κ) (e : κ) (j : ι) (saves : Bool) : State ι κ :=
  { (s.setStatus (s.cur e) (if saves then .saved (s.on e) else .gone)).setStatus j (.running e) with
    cur := Function.update s.cur e j }

/-- The call that a thread goes on behind. -/
def left (s : State ι κ) (j : ι) : Option X86.State :=
  match s.status j with
  | .saved s0 => some s0
  | _ => none

/-- `ABTD_ythread_context_is_started`. -/
def started (s : State ι κ) (L : Layout ι) (j : ι) : Bool := read64 s.mem (L.ctx j) != 0

/-- What the stream's own code writes to: not to a context, and not to the frame of a thread that
goes on with it. -/
def Own (s : State ι κ) (L : Layout ι) (m : Memory) : Prop :=
  (∀ j x, (x - L.ctx j).toNat < 8 → m x = s.mem x) ∧
    (∀ j s0 x, s.status j = .saved s0 → InFrame s0 x → m x = s.mem x) ∧
    ∀ e f s0 t x, s.mode e = .callback f (some s0) t → InFrame s0 x → m x = s.mem x

end State

/-- The thread's stack has room for the frame and a word below it, and the return address stands 8
bytes behind a multiple of 16. -/
def Room (L : Layout ι) (i : ι) (s : X86.State) : Prop :=
  (s.reg .rsp).toNat % 16 = 8 ∧ ∀ x, (x - (s.reg .rsp - 64)).toNat < 72 → L.stack i x

/-- `t` is at the return of a function that was entered in `s`. -/
structure Returns (s t : X86.State) : Prop where
  rip : t.rip = s.top
  rsp : t.reg .rsp = s.reg .rsp + 8
  kept : ∀ r ∈ calleeSaved, t.reg r = s.reg r

inductive Label (ι κ : Type)
  | work (e : κ) (t : X86.State)
  | reinit (j : ι)
  | call (e : κ) (j : ι) (c : Switch)
  | back (e : κ)

/-- `wrapper` is the address of `ABTD_ythread_context_func_wrapper`. -/
def sys (M : Machine) (L : Layout ι) (wrapper : Addr) : LTS (State ι κ) (Label ι κ) where
  init s := (∀ e, s.mode e = .own ∧ s.status (s.cur e) = .running e) ∧
    ∀ j, (s.status j = .fresh ∧ read64 s.mem (L.ctx j) = 0) ∨ (∃ e, s.cur e = j) ∨
    s.status j = .gone
  step s l s' :=
    match l with
    | .work e t => s.Own L t.mem ∧ s' = s.put e t
    | .reinit j => s.status j = .gone ∧
        s' = { s.setStatus j .fresh with mem := write64 s.mem (L.ctx j) 0 }
    | .call e j c =>
      let m := s.on e
      let r := c.call (s.started L j) (L.ctx (s.cur e)) (L.ctx j) (L.stacktop j) wrapper
      s.mode e = .own ∧ (s.status j = .fresh ∨ ∃ s0, s.status j = .saved s0) ∧
        (∃ b, Placed M m.rip r.1.code b) ∧ Passed m r.2 ∧ (c.saves = true → Room L (s.cur e) m) ∧
        ∃ t, M.run r.1.steps m = some t ∧
          s' = ((s.switch e j c.saves).put e t).setMode e
          (if r.1.calls then .callback r.1 (s.left j) t else .own)
    | .back e =>
      let m := s.on e
      ∃ f b entry, s.mode e = .callback f b entry ∧ Returns entry m ∧
        ∃ t, M.run f.tail.length m = some t ∧ s' = (s.put e t).setMode e .own

end

end Fcontext
