import Staut.Zpoline.Proof.Entry

/-!
# `asm_syscall_hook` from the return of `syscall_hook`

`restored`: when the C function leaves the frame as it was, the hook has all registers of `skip_pop`
again, but for `%rax`, which is the result.
-/

set_option autoImplicit false

namespace Zpoline

open X86

/-! ## A loaded program -/

/-- The text with one address for each instruction, a rewritten instruction at `0x4000`, and a call
at `0x4800`. -/
def sampleLabels : Labels where
  enter_syscall := 0x2000
  syscall_addr := 0x2007
  asm_syscall_hook := 0x3000
  skip_pop := 0x300a
  do_rt_sigreturn := 0x3025
  syscall_hook := 0x5000
  enter_end := 0x2009
  hook_end := 0x3027

def sampleFetch (a : Addr) : Option (Instr × Addr) :=
  if a.toNat < 0x1000 then decode (setup_trampoline sampleLabels.asm_syscall_hook) a
  else if a = 0x4000 ∨ a = 0x4800 then some (.callReg .rax, a + 2)
  else (listing 0x2000 ((enter_syscall sampleLabels).flatMap (·.2)) a).or
    (listing 0x3000 ((asm_syscall_hook sampleLabels).flatMap (·.2)) a)

/-- A hook that answers 7 to every system call. -/
def sampleEnv : Env where
  hook_fn _ _ _ _ _ _ _ m := some (7, m)
  bm := bitmap_set (fun _ => 0) 0x4000
  scratch _ _ := 0
  flags s := s.flags

def sampleMachine : Machine where
  fetch := sampleFetch
  kernel s := { s.set .rax 7 with rip := s.rip }
  foreign a := if a = 0x5000 then some sampleEnv.call else none

/-- The program at the rewritten instruction, with the number `n`. -/
def sampleState (n : Word) : State where
  reg r := if r = .rax then n else if r = .rsp then 0x8000 else 0
  flags := ⟨false, false, false, false⟩
  fpu := ⟨0x1f80, 0x37f⟩
  rip := 0x4000
  mem _ := 0

theorem sample_loaded : Loaded sampleMachine sampleLabels sampleEnv where
  trampoline a ha := by
    have hne : a ≠ 0x5000 := by
      rintro rfl
      exact absurd ha (by decide)
    exact ⟨if_neg hne, if_pos ha⟩
  hook := by decide
  enter := by decide
  call := rfl

theorem sample_at (n : Word) : At sampleMachine (sampleState n).rip (.callReg .rax) 0x4002 :=
  ⟨rfl, rfl⟩

/-! ## The registers -/

section
variable {s c : State} {j : Nat} {next : Addr} {v : Word} {m : Memory} {g : Reg → Word} {f : Flags}

theorem calleeSaved_of_not_saved {r : Reg} (hs : r ∉ saved.reverse) (hr : r ≠ .rax) (hsp : r ≠ .rsp)
    (h10 : r ≠ .r10) :
    r ∈ calleeSaved := by
  cases r <;> first | decide | contradiction

theorem restored (h : Entered s c j next) (hm : ∀ x, Below (s.reg .rsp) 112 x → m x = c.mem x) :
    (∀ r, r ≠ .rax → (execs restore (c.returned v m g f)).reg r = s.reg r) ∧
      (execs restore (c.returned v m g f)).reg .rax = v ∧
      (execs restore (c.returned v m g f)).mem = m := by
  obtain ⟨d, hd, hsp⟩ := h.rsp
  have hframe := h.frame.congr fun x hx => hm x (by
    simp only [List.length_cons, List.length_map, List.length_reverse, saved, List.length_nil] at hx
    unfold Below
    bv_omega)
  have hold : read64 m (s.reg .rsp - 8) = s.reg .rbp := by
    rw [← h.old]
    refine read64_congr fun x hx => hm x ?_
    unfold Below
    bv_omega
  obtain ⟨-, h10, -, -, hs⟩ := hframe
  have hsplit : restore = [.pop .r10, .add 16 .rsp] ++ (saved.reverse.map .pop ++ [.leave]) := rfl
  rw [hsplit, execs_append, execs_append]
  generalize hu : execs [.pop .r10, .add 16 .rsp] (c.returned v m g f) = u
  have hur : ∀ r, r ≠ .rsp → r ≠ .r10 → u.reg r = (c.returned v m g f).reg r := fun r h1 h2 => by
    rw [← hu]
    simp [execs, Op.exec, State.set_reg_of_ne, State.drop_reg_of_ne, h1, h2]
  have hu10 : u.reg .r10 = s.reg .r10 := by
    rw [← h10, ← hu]
    simp [execs, Op.exec, State.set_reg_of_ne, State.top, State.returned]
  have hus : u.reg .rsp = c.reg .rsp + 8 + 8 + 8 + 8 := by
    rw [← hu]
    simp [execs, Op.exec, State.set_reg_of_ne, State.returned]
    bv_omega
  have hum : u.mem = m := by
    rw [← hu]
    rfl
  obtain ⟨q1, q2, -, q4⟩ := execs_pop (s := u) saved.reverse (f := s.reg) (by decide)
    (by decide) (by
    rw [hum, hus]
    exact hs)
  generalize execs (saved.reverse.map .pop) u = w at q1 q2 q4
  have hwb : w.reg .rbp = s.reg .rsp - 8 := by
    rw [q1 .rbp (by decide), if_neg (by decide), hur .rbp (by decide) (by decide)]
    exact h.rbp
  rw [hum] at q4
  have hw : ∀ r, (execs [.leave] w).reg r = if r = .rbp then s.reg .rbp
    else if r = .rsp then s.reg .rsp
      else w.reg r := fun r => by
    refine (leave_reg w r).trans ?_
    rw [hwb, q4, hold, BitVec.sub_add_cancel]
  refine ⟨fun r hr => ?_, ?_, ?_⟩
  · rw [hw r]
    split
    · rename_i h
      rw [h]
    split
    · rename_i h
      rw [h]
    rename_i hb hsp
    rw [q1 r hsp]
    split
    · rfl
    rename_i hn
    by_cases hr10 : r = .r10
    · rw [hr10, hu10]
    -- what is left are the registers that the C function keeps
    rw [hur r hsp hr10]
    have hcs : r ∈ calleeSaved := calleeSaved_of_not_saved hn hr hsp hr10
    show (if r = .rax then v else if r = .rsp then _ else if r ∈ calleeSaved then c.reg r
      else g r) = _
    rw [if_neg hr, if_neg hsp, if_pos hcs]
    exact h.reg r hsp hb
  · rw [hw, if_neg (by decide), if_neg (by decide), q1 .rax (by decide), if_neg (by decide),
      hur .rax (by decide) (by decide)]
    rfl
  · rw [leave_mem, q4]

/-- The return of the C function and the text of the hook behind the call. -/
theorem hook_back {M : Machine} {Q : State → Prop} {b : Addr} {tail : List Instr}
    (h : Entered s c j next) (htop : c.top = next) (hstep : M.step c = some (c.returned v m g f))
    (hp : Placed M next (restore.map .op ++ tail) b)
    (hm : ∀ x, Below (s.reg .rsp) 112 x → m x = c.mem x)
    (he : ∀ w, (∀ r, r ≠ .rax → w.reg r = s.reg r) → w.reg .rax = v → w.mem = m →
      Placed M w.rip tail b → Run.Evt M.step Q w) : Run.Evt M.step Q c := by
  refine .next hstep ?_
  have hp' : Placed M (c.returned v m g f).rip (restore.map .op ++ tail) b := by
    show Placed M c.top _ _
    rwa [htop]
  obtain ⟨h1, h2, h3⟩ := restored (g := g) (f := f) h hm
  exact hp'.block fun e he' => he _ h1 h2 h3 he'

end

/-! ## The whole hook -/

/-- The stack pointer at `skip_pop`, and the word that stands there: the return address, or, when it
has been dropped, the word on top of the caller's stack. -/
def hookSp (s : State) : Word := if Dropped (s.reg .rax).toNat then s.reg .rsp else s.reg .rsp - 8

def hookRet (s : State) (ret : Addr) : Addr := if Dropped (s.reg .rax).toNat then s.top else ret

/-- The stack frame of the hook, the word at its base included. -/
def Frame (sp : Addr) (x : Addr) : Prop := (x - (sp - 112)).toNat < 120

theorem Head.word {s t : State} {ret : Addr} (h : Head s t ret) :
    read64 t.mem (t.reg .rsp) = hookRet s ret := by
  rw [h.rsp]
  unfold hookRet
  split
  · have hk := h.kept.read64 (k := 0) (by decide)
    rw [BitVec.add_zero] at hk
    exact hk
  · exact h.ret

/-- The entry of `syscall_hook` against the state at the call of `%rax`. -/
structure Arrived (s c : State) (ret : Addr) : Prop where
  aligned : (c.reg .rsp + 8).toNat % 16 = 0
  result : ∀ E : Env, E.result c = syscall_hook E.hook_fn E.bm (s.reg .rdi) (s.reg .rsi)
    (s.reg .rdx) (s.reg .rcx)
    (s.reg .r8) (s.reg .r9) (s.reg .r10) (s.reg .rax) (hookRet s ret) c.mem
  kept : Kept (s.reg .rsp) 120 s.mem c.mem

theorem arrived {s t c : State} {ret next : Addr} (ht : Head s t ret) (hc : Entered t c 0 next) :
    Arrived s c ret := by
  refine ⟨hc.aligned, fun E => ?_, ?_⟩
  · obtain ⟨h10, hax, hret⟩ := hc.stack_args
    rw [BitVec.add_zero, ht.word] at hret
    unfold Env.result
    rw [h10, hax, hret]
    simp only [hc.reg _ (show Reg.rdi ≠ .rsp by decide) (by decide),
      hc.reg _ (show Reg.rsi ≠ .rsp by decide) (by decide), hc.reg _ (show Reg.rdx ≠ .rsp by decide)
        (by decide),
      hc.reg _ (show Reg.rcx ≠ .rsp by decide) (by decide), hc.reg _ (show Reg.r8 ≠ .rsp by decide)
        (by decide), hc.reg _ (show Reg.r9 ≠ .rsp by decide) (by decide)]
    simp only [ht.reg _ (show Reg.rdi ≠ .rsp by decide), ht.reg _ (show Reg.rsi ≠ .rsp by decide),
      ht.reg _ (show Reg.rdx ≠ .rsp by decide), ht.reg _ (show Reg.rcx ≠ .rsp by decide),
      ht.reg _ (show Reg.r8 ≠ .rsp by decide), ht.reg _ (show Reg.r9 ≠ .rsp by decide),
      ht.reg _ (show Reg.r10 ≠ .rsp by decide), ht.reg _ (show Reg.rax ≠ .rsp by decide)]
  · refine (ht.kept.mono (by decide)).trans ?_
    have hk := hc.kept
    rw [ht.rsp] at hk
    split at hk
    · exact hk.mono (by decide)
    · exact hk.up (k := 8) (by decide)

/-- The calls that the C function hands on as they are. -/
theorem syscall_hook_plain {hook_fn : HookFn} {bm : Bitmap}
    {rdi rsi rdx rcx r8 r9 r10 rax retptr : Word} {m : Memory}
    (hrec : is_replaced_instruction_addr bm (retptr - 2) = some true) (hc3 : rax ≠ NR_clone3)
    (hc : rax = NR_clone → rdi &&& CLONE_VM = 0) :
    syscall_hook hook_fn bm rdi rsi rdx rcx r8 r9 r10 rax retptr m =
      hook_fn rax rdi rsi rdx r10 r8 r9 m := by
  unfold syscall_hook
  simp only [hrec]
  rw [if_neg hc3, if_neg fun h => h.2 (hc h.1)]

section
variable {M : Machine} {L : Labels} {E : Env} (hM : Loaded M L E) {Q : State → Prop} {s : State}
  {ret : Addr}
include hM

/-- From the call to the C function and what follows its return. -/
theorem hook_call (hn : (s.reg .rax).toNat < 512) (h15 : s.reg .rax ≠ 15)
    (hs : At M s.rip (.callReg .rax) ret)
    (he : ∀ t c next, Head s t ret → Entered t c 0 next → c.top = next → c.rip = L.syscall_hook →
      Placed M next (restore.map .op ++ [.ret]) L.do_rt_sigreturn → Run.Evt M.step Q c) :
    Run.Evt M.step Q s := by
  refine head hM hn hs fun t ht h => ?_
  have hp : Placed M t.rip ([.op (.cmpImm 15 .rax), .jcc .e L.do_rt_sigreturn] ++
      ((save_and_align 8).map .op ++ ([.call L.syscall_hook] ++ (restore.map .op ++ [.ret]))))
      L.do_rt_sigreturn := by
    rw [ht]
    simpa using hM.hook.2.1
  refine hook_text (j := 0) (by decide) rfl ?_ hp fun c next hc htop hr hnext =>
    he t c next h hc htop hr hnext
  rwa [h.reg .rax (by decide)]

/-- A call of `%rax` comes to `syscall_hook` with an aligned stack and with every argument in its
place. The return address is the one of the call unless the number is one of those that are
`Dropped`. -/
theorem syscall_arrives (hn : (s.reg .rax).toNat < 512) (h15 : s.reg .rax ≠ 15)
    (hs : At M s.rip (.callReg .rax) ret) :
    Run.Evt M.step (fun c => c.rip = L.syscall_hook ∧ Arrived s c ret) s :=
  hook_call hM hn h15 hs fun _ _ _ ht hc _ hr _ => .here ⟨hr, arrived ht hc⟩

/-- A call of `%rax` returns, when `syscall_hook` does and leaves the frame of the hook as it was:
with all registers but `%rax` as they were, behind the call, or where the word on top of the
caller's stack says for the numbers that are `Dropped`. -/
theorem hook_returns (hn : (s.reg .rax).toNat < 512) (h15 : s.reg .rax ≠ 15)
    (hs : At M s.rip (.callReg .rax) ret)
    (hcall : ∀ c, Arrived s c ret → ∃ v m, E.result c = some (v, m) ∧ ∀ x, Frame (hookSp s) x →
      m x = c.mem x) :
    Run.Evt M.step (fun t => t.rip = hookRet s ret ∧ t.reg .rsp = hookSp s + 8 ∧
      (∀ r, r ≠ .rax → r ≠ .rsp → t.reg r = s.reg r) ∧
      ∃ c, Arrived s c ret ∧ E.result c = some (t.reg .rax, t.mem)) s := by
  refine hook_call hM hn h15 hs fun t c next ht hc htop hr hp => ?_
  obtain ⟨v, m, hv, hm⟩ := hcall c (arrived ht hc)
  have hstep : M.step c = some (c.returned v m (E.scratch c) (E.flags c)) := by
    rw [Machine.step_foreign (hr ▸ hM.call)]
    unfold Env.call
    rw [hv]
    rfl
  have hsp : t.reg .rsp = hookSp s := ht.rsp
  have hframe : ∀ x, Below (t.reg .rsp) 112 x → m x = c.mem x := fun x hx => hm x (by
    rw [hsp] at hx
    unfold Below at hx
    unfold Frame
    bv_omega)
  refine hook_back hc htop hstep hp hframe fun w h1 h2 h3 hw => hw.one fun b _ => .here ?_
  refine ⟨?_, ?_, fun r hra hrs => ?_, c, arrived ht hc, ?_⟩
  · show read64 w.mem (w.reg .rsp) = _
    have hk := hc.kept.read64 (k := 0) (by decide)
    rw [BitVec.add_zero] at hk
    rw [h3, h1 .rsp (by decide), ← ht.word, ← hk]
    refine read64_congr fun x hx => hm x ?_
    rw [hsp] at hx
    unfold Frame
    bv_omega
  · show w.drop.reg .rsp = _
    rw [State.drop_rsp, h1 .rsp (by decide), hsp]
  · exact (State.drop_reg_of_ne _ _ hrs).trans ((h1 r hra).trans (ht.reg r hrs))
  · rw [hv]
    show some (v, m) = some (w.drop.reg .rax, w.mem)
    rw [State.drop_reg_of_ne _ _ (by decide), h2, h3]

/-- The numbers that are not `Dropped`: the program goes on behind the call. -/
theorem call_returns (hn : (s.reg .rax).toNat < 512) (h15 : s.reg .rax ≠ 15)
    (hd : ¬ Dropped (s.reg .rax).toNat) (hs : At M s.rip (.callReg .rax) ret)
    (hcall : ∀ m, Kept (s.reg .rsp) 120 s.mem m → ∃ v m',
      syscall_hook E.hook_fn E.bm (s.reg .rdi) (s.reg .rsi) (s.reg .rdx) (s.reg .rcx)
      (s.reg .r8) (s.reg .r9)
        (s.reg .r10) (s.reg .rax) ret m = some (v, m') ∧ ∀ x, Below (s.reg .rsp) 120 x →
          m' x = m x) :
    Run.Evt M.step (fun t => t.rip = ret ∧ (∀ r, r ≠ .rax → t.reg r = s.reg r) ∧
      ∃ m, Kept (s.reg .rsp) 120 s.mem m ∧
        syscall_hook E.hook_fn E.bm (s.reg .rdi) (s.reg .rsi) (s.reg .rdx) (s.reg .rcx)
          (s.reg .r8) (s.reg .r9) (s.reg .r10) (s.reg .rax) ret m =
            some (t.reg .rax, t.mem)) s := by
  have hr : hookRet s ret = ret := if_neg hd
  have hsp : hookSp s = s.reg .rsp - 8 := if_neg hd
  refine (hook_returns hM hn h15 hs fun c hc => ?_).mono fun t ⟨h1, h2, h3, c, hc, hv⟩ => ?_
  · obtain ⟨v, m, hv, hm⟩ := hcall c.mem hc.kept
    refine ⟨v, m, by rw [hc.result, hr, hv], fun x hx => hm x ?_⟩
    rw [hsp] at hx
    unfold Frame at hx
    unfold Below
    bv_omega
  · rw [hc.result, hr] at hv
    refine ⟨h1.trans hr, fun r hra => ?_, c.mem, hc.kept, hv⟩
    by_cases hrs : r = .rsp
    · rw [hrs, h2, hsp, BitVec.sub_add_cancel]
    · exact h3 r hra hrs

/-- A system call whose number is not one of those that are `Dropped`, from a rewritten instruction:
`hook_fn` has the number and the arguments of the system call, and the program goes on behind the
instruction with the result in `%rax` and all other registers as they were. -/
theorem syscall_served (hn : (s.reg .rax).toNat < 512) (h15 : s.reg .rax ≠ 15)
    (hd : ¬ Dropped (s.reg .rax).toNat) (hc3 : s.reg .rax ≠ NR_clone3)
    (hc : s.reg .rax = NR_clone → s.reg .rdi &&& CLONE_VM = 0) (hs : At M s.rip (.callReg .rax) ret)
    (hrec : is_replaced_instruction_addr E.bm (ret - 2) = some true)
    (hcall : ∀ m, Kept (s.reg .rsp) 120 s.mem m → ∃ v m',
      E.hook_fn (s.reg .rax) (s.reg .rdi) (s.reg .rsi) (s.reg .rdx) (s.reg .r10) (s.reg .r8)
      (s.reg .r9) m = some (v, m') ∧ ∀ x, Below (s.reg .rsp) 120 x → m' x = m x) :
    Run.Evt M.step (fun t => t.rip = ret ∧ (∀ r, r ≠ .rax → t.reg r = s.reg r) ∧
      ∃ m, Kept (s.reg .rsp) 120 s.mem m ∧ E.hook_fn (s.reg .rax) (s.reg .rdi) (s.reg .rsi)
        (s.reg .rdx) (s.reg .r10) (s.reg .r8) (s.reg .r9) m = some (t.reg .rax, t.mem)) s := by
  have hf : ∀ m, syscall_hook E.hook_fn E.bm (s.reg .rdi) (s.reg .rsi) (s.reg .rdx)
    (s.reg .rcx) (s.reg .r8)
      (s.reg .r9) (s.reg .r10) (s.reg .rax) ret m = E.hook_fn (s.reg .rax) (s.reg .rdi) (s.reg .rsi)
        (s.reg .rdx)
        (s.reg .r10) (s.reg .r8) (s.reg .r9) m := fun m => syscall_hook_plain hrec hc3 hc
  have hr := call_returns hM hn h15 hd hs fun m hm => by
    rw [hf]
    exact hcall m hm
  simpa only [hf] using hr

omit hM in
theorem syscall_served_39 : Run.Evt sampleMachine.step (fun t => t.rip = 0x4002 ∧
    (∀ r, r ≠ .rax → t.reg r = (sampleState 39).reg r) ∧ ∃ m, Kept 0x8000 120 (fun _ => 0) m ∧
      some (7, m) = some (t.reg .rax, t.mem)) (sampleState 39) :=
  syscall_served sample_loaded (by decide) (by decide) (by decide) (by decide) (by decide)
    (sample_at 39)
    (by decide) fun m _ => ⟨7, m, rfl, fun _ _ => rfl⟩

/-- The C function stops the program unless the word that it takes for the return address points
behind a rewritten instruction. -/
theorem unrecorded_stops (hn : (s.reg .rax).toNat < 512) (h15 : s.reg .rax ≠ 15)
    (hs : At M s.rip (.callReg .rax) ret)
    (hrec : is_replaced_instruction_addr E.bm (hookRet s ret - 2) ≠ some true) :
    Run.Evt M.step (fun c => c.rip = L.syscall_hook ∧ M.step c = none) s := by
  refine (syscall_arrives hM hn h15 hs).mono fun c ⟨hr, hc⟩ => ⟨hr, ?_⟩
  rw [Machine.step_foreign (hr ▸ hM.call)]
  unfold Env.call
  rw [hc.result]
  unfold syscall_hook
  split
  · rename_i h
    exact absurd h hrec
  · rfl

/-- For a number that is `Dropped` that is the word on top of the caller's stack, and not the return
address. -/
theorem dropped_stops (hn : (s.reg .rax).toNat < 512) (hd : Dropped (s.reg .rax).toNat)
    (hs : At M s.rip (.callReg .rax) ret)
    (htop : is_replaced_instruction_addr E.bm (s.top - 2) ≠ some true) :
    Run.Evt M.step (fun c => c.rip = L.syscall_hook ∧ M.step c = none) s := by
  have h15 : s.reg .rax ≠ 15 := fun h => by
    rw [h] at hd
    exact absurd hd (by decide)
  refine unrecorded_stops hM hn h15 hs ?_
  rwa [show hookRet s ret = s.top from if_pos hd]

omit hM in
/-- `close_range`. -/
theorem dropped_stops_436 :
    Run.Evt sampleMachine.step (fun c => c.rip = 0x5000 ∧ sampleMachine.step c = none)
    (sampleState 436) :=
  dropped_stops sample_loaded (by decide) (by decide) (sample_at 436) (by decide)

/-- `rt_sigreturn` is issued on the stack of the program, with its registers. -/
theorem sigreturn_issued (h15 : s.reg .rax = 15) (hs : At M s.rip (.callReg .rax) ret) :
    Run.Evt M.step (fun t => t.rip = L.syscall_addr ∧ t.reg = s.reg ∧
      Kept (s.reg .rsp) 32 s.mem t.mem) s := by
  refine head hM (by rw [h15]; decide) hs fun t ht h => ?_
  have hp : Placed M t.rip ([.op (.cmpImm 15 .rax), .jcc .e L.do_rt_sigreturn] ++
      ((save_and_align 8).map .op ++ [.call L.syscall_hook] ++ restore.map .op ++ [.ret]))
        L.do_rt_sigreturn := by
    rw [ht]
    simpa using hM.hook.2.1
  have hd : ¬ Dropped (s.reg .rax).toNat := by
    rw [h15]
    decide
  have hax : t.reg .rax = 15 := (h.reg .rax (by decide)).trans h15
  refine hp.one fun a ha => ha.jcc (s := ((Op.cmpImm 15 .rax).exec t).goto a) (fun _ => ?_)
    fun hf _ _ => ?_
  · have hp' : Placed M L.do_rt_sigreturn [.op (.add 8 .rsp), .jmp L.syscall_addr] L.hook_end :=
      hM.hook.2.2
    generalize hu : (((Op.cmpImm 15 .rax).exec t).goto a).goto L.do_rt_sigreturn = u
    have hur : u.reg = t.reg := by rw [← hu]; rfl
    have hum : u.mem = t.mem := by rw [← hu]; rfl
    refine (show Placed M u.rip _ _ by rw [← hu]; exact hp').one fun b hb => ?_
    refine hb.one (s := ((Op.add 8 .rsp).exec u).goto b) fun _ _ => .here ?_
    refine ⟨rfl, ?_, ?_⟩
    · funext r
      show (u.set .rsp (u.reg .rsp + 8)).reg r = s.reg r
      by_cases hr : r = .rsp
      · rw [hr, State.set_reg_self, hur, h.rsp, if_neg hd, BitVec.sub_add_cancel]
      · rw [State.set_reg_of_ne _ _ _ _ hr, hur, h.reg r hr]
    · show Kept _ _ _ u.mem
      rw [hum]
      exact h.kept
  · simp [Cond.holds, Op.exec, Flags.sub, hax] at hf

end

end Zpoline
