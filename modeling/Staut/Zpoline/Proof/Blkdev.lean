import Staut.Zpoline.Blkdev
import Staut.Zpoline.Proof.Return

/-!
# Every number is served by the trampoline of the block device

`arrive`: from every number below `NR_syscalls`, through the jump at 214 and whatever the flags make
of its operand as an opcode (215), control comes to the hook with the red zone skipped.
`every_syscall_served`: the program goes on behind the call, for every number but 15, and what it had
in its red zone, one word down, is as it was.
-/

set_option autoImplicit false

namespace Zpoline.Blkdev

open X86

section
variable {H : Addr} {p : Nat}

theorem trampoline_byte (hp : p < 512) : setup_trampoline H (BitVec.ofNat 64 p) =
    if p = 214 then 0xeb else if p = 215 then 127 else 0x90 := by
  unfold setup_trampoline
  simp only [page_toNat (show p < 0x1000 by omega)]
  rw [if_pos (show p < NR_syscalls from hp)]

theorem trampoline_tail {k : Nat} (hk : k < 32) :
    setup_trampoline H (BitVec.ofNat 64 (512 + k)) = (jump_to_hook H).getD k 0 := by
  refine page_tail (fun a ha => ?_) hk
  have hge : 512 ≤ a.toNat := Nat.le_of_not_lt ha
  unfold setup_trampoline
  simp only
  rw [if_neg (by omega), if_neg (by omega), if_neg ha]

theorem trampoline_target (H : Addr) : read64 (setup_trampoline H) 521 = H := by
  refine read64_of_bytes fun k hk => ?_
  rw [show (521 : Addr) + BitVec.ofNat 64 k = BitVec.ofNat 64 (512 + (9 + k)) by bv_omega,
    trampoline_tail (by omega)]
  obtain rfl | rfl | rfl | rfl | rfl | rfl | rfl | rfl :
      k = 0 ∨ k = 1 ∨ k = 2 ∨ k = 3 ∨ k = 4 ∨ k = 5 ∨ k = 6 ∨ k = 7 := by omega
  all_goals rfl

theorem fetch_nop (hp : p < 512) (h1 : p ≠ 214) (h2 : p ≠ 215) :
    decode (setup_trampoline H) (BitVec.ofNat 64 p) = some (.op .nop, BitVec.ofNat 64 (p + 1)) := by
  have h0 : setup_trampoline H (BitVec.ofNat 64 p) = 0x90 := by
    rw [trampoline_byte hp, if_neg h1, if_neg h2]
  rw [decode_nop h0, show (1 : Addr) = BitVec.ofNat 64 1 from rfl, Zpoline.ofNat_add]

theorem fetch_jmp : decode (setup_trampoline H) (BitVec.ofNat 64 214) =
    some (.jmp (BitVec.ofNat 64 343), BitVec.ofNat 64 216) := by
  have h1 : setup_trampoline H (BitVec.ofNat 64 214 + 1) = 127 :=
    trampoline_byte (p := 215) (by decide)
  rw [decode_jmp (trampoline_byte (p := 214) (by decide)), h1]
  rfl

/-- The operand of the jump, as an instruction. -/
theorem fetch_jg : decode (setup_trampoline H) (BitVec.ofNat 64 215) =
    some (.jcc .g (BitVec.ofNat 64 105), BitVec.ofNat 64 217) := by
  have h1 : setup_trampoline H (BitVec.ofNat 64 215 + 1) = 0x90 :=
    trampoline_byte (p := 216) (by decide)
  rw [decode_jg (trampoline_byte (p := 215) (by decide)), h1]
  rfl

theorem fetch_sub : decode (setup_trampoline H) (BitVec.ofNat 64 512) =
    some (.op (.sub 128 .rsp), BitVec.ofNat 64 519) := by
  rw [decode_sub_rsp (trampoline_tail (k := 0) (by decide)) (trampoline_tail (k := 1) (by decide))
    (trampoline_tail (k := 2) (by decide))]
  have him : imm32 (setup_trampoline H) (BitVec.ofNat 64 512 + 3) = 128 := by
    have h3 : setup_trampoline H (BitVec.ofNat 64 512 + 3) = 0x80 :=
      trampoline_tail (k := 3) (by decide)
    have h4 : setup_trampoline H (BitVec.ofNat 64 512 + 3 + 1) = 0 :=
      trampoline_tail (k := 4) (by decide)
    have h5 : setup_trampoline H (BitVec.ofNat 64 512 + 3 + 2) = 0 :=
      trampoline_tail (k := 5) (by decide)
    have h6 : setup_trampoline H (BitVec.ofNat 64 512 + 3 + 3) = 0 :=
      trampoline_tail (k := 6) (by decide)
    unfold imm32
    rw [h3, h4, h5, h6]
    decide
  rw [him]
  rfl

end

/-- The state at the hook against the state `s` at the call of `%rax` that returns to `ret`. -/
structure Head (s t : State) (ret : Addr) : Prop where
  reg : ∀ r, r ≠ .rsp → r ≠ .r11 → t.reg r = s.reg r
  rsp : t.reg .rsp = s.reg .rsp - 136
  ret : read64 t.mem (s.reg .rsp - 8) = ret
  kept : Kept (s.reg .rsp) 8 s.mem t.mem

/-- What the hook writes before it calls the C function: the return address, and its frame below the
red zone. -/
def InFrame (sp x : Addr) : Prop := Below sp 8 x ∨ Below (sp - 136) 112 x

section
variable {s t c : State} {ret next : Addr}

theorem entered_result {E : Env} (h : Head s t ret) (hc : Entered t c 128 next) : result E c =
    syscall_hook E.hook_fn E.bm (s.reg .rdi) (s.reg .rsi) (s.reg .rdx) (s.reg .rcx)
      (s.reg .r8) (s.reg .r9) (s.reg .r10) (s.reg .rax) ret c.mem := by
  obtain ⟨h10, hax, hret⟩ := hc.stack_args
  rw [h.rsp, show s.reg .rsp - 136 + BitVec.ofNat 64 128 = s.reg .rsp - 8 by
    bv_omega, h.ret] at hret
  unfold result
  rw [h10, hax, hret]
  simp only [hc.reg _ (show Reg.rdi ≠ .rsp by decide) (by decide),
    hc.reg _ (show Reg.rsi ≠ .rsp by decide) (by decide), hc.reg _ (show Reg.rdx ≠ .rsp by decide)
      (by decide),
    hc.reg _ (show Reg.rcx ≠ .rsp by decide) (by decide), hc.reg _ (show Reg.r8 ≠ .rsp by decide)
      (by decide), hc.reg _ (show Reg.r9 ≠ .rsp by decide) (by decide)]
  simp only [h.reg _ (show Reg.rdi ≠ .rsp by decide) (by decide),
    h.reg _ (show Reg.rsi ≠ .rsp by decide) (by decide), h.reg _ (show Reg.rdx ≠ .rsp by decide)
      (by decide),
    h.reg _ (show Reg.rcx ≠ .rsp by decide) (by decide), h.reg _ (show Reg.r8 ≠ .rsp by decide)
      (by decide),
    h.reg _ (show Reg.r9 ≠ .rsp by decide) (by decide), h.reg _ (show Reg.r10 ≠ .rsp by decide)
      (by decide), h.reg _ (show Reg.rax ≠ .rsp by decide) (by decide)]

theorem entered_kept (h : Head s t ret) (hc : Entered t c 128 next) (x : Addr)
    (hx : ¬ InFrame (s.reg .rsp) x) :
    c.mem x = s.mem x := by
  have hk := hc.kept
  rw [h.rsp] at hk
  exact (hk x fun hb => hx (.inr hb)).trans (h.kept x fun hb => hx (.inl hb))

/-- The return address is still there. -/
theorem entered_ret (h : Head s t ret) (hc : Entered t c 128 next) :
    read64 c.mem (s.reg .rsp - 8) = ret := by
  have hk := hc.kept.read64 (k := 128) (by decide)
  rwa [h.rsp, show s.reg .rsp - 136 + BitVec.ofNat 64 128 = s.reg .rsp - 8 by bv_omega, h.ret] at hk

end

theorem redzone {sp x : Addr} (h : Below (sp - 8) 128 x) : ¬ InFrame sp x := by
  unfold InFrame Below at *
  bv_omega

section
variable {M : Machine} {L : Labels} {E : Env} (hM : Loaded M L E) {Q : State → Prop}
  {s : State} {p : Nat}
  {ret : Addr}
include hM

/-- Down from behind the jump. -/
theorem slide (hp : p ≤ 512) (h : 215 < p) (hs : s.rip = BitVec.ofNat 64 p)
    (he : Run.Evt M.step Q (s.goto 512)) : Run.Evt M.step Q s := by
  induction hd : 512 - p generalizing p s with
  | zero =>
    obtain rfl : p = 512 := by omega
    rw [show s.goto 512 = s.goto s.rip from congrArg s.goto hs.symm] at he
    exact he
  | succ d ih =>
    refine (page_at hM.trampoline (by omega) hs (fetch_nop (by omega) (by omega) (by omega))).run ?_
    exact ih (p := p + 1) (by omega) (by omega) rfl he (by omega)

/-- Down to the jump. -/
theorem slide_jmp (h : p ≤ 214) (hs : s.rip = BitVec.ofNat 64 p)
    (he : Run.Evt M.step Q (s.goto 512)) :
    Run.Evt M.step Q s := by
  induction hd : 214 - p generalizing p s with
  | zero =>
    obtain rfl : p = 214 := by omega
    refine (page_at hM.trampoline (by decide) hs fetch_jmp).run ?_
    exact slide hM (p := 343) (by decide) (by decide) rfl he
  | succ d ih =>
    refine (page_at hM.trampoline (by omega) hs (fetch_nop (by omega) (by omega) (by omega))).run ?_
    exact ih (p := p + 1) (by omega) rfl he (by omega)

theorem land {n : Nat} (hn : n < 512) (hs : s.rip = BitVec.ofNat 64 n)
    (he : Run.Evt M.step Q (s.goto 512)) : Run.Evt M.step Q s := by
  by_cases h : n ≤ 214
  · exact slide_jmp hM h hs he
  by_cases h5 : n = 215
  · subst h5
    refine (page_at hM.trampoline (by decide) hs fetch_jg).run ?_
    rw [Instr.exec]
    split
    · exact slide_jmp hM (p := 105) (by decide) rfl he
    · exact slide hM (p := 217) (by decide) (by decide) rfl he
  · exact slide hM (by omega) (by omega) hs he

/-- From the call to the hook. -/
theorem arrive (hn : (s.reg .rax).toNat < 512) (hs : At M s.rip (.callReg .rax) ret)
    (he : ∀ t, t.rip = L.asm_syscall_hook → Head s t ret → Run.Evt M.step Q t) :
    Run.Evt M.step Q s := by
  refine hs.run (land hM (s := (s.push ret).goto (s.reg .rax)) hn ?_ ?_)
  · rw [State.goto_rip, BitVec.ofNat_toNat, BitVec.setWidth_eq]
  refine (page_at hM.trampoline (p := 512) (by decide) rfl fetch_sub).run ?_
  refine (page_at hM.trampoline (p := 519) (by decide) rfl
    (decode_movImm_r11 (trampoline_tail (k := 7) (by decide))
    (trampoline_tail (k := 8) (by decide)))).run ?_
  refine (page_at hM.trampoline (p := 529) (by decide) rfl
    (decode_jmp_r11 (trampoline_tail (k := 17) (by decide))
    (trampoline_tail (k := 18) (by decide)) (trampoline_tail (k := 19) (by decide)))).run ?_
  have ht : read64 (setup_trampoline L.asm_syscall_hook) (BitVec.ofNat 64 519 + 2) =
    L.asm_syscall_hook :=
    trampoline_target _
  refine he _ ?_ ⟨fun r h1 h2 => ?_, ?_, ?_, ?_⟩
  · simp only [Instr.exec, Op.exec, ht, State.goto_reg, State.goto_rip, State.set_reg_self]
  · simp only [Instr.exec, Op.exec, State.goto_reg, State.set_reg_of_ne _ _ _ _ h2,
      State.setFlags_reg, State.set_reg_of_ne _ _ _ _ h1, State.push_reg_of_ne _ _ _ h1]
  · simp only [Instr.exec, Op.exec, State.goto_reg, State.set_reg_of_ne _ _ _ _
      (show Reg.rsp ≠ .r11 by decide), State.setFlags_reg, State.set_reg_self, State.push_rsp]
    bv_omega
  · exact read64_write64 ..
  · exact kept_write64 (k := 8) (by decide) (by decide) (by decide)

/-- Every system call but `rt_sigreturn`, from a rewritten instruction: the C function has the
arguments of the system call and the address behind the call, and the program goes on there with the
result in `%rax` and all other registers but `%r11` as they were. Until the C function runs, the 128 bytes below the
return address keep what the program left in them (`redzone`). -/
theorem every_syscall_served (hn : (s.reg .rax).toNat < 512) (h15 : s.reg .rax ≠ 15)
    (hs : At M s.rip (.callReg .rax) ret)
    (hcall : ∀ m, (∀ x, ¬ InFrame (s.reg .rsp) x → m x = s.mem x) → ∃ v m',
      syscall_hook E.hook_fn E.bm (s.reg .rdi) (s.reg .rsi) (s.reg .rdx) (s.reg .rcx)
        (s.reg .r8) (s.reg .r9) (s.reg .r10) (s.reg .rax) ret m = some (v, m') ∧
      ∀ x, InFrame (s.reg .rsp) x → m' x = m x) :
    Run.Evt M.step (fun t => t.rip = ret ∧ (∀ r, r ≠ .rax → r ≠ .r11 → t.reg r = s.reg r) ∧
      ∃ m, (∀ x, ¬ InFrame (s.reg .rsp) x → m x = s.mem x) ∧
        (∀ x, Below (s.reg .rsp - 8) 128 x → m x = s.mem x) ∧
        syscall_hook E.hook_fn E.bm (s.reg .rdi) (s.reg .rsi) (s.reg .rdx) (s.reg .rcx)
          (s.reg .r8) (s.reg .r9) (s.reg .r10) (s.reg .rax) ret m =
            some (t.reg .rax, t.mem)) s := by
  refine arrive hM hn hs fun t ht h => ?_
  have hp : Placed M t.rip ([.op (.cmpImm 15 .rax), .jcc .e L.do_rt_sigreturn] ++
      ((save_and_align 136).map .op ++ ([.call L.syscall_hook] ++ (restore.map .op ++
        [.op (.add 128 .rsp), .ret])))) L.do_rt_sigreturn := by
    rw [ht]
    simpa using hM.hook.1
  have h15' : t.reg .rax ≠ 15 := by rwa [h.reg .rax (by decide) (by decide)]
  refine hook_text (j := 128) (by decide) rfl h15' hp fun c next hc htop hr hnext => ?_
  have hres := entered_result (E := E) h hc
  have hkm := entered_kept h hc
  obtain ⟨v, m, hv, hm⟩ := hcall c.mem hkm
  have hstep : M.step c = some (c.returned v m (E.scratch c) (E.flags c)) := by
    rw [Machine.step_foreign (hr ▸ hM.call)]
    unfold call
    rw [hres, hv]
    rfl
  refine hook_back hc htop hstep hnext (fun x hx => hm x (.inr (h.rsp ▸ hx)))
    fun w h1 h2 h3 hw => ?_
  have hw8 : w.reg .rsp + 128 = s.reg .rsp - 8 := by
    rw [h1 .rsp (by decide), h.rsp]
    bv_omega
  refine hw.one fun e he => ?_
  refine he.one (s := ((Op.add 128 .rsp).exec w).goto e) fun _ _ =>
    .here ⟨?_, fun r hra hr11 => ?_, c.mem, hkm, fun x hx => hkm x (redzone hx), ?_⟩
  · show read64 w.mem ((w.set .rsp (w.reg .rsp + 128)).reg .rsp) = ret
    rw [State.set_reg_self, h3, hw8, ← entered_ret h hc]
    refine read64_congr fun x hx => hm x (.inl ?_)
    unfold Below
    bv_omega
  · show (w.set .rsp (w.reg .rsp + 128)).drop.reg r = s.reg r
    by_cases hrs : r = .rsp
    · rw [hrs, State.drop_rsp, State.set_reg_self, hw8, BitVec.sub_add_cancel]
    · rw [State.drop_reg_of_ne _ _ hrs, State.set_reg_of_ne _ _ _ _ hrs, h1 r hra, h.reg r hrs hr11]
  · rw [hv]
    show some (v, m) = some ((w.set .rsp (w.reg .rsp + 128)).drop.reg .rax, w.mem)
    rw [State.drop_reg_of_ne _ _ (by decide), State.set_reg_of_ne _ _ _ _ (by decide), h2, h3]

end

/-- The text with one address for each instruction, and a rewritten instruction at `0x4000`. -/
def sampleLabels : Labels where
  syscall_addr := 0x2007
  asm_syscall_hook := 0x3000
  do_rt_sigreturn := 0x301c
  syscall_hook := 0x5000
  hook_end := 0x301e

def sampleFetch (a : Addr) : Option (Instr × Addr) :=
  if a.toNat < 0x1000 then decode (setup_trampoline sampleLabels.asm_syscall_hook) a
  else if a = 0x4000 then some (.callReg .rax, 0x4002)
  else listing 0x3000 ((asm_syscall_hook sampleLabels).flatMap (·.2)) a

def sampleMachine : Machine where
  fetch := sampleFetch
  kernel s := s
  foreign a := if a = 0x5000 then some (call sampleEnv) else none

theorem sample_loaded : Loaded sampleMachine sampleLabels sampleEnv where
  trampoline a ha := by
    have hne : a ≠ 0x5000 := by
      rintro rfl
      exact absurd ha (by decide)
    exact ⟨if_neg hne, if_pos ha⟩
  hook := by decide
  call := rfl

/-- `close_range`. -/
theorem every_syscall_served_436 : Run.Evt sampleMachine.step (fun t => t.rip = 0x4002 ∧
    (∀ r, r ≠ .rax → r ≠ .r11 → t.reg r = (sampleState 436).reg r) ∧
      ∃ m, (∀ x, ¬ InFrame 0x8000 x → m x = 0) ∧ (∀ x, Below (0x8000 - 8) 128 x → m x = 0) ∧
        some (7, m) = some (t.reg .rax, t.mem)) (sampleState 436) :=
  every_syscall_served sample_loaded (by decide) (by decide) ⟨rfl, rfl⟩ fun m _ =>
    ⟨7, m, rfl, fun _ _ => rfl⟩

end Zpoline.Blkdev
