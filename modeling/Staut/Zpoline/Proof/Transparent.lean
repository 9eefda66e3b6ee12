import Staut.Zpoline.Proof.Return

/-!
# A rewritten program without a hook

* `enter_syscall_issues`: `enter_syscall`, called like any C function, issues the system call that
  its arguments name and returns the kernel's result.
* `rewriting_transparent`: as long as `hook_fn` is `enter_syscall`, a rewritten instruction does
  what the `syscall` in its place did, but for `%rcx` and `%r11`, which it keeps, and memory below
  the stack pointer.
-/

set_option autoImplicit false

namespace Zpoline

open X86

section
variable {M O : Machine} {L : Labels} {E : Env} {sys : Sys} {s : State} {ret : Addr}

theorem enter_syscall_issues (hM : Loaded M L E) (hk : Kernel M.kernel sys)
    (hs : s.rip = L.enter_syscall)
    (hx : ∀ x, (x - s.reg .rsp).toNat < 8 →
      (sys (s.reg .rdi) (s.reg .rsi) (s.reg .rdx) (s.reg .rcx) (s.reg .r8) (s.reg .r9)
        (read64 s.mem (s.reg .rsp + 8)) s.mem).2 x = s.mem x) :
    Run.Evt M.step (fun t => t.rip = s.top ∧ t.reg .rsp = s.reg .rsp + 8 ∧
      (∀ r ∈ calleeSaved, t.reg r = s.reg r) ∧
      (t.reg .rax, t.mem) = sys (s.reg .rdi) (s.reg .rsi) (s.reg .rdx) (s.reg .rcx)
        (s.reg .r8) (s.reg .r9) (read64 s.mem (s.reg .rsp + 8)) s.mem) s := by
  have hp : Placed M s.rip
    ([Op.mov .rdi .rax, .mov .rsi .rdi, .mov .rdx .rsi, .mov .rcx .rdx, .mov .r8 .r10,
      .mov .r9 .r8, .load 8 .rsp .r9].map .op ++ []) L.syscall_addr := hs ▸ hM.enter.1
  refine hp.block fun a ha => ?_
  obtain rfl : a = L.syscall_addr := ha
  generalize hu : execs _ s = u
  have hreg : u.reg .rax = s.reg .rdi ∧ u.reg .rdi = s.reg .rsi ∧ u.reg .rsi = s.reg .rdx ∧
    u.reg .rdx = s.reg .rcx ∧
      u.reg .r10 = s.reg .r8 ∧ u.reg .r8 = s.reg .r9 ∧
      u.reg .r9 = read64 s.mem (s.reg .rsp + 8) := by
    rw [← hu]
    simp [execs, Op.exec, State.set_reg_of_ne]
  have hsame : ∀ r, r = .rsp ∨ r ∈ calleeSaved → u.reg r = s.reg r := fun r hr => by
    rw [← hu]
    rcases hr with rfl | hr
    · simp [execs, Op.exec, State.set_reg_of_ne]
    · simp only [calleeSaved, List.mem_cons, List.not_mem_nil, or_false] at hr
      rcases hr with rfl | rfl | rfl | rfl | rfl | rfl <;>
        simp [execs, Op.exec, State.set_reg_of_ne]
  have hum : u.mem = s.mem := by
    rw [← hu]
    rfl
  obtain ⟨h1, h2, h3, h4, h5, h6, h7⟩ := hreg
  have hp' : Placed M (u.goto L.syscall_addr).rip [.syscall, .ret] L.enter_end := hM.enter.2
  refine hp'.one fun b hb => ?_
  generalize hw : Instr.exec M.kernel b (u.goto L.syscall_addr) .syscall = w
  have hwr : w.rip = b := by
    rw [← hw]
    exact hk.rip _
  have hwres : (w.reg .rax, w.mem) = sys (s.reg .rdi) (s.reg .rsi) (s.reg .rdx) (s.reg .rcx)
    (s.reg .r8) (s.reg .r9)
      (read64 s.mem (s.reg .rsp + 8)) s.mem := by
    rw [← hw, ← h1, ← h2, ← h3, ← h4, ← h5, ← h6, ← h7, ← hum]
    exact hk.result _
  have hwreg : ∀ r, r = .rsp ∨ r ∈ calleeSaved → w.reg r = s.reg r := fun r hr => by
    rw [← hsame r hr, ← hw]
    refine hk.reg _ r ?_ ?_ ?_ <;> rintro rfl <;> exact absurd hr (by decide)
  refine (show Placed M w.rip _ _ from hwr ▸ hb).one fun _ _ => .here ⟨?_, ?_, fun r hr => ?_, ?_⟩
  · show read64 w.mem (w.reg .rsp) = s.top
    rw [hwreg .rsp (.inl rfl), show w.mem = _ from congrArg Prod.snd hwres]
    exact read64_congr hx
  · show w.drop.reg .rsp = _
    rw [State.drop_rsp, hwreg .rsp (.inl rfl)]
  · refine (State.drop_reg_of_ne _ _ ?_).trans (hwreg r (.inr hr))
    rintro rfl
    exact absurd hr (by decide)
  · rw [← hwres]
    show (w.drop.reg .rax, w.mem) = _
    rw [State.drop_reg_of_ne _ _ (by decide)]

/-- The result of a system call does not depend on what is below the stack pointer, and the call
does not write the hook's frame there. -/
structure Apart (f : Memory → Word × Memory) (sp : Addr) (m : Memory) : Prop where
  frame : ∀ m' x, Below sp 120 x → (f m').2 x = m' x
  result : ∀ m', Kept sp 120 m m' → (f m').1 = (f m).1
  mem : ∀ m', Kept sp 120 m m' → Kept sp 120 (f m).2 (f m').2

/-- A rewritten instruction does what the `syscall` did that stood in its place. -/
theorem rewriting_transparent (hM : Loaded M L E) (hk : Kernel O.kernel sys)
    (hfn : E.hook_fn = fun a b c d e f g m => some (sys a b c d e f g m))
    (hO : At O s.rip .syscall ret) (hs : At M s.rip (.callReg .rax) ret)
    (hrec : is_replaced_instruction_addr E.bm (ret - 2) = some true)
    (hn : (s.reg .rax).toNat < 512) (h15 : s.reg .rax ≠ 15) (hd : ¬ Dropped (s.reg .rax).toNat)
    (hc3 : s.reg .rax ≠ NR_clone3) (hc : s.reg .rax = NR_clone → s.reg .rdi &&& CLONE_VM = 0)
    (ha : Apart (sys (s.reg .rax) (s.reg .rdi) (s.reg .rsi) (s.reg .rdx) (s.reg .r10) (s.reg .r8)
      (s.reg .r9)) (s.reg .rsp) s.mem) :
    ∃ u, O.step s = some u ∧ Run.Evt M.step (fun t => t.rip = u.rip ∧
      (∀ r, r ≠ .rcx → r ≠ .r11 → t.reg r = u.reg r) ∧ t.reg .rcx = s.reg .rcx ∧
      t.reg .r11 = s.reg .r11 ∧ Kept (s.reg .rsp) 120 u.mem t.mem) s := by
  refine ⟨_, Machine.step_at hO, ?_⟩
  rw [Instr.exec]
  have hres := hk.result (s.goto ret)
  simp only [State.goto_reg, State.goto_mem] at hres
  have hf : ∀ m, syscall_hook E.hook_fn E.bm (s.reg .rdi) (s.reg .rsi) (s.reg .rdx)
    (s.reg .rcx) (s.reg .r8)
      (s.reg .r9) (s.reg .r10) (s.reg .rax) ret m =
        some (sys (s.reg .rax) (s.reg .rdi) (s.reg .rsi) (s.reg .rdx)
        (s.reg .r10) (s.reg .r8) (s.reg .r9) m) := fun m => by
    rw [syscall_hook_plain hrec hc3 hc, hfn]
  generalize sys (s.reg .rax) (s.reg .rdi) (s.reg .rsi) (s.reg .rdx) (s.reg .r10) (s.reg .r8)
    (s.reg .r9) = f
    at ha hres hf
  refine (call_returns hM hn h15 hd hs fun m _ => ⟨_, _, hf m, fun x hx => ha.frame m x hx⟩).mono
    fun t ht => ?_
  obtain ⟨h1, h2, m, hm, hv⟩ := ht
  refine ⟨?_, fun r hrc hr11 => ?_, h2 _ (by decide), h2 _ (by decide), ?_⟩
  · rw [h1, hk.rip, State.goto_rip]
  all_goals
    rw [hf, Option.some.injEq] at hv
  · by_cases hra : r = .rax
    · rw [hra]
      calc t.reg .rax = (f m).1 := (congrArg Prod.fst hv).symm
        _ = (f s.mem).1 := ha.result m hm
        _ = _ := (congrArg Prod.fst hres).symm
    · rw [h2 r hra, hk.reg _ r hra hrc hr11, State.goto_reg]
  · have hu : (O.kernel (s.goto ret)).mem = (f s.mem).2 := congrArg Prod.snd hres
    have ht : t.mem = (f m).2 := (congrArg Prod.snd hv).symm
    rw [hu, ht]
    exact ha.mem m hm

end

end Zpoline
