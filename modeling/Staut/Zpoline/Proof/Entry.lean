import Staut.Zpoline.Proof.Sled

/-!
# `asm_syscall_hook` up to the call of `syscall_hook`

* `discard_spec`: the multiplication by the inverse of 3 tells the numbers `n` with `n % 3 = 1`
  (`mul_inv3`), for which a word is dropped. The slide has pushed one for them, except for `405 ≤ n`
  (`Dropped`), where the return address is dropped instead (`head`).
* `save_spec`: the stack at the call of the C function: 16-byte aligned, the arguments on top, the
  saved registers under them.
-/

set_option autoImplicit false

namespace Zpoline

open X86

/-- The numbers for which the hook drops a word that the slide has not pushed. -/
def Dropped (n : Nat) : Prop := n % 3 = 1 ∧ 405 ≤ n

instance (n : Nat) : Decidable (Dropped n) := inferInstanceAs (Decidable (_ ∧ _))

theorem mul_inv3 (n : Word) :
    ((0xaaaaaaaaaaaaaaab * n : Word).toNat < (0xaaaaaaaaaaaaaaab : Word).toNat) ↔
      n.toNat % 3 ≠ 1 := by
  have hn := n.isLt
  have h3 : n.toNat = 3 * (n.toNat / 3) + n.toNat % 3 := by omega
  have hr : n.toNat % 3 < 3 := by omega
  generalize n.toNat / 3 = k at h3
  generalize n.toNat % 3 = r at h3 hr
  -- three times the factor is one more than a multiple of 2^64
  have hm : 0xaaaaaaaaaaaaaaab * (3 * k + r) = k + r * 0xaaaaaaaaaaaaaaab + 2 ^ 64 * (2 * k) := by
    omega
  rw [BitVec.toNat_mul, h3]
  simp only [BitVec.reduceToNat]
  rw [hm, Nat.add_mul_mod_self_left]
  obtain rfl | rfl | rfl : r = 0 ∨ r = 1 ∨ r = 2 := by omega
  all_goals omega

theorem discard_spec (s : State) :
    (∀ r, r ≠ .rax → r ≠ .rsp → (execs discard_pushed s).reg r = s.reg r) ∧
      (execs discard_pushed s).reg .rax = s.top ∧
      (execs discard_pushed s).reg .rsp = s.reg .rsp + 8 ∧
      ((execs discard_pushed s).flags.cf = true ↔ s.top.toNat % 3 ≠ 1) ∧
      Kept (s.reg .rsp + 8) 16 s.mem (execs discard_pushed s).mem := by
  -- the pops at the end load what the pushes have saved
  have hsplit : discard_pushed = [.pop .rax] ++ ([Reg.rdi, .rax].map .push ++
      ([.movImm 0xaaaaaaaaaaaaaaab .rdi, .imul .rdi .rax, .cmp .rdi .rax] ++ [Reg.rax, .rdi].map
        .pop)) := rfl
  rw [hsplit, execs_append, execs_append, execs_append]
  generalize hu : execs [.pop .rax] s = u
  have hur : ∀ r, r ≠ .rax → r ≠ .rsp → u.reg r = s.reg r := fun r h1 h2 => by
    rw [← hu, execs_cons, Op.exec]
    exact (State.set_reg_of_ne _ _ _ _ h1).trans (State.drop_reg_of_ne _ _ h2)
  have hua : u.reg .rax = s.top := by
    rw [← hu]
    exact State.set_reg_self ..
  have hus : u.reg .rsp = s.reg .rsp + 8 := by
    rw [← hu, execs_cons, Op.exec]
    exact (State.set_reg_of_ne _ _ _ _ (by decide)).trans (State.drop_rsp _)
  have hum : u.mem = s.mem := by
    rw [← hu]
    rfl
  have p1 : ∀ r, r ≠ .rsp → (u.pushes ([Reg.rdi, .rax].map u.reg)).reg r = u.reg r := fun r hr =>
    State.pushes_reg_of_ne hr
  have p2 : (u.pushes ([Reg.rdi, .rax].map u.reg)).reg .rsp = u.reg .rsp - 16 := State.pushes_rsp
  have p4 := State.pushes_kept (s := u) ([Reg.rdi, .rax].map u.reg) (by simp)
  have ph := State.holds_pushes (s := u) ([Reg.rdi, .rax].map u.reg)
    (show Holds u.mem (u.reg .rsp) [] from trivial) (by simp)
  rw [execs_push (by decide)]
  generalize u.pushes ([Reg.rdi, .rax].map u.reg) = w at p1 p2 p4 ph ⊢
  generalize hv : execs [.movImm 0xaaaaaaaaaaaaaaab .rdi, .imul .rdi .rax, .cmp .rdi .rax] w = v
  have hvr : ∀ r, r ≠ .rax → r ≠ .rdi → v.reg r = w.reg r := fun r h1 h2 => by
    rw [← hv]
    exact (State.set_reg_of_ne _ _ _ _ h1).trans (State.set_reg_of_ne _ _ _ _ h2)
  have hvm : v.mem = w.mem := by
    rw [← hv]
    rfl
  have hvf : v.flags.cf = true ↔ s.top.toNat % 3 ≠ 1 := by
    rw [← hua, ← p1 .rax (by decide), ← mul_inv3, ← hv]
    simp [execs, Op.exec, Flags.sub, State.set_reg_of_ne]
  obtain ⟨q1, q2, q3, q4⟩ := execs_pop (s := v) [.rax, .rdi] (f := u.reg) (by decide)
    (by decide) (by
    rw [hvm, hvr .rsp (by decide) (by decide)]
    simpa using ph)
  refine ⟨fun r h1 h2 => ?_, ?_, ?_, by rw [q3]; exact hvf, ?_⟩
  · rw [q1 r h2]
    split
    · exact hur r h1 h2
    · rename_i hr
      simp only [List.mem_cons, List.not_mem_nil, or_false, not_or] at hr
      rw [hvr r hr.1 hr.2, p1 r h2, hur r h1 h2]
  · rw [q1 .rax (by decide)]
    exact hua
  · rw [q2, hvr .rsp (by decide) (by decide), p2, hus]
    exact BitVec.sub_add_cancel ..
  · rw [q4, hvm, ← hus, ← hum]
    exact p4

/-- The state at `skip_pop` against the state `s` at the call of `%rax` that returns to `ret`. -/
structure Head (s t : State) (ret : Addr) : Prop where
  reg : ∀ r, r ≠ .rsp → t.reg r = s.reg r
  rsp : t.reg .rsp = if Dropped (s.reg .rax).toNat then s.reg .rsp else s.reg .rsp - 8
  ret : read64 t.mem (s.reg .rsp - 8) = ret
  kept : Kept (s.reg .rsp) 32 s.mem t.mem

section
variable {M : Machine} {L : Labels} {E : Env} (hM : Loaded M L E) {Q : State → Prop} {s : State}
  {ret : Addr}

theorem pushed_reg {n : Nat} {s : State} {r : Reg} (hr : r ≠ .rsp) :
    (pushed n s).reg r = s.reg r := by
  unfold pushed
  split
  · exact State.push_reg_of_ne _ _ _ hr
  · rfl

theorem pushed_rsp (n : Nat) (s : State) : (pushed n s).reg .rsp =
    if n % 3 = 1 ∧ n < 405 then s.reg .rsp - 8 else s.reg .rsp := by
  unfold pushed
  split
  · exact State.push_rsp ..
  · rfl

theorem pushed_kept (n : Nat) (s : State) : Kept (s.reg .rsp) 8 s.mem (pushed n s).mem := by
  unfold pushed
  split
  · exact kept_write64 (k := 8) (by decide) (by decide) (by decide)
  · exact .refl _ _ _

/-- What the hook finds: the number on top of what the slide has pushed. -/
theorem hooked (n : Nat) (s : State) (H : Addr) :
    let t := (((pushed n s).push (s.reg .rax)).set .rax H).goto H
    t.top = s.reg .rax ∧ (∀ r, r ≠ .rax → r ≠ .rsp → t.reg r = s.reg r) ∧
      t.reg .rsp + 8 = (pushed n s).reg .rsp ∧ Kept (s.reg .rsp) 16 s.mem t.mem := by
  intro t
  have ht : t.reg .rsp = (pushed n s).reg .rsp - 8 := by
    show ((((pushed n s).push (s.reg .rax)).set .rax H).goto H).reg .rsp = _
    rw [State.goto_reg, State.set_reg_of_ne _ _ _ _ (by decide), State.push_rsp]
  refine ⟨?_, fun r h1 h2 => ?_, ?_, ?_⟩
  · show read64 (write64 (pushed n s).mem _ _) (t.reg .rsp) = s.reg .rax
    rw [ht, read64_write64]
  · exact (State.set_reg_of_ne _ _ _ _ h1).trans
      ((State.push_reg_of_ne _ _ _ h2).trans (pushed_reg h2))
  · rw [ht, BitVec.sub_add_cancel]
  · refine ((pushed_kept n s).mono (by decide)).trans ?_
    show Kept _ _ _ (write64 (pushed n s).mem ((pushed n s).reg .rsp - 8) _)
    rw [pushed_rsp]
    split
    · rw [BitVec.sub_sub]
      exact kept_write64 (k := 16) (by decide) (by decide) (by decide)
    · exact kept_write64 (k := 8) (by decide) (by decide) (by decide)

include hM in
/-- From the call to `skip_pop`. -/
theorem head (hn : (s.reg .rax).toNat < 512) (hs : At M s.rip (.callReg .rax) ret)
    (he : ∀ t, t.rip = L.skip_pop → Head s t ret → Run.Evt M.step Q t) : Run.Evt M.step Q s := by
  generalize hc : (s.push ret).goto (s.reg .rax) = c
  have hcr : ∀ r, r ≠ .rsp → c.reg r = s.reg r := fun r hr => by
    rw [← hc, State.goto_reg, State.push_reg_of_ne _ _ _ hr]
  have hcs : c.reg .rsp = s.reg .rsp - 8 := by rw [← hc, State.goto_reg, State.push_rsp]
  have hcm : c.mem = write64 s.mem (s.reg .rsp - 8) ret := by
    rw [← hc, State.goto_mem, State.push_mem]
  refine hs.run ?_
  rw [Instr.exec, hc]
  refine arrive hM (by rwa [hcr .rax (by decide)])
    (by rw [hcr .rax (by decide), ← hc, State.goto_rip]) ?_
  rw [hcr .rax (by decide)]
  obtain ⟨h1, h2, h3, h4⟩ := hooked (s.reg .rax).toNat c L.asm_syscall_hook
  rw [hcr .rax (by decide)] at h1 h2 h3 h4
  rw [pushed_rsp, hcs] at h3
  generalize hu : (((pushed _ _).push _).set .rax L.asm_syscall_hook).goto L.asm_syscall_hook = u
    at h1 h2 h3 h4 ⊢
  have hur : u.rip = L.asm_syscall_hook := by rw [← hu, State.goto_rip]
  obtain ⟨d1, d2, d3, d4, d5⟩ := discard_spec u
  rw [h1] at d2 d4
  have hp : Placed M u.rip (discard_pushed.map .op ++ [.jcc .b L.skip_pop, .op (.add 8 .rsp)])
      L.skip_pop := by
    rw [hur]
    exact hM.hook.1
  refine hp.block fun a ha => ?_
  generalize hw : execs discard_pushed u = w at d1 d2 d3 d4 d5 ⊢
  have hwr : ∀ r, r ≠ .rsp → w.reg r = s.reg r := fun r hr => by
    by_cases hra : r = .rax
    · rw [hra, d2]
    · rw [d1 r hra hr, h2 r hra hr, hcr r hr]
  -- everything after the call is written below the return address
  have hk : Kept (s.reg .rsp - 8) 24 c.mem w.mem := by
    rw [hcs] at h4
    refine (h4.mono (by decide)).trans ?_
    rw [h3] at d5
    split at d5
    · exact d5.up (k := 8) (by decide)
    · exact d5.mono (by decide)
  have hret : read64 w.mem (s.reg .rsp - 8) = ret := by
    have := hk.read64 (k := 0) (by decide)
    rwa [BitVec.add_zero, hcm, read64_write64] at this
  have hk' : Kept (s.reg .rsp) 32 s.mem w.mem := by
    refine Kept.trans ?_ (hk.up (k := 8) (by decide))
    rw [hcm]
    exact kept_write64 (k := 8) (by decide) (by decide) (by decide)
  refine ha.jcc (s := w.goto a) (fun hf => ?_) fun hf next hn' => ?_
  · have h31 := d4.1 hf
    refine he _ rfl ⟨hwr, ?_, hret, hk'⟩
    rw [State.goto_reg, State.goto_reg, d3, h3, if_neg fun h => h31 h.1, if_neg fun h => h31 h.1]
  · have h31 : (s.reg .rax).toNat % 3 = 1 := by
      by_contra h
      exact Bool.false_ne_true (hf.symm.trans (d4.2 h))
    refine hn'.one (s := (w.goto a).goto next) fun next' hn'' => ?_
    obtain rfl : next' = L.skip_pop := hn''
    refine he _ rfl ⟨fun r hr => ?_, ?_, hret, hk'⟩
    · exact (State.set_reg_of_ne _ _ _ _ hr).trans (hwr r hr)
    · show (w.set .rsp (w.reg .rsp + 8)).reg .rsp = _
      rw [State.set_reg_self, d3, h3]
      by_cases h405 : (s.reg .rax).toNat < 405
      · rw [if_pos ⟨h31, h405⟩, if_neg fun h : Dropped _ => absurd h.2 (by omega)]
        exact BitVec.sub_add_cancel ..
      · rw [if_neg fun h => h405 h.2, if_pos (show Dropped _ from ⟨h31, by omega⟩)]
        exact BitVec.sub_add_cancel ..

end

/-! ## The call of `syscall_hook` -/

/-- The state at the entry of `syscall_hook` against the state `s` at `skip_pop`, where the return
address stands `j` bytes above the stack pointer. -/
structure Entered (s c : State) (j : Nat) (next : Addr) : Prop where
  reg : ∀ r, r ≠ .rsp → r ≠ .rbp → c.reg r = s.reg r
  rbp : c.reg .rbp = s.reg .rsp - 8
  rsp : ∃ d < 16, c.reg .rsp = s.reg .rsp - BitVec.ofNat 64 (96 + d)
  aligned : (c.reg .rsp + 8).toNat % 16 = 0
  frame : Holds c.mem (c.reg .rsp) (next :: s.reg .r10 :: s.reg .rax ::
    read64 s.mem (s.reg .rsp + BitVec.ofNat 64 j) :: saved.reverse.map s.reg)
  old : read64 c.mem (s.reg .rsp - 8) = s.reg .rbp
  kept : Kept (s.reg .rsp) 112 s.mem c.mem

theorem Entered.of_eq {s t c : State} {j : Nat} {next : Addr} (h : Entered s c j next)
    (hr : s.reg = t.reg) (hm : s.mem = t.mem) : Entered t c j next := by
  obtain ⟨h1, h2, h3, h4, h5, h6, h7⟩ := h
  rw [hr] at h1 h2 h3 h5 h6 h7
  rw [hm] at h5 h7
  exact ⟨h1, h2, h3, h4, h5, h6, h7⟩

theorem entered (s : State) {j : Nat} (hj : j < 2 ^ 32) (next f : Addr) :
    Entered s (((execs (save_and_align (BitVec.ofNat 64 (8 + j))) s).push next).goto f) j next := by
  have hsplit : save_and_align (BitVec.ofNat 64 (8 + j)) =
    [.push .rbp, .mov .rsp .rbp, .and (-16) .rsp] ++
      (saved.map .push ++ [.pushMem (BitVec.ofNat 64 (8 + j)) .rbp, .push .rax, .push .r10]) := rfl
  rw [hsplit, execs_append, execs_append]
  generalize hu : execs [.push .rbp, .mov .rsp .rbp, .and (-16) .rsp] s = u
  have hur : ∀ r, r ≠ .rsp → r ≠ .rbp → u.reg r = s.reg r := fun r h1 h2 => by
    rw [← hu]
    simp [execs, Op.exec, State.set_reg_of_ne, State.push_reg_of_ne, h1, h2]
  have hub : u.reg .rbp = s.reg .rsp - 8 := by
    rw [← hu]
    simp [execs, Op.exec, State.set_reg_of_ne]
  obtain ⟨d, hd, hus, hal⟩ : ∃ d < 16, u.reg .rsp = s.reg .rsp - BitVec.ofNat 64 (8 + d) ∧
      (u.reg .rsp).toNat % 16 = 0 := by
    have he : u.reg .rsp = (s.reg .rsp - 8) &&& (-16 : Word) := by
      rw [← hu]
      simp [execs, Op.exec, State.set_reg_of_ne]
    refine ⟨(s.reg .rsp - 8).toNat % 16, by omega, ?_, ?_⟩
    · rw [he, align16]
      bv_omega
    · rw [he, align16]
      bv_omega
  have hum : u.mem = write64 s.mem (s.reg .rsp - 8) (s.reg .rbp) := by
    rw [← hu]
    rfl
  rw [execs_push (by decide)]
  have hk : Kept (s.reg .rsp) 79 s.mem (u.pushes (saved.map u.reg)).mem := by
    have h := State.pushes_kept (s := u) (saved.map u.reg) (by simp [saved])
    rw [hum, hus] at h
    exact (kept_write64 (k := 8) (by decide) (by decide) (by decide)).trans
      ((h.up (by simp [saved]; omega)).mono (by simp [saved]; omega))
  have hret : read64 (u.pushes (saved.map u.reg)).mem ((u.pushes (saved.map u.reg)).reg .rbp +
      BitVec.ofNat 64 (8 + j)) = read64 s.mem (s.reg .rsp + BitVec.ofNat 64 j) := by
    rw [State.pushes_reg_of_ne (by decide), hub,
      show s.reg .rsp - 8 + BitVec.ofNat 64 (8 + j) = s.reg .rsp + BitVec.ofNat 64 j by bv_omega]
    exact hk.read64 (by omega)
  -- the saved registers, the arguments and the return address in one run of pushes
  have hc : (execs [.pushMem (BitVec.ofNat 64 (8 + j)) .rbp, .push .rax, .push .r10]
      (u.pushes (saved.map u.reg))).push next = u.pushes (saved.map u.reg ++
        [read64 s.mem (s.reg .rsp + BitVec.ofNat 64 j), s.reg .rax, s.reg .r10, next]) := by
    have hra : (u.pushes (saved.map u.reg)).reg .rax = s.reg .rax :=
      (State.pushes_reg_of_ne (by decide)).trans (hur .rax (by decide) (by decide))
    have hr10 : (u.pushes (saved.map u.reg)).reg .r10 = s.reg .r10 :=
      (State.pushes_reg_of_ne (by decide)).trans (hur .r10 (by decide) (by decide))
    rw [State.pushes_append, ← hret, ← hra, ← hr10]
    simp only [execs, List.foldl_cons, List.foldl_nil, Op.exec, State.pushes,
      State.push_reg_of_ne _ _ _ (show Reg.rax ≠ .rsp by decide),
      State.push_reg_of_ne _ _ _ (show Reg.r10 ≠ .rsp by decide)]
  rw [hc]
  generalize hvs : saved.map u.reg ++ [read64 s.mem (s.reg .rsp + BitVec.ofNat 64 j),
    s.reg .rax, s.reg .r10, next] = vs
  have hlen : vs.length = 11 := by simp [← hvs, saved]
  have hrev : vs.reverse ++ [] = next :: s.reg .r10 :: s.reg .rax ::
      read64 s.mem (s.reg .rsp + BitVec.ofNat 64 j) :: saved.reverse.map s.reg := by
    rw [← hvs]
    simp [saved, hur]
  have hsp : (u.pushes vs).reg .rsp = s.reg .rsp - BitVec.ofNat 64 (96 + d) := by
    rw [State.pushes_rsp, hlen, hus]
    bv_omega
  have hkv : Kept (s.reg .rsp - 8) 103 u.mem (u.pushes vs).mem := by
    have h := State.pushes_kept (s := u) vs (by omega)
    rw [hlen, hus, show s.reg .rsp - BitVec.ofNat 64 (8 + d) = s.reg .rsp - 8 - BitVec.ofNat 64 d by
      bv_omega] at h
    exact (h.up (by omega)).mono (by omega)
  refine ⟨fun r h1 h2 => ?_, ?_, ⟨d, hd, hsp⟩, ?_, ?_, ?_, ?_⟩
  · exact (State.pushes_reg_of_ne h1).trans (hur r h1 h2)
  · exact (State.pushes_reg_of_ne (by decide)).trans hub
  · rw [State.goto_reg, State.pushes_rsp, hlen]
    generalize u.reg .rsp = x at hal
    bv_omega
  · rw [← hrev]
    exact State.holds_pushes _ trivial (by simp [hlen])
  · have h := hkv.read64 (k := 0) (by decide)
    rw [BitVec.add_zero, hum, read64_write64] at h
    exact h
  · rw [hum] at hkv
    exact (kept_write64 (k := 8) (by decide) (by decide) (by decide)).trans
      ((hkv.up (k := 8) (by decide)).mono (by decide))

theorem Entered.stack_args {s c : State} {j : Nat} {next : Addr} (h : Entered s c j next) :
    read64 c.mem (c.reg .rsp + 8) = s.reg .r10 ∧ read64 c.mem (c.reg .rsp + 16) = s.reg .rax ∧
      read64 c.mem (c.reg .rsp + 24) = read64 s.mem (s.reg .rsp + BitVec.ofNat 64 j) := by
  obtain ⟨-, h10, hax, hret, -⟩ := h.frame
  refine ⟨h10, ?_, ?_⟩
  · rw [show c.reg .rsp + 16 = c.reg .rsp + 8 + 8 by bv_omega, hax]
  · rw [show c.reg .rsp + 24 = c.reg .rsp + 8 + 8 + 8 by bv_omega, hret]

/-- The text of the hook up to the call, for a number that is not `rt_sigreturn`'s. -/
theorem hook_text {M : Machine} {Q : State → Prop} {t : State} {sig f b : Addr} {j : Nat}
    {disp : Word} {tail : List Instr} (hj : j < 2 ^ 32) (hdisp : disp = BitVec.ofNat 64 (8 + j))
    (h15 : t.reg .rax ≠ 15)
    (hp : Placed M t.rip ([.op (.cmpImm 15 .rax), .jcc .e sig] ++ ((save_and_align disp).map .op ++
      ([.call f] ++ tail))) b)
    (he : ∀ c next, Entered t c j next → c.top = next → c.rip = f → Placed M next tail b →
      Run.Evt M.step Q c) : Run.Evt M.step Q t := by
  refine hp.one fun a ha => ha.jcc (s := ((Op.cmpImm 15 .rax).exec t).goto a) (fun hf => ?_)
    fun _ b hb => ?_
  · have : t.reg .rax = 15 := by simpa [Cond.holds, Op.exec, Flags.sub] using hf
    exact absurd this h15
  generalize hu : (((Op.cmpImm 15 .rax).exec t).goto a).goto b = u
  have hur : u.reg = t.reg := by rw [← hu]; rfl
  have hum : u.mem = t.mem := by rw [← hu]; rfl
  have hub : u.rip = b := by rw [← hu]; rfl
  refine (show Placed M u.rip _ _ from hub ▸ hb).block fun d hd => ?_
  refine hd.one (s := (execs _ u).goto d) fun next hnext => ?_
  have hc := (entered u hj next f).of_eq hur hum
  rw [← hdisp] at hc
  rw [Instr.exec, State.goto_push, State.goto_goto]
  generalize execs (save_and_align disp) u = w at hc ⊢
  exact he _ next hc (State.top_push ..) rfl hnext

end Zpoline
