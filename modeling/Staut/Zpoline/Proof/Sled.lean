import Staut.Zpoline.Defs

/-!
# The slide down the page at address 0

`land`: a call that lands at the number of a system call slides down to `NR_syscalls`; on the way
`0x90` is pushed exactly for the numbers `n` with `n % 3 = 1` below the `nop`s at the end
(`pushed`). `arrive` goes on to `asm_syscall_hook`.
-/

set_option autoImplicit false

namespace Zpoline

open X86

/-- The word that `push $0x90` pushes. -/
def imm90 : Word := 0xffffffffffffff90

/-- What the slide from `n` leaves on the stack. -/
def pushed (n : Nat) (s : State) : State := if n % 3 = 1 ∧ n < 405 then s.push imm90 else s

/-! ## A page at address 0 -/

section
variable {page : Memory} {p k : Nat}

theorem page_toNat (hp : p < 0x1000) : (BitVec.ofNat 64 p).toNat = p := by
  rw [BitVec.toNat_ofNat]
  omega

theorem page_at {M : Machine} {s : State} {i : Instr} {next : Addr}
    (hpage : ∀ a : Addr, a.toNat < 0x1000 → M.foreign a = none ∧ M.fetch a = decode page a)
    (hp : p < 0x1000) (hs : s.rip = BitVec.ofNat 64 p)
    (h : decode page (BitVec.ofNat 64 p) = some (i, next)) : At M s.rip i next := by
  obtain ⟨hforeign, hfetch⟩ := hpage (BitVec.ofNat 64 p) (by rwa [page_toNat hp])
  rw [hs]
  exact ⟨hforeign, hfetch.trans h⟩

/-- Code behind the numbers. -/
theorem page_tail {code : List (BitVec 8)}
    (hcode : ∀ a : Addr, ¬ a.toNat < NR_syscalls → page a = code.getD (a.toNat - NR_syscalls) 0)
    (hk : k < 32) :
    page (BitVec.ofNat 64 (512 + k)) = code.getD k 0 := by
  have hn : (BitVec.ofNat 64 (512 + k)).toNat = 512 + k := page_toNat (by omega)
  rw [hcode _ (by rw [hn]; unfold NR_syscalls; omega), hn, show 512 + k - NR_syscalls =
    k by unfold NR_syscalls; omega]

end

section
variable {H : Addr} {p : Nat}

theorem trampoline_byte (hp : p < 512) : setup_trampoline H (BitVec.ofNat 64 p) =
    if 404 < p then 0x90 else if p % 3 = 0 then 0xeb else if p % 3 = 1 then 0x6a else 0x90 := by
  unfold setup_trampoline
  simp only [page_toNat (show p < 0x1000 by omega)]
  rw [if_pos (show p < NR_syscalls from hp)]
  rfl

theorem trampoline_tail {k : Nat} (hk : k < 32) :
    setup_trampoline H (BitVec.ofNat 64 (512 + k)) = (jump_to_hook H).getD k 0 :=
  page_tail (fun _ ha => if_neg ha) hk

theorem trampoline_target (H : Addr) : read64 (setup_trampoline H) 515 = H := by
  refine read64_of_bytes fun k hk => ?_
  rw [show (515 : Addr) + BitVec.ofNat 64 k = BitVec.ofNat 64 (512 + (3 + k)) by bv_omega,
    trampoline_tail (by omega)]
  obtain rfl | rfl | rfl | rfl | rfl | rfl | rfl | rfl :
      k = 0 ∨ k = 1 ∨ k = 2 ∨ k = 3 ∨ k = 4 ∨ k = 5 ∨ k = 6 ∨ k = 7 := by omega
  all_goals rfl

theorem ofNat_add (p k : Nat) : BitVec.ofNat 64 p + BitVec.ofNat 64 k = BitVec.ofNat 64 (p + k) :=
  (BitVec.ofNat_add ..).symm

theorem trampoline_next (H : Addr) (p : Nat) : setup_trampoline H (BitVec.ofNat 64 p + 1) =
    setup_trampoline H (BitVec.ofNat 64 (p + 1)) :=
  congrArg _ (ofNat_add p 1)

theorem fetch_slide (hp : p < 405) (h : p % 3 = 0) :
    decode (setup_trampoline H) (BitVec.ofNat 64 p) =
    some (.jmp (BitVec.ofNat 64 (p + 108)), BitVec.ofNat 64 (p + 2)) := by
  have h0 : setup_trampoline H (BitVec.ofNat 64 p) = 0xeb := by
    rw [trampoline_byte (by omega), if_neg (by omega), if_pos h]
  have h1 : setup_trampoline H (BitVec.ofNat 64 p + 1) = 0x6a := by
    rw [trampoline_next, trampoline_byte (by omega), if_neg (by omega), if_neg (by omega),
      if_pos (by omega)]
  rw [decode_jmp h0, h1, show (0x6a : BitVec 8).signExtend 64 = BitVec.ofNat 64 106 by decide,
    show (2 : Addr) = BitVec.ofNat 64 2 from rfl, ofNat_add, ofNat_add]

theorem fetch_push (hp : p < 405) (h : p % 3 = 1) :
    decode (setup_trampoline H) (BitVec.ofNat 64 p) =
    some (.op (.pushImm imm90), BitVec.ofNat 64 (p + 2)) := by
  have h0 : setup_trampoline H (BitVec.ofNat 64 p) = 0x6a := by
    rw [trampoline_byte (by omega), if_neg (by omega), if_neg (by omega), if_pos h]
  have h1 : setup_trampoline H (BitVec.ofNat 64 p + 1) = 0x90 := by
    rw [trampoline_next, trampoline_byte (by omega)]
    split
    · rfl
    · rw [if_neg (by omega), if_neg (by omega)]
  rw [decode_pushImm h0, h1, show (0x90 : BitVec 8).signExtend 64 = imm90 by decide,
    show (2 : Addr) = BitVec.ofNat 64 2 from rfl, ofNat_add]

theorem fetch_nop (hp : p < 512) (h : 404 < p ∨ p % 3 = 2) :
    decode (setup_trampoline H) (BitVec.ofNat 64 p) = some (.op .nop, BitVec.ofNat 64 (p + 1)) := by
  have h0 : setup_trampoline H (BitVec.ofNat 64 p) = 0x90 := by
    rw [trampoline_byte hp]
    split
    · rfl
    · rw [if_neg (by omega), if_neg (by omega)]
  rw [decode_nop h0, show (1 : Addr) = BitVec.ofNat 64 1 from rfl, ofNat_add]

end

section
variable {M : Machine} {L : Labels} {E : Env} (hM : Loaded M L E) {Q : State → Prop}
  {s : State} {p n : Nat}
include hM

/-- Down from a jump or from the `nop`s at the end. -/
theorem slide (hp : p ≤ 512) (h : 404 < p ∨ p % 3 = 0) (hs : s.rip = BitVec.ofNat 64 p)
    (he : Run.Evt M.step Q (s.goto 512)) : Run.Evt M.step Q s := by
  induction hd : 512 - p using Nat.strongRecOn generalizing p s with
  | _ d ih =>
    by_cases hend : p = 512
    · subst hend
      rw [show s.goto 512 = s from by rw [show (512 : Addr) = s.rip from hs.symm]; rfl] at he
      exact he
    by_cases hn : 404 < p
    · refine (page_at hM.trampoline (by omega) hs (fetch_nop (by omega) (.inl hn))).run ?_
      exact ih (512 - (p + 1)) (by omega) (by omega) (.inl (by omega)) rfl he rfl
    · refine (page_at hM.trampoline (by omega) hs (fetch_slide (by omega) (by omega))).run ?_
      exact ih (512 - (p + 108)) (by omega) (by omega) (by omega) rfl he rfl

/-- The slide from any number. -/
theorem land (hn : n < 512) (hs : s.rip = BitVec.ofNat 64 n)
    (he : Run.Evt M.step Q ((pushed n s).goto 512)) : Run.Evt M.step Q s := by
  unfold pushed at he
  by_cases h : 404 < n ∨ n % 3 = 0
  · rw [if_neg (by omega)] at he
    exact slide hM (by omega) h hs he
  by_cases h1 : n % 3 = 1
  · rw [if_pos (by omega)] at he
    refine (page_at hM.trampoline (by omega) hs (fetch_push (by omega) h1)).run ?_
    exact slide hM (p := n + 2) (by omega) (by omega) rfl he
  · rw [if_neg (by omega)] at he
    refine (page_at hM.trampoline (by omega) hs (fetch_nop hn (.inr (by omega)))).run ?_
    exact slide hM (p := n + 1) (by omega) (by omega) rfl he

/-- From the end of the slide to the hook, with `%rax` on the stack. -/
theorem jump (hs : s.rip = 512)
    (he : Run.Evt M.step Q
      (((s.push (s.reg .rax)).set .rax L.asm_syscall_hook).goto L.asm_syscall_hook)) :
    Run.Evt M.step Q s := by
  refine (page_at hM.trampoline (p := 512) (by decide) hs
    (decode_push_rax (trampoline_tail (k := 0) (by decide)))).run ?_
  refine (page_at hM.trampoline (p := 513) (by decide) rfl
    (decode_movImm_rax (trampoline_tail (k := 1) (by decide))
    (trampoline_tail (k := 2) (by decide)))).run ?_
  refine (page_at hM.trampoline (p := 523) (by decide) rfl
    (decode_jmp_rax (trampoline_tail (k := 11) (by decide))
    (trampoline_tail (k := 12) (by decide)))).run ?_
  have ht : read64 (setup_trampoline L.asm_syscall_hook) (BitVec.ofNat 64 513 + 2) =
    L.asm_syscall_hook :=
    trampoline_target _
  simp only [Instr.exec, Op.exec, ht, State.goto_reg, State.set_reg_self, State.goto_goto]
  exact he

/-- The call of a number: the slide and the jump. -/
theorem arrive (hn : (s.reg .rax).toNat < 512) (hs : s.rip = s.reg .rax)
    (he : Run.Evt M.step Q ((((pushed (s.reg .rax).toNat s).push (s.reg .rax)).set .rax
      L.asm_syscall_hook).goto L.asm_syscall_hook)) : Run.Evt M.step Q s := by
  have ha : s.rip = BitVec.ofNat 64 (s.reg .rax).toNat := by
    rw [BitVec.ofNat_toNat, BitVec.setWidth_eq, hs]
  refine land hM hn ha (jump hM rfl ?_)
  have hr : (pushed (s.reg .rax).toNat s).reg .rax = s.reg .rax := by
    unfold pushed
    split
    · exact State.push_reg_of_ne _ _ _ (by decide)
    · rfl
  rw [State.goto_reg, hr]
  exact he

end

end Zpoline
