import Staut.Zpoline.Proof.Maps
import Staut.Zpoline.Proof.Transparent

/-!
# The rewritten program

What the system calls of a program do after `rewrite_code` has gone over its mappings.
-/

set_option autoImplicit false

namespace Zpoline

open X86 CSem

/-- The system call instructions of the executable mappings, but for the page at address 0, for the
lines with `stack` or `vsyscall`, and for `enter_syscall`'s own, become `call *%rax` and are
recorded. Nothing else changes. -/
theorem rewrite_code_exact (D : Disassembler) (sc : Addr) (ls : List MapsLine) (hs : Sorted ls)
    (w : Rewriting) :
    ∃ w', rewrite_code D sc (mapsText ls) w = some w' ∧ Rewritten (allSites D w.code sc ls) w w' :=
  rewrite_code_spec D sc hs w

/-! ## A program with one system call, and the kernel's page -/

/-- `syscall` is `0f 05`; every other byte is an instruction of its own. -/
def sampleDisasm (code : Memory) (a : Addr) (n : Nat) : List (List UInt8) × Nat :=
  if 2 ≤ n ∧ code a = 0x0f ∧ code (a + 1) = 0x05 then ([syscallText], 2) else ([], 1)

def sampleDisassembler : Disassembler where
  disasm := sampleDisasm
  pos code a n _ := by
    unfold sampleDisasm
    split <;> decide
  le code a n hn := by
    unfold sampleDisasm
    split
    · rename_i h
      exact h.1
    · exact hn
  within code code' a n h := by
    unfold sampleDisasm
    by_cases hn : 2 ≤ n
    · have h0 := h 0 (by omega)
      rw [BitVec.add_zero] at h0
      have h1 : code' (a + 1) = code (a + 1) := h 1 (by omega)
      rw [h0, h1]
    · rw [if_neg fun h => hn h.1, if_neg fun h => hn h.1]
  two code a n h := by
    unfold sampleDisasm at h ⊢
    split at h
    · rename_i hc
      rw [if_pos hc]
    · cases h

/-- `4000-4002 r-xp 0` -/
def sampleLine : MapsLine where
  lo := [0x34, 0x30, 0x30, 0x30]
  hi := [0x34, 0x30, 0x30, 0x32]
  prot := [0x72, 0x2d, 0x78, 0x70]
  rest := [0x30]
  lo_ne := by decide
  lo_hex := by simp [Hex.isxdigit]
  hi_hex := by simp [Hex.isxdigit]
  prot_ne := by decide
  prot_text := by simp
  rest_text := by simp
  addr_len := by decide
  len := by decide
  le := by decide
  hi_lt _ := by decide

/-- `ffffffffff600000-ffffffffff601000 --xp 0 [vsyscall]` -/
def vsyscallLine : MapsLine where
  lo := List.replicate 10 0x66 ++ [0x36, 0x30, 0x30, 0x30, 0x30, 0x30]
  hi := List.replicate 10 0x66 ++ [0x36, 0x30, 0x31, 0x30, 0x30, 0x30]
  prot := [0x2d, 0x2d, 0x78, 0x70]
  rest := [0x30, 0x20, 0x5b] ++ vsyscallText ++ [0x5d]
  lo_ne := by decide
  lo_hex := by decide +kernel
  hi_hex := by decide +kernel
  prot_ne := by decide
  prot_text := by simp
  rest_text := by decide +kernel
  addr_len := by decide
  len := by decide
  le := by decide +kernel
  hi_lt h := absurd h (by decide +kernel)

def sampleMaps : List MapsLine := [sampleLine, vsyscallLine]

def sampleCode : Rewriting where
  code := Function.update (Function.update (fun _ => 0) 0x4000 0x0f) 0x4001 0x05
  bm _ := 0

/-- The program before it is rewritten. -/
def sampleOriginal : Machine where
  fetch a := if a = 0x4000 then some (.syscall, 0x4002) else none
  kernel s := s.set .rax 7
  foreign _ := none

def sampleSys : Sys := fun _ _ _ _ _ _ _ m => (7, m)

theorem sample_kernel : Kernel sampleOriginal.kernel sampleSys where
  rip _ := rfl
  result _ := rfl
  reg _ _ h _ _ := State.set_reg_of_ne _ _ _ _ h

theorem sample_sorted : Sorted sampleMaps :=
  List.pairwise_pair.mpr (by decide +kernel)

theorem sample_targets : sampleMaps.filter MapsLine.target = [sampleLine] := by
  unfold sampleMaps
  rw [List.filter_cons, if_pos (by decide +kernel), List.filter_cons, if_neg (by decide +kernel),
    List.filter_nil]

theorem sample_sites :
    sites sampleDisassembler sampleCode.code 0x2007 sampleLine.start sampleLine.size = [0] := by
  decide +kernel

theorem sample_allSites : allSites sampleDisassembler sampleCode.code 0x2007 sampleMaps =
    [0x4000] := by
  unfold allSites
  rw [sample_targets, List.flatMap_singleton, sitesOf, sample_sites]
  decide

theorem sample_rewritten : rewrite_code sampleDisassembler 0x2007 (mapsText sampleMaps) sampleCode =
    some (patched sampleCode 0x4000) := by
  refine (rewrite_lines_text sampleMaps _ _ (Nat.le_refl _)).trans ?_
  rw [sample_targets, List.foldlM_cons]
  have h := sweep_spec sampleDisassembler sampleCode.code sampleLine.start sampleLine.size 0x2007
    (start_size (l := sampleLine) (by decide +kernel)) sampleLine.size 0 sampleCode (by omega)
      fun _ _ _ => rfl
  refine (congrArg (· >>= _) h).trans ?_
  show some (patches _ _
    (sites sampleDisassembler sampleCode.code 0x2007 sampleLine.start sampleLine.size)) = _
  rw [sample_sites]
  rfl

theorem rewrite_code_exact_sample :
    ∃ w', rewrite_code sampleDisassembler 0x2007 (mapsText sampleMaps) sampleCode = some w' ∧
      Rewritten [0x4000] sampleCode w' :=
  sample_allSites ▸ rewrite_code_exact sampleDisassembler 0x2007 sampleMaps sample_sorted sampleCode

/-! ## The system calls of the program -/

section
variable {D : Disassembler} {sc : Addr} {ls : List MapsLine} {w w' : Rewriting} {M O : Machine}
  {L : Labels} {E : Env}
  {sys : Sys} {s : State}

theorem rewritten_of (hs : Sorted ls) (hw : rewrite_code D sc (mapsText ls) w = some w') :
    Rewritten (allSites D w.code sc ls) w w' := by
  obtain ⟨u, hu, hr⟩ := rewrite_code_spec D sc hs w
  rw [hu, Option.some.injEq] at hw
  exact hw ▸ hr

theorem allSites_lt {mem : Memory} {a : Addr} (h : a ∈ allSites D mem sc ls) :
    a.toNat < 2 ^ 48 := by
  obtain ⟨l, hl, ha⟩ := List.mem_flatMap.mp h
  have ht := (List.mem_filter.mp hl).2
  have h1 := sitesOf_within ht ha
  have h2 := l.hi_lt ht
  omega

/-- A bit is set for the instructions that have been rewritten. -/
theorem Rewritten.recorded {addrs : List Addr} (h : Rewritten addrs w w') {a : Addr}
    (ha : a ∈ addrs) (hlt : a.toNat < 2 ^ 48) :
    is_replaced_instruction_addr w'.bm a = some true := by
  unfold is_replaced_instruction_addr
  rw [if_pos hlt, (h.bm _).mpr (.inl ⟨a, ha, rfl⟩)]

/-- And for no others. -/
theorem Rewritten.mem_of_recorded {addrs : List Addr} (h : Rewritten addrs w w')
    (h0 : w.bm = fun _ => 0) {a : Addr} (ha : is_replaced_instruction_addr w'.bm a = some true) :
    a ∈ addrs := by
  unfold is_replaced_instruction_addr at ha
  split at ha
  swap
  · cases ha
  rcases (h.bm _).mp (Option.some.inj ha) with ⟨b, hb, hab⟩ | hold
  · exact BitVec.eq_of_toNat_eq hab ▸ hb
  · rw [h0, is_bitmap_set_iff] at hold
    simp at hold

/-- Each of the system call instructions that `rewrite_code` finds does after it what it did before,
for the numbers that the trampoline and `syscall_hook` hand on as they are. -/
theorem rewritten_transparent (hs : Sorted ls) (hw : rewrite_code D sc (mapsText ls) w = some w')
    (hsite : s.rip ∈ allSites D w.code sc ls) (hM : Loaded M L E) (hbm : E.bm = w'.bm)
    (hfetch : M.foreign s.rip = none ∧ M.fetch s.rip = decode w'.code s.rip)
    (hO : At O s.rip .syscall (s.rip + 2)) (hk : Kernel O.kernel sys)
    (hfn : E.hook_fn = fun a b c d e f g m => some (sys a b c d e f g m))
    (hn : (s.reg .rax).toNat < 512) (h15 : s.reg .rax ≠ 15) (hd : ¬ Dropped (s.reg .rax).toNat)
    (hc3 : s.reg .rax ≠ NR_clone3) (hc : s.reg .rax = NR_clone → s.reg .rdi &&& CLONE_VM = 0)
    (ha : Apart (sys (s.reg .rax) (s.reg .rdi) (s.reg .rsi) (s.reg .rdx) (s.reg .r10) (s.reg .r8)
      (s.reg .r9)) (s.reg .rsp) s.mem) :
    ∃ u, O.step s = some u ∧ Run.Evt M.step (fun t => t.rip = u.rip ∧
      (∀ r, r ≠ .rcx → r ≠ .r11 → t.reg r = u.reg r) ∧ t.reg .rcx = s.reg .rcx ∧
      t.reg .r11 = s.reg .r11 ∧ Kept (s.reg .rsp) 120 u.mem t.mem) s := by
  have hr := rewritten_of hs hw
  refine rewriting_transparent hM hk hfn hO ⟨hfetch.1, ?_⟩ ?_ hn h15 hd hc3 hc ha
  · rw [hfetch.2]
    exact hr.site _ hsite
  · rw [BitVec.add_sub_cancel, hbm]
    exact hr.recorded hsite (allSites_lt hsite)

theorem rewritten_transparent_39 : ∃ u, sampleOriginal.step (sampleState 39) = some u ∧
    Run.Evt sampleMachine.step (fun t => t.rip = u.rip ∧
      (∀ r, r ≠ .rcx → r ≠ .r11 → t.reg r = u.reg r) ∧ t.reg .rcx = 0 ∧ t.reg .r11 = 0 ∧
      Kept 0x8000 120 u.mem t.mem) (sampleState 39) :=
  rewritten_transparent sample_sorted sample_rewritten
    (sample_allSites ▸ List.mem_cons_self) sample_loaded rfl ⟨rfl, rfl⟩ ⟨rfl, rfl⟩
    sample_kernel rfl (by decide) (by decide) (by decide) (by decide) (by decide)
    ⟨fun _ _ _ => rfl, fun _ _ => rfl, fun _ h => h⟩

/-- A call of `%rax` into the page from anywhere else stops the program. -/
theorem stray_call_stops (hs : Sorted ls) (hw : rewrite_code D sc (mapsText ls) w = some w')
    (h0 : w.bm = fun _ => 0) (hsite : s.rip ∉ allSites D w.code sc ls) (hM : Loaded M L E)
    (hbm : E.bm = w'.bm) (hcall : At M s.rip (.callReg .rax) (s.rip + 2))
    (hn : (s.reg .rax).toNat < 512) (h15 : s.reg .rax ≠ 15) (hd : ¬ Dropped (s.reg .rax).toNat) :
    Run.Evt M.step (fun c => c.rip = L.syscall_hook ∧ M.step c = none) s := by
  refine unrecorded_stops hM hn h15 hcall ?_
  rw [show hookRet s (s.rip + 2) = s.rip + 2 from if_neg hd, BitVec.add_sub_cancel, hbm]
  exact fun h => hsite ((rewritten_of hs hw).mem_of_recorded h0 h)

theorem stray_call_stops_4800 :
    Run.Evt sampleMachine.step (fun c => c.rip = 0x5000 ∧ sampleMachine.step c = none)
    { sampleState 39 with rip := 0x4800 } :=
  stray_call_stops sample_sorted sample_rewritten rfl (by rw [sample_allSites]; decide)
    sample_loaded rfl ⟨rfl, rfl⟩
    (by decide) (by decide) (by decide)

end

end Zpoline
