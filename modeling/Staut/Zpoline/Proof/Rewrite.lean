import Staut.Zpoline.Rewrite
import Staut.Zpoline.Proof.Return

/-!
# Rewriting is exact

`sweep_spec`: the loop writes `call *%rax` over every system call instruction that the disassembler
finds in the original code, records its address, and changes nothing else; the induction is on the
turns of the loop, from which on the code is still the original one.
-/

set_option autoImplicit false

namespace Zpoline

open X86 CSem

/-! ## The bitmap is a set of addresses -/

theorem and_bit : ∀ j < 8, ∀ x : BitVec 8, (x &&& 1 <<< j ≠ 0) ↔ x.getLsbD j = true := by
  decide

theorem is_bitmap_set_iff (bm : Bitmap) (v : Nat) :
    is_bitmap_set bm v = true ↔ (bm (v / 8)).getLsbD (v % 8) = true := by
  unfold is_bitmap_set
  rw [decide_eq_true_iff]
  exact and_bit (v % 8) (Nat.mod_lt _ (by decide)) _

theorem bit_getLsbD : ∀ i < 8, ∀ j < 8, (1 <<< i : BitVec 8).getLsbD j = true ↔ i = j := by
  decide

theorem is_bitmap_set_set (bm : Bitmap) (v u : Nat) :
    is_bitmap_set (bitmap_set bm v) u = true ↔ u = v ∨ is_bitmap_set bm u = true := by
  rw [is_bitmap_set_iff, is_bitmap_set_iff]
  unfold bitmap_set
  by_cases h : u / 8 = v / 8
  · rw [h, Function.update_self, BitVec.getLsbD_or, Bool.or_eq_true,
      bit_getLsbD (v % 8) (Nat.mod_lt _ (by decide)) (u % 8) (Nat.mod_lt _ (by decide)), or_comm]
    refine or_congr ?_ Iff.rfl
    omega
  · rw [Function.update_of_ne h]
    refine (or_iff_right ?_).symm
    rintro rfl
    exact h rfl

theorem bitmap_set_idem (bm : Bitmap) (v : Nat) :
    bitmap_set (bitmap_set bm v) v = bitmap_set bm v := by
  unfold bitmap_set
  rw [Function.update_idem, Function.update_self, BitVec.or_assoc, BitVec.or_self]

/-! ## One instruction -/

/-- `call *%rax` at `ptr`, recorded. -/
def patched (w : Rewriting) (ptr : Addr) : Rewriting where
  code := Function.update (Function.update w.code ptr 0xff) (ptr + 1) 0xd0
  bm := bitmap_set w.bm ptr.toNat

theorem patched_idem (w : Rewriting) (ptr : Addr) :
    patched (patched w ptr) ptr = patched w ptr := by
  unfold patched
  rw [Rewriting.mk.injEq, bitmap_set_idem]
  refine ⟨funext fun a => ?_, rfl⟩
  by_cases h1 : a = ptr + 1
  · rw [h1, Function.update_self, Function.update_self]
  rw [Function.update_of_ne h1, Function.update_of_ne h1]
  by_cases h0 : a = ptr
  · rw [h0, Function.update_self, Function.update_self]
  · rw [Function.update_of_ne h0]
    exact Function.update_of_ne h1 _ _

/-- The pieces printed for one instruction. -/
theorem rewrite_pieces {sc ptr : Addr} (hp : ptr.toNat < 2 ^ 48) (w : Rewriting)
    (bufs : List (List UInt8)) :
    bufs.foldlM (do_rewrite sc ptr) w =
      some (if bufs.any isSyscallText && ptr != sc then patched w ptr else w) := by
  have hone : ∀ (w : Rewriting) (buf : List UInt8), do_rewrite sc ptr w buf =
      some (if isSyscallText buf && ptr != sc then patched w ptr else w) := fun w buf => by
    unfold do_rewrite record_replaced_instruction_addr
    rw [if_pos hp]
    cases isSyscallText buf with
    | false => rfl
    | true =>
      by_cases h : ptr = sc
      · simp [h]
      · simp [h, patched]
  induction bufs generalizing w with
  | nil => rfl
  | cons buf bufs ih =>
    rw [List.foldlM_cons, hone, Option.bind_eq_bind, Option.bind_some, ih, List.any_cons]
    cases isSyscallText buf <;> cases bufs.any isSyscallText <;> cases hsc : ptr != sc <;>
      simp [patched_idem]

/-! ## The loop -/

section
variable (D : Disassembler) (mem : Memory) (code : Addr) (size : Nat)

theorem boundaries_ge {fuel off o : Nat} (h : o ∈ boundaries D mem code size fuel off) :
    off ≤ o ∧ o < size := by
  induction fuel generalizing off with
  | zero => cases h
  | succ fuel ih =>
    unfold boundaries at h
    split at h
    · rename_i hlt
      rcases List.mem_cons.mp h with rfl | h
      · exact ⟨Nat.le_refl _, hlt⟩
      · exact ⟨(Nat.le_add_right _ _).trans (ih h).1, (ih h).2⟩
    · cases h

/-- Two system call instructions do not overlap, and none goes over the end. -/
theorem sites_spaced (sc : Addr) (fuel off : Nat) :
    ((boundaries D mem code size fuel off).filter (isSite D mem sc code size)).Pairwise
      (fun o o' => o + 2 ≤ o') ∧
      ∀ o ∈ (boundaries D mem code size fuel off).filter (isSite D mem sc code size),
      o + 2 ≤ size := by
  induction fuel generalizing off with
  | zero => exact ⟨.nil, fun o h => by cases h⟩
  | succ fuel ih =>
    unfold boundaries
    split
    swap
    · exact ⟨.nil, fun o h => by cases h⟩
    rename_i hlt
    rw [List.filter_cons]
    split
    swap
    · exact ih _
    rename_i hs
    have h2 : 2 ≤ (D.disasm mem (code + BitVec.ofNat 64 off) (size - off)).2 :=
      D.two _ _ _ ((Bool.and_eq_true _ _).mp hs).1
    refine ⟨List.pairwise_cons.mpr ⟨fun o h => ?_, (ih _).1⟩, fun o h => ?_⟩
    · have h := (boundaries_ge D mem code size (List.mem_filter.mp h).1).1
      omega
    · rcases List.mem_cons.mp h with rfl | h
      · have h := D.le mem (code + BitVec.ofNat 64 o) (size - o) (by omega)
        omega
      · exact (ih _).2 o h

/-- `call *%rax` at each of the offsets. -/
def patches (code : Addr) (w : Rewriting) (os : List Nat) : Rewriting :=
  os.foldl (fun w o => patched w (code + BitVec.ofNat 64 o)) w

theorem patches_of_ne (os : List Nat) {w : Rewriting} {a : Addr}
    (h : ∀ o ∈ os, a ≠ code + BitVec.ofNat 64 o ∧ a ≠ code + BitVec.ofNat 64 o + 1) :
    (patches code w os).code a = w.code a := by
  induction os generalizing w with
  | nil => rfl
  | cons o os ih =>
    obtain ⟨h0, h1⟩ := h o List.mem_cons_self
    refine (ih fun o' ho' => h o' (List.mem_cons_of_mem _ ho')).trans ?_
    show Function.update (Function.update w.code _ _) _ _ _ = _
    rw [Function.update_of_ne h1, Function.update_of_ne h0]

theorem patches_of_mem {os : List Nat} (hb : code.toNat + size ≤ 2 ^ 48)
    (hs : os.Pairwise fun o o' => o + 2 ≤ o') (hle : ∀ o ∈ os, o + 2 ≤ size) {w : Rewriting}
    {o : Nat} (ho : o ∈ os) :
    (patches code w os).code (code + BitVec.ofNat 64 o) = 0xff ∧
      (patches code w os).code (code + BitVec.ofNat 64 o + 1) = 0xd0 := by
  induction os generalizing w with
  | nil => cases ho
  | cons o' os ih =>
    obtain ⟨h1, h2⟩ := List.pairwise_cons.mp hs
    rcases List.mem_cons.mp ho with rfl | ho
    · have hle' := hle o List.mem_cons_self
      have hfar : ∀ o' ∈ os, o + 2 ≤ o' ∧ o' + 2 ≤ size := fun o' h =>
        ⟨h1 o' h, hle o' (List.mem_cons_of_mem _ h)⟩
      have e0 := patches_of_ne code os (w := patched w (code + BitVec.ofNat 64 o))
        (a := code + BitVec.ofNat 64 o) fun o' h => by
          have := hfar o' h
          constructor <;> bv_omega
      have e1 := patches_of_ne code os (w := patched w (code + BitVec.ofNat 64 o))
        (a := code + BitVec.ofNat 64 o + 1) fun o' h => by
          have := hfar o' h
          constructor <;> bv_omega
      refine ⟨e0.trans ?_, e1.trans ?_⟩
      · show Function.update (Function.update w.code _ _) _ _ _ = _
        rw [Function.update_of_ne (by bv_omega), Function.update_self]
      · exact Function.update_self _ _ _
    · exact ih h2 (fun o h => hle o (List.mem_cons_of_mem _ h)) ho

theorem patches_bm (os : List Nat) (w : Rewriting) (u : Nat) :
    is_bitmap_set (patches code w os).bm u = true ↔
      (∃ o ∈ os, u = (code + BitVec.ofNat 64 o).toNat) ∨ is_bitmap_set w.bm u = true := by
  induction os generalizing w with
  | nil => simp [patches]
  | cons o os ih =>
    refine (ih (patched w (code + BitVec.ofNat 64 o))).trans ?_
    show _ ∨ is_bitmap_set (bitmap_set w.bm _) u = true ↔ _
    rw [is_bitmap_set_set]
    simp only [List.mem_cons, exists_eq_or_imp]
    exact or_left_comm.trans or_assoc.symm

/-- The induction is on the turns: an instruction is rewritten after it has been read, and the ones
after it stand as they stood in `mem`. -/
theorem sweep_spec (sc : Addr) (hb : code.toNat + size ≤ 2 ^ 48) (fuel off : Nat) (w : Rewriting)
    (hf : size ≤ off + fuel)
    (hm : ∀ k, off ≤ k → k < size → w.code (code + BitVec.ofNat 64 k) = mem
      (code + BitVec.ofNat 64 k)) :
    sweep D sc code size fuel off w =
      some (patches code w
        ((boundaries D mem code size fuel off).filter (isSite D mem sc code size))) := by
  induction fuel generalizing off w with
  | zero => rfl
  | succ fuel ih =>
    unfold sweep boundaries
    by_cases hlt : off < size
    swap
    · rw [if_neg hlt, if_neg hlt]
      rfl
    rw [if_pos hlt, if_pos hlt]
    have hd : D.disasm w.code (code + BitVec.ofNat 64 off) (size - off) =
        D.disasm mem (code + BitVec.ofNat 64 off) (size - off) := by
      refine D.within _ _ _ _ fun k hk => ?_
      rw [BitVec.add_assoc, ← BitVec.ofNat_add]
      exact hm _ (Nat.le_add_right _ _) (by omega)
    have hp := D.pos mem (code + BitVec.ofNat 64 off) (size - off) (by omega)
    have hto : (code + BitVec.ofNat 64 off).toNat < 2 ^ 48 := by bv_omega
    simp only [hd]
    rw [rewrite_pieces hto, Option.bind_eq_bind, Option.bind_some, List.filter_cons]
    by_cases hs : isSite D mem sc code size off = true
    · rw [if_pos hs]
      unfold isSite at hs
      have h2 := D.two _ _ _ ((Bool.and_eq_true _ _).mp hs).1
      rw [if_pos hs]
      refine ih _ _ (by omega) fun k h1 hk => ?_
      rw [← hm k (by omega) hk]
      show Function.update (Function.update w.code _ _) _ _ _ = _
      rw [Function.update_of_ne (by bv_omega), Function.update_of_ne (by bv_omega)]
    · rw [if_neg hs]
      unfold isSite at hs
      rw [if_neg hs]
      exact ih _ _ (by omega) fun k h1 hk => hm k (by omega) hk

end

end Zpoline
