import Staut.Lib.X86

/-!
# The stack of a call

* `Holds m a ws`: the words `ws` stand at successive addresses from `a`.
* `Below a n`: the `n` bytes below `a`; `Kept a n m m'`: what was written lies there. A run of
  pushes changes nothing else (`State.pushes`), and pops that follow the order of the words on the
  stack load them (`execs_pop`).
* `returned`: the state in which a function returns to its caller, by the calling convention.
-/

set_option autoImplicit false

namespace X86

def Holds (m : Memory) (a : Addr) : List Word → Prop
  | [] => True
  | w :: ws => read64 m a = w ∧ Holds m (a + 8) ws

/-- The `n` bytes below `a`. -/
def Below (a : Addr) (n : Nat) (x : Addr) : Prop := 1 ≤ (a - x).toNat ∧ (a - x).toNat ≤ n

def Kept (a : Addr) (n : Nat) (m m' : Memory) : Prop := ∀ x, ¬ Below a n x → m' x = m x

section
variable {m m' m'' : Memory} {a b x : Addr} {v w : Word} {ws ws' : List Word} {n k : Nat}

theorem Below.mono (hn : n ≤ k) (h : Below a n x) : Below a k x := ⟨h.1, Nat.le_trans h.2 hn⟩

theorem Kept.refl (a : Addr) (n : Nat) (m : Memory) : Kept a n m m := fun _ _ => rfl

theorem Kept.trans (h : Kept a n m m') (h' : Kept a n m' m'') : Kept a n m m'' := fun x hx =>
  (h' x hx).trans (h x hx)

theorem Kept.mono (hn : n ≤ k) (h : Kept a n m m') : Kept a k m m' := fun x hx =>
  h x fun hb => hx (hb.mono hn)

/-- A word written `k` bytes below `a`. -/
theorem kept_write64 (h8 : 8 ≤ k) (hk : k ≤ n) (hn : n < 2 ^ 64) :
    Kept a n m (write64 m (a - BitVec.ofNat 64 k) v) := fun x hx => by
  refine write64_of_not fun h => hx ?_
  unfold Below
  bv_omega

/-- What is written below a lower address. -/
theorem Kept.up (h : Kept (a - BitVec.ofNat 64 k) n m m') (hl : n + k < 2 ^ 64) :
    Kept a (n + k) m m' :=
  fun x hx => h x fun hb => hx (by
    unfold Below at hb ⊢
    bv_omega)

theorem Kept.read64 (h : Kept a n m m') (hl : n + k + 8 ≤ 2 ^ 64) :
    read64 m' (a + BitVec.ofNat 64 k) = read64 m (a + BitVec.ofNat 64 k) :=
  read64_congr fun x hx => h x fun hb => by
    unfold Below at hb
    bv_omega

theorem Holds.congr (h : Holds m a ws) (he : ∀ x, (x - a).toNat < 8 * ws.length → m' x = m x) :
    Holds m' a ws := by
  induction ws generalizing a with
  | nil => trivial
  | cons w ws ih =>
    obtain ⟨hw, hs⟩ := h
    rw [List.length_cons] at he
    refine ⟨?_, ih hs fun x hx => he x (by bv_omega)⟩
    rw [read64_congr fun x hx => he x (by omega)]
    exact hw

/-- What stands `k` bytes below `a` and reaches up to it at most, when only what is below is
written. -/
theorem Holds.kept (h : Holds m (a - BitVec.ofNat 64 k) ws)
    (hk : Kept (a - BitVec.ofNat 64 k) n m m') (hl : 8 * ws.length + n ≤ 2 ^ 64) :
    Holds m' (a - BitVec.ofNat 64 k) ws :=
  h.congr fun x hx => hk x fun hb => by
    unfold Below at hb
    bv_omega

/-- A word pushed onto others. -/
theorem Holds.push (h : Holds m a ws) (hl : 8 * (ws.length + 1) ≤ 2 ^ 64) :
    Holds (write64 m (a - 8) v) (a - 8) (v :: ws) := by
  refine ⟨read64_write64 .., ?_⟩
  rw [BitVec.sub_add_cancel]
  refine h.congr fun x hx => write64_of_not ?_
  bv_omega

end

/-! ## Runs of pushes and pops -/

/-- The words pushed one after the other. -/
def State.pushes (s : State) (vs : List Word) : State := vs.foldl State.push s

section
variable {s : State} {rs : List Reg} {vs ws : List Word} {f : Reg → Word} {r : Reg}

theorem State.pushes_append : s.pushes (vs ++ ws) = (s.pushes vs).pushes ws := List.foldl_append ..

@[simp] theorem State.pushes_rip : (s.pushes vs).rip = s.rip := by
  induction vs generalizing s with
  | nil => rfl
  | cons v vs ih => exact ih (s := s.push v)

@[simp] theorem State.pushes_fpu : (s.pushes vs).fpu = s.fpu := by
  induction vs generalizing s with
  | nil => rfl
  | cons v vs ih => exact ih (s := s.push v)

theorem State.pushes_reg_of_ne (hr : r ≠ .rsp) : (s.pushes vs).reg r = s.reg r := by
  induction vs generalizing s with
  | nil => rfl
  | cons v vs ih => exact (ih (s := s.push v)).trans (State.push_reg_of_ne _ _ _ hr)

theorem State.pushes_rsp :
    (s.pushes vs).reg .rsp = s.reg .rsp - BitVec.ofNat 64 (8 * vs.length) := by
  induction vs generalizing s with
  | nil => simp [State.pushes]
  | cons v vs ih =>
    rw [List.length_cons]
    refine (ih (s := s.push v)).trans ?_
    rw [State.push_rsp]
    bv_omega

theorem State.pushes_kept (vs : List Word) (hl : 8 * vs.length < 2 ^ 64) :
    Kept (s.reg .rsp) (8 * vs.length) s.mem (s.pushes vs).mem := by
  induction vs generalizing s with
  | nil => exact .refl _ _ _
  | cons v vs ih =>
    rw [List.length_cons] at hl ⊢
    have hv : Kept (s.reg .rsp) (8 * (vs.length + 1)) s.mem (s.push v).mem :=
      kept_write64 (k := 8) (by decide) (by omega) hl
    have hs := ih (s := s.push v) (by omega)
    rw [State.push_rsp] at hs
    exact hv.trans ((hs.up (k := 8) (by omega)).mono (by omega))

/-- The pushed words stand on what the stack held, the last on top. -/
theorem State.holds_pushes (vs : List Word) (hs : Holds s.mem (s.reg .rsp) ws)
    (hl : 8 * (vs.length + ws.length) ≤ 2 ^ 64) :
    Holds (s.pushes vs).mem ((s.pushes vs).reg .rsp) (vs.reverse ++ ws) := by
  induction vs generalizing s ws with
  | nil => exact hs
  | cons v vs ih =>
    rw [List.length_cons] at hl
    rw [List.reverse_cons, List.append_assoc]
    refine ih (s := s.push v) ?_ (by rw [List.singleton_append, List.length_cons]; omega)
    rw [State.push_rsp]
    exact hs.push (by omega)

theorem execs_push (hr : .rsp ∉ rs) : execs (rs.map .push) s = s.pushes (rs.map s.reg) := by
  induction rs generalizing s with
  | nil => rfl
  | cons r rs ih =>
    rw [List.mem_cons, not_or] at hr
    have hm : rs.map (s.push (s.reg r)).reg = rs.map s.reg :=
      List.map_congr_left fun q hq => State.push_reg_of_ne _ _ _ fun h => hr.2 (h ▸ hq)
    rw [List.map_cons, execs_cons, Op.exec, ih hr.2, hm]
    rfl

theorem execs_pop_keeps (rs : List Reg) (s : State) :
    (execs (rs.map .pop) s).fpu = s.fpu ∧ (execs (rs.map .pop) s).mem = s.mem := by
  induction rs generalizing s with
  | nil => exact ⟨rfl, rfl⟩
  | cons r rs ih => exact ih _

/-- Pops of the words `rs.map f` on top of the stack. -/
theorem execs_pop (rs : List Reg) (hr : .rsp ∉ rs) (hd : rs.Nodup)
    (hs : Holds s.mem (s.reg .rsp) (rs.map f)) :
    (∀ r, r ≠ .rsp → (execs (rs.map .pop) s).reg r = if r ∈ rs then f r else s.reg r) ∧
      (execs (rs.map .pop) s).reg .rsp = s.reg .rsp + BitVec.ofNat 64 (8 * rs.length) ∧
      (execs (rs.map .pop) s).flags = s.flags ∧ (execs (rs.map .pop) s).mem = s.mem := by
  induction rs generalizing s with
  | nil => exact ⟨fun _ _ => rfl, by simp [execs], rfl, rfl⟩
  | cons r rs ih =>
    rw [List.mem_cons, not_or] at hr
    obtain ⟨hn, hd⟩ := List.nodup_cons.1 hd
    obtain ⟨hw, hs⟩ := hs
    have hsp : (s.drop.set r s.top).reg .rsp = s.reg .rsp + 8 := by
      rw [State.set_reg_of_ne _ _ _ _ hr.1, State.drop_rsp]
    obtain ⟨h1, h2, h3, h4⟩ := ih (s := s.drop.set r s.top) hr.2 hd (by rwa [hsp])
    rw [List.map_cons, execs_cons, Op.exec, List.length_cons]
    refine ⟨fun q hq => ?_, ?_, h3, h4⟩
    · rw [h1 q hq]
      by_cases hqr : q = r
      · subst hqr
        rw [if_neg hn, if_pos List.mem_cons_self, State.set_reg_self]
        exact hw
      · simp only [List.mem_cons, hqr, false_or]
        rw [State.set_reg_of_ne _ _ _ _ hqr, State.drop_reg_of_ne _ _ hq]
    · rw [h2, hsp]
      bv_omega

end

theorem leave_reg (s : State) (r : Reg) : (Op.leave.exec s).reg r =
    if r = .rbp then read64 s.mem (s.reg .rbp)
      else if r = .rsp then s.reg .rbp + 8 else s.reg r := by
  split
  · rename_i h
    subst h
    simp [Op.exec, State.top]
  · rename_i hb
    split
    · rename_i hs
      subst hs
      simp [Op.exec, State.set_reg_of_ne]
    · rename_i hs
      simp [Op.exec, State.set_reg_of_ne, State.drop_reg_of_ne, hb, hs]

theorem leave_mem (s : State) : (execs [.leave] s).mem = s.mem := by
  simp [execs, Op.exec]

/-! ## Returns -/

/-- The state in which a function that was entered in `s` returns `v` with the memory `m`: the
registers that it does not keep for its caller are `scratch`. -/
def State.returned (s : State) (v : Word) (m : Memory) (scratch : Reg → Word)
    (f : Flags) : State where
  reg r :=
    if r = .rax then v
    else if r = .rsp then s.reg .rsp + 8
    else if r ∈ calleeSaved then s.reg r
    else scratch r
  flags := f
  fpu := s.fpu
  rip := s.top
  mem := m

end X86
