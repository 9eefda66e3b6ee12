import Staut.Abt.Fcontext

/-!
# A switch to a thread is the return of the call that it left with

`Inv`: what a thread that is switched out left behind stands on its stack, wherever it ran and
whatever the others have done since. Each function is run in two parts, up to its call of `f_cb` or
its last jump (`head_spec`), and behind that (`restore_spec`).
-/

set_option autoImplicit false

namespace Fcontext

open X86 Run

/-! ## Frames -/

/-- The registers of a frame. -/
def savedRegs : List Reg := [.r12, .r13, .r14, .r15, .rbx, .rbp]

/-- The frame of the call in `s`. -/
structure Frame (m : Memory) (s : X86.State) : Prop where
  mxcsr : read32 m (s.reg .rsp - 56) = s.fpu.mxcsr
  cw : read16 m (s.reg .rsp - 52) = s.fpu.cw
  words : Holds m (s.reg .rsp - 48) (savedRegs.map s.reg ++ [s.top])

variable {m m' : Memory} {s s0 t : X86.State} {M : Machine}

theorem frame_length (s : X86.State) : (savedRegs.map s.reg ++ [s.top]).length = 7 := by
  simp [savedRegs]

theorem Frame.congr (h : Frame m s) (he : ∀ x, InFrame s x → m' x = m x) : Frame m' s where
  mxcsr := (read32_congr fun x hx => he x (by unfold InFrame; bv_omega)).trans h.mxcsr
  cw := (read16_congr fun x hx => he x (by unfold InFrame; bv_omega)).trans h.cw
  words := h.words.congr fun x hx => he x (by
    rw [frame_length] at hx
    unfold InFrame
    bv_omega)

/-- The registers on the stack. -/
theorem pushes_saved (s : X86.State) :
    (s.pushes (savedRegs.reverse.map s.reg)).reg .rsp = s.reg .rsp - 48 ∧
      Kept (s.reg .rsp) 48 s.mem (s.pushes (savedRegs.reverse.map s.reg)).mem ∧
      Holds (s.pushes (savedRegs.reverse.map s.reg)).mem (s.reg .rsp - 48)
        (savedRegs.map s.reg ++ [s.top]) := by
  have hlen : (savedRegs.reverse.map s.reg).length = 6 := by simp [savedRegs]
  have hrsp : (s.pushes (savedRegs.reverse.map s.reg)).reg .rsp = s.reg .rsp - 48 := by
    rw [State.pushes_rsp, hlen]
    rfl
  refine ⟨hrsp, ?_, ?_⟩
  · have hk := State.pushes_kept (s := s) (savedRegs.reverse.map s.reg) (by rw [hlen]; decide)
    rwa [hlen] at hk
  · have htop : Holds s.mem (s.reg .rsp) [s.top] := ⟨rfl, trivial⟩
    have hp := State.holds_pushes (savedRegs.reverse.map s.reg) htop
      (by rw [hlen, List.length_singleton]; decide)
    rwa [hrsp, List.map_reverse, List.reverse_reverse] at hp

/-- The control words below them. -/
theorem push_fpu (u : X86.State) :
    (∀ r, r ≠ .rsp → (execs [.lea (-8) .rsp .rsp, .stmxcsr 0 .rsp, .fnstcw 4 .rsp] u).reg r =
      u.reg r) ∧
      (execs [.lea (-8) .rsp .rsp, .stmxcsr 0 .rsp, .fnstcw 4 .rsp] u).reg .rsp = u.reg .rsp - 8 ∧
      (execs [.lea (-8) .rsp .rsp, .stmxcsr 0 .rsp, .fnstcw 4 .rsp] u).fpu = u.fpu ∧
      (execs [.lea (-8) .rsp .rsp, .stmxcsr 0 .rsp, .fnstcw 4 .rsp] u).mem =
        writeBytes 2 (writeBytes 4 u.mem (u.reg .rsp - 8) u.fpu.mxcsr)
          (u.reg .rsp - 4) u.fpu.cw := by
  have h8 : u.reg .rsp + -8 = u.reg .rsp - 8 := by bv_omega
  refine ⟨fun r hr => ?_, ?_, rfl, ?_⟩
  · exact State.set_reg_of_ne _ _ _ _ hr
  · show (u.set .rsp (u.reg .rsp + -8)).reg .rsp = _
    rw [State.set_reg_self, h8]
  · have h0 : u.reg .rsp - 8 + 0 = u.reg .rsp - 8 := by bv_omega
    have h4 : u.reg .rsp - 8 + 4 = u.reg .rsp - 4 := by bv_omega
    show writeBytes 2 (writeBytes 4 u.mem ((u.set .rsp (u.reg .rsp + -8)).reg .rsp + 0) u.fpu.mxcsr)
      ((u.set .rsp (u.reg .rsp + -8)).reg .rsp + 4) u.fpu.cw = _
    rw [State.set_reg_self, h8, h0, h4]

theorem execs_save (s : X86.State) : execs save s =
    execs [.lea (-8) .rsp .rsp, .stmxcsr 0 .rsp, .fnstcw 4 .rsp]
      (s.pushes (savedRegs.reverse.map s.reg)) := by
  have hsave : save = savedRegs.reverse.map .push ++
    [.lea (-8) .rsp .rsp, .stmxcsr 0 .rsp, .fnstcw 4 .rsp] := rfl
  rw [hsave, execs_append, execs_push (by decide)]

theorem save_spec (s : X86.State) :
    (∀ r, r ≠ .rsp → (execs save s).reg r = s.reg r) ∧ (execs save s).reg .rsp = s.reg .rsp - 56 ∧
      (execs save s).fpu = s.fpu ∧ Kept (s.reg .rsp) 56 s.mem (execs save s).mem ∧
      Frame (execs save s).mem s := by
  rw [execs_save]
  obtain ⟨hrsp, hk, hw⟩ := pushes_saved s
  have hreg : ∀ r, r ≠ .rsp → (s.pushes (savedRegs.reverse.map s.reg)).reg r = s.reg r :=
    fun r hr => State.pushes_reg_of_ne hr
  have hfpu : (s.pushes (savedRegs.reverse.map s.reg)).fpu = s.fpu := State.pushes_fpu
  obtain ⟨h1, h2, h3, h4⟩ := push_fpu (s.pushes (savedRegs.reverse.map s.reg))
  have h56 : s.reg .rsp - 48 - 8 = s.reg .rsp - 56 := by bv_omega
  have h52 : s.reg .rsp - 48 - 4 = s.reg .rsp - 52 := by bv_omega
  rw [hrsp, h56, h52, hfpu] at h4
  rw [hrsp, h56] at h2
  refine ⟨fun r hr => (h1 r hr).trans (hreg r hr), h2, h3.trans hfpu, ?_, ?_⟩
  · rw [h4]
    intro x hx
    unfold Below at hx
    rw [writeBytes_of_not (by bv_omega), writeBytes_of_not (by bv_omega)]
    exact hk x fun hb => hx (by unfold Below at hb; omega)
  · rw [h4]
    refine ⟨?_, read16_write16 .., hw.congr fun x hx => ?_⟩
    · rw [read32_congr fun x hx => writeBytes_of_not (by bv_omega)]
      exact read32_write32 ..
    · rw [frame_length] at hx
      rw [writeBytes_of_not (by bv_omega), writeBytes_of_not (by bv_omega)]

/-- The control words are loaded, and the registers stand on top of the stack. -/
theorem pop_fpu (t : X86.State) :
    (execs [.ldmxcsr 0 .rsp, .fldcw 4 .rsp, .lea 8 .rsp .rsp] t).reg .rsp = t.reg .rsp + 8 ∧
      (execs [.ldmxcsr 0 .rsp, .fldcw 4 .rsp, .lea 8 .rsp .rsp] t).mem = t.mem ∧
      (execs [.ldmxcsr 0 .rsp, .fldcw 4 .rsp, .lea 8 .rsp .rsp] t).fpu =
        ⟨read32 t.mem (t.reg .rsp), read16 t.mem (t.reg .rsp + 4)⟩ := by
  refine ⟨State.set_reg_self .., rfl, ?_⟩
  have h0 : t.reg .rsp + 0 = t.reg .rsp := by bv_omega
  show Fpu.mk (read32 t.mem (t.reg .rsp + 0)) (read16 t.mem (t.reg .rsp + 4)) = _
  rw [h0]

theorem execs_restore (t : X86.State) : execs restore t =
    execs ((savedRegs ++ [Reg.r8]).map .pop)
      (execs [.ldmxcsr 0 .rsp, .fldcw 4 .rsp, .lea 8 .rsp .rsp] t) := by
  have hrestore : restore =
      [.ldmxcsr 0 .rsp, .fldcw 4 .rsp, .lea 8 .rsp .rsp] ++ (savedRegs ++ [Reg.r8]).map .pop := rfl
  rw [hrestore, execs_append]

theorem restore_mem (t : X86.State) : (execs restore t).mem = t.mem := by
  rw [execs_restore]
  exact (execs_pop_keeps _ _).2.trans (pop_fpu t).2.1

theorem restore_spec (h : Frame t.mem s0) (hsp : t.reg .rsp = s0.reg .rsp - 56) :
    (∀ r ∈ calleeSaved, (execs restore t).reg r = s0.reg r) ∧
    (execs restore t).reg .rsp = s0.reg .rsp + 8 ∧
      (execs restore t).reg .r8 = s0.top ∧ (execs restore t).fpu = s0.fpu := by
  obtain ⟨hrsp, hmem, hfpu⟩ := pop_fpu t
  have h48 : s0.reg .rsp - 56 + 8 = s0.reg .rsp - 48 := by bv_omega
  have h52 : s0.reg .rsp - 56 + 4 = s0.reg .rsp - 52 := by bv_omega
  rw [hsp, h48] at hrsp
  rw [hsp, h52, h.mxcsr, h.cw] at hfpu
  rw [execs_restore]
  generalize execs [.ldmxcsr 0 .rsp, .fldcw 4 .rsp, .lea 8 .rsp .rsp] t = v at hrsp hmem hfpu ⊢
  obtain ⟨h1, h2, -, -⟩ :=
    execs_pop (s := v) (f := fun r => if r = Reg.r8 then s0.top else s0.reg r)
    (savedRegs ++ [Reg.r8]) (by decide) (by decide) (by rw [hrsp, hmem]; exact h.words)
  refine ⟨fun r hr => ?_, ?_, h1 .r8 (by decide), (execs_pop_keeps _ _).1.trans hfpu⟩
  · have hr' : r ≠ .rsp ∧ r ∈ savedRegs ++ [Reg.r8] ∧ r ≠ .r8 := by
      revert r
      decide
    rw [h1 r hr'.1, if_pos hr'.2.1, if_neg hr'.2.2]
  · have hlen : 8 * (savedRegs ++ [Reg.r8]).length = 56 := rfl
    rw [h2, hrsp, hlen]
    bv_omega

/-! ## The functions -/

/-- The memory behind `save` and the store of the frame's address. -/
def savedMem (m : X86.State) (old : Addr) : Memory :=
  write64 (execs save m).mem old (m.reg .rsp - 56)

/-- The state in which a function of the switch `c` has left the old stack, from `m`. -/
structure OnNew (c : Switch) (started : Bool) (old new stacktop wrapper : Word)
    (m t : X86.State) : Prop where
  mem : t.mem = if c.saves then savedMem m old else m.mem
  fpu : t.fpu = m.fpu
  resume : started = true → t.reg .rsp = read64 t.mem new
  start : started = false →
    t.reg .rsp = if c.cb.isSome then stacktop &&& -16 else (stacktop &&& -16) - 8
  cb : ∀ f arg, c.cb = some (f, arg) → t.reg .rsi = f ∧ t.reg .rdi = arg
  thread : started = false →
    if c.cb.isSome then t.reg .r12 = new ∧ t.reg .r13 = wrapper
    else t.reg .rdi = new ∧ t.reg .rsi = wrapper

theorem leave_spec (s : X86.State) {r : Reg} (hr : r ≠ .rsp) :
    (∀ q, q ≠ .rsp → (execs (save ++ [.store .rsp 0 r]) s).reg q = s.reg q) ∧
      (execs (save ++ [.store .rsp 0 r]) s).fpu = s.fpu ∧
      (execs (save ++ [.store .rsp 0 r]) s).mem = savedMem s (s.reg r) := by
  obtain ⟨h1, h2, h3, -, -⟩ := save_spec s
  have h0 : s.reg r + 0 = s.reg r := by bv_omega
  rw [execs_append]
  refine ⟨h1, h3, ?_⟩
  show write64 (execs save s).mem ((execs save s).reg r + 0) ((execs save s).reg .rsp) = _
  rw [h1 r hr, h2, h0]
  rfl

theorem Passed.reg {args : List Word} (h : Passed s args) {r : Reg} {v : Word}
    (hm : (r, v) ∈ [Reg.rdi, .rsi, .rdx, .rcx, .r8, .r9].zip args) : s.reg r = v := h _ hm

theorem Passed.congr {args : List Word} (h : Passed s args)
    (hr : ∀ q, q ≠ .rsp → t.reg q = s.reg q) :
    Passed t args := by
  intro p hp
  have hne : ∀ r ∈ [Reg.rdi, .rsi, .rdx, .rcx, .r8, .r9], r ≠ .rsp := by decide
  exact (hr p.1 (hne _ (List.of_mem_zip hp).1)).trans (h p hp)

/-- The old stack is left. -/
theorem left_spec {c : Switch} {started : Bool} {old new stacktop wrapper : Word}
    (h : Passed s (c.call started old new stacktop wrapper).2) :
    ∃ u : X86.State, execs (c.call started old new stacktop wrapper).1.head s =
        execs (c.call started old new stacktop wrapper).1.new u ∧
      (∀ q, q ≠ .rsp → u.reg q = s.reg q) ∧ u.fpu = s.fpu ∧
      u.mem = if c.saves then savedMem s old else s.mem := by
  have hsaves : ∀ (r : Reg) (f : Fn), f.old = some r → r ≠ .rsp → s.reg r = old → ∃ u : X86.State,
      execs f.head s = execs f.new u ∧ (∀ q, q ≠ .rsp → u.reg q = s.reg q) ∧ u.fpu = s.fpu ∧
        u.mem = savedMem s old := by
    intro r f hf hr hold
    obtain ⟨h1, h2, h3⟩ := leave_spec s hr
    refine ⟨execs (save ++ [.store .rsp 0 r]) s, ?_, h1, h2, hold ▸ h3⟩
    unfold Fn.head
    rw [hf, execs_append]
  obtain ⟨saves, cb⟩ := c
  cases saves with
  | false =>
    refine ⟨s, ?_, fun _ _ => rfl, rfl, rfl⟩
    cases cb <;> cases started <;> rfl
  | true =>
    cases cb <;> cases started
    · exact hsaves .rcx init_and_switch_fcontext rfl (by decide) (h.reg (by simp [Switch.call]))
    · exact hsaves .rsi switch_fcontext rfl (by decide) (h.reg (by simp [Switch.call]))
    · exact hsaves .r9 init_and_switch_with_call_fcontext rfl (by decide)
        (h.reg (by simp [Switch.call]))
    · exact hsaves .rcx switch_with_call_fcontext rfl (by decide) (h.reg (by simp [Switch.call]))

theorem head_spec {c : Switch} {started : Bool} {old new stacktop wrapper : Word} {f : Fn}
    {args : List Word} (hf : c.call started old new stacktop wrapper = (f, args))
    (h : Passed s args) :
    OnNew c started old new stacktop wrapper s (execs f.head s) := by
  obtain ⟨rfl, rfl⟩ : (c.call started old new stacktop wrapper).1 = f ∧
      (c.call started old new stacktop wrapper).2 = args := by
    rw [hf]
    exact ⟨rfl, rfl⟩
  obtain ⟨u, hu, hreg, hfpu, hmem⟩ := left_spec h
  replace h := h.congr hreg
  rw [hu]
  obtain ⟨saves, cb⟩ := c
  have hadd : ∀ a : Word, a + 0 = a := fun a => by bv_omega
  have hsub : ∀ a : Word, a + -8 = a - 8 := fun a => by bv_omega
  cases cb with
  | none =>
    have hrdi : u.reg .rdi = new := h.reg (by cases saves <;> cases started <;> simp [Switch.call])
    cases started with
    | true =>
      have hn : (Switch.call ⟨saves, none⟩ true old new stacktop wrapper).1.new =
        [.load 0 .rdi .rsp] := by
        cases saves <;> rfl
      rw [hn]
      refine ⟨hmem, hfpu, fun _ => ?_, fun h => (by cases h), fun _ _ h => (by cases h),
        fun h => (by cases h)⟩
      show (u.set .rsp (read64 u.mem (u.reg .rdi + 0))).reg .rsp = read64 u.mem new
      rw [State.set_reg_self, hrdi, hadd]
    | false =>
      have hn : (Switch.call ⟨saves, none⟩ false old new stacktop wrapper).1.new =
        [.and (-16) .rdx, .lea (-8) .rdx .rsp] := by cases saves <;> rfl
      have hrsi : u.reg .rsi = wrapper := h.reg (by cases saves <;> simp [Switch.call])
      have hrdx : u.reg .rdx = stacktop := h.reg (by cases saves <;> simp [Switch.call])
      rw [hn]
      refine ⟨hmem, hfpu, fun h => (by cases h), fun _ => ?_, fun _ _ h => (by cases h),
        fun _ => ⟨hrdi, hrsi⟩⟩
      show ((u.set .rdx (u.reg .rdx &&& -16)).set .rsp
        ((u.set .rdx (u.reg .rdx &&& -16)).reg .rdx + -8)).reg .rsp = _
      rw [State.set_reg_self, State.set_reg_self, hrdx, hsub]
      rfl
  | some q =>
    obtain ⟨f, arg⟩ := q
    have hrdi : u.reg .rdi = arg := h.reg (by cases saves <;> cases started <;> simp [Switch.call])
    have hrsi : u.reg .rsi = f := h.reg (by cases saves <;> cases started <;> simp [Switch.call])
    have hrdx : u.reg .rdx = new := h.reg (by cases saves <;> cases started <;> simp [Switch.call])
    cases started with
    | true =>
      have hn : (Switch.call ⟨saves, some (f, arg)⟩ true old new stacktop wrapper).1.new =
        [.load 0 .rdx .rsp] := by
        cases saves <;> rfl
      rw [hn]
      refine ⟨hmem, hfpu, fun _ => ?_, fun h => (by cases h), fun f' arg' he => ?_,
        fun h => (by cases h)⟩
      · show (u.set .rsp (read64 u.mem (u.reg .rdx + 0))).reg .rsp = read64 u.mem new
        rw [State.set_reg_self, hrdx, hadd]
      · cases he
        exact ⟨hrsi, hrdi⟩
    | false =>
      have hn : (Switch.call ⟨saves, some (f, arg)⟩ false old new stacktop wrapper).1.new =
        [.and (-16) .r8, .mov .rdx .r12, .mov .rcx .r13, .mov .r8 .rsp] := by cases saves <;> rfl
      have hrcx : u.reg .rcx = wrapper := h.reg (by cases saves <;> simp [Switch.call])
      have hr8 : u.reg .r8 = stacktop := h.reg (by cases saves <;> simp [Switch.call])
      rw [hn]
      refine ⟨hmem, hfpu, fun h => (by cases h), fun _ => ?_, fun f' arg' he => ?_,
        fun _ => ⟨hrdx, hrcx⟩⟩
      · show u.reg .r8 &&& -16 = _
        rw [hr8]
        rfl
      · cases he
        exact ⟨hrsi, hrdi⟩

/-- Up to the call of `f_cb`. -/
theorem run_calls {f : Fn} {b : Addr} (hc : f.calls = true) (h : Placed M s.rip f.code b) :
    ∃ next, (∃ a, Placed M next f.tail a) ∧
      M.run f.steps s = some (((execs f.head s).push next).goto ((execs f.head s).reg .rsi)) := by
  unfold Fn.code at h
  unfold Fn.steps
  rw [hc, if_pos rfl] at h ⊢
  obtain ⟨a, hp, hr⟩ := h.run_block 1
  obtain ⟨next, ha, ht⟩ := hp
  refine ⟨next, ⟨_, ht⟩, hr.trans ?_⟩
  rw [Machine.run, Machine.step_at (by exact ha)]
  rfl

/-- From `f_cb` to the last jump, or the whole of a function that calls nothing. -/
theorem run_tail {f : Fn} {b : Addr} (h : Placed M s.rip f.tail b) :
    M.run f.tail.length s = some ((execs f.cont s).goto ((execs f.cont s).reg f.exit)) := by
  unfold Fn.tail at h ⊢
  obtain ⟨a, hp, hr⟩ := h.run_block 1
  obtain ⟨next, ha, ht⟩ := hp
  rw [List.length_append, List.length_map, List.length_singleton]
  refine hr.trans ?_
  rw [Machine.run, Machine.step_at (by exact ha)]
  rfl

theorem run_whole {f : Fn} {b : Addr} (hc : f.calls = false) (h : Placed M s.rip f.code b) :
    M.run f.steps s = some
      ((execs f.cont (execs f.head s)).goto ((execs f.cont (execs f.head s)).reg f.exit)) := by
  unfold Fn.code at h
  unfold Fn.steps
  rw [hc, if_neg (by decide)] at h ⊢
  obtain ⟨a, hp, hr⟩ := h.run_block f.tail.length
  rw [hr]
  refine (run_tail (s := (execs f.head s).goto a) hp).trans ?_
  rw [execs_goto]
  rfl

/-! ## Runs -/

/-- `t` is at the return of the call in `s`, with the control words of the call. -/
structure Resumed (s t : X86.State) : Prop extends Returns s t where
  fpu : t.fpu = s.fpu

section
variable {ι κ : Type} {L : Layout ι} {w : Addr} {σ σ' : State ι κ} {c : Switch} {e : κ} {i j : ι}

/-- `t` is at the entry of the thread's function, with the thread's own stack. -/
structure Started (L : Layout ι) (w : Addr) (j : ι) (t : X86.State) : Prop where
  rip : t.rip = w
  rdi : t.reg .rdi = L.ctx j
  rsp : t.reg .rsp = (L.stacktop j &&& -16) - 8

/-- What a stream in `f_cb` comes back to. -/
def InCallback (L : Layout ι) (w : Addr) (m : Memory) (j : ι) (f : Fn) (t : X86.State) :
    Option X86.State → Prop
  | some s0 => f.cont = restore ∧ f.exit = .r8 ∧ t.reg .rsp = s0.reg .rsp - 64 ∧
      Frame m s0 ∧ Room L j s0
  | none => f.cont = [.lea (-8) .rsp .rsp, .mov .r12 .rdi] ∧ f.exit = .r13 ∧
    t.reg .rsp = (L.stacktop j &&& -16) - 8 ∧ t.reg .r12 = L.ctx j ∧ t.reg .r13 = w

structure Inv (M : Machine) (L : Layout ι) (w : Addr) (s : State ι κ) : Prop where
  cur : ∀ e, s.status (s.cur e) = .running e
  running : ∀ j e, s.status j = .running e → s.cur e = j
  fresh : ∀ j, s.status j = .fresh → read64 s.mem (L.ctx j) = 0
  saved : ∀ j s0, s.status j = .saved s0 → read64 s.mem (L.ctx j) = s0.reg .rsp - 56 ∧
    Frame s.mem s0 ∧ Room L j s0
  callback : ∀ e f b t, s.mode e = .callback f b t →
    (∃ a, Placed M t.top f.tail a) ∧ InCallback L w s.mem (s.cur e) f t b

theorem Room.frame (h : Room L i s) {x : Addr} (hx : InFrame s x) : L.stack i x := h.2 x (by
  unfold InFrame at hx
  bv_omega)

theorem Room.below (h : Room L i s) {x : Addr} (hx : Below (s.reg .rsp) 56 x) : L.stack i x :=
  h.2 x (by
    unfold Below at hx
    bv_omega)

/-- `save` writes to the context and to the thread's own stack. -/
theorem savedMem_of_not {x : Addr} {a : Addr} (ha : ¬ (x - a).toNat < 8)
    (hb : ¬ Below (s.reg .rsp) 56 x) :
    savedMem s a x = s.mem x :=
  (write64_of_not ha).trans ((save_spec s).2.2.2.1 x hb)

/-- What is left behind. -/
theorem savedMem_spec (h : Room L i s) :
    read64 (savedMem s (L.ctx i)) (L.ctx i) = s.reg .rsp - 56 ∧ Frame (savedMem s (L.ctx i)) s :=
  ⟨read64_write64 .., (save_spec s).2.2.2.2.congr fun x hx => write64_of_not fun hc =>
    L.ctx_stack i i x hc (h.frame hx)⟩

/-- The memory when the old stack has been left. -/
def leftMem (c : Switch) (s : X86.State) (old : Addr) : Memory :=
  if c.saves then savedMem s old else s.mem

theorem leftMem_of_not (hroom : c.saves = true → Room L i s) {x : Addr}
    (hc : ¬ (x - L.ctx i).toNat < 8) (hs : ¬ L.stack i x) : leftMem c s (L.ctx i) x = s.mem x := by
  unfold leftMem
  split
  · rename_i h
    exact savedMem_of_not hc fun hb => hs ((hroom h).below hb)
  · rfl

/-- Another thread's context and frame. -/
theorem leftMem_other (hroom : c.saves = true → Room L i s) (hij : i ≠ j) :
    read64 (leftMem c s (L.ctx i)) (L.ctx j) = read64 s.mem (L.ctx j) ∧
      ∀ x, L.stack j x → leftMem c s (L.ctx i) x = s.mem x := by
  refine ⟨read64_congr fun x hx => leftMem_of_not hroom (fun hi => L.ctx_apart i j x hij hi hx)
    (L.ctx_stack j i x hx), fun x hx => leftMem_of_not hroom (fun hi => L.ctx_stack i j x hi hx)
      fun hi => L.stack_apart i j x hij hi hx⟩

/-- A saved context is one that has been started. -/
theorem Room.not_null (h : Room L j s0) : s0.reg .rsp - 56 ≠ 0 := fun h0 =>
  L.not_null j (h0 ▸ h.frame (by unfold InFrame; bv_omega))

/-- What the head of a function has done, whatever the function. -/
theorem left_behind (hroom : c.saves = true → Room L i s) (hij : i ≠ j) {st : Bool} {t : X86.State}
    (h : OnNew c st (L.ctx i) (L.ctx j) (L.stacktop j) w s t)
    (hs0 : read64 s.mem (L.ctx j) = s0.reg .rsp - 56) (hf : Frame s.mem s0) (hr : Room L j s0)
    (hst : st = true) :
    t.reg .rsp = s0.reg .rsp - 56 ∧ Frame t.mem s0 := by
  have hm : t.mem = leftMem c s (L.ctx i) := h.mem
  obtain ⟨h1, h2⟩ := leftMem_other hroom hij
  refine ⟨(h.resume hst).trans ?_, hf.congr fun x hx => ?_⟩
  · rw [hm, h1, hs0]
  · rw [hm]
    exact h2 x (hr.frame hx)

/-- The functions, by what they do behind the old stack. -/
theorem call_shape {st : Bool} {old new stacktop : Word} {f : Fn} {args : List Word}
    (hf : c.call st old new stacktop w = (f, args)) :
    f.calls = c.cb.isSome ∧ (st = true → f.cont = restore ∧ f.exit = .r8) ∧
      (st = false → if c.cb.isSome then f.cont = [.lea (-8) .rsp .rsp, .mov .r12 .rdi] ∧
        f.exit = .r13 else f.cont = [] ∧ f.exit = .rsi) := by
  obtain ⟨saves, cb⟩ := c
  cases cb <;> cases saves <;> cases st <;> cases hf <;> simp [switch_fcontext, jump_fcontext,
    init_and_switch_fcontext, init_and_jump_fcontext, switch_with_call_fcontext,
    jump_with_call_fcontext, init_and_switch_with_call_fcontext, init_and_jump_with_call_fcontext]

/-- Where a switch comes to when there is no `f_cb`. -/
theorem switched {st : Bool} (hst : st = (read64 s.mem (L.ctx j) != 0)) {f : Fn} {args : List Word}
    (hf : c.call st (L.ctx i) (L.ctx j) (L.stacktop j) w = (f, args)) (h : Passed s args)
    (hroom : c.saves = true → Room L i s) (hij : i ≠ j) (hcb : c.cb = none) {b : Addr}
    (hp : Placed M s.rip f.code b) :
    ∃ t, M.run f.steps s = some t ∧ t.mem = leftMem c s (L.ctx i) ∧
    (read64 s.mem (L.ctx j) = 0 → Started L w j t) ∧
      ∀ s0, read64 s.mem (L.ctx j) = s0.reg .rsp - 56 → Frame s.mem s0 → Room L j s0 →
        Resumed s0 t := by
  have hn := head_spec hf h
  obtain ⟨hcalls, hcont, hinit⟩ := call_shape hf
  rw [hcb] at hcalls hinit
  have hr := run_whole hcalls hp
  cases st with
  | true =>
    have hne : read64 s.mem (L.ctx j) ≠ 0 := fun h0 => by
      rw [h0] at hst
      cases hst
    rw [(hcont rfl).1, (hcont rfl).2] at hr
    generalize execs f.head s = u at hn hr
    have hmem := (restore_mem u).trans hn.mem
    have hback : ∀ s0, read64 s.mem (L.ctx j) = s0.reg .rsp - 56 → Frame s.mem s0 → Room L j s0 →
        Resumed s0 ((execs restore u).goto ((execs restore u).reg .r8)) :=
          fun s0 hs0 hframe0 hroom0 => by
      obtain ⟨hrsp, hframe⟩ := left_behind hroom hij hn hs0 hframe0 hroom0 rfl
      obtain ⟨h1, h2, h3, h4⟩ := restore_spec hframe hrsp
      generalize execs restore u = v at h1 h2 h3 h4 ⊢
      exact ⟨⟨h3, h2, h1⟩, h4⟩
    generalize execs restore u = v at hr hmem hback
    exact ⟨_, hr, hmem, fun h0 => absurd h0 hne, hback⟩
  | false =>
    have h0 : read64 s.mem (L.ctx j) = 0 := by simpa using hst
    obtain ⟨hcont, hexit⟩ := hinit rfl
    rw [hcont, hexit] at hr
    have hthread := hn.thread rfl
    have hstart := hn.start rfl
    rw [hcb] at hthread hstart
    refine ⟨_, hr, hn.mem, fun _ => ⟨hthread.2, hthread.1, hstart⟩, fun s0 hs0 _ hroom0 => ?_⟩
    exact absurd (hs0.symm.trans h0) hroom0.not_null

/-- Where it comes to when there is one. -/
theorem called {st : Bool} (hst : st = (read64 s.mem (L.ctx j) != 0)) {f : Fn} {args : List Word}
    (hf : c.call st (L.ctx i) (L.ctx j) (L.stacktop j) w = (f, args)) (h : Passed s args)
    (hroom : c.saves = true → Room L i s) (hij : i ≠ j) {g arg : Word}
    (hcb : c.cb = some (g, arg)) {b : Addr} (hp : Placed M s.rip f.code b) :
    ∃ t next, M.run f.steps s = some t ∧ t.rip = g ∧ t.reg .rdi = arg ∧
      t.mem = write64 (leftMem c s (L.ctx i)) (t.reg .rsp) next ∧ (∃ a, Placed M next f.tail a) ∧
      (read64 s.mem (L.ctx j) = 0 → InCallback L w t.mem j f t none) ∧
      ∀ s0, read64 s.mem (L.ctx j) = s0.reg .rsp - 56 → Frame s.mem s0 → Room L j s0 →
        InCallback L w t.mem j f t (some s0) := by
  have hn := head_spec hf h
  obtain ⟨hcalls, hcont, hinit⟩ := call_shape hf
  rw [hcb] at hcalls hinit
  obtain ⟨next, ha, hr⟩ := run_calls hcalls hp
  obtain ⟨hrsi, hrdi⟩ := hn.cb g arg hcb
  generalize execs f.head s = u at hn hr hrsi hrdi
  have hreg : ∀ r, r ≠ .rsp → ((u.push next).goto (u.reg .rsi)).reg r = u.reg r := fun r hr =>
    State.push_reg_of_ne u r next hr
  have hmem : ((u.push next).goto (u.reg .rsi)).mem = write64 (leftMem c s (L.ctx i))
    (u.reg .rsp - 8) next := by
    rw [State.goto_mem, State.push_mem, hn.mem]
    rfl
  have hsp : ((u.push next).goto (u.reg .rsi)).reg .rsp = u.reg .rsp - 8 := State.push_rsp u next
  refine ⟨_, next, hr, hrsi, (hreg .rdi (by decide)).trans hrdi, ?_, ha, fun h0 => ?_,
    fun s0 hs0 hframe0 hroom0 => ?_⟩
  · rw [hsp]
    exact hmem
  · have hst : st = false := by rw [hst, h0]; rfl
    have hthread := hn.thread hst
    have hstart := hn.start hst
    rw [hcb] at hthread hstart
    obtain ⟨h1, h2⟩ := hinit hst
    refine ⟨h1, h2, ?_, (hreg .r12 (by decide)).trans hthread.1,
      (hreg .r13 (by decide)).trans hthread.2⟩
    rw [hsp, hstart]
    rfl
  · have hst : st = true := by
      rw [hst]
      simpa [hs0] using hroom0.not_null
    obtain ⟨hrsp, hframe⟩ := left_behind hroom hij hn hs0 hframe0 hroom0 hst
    obtain ⟨h1, h2⟩ := hcont hst
    have hrsp' : u.reg .rsp - 8 = s0.reg .rsp - 64 := by
      rw [hrsp]
      bv_omega
    refine ⟨h1, h2, hsp.trans hrsp', hframe.congr fun x hx => ?_, hroom0⟩
    rw [State.goto_mem, State.push_mem, hrsp']
    exact write64_of_not (by unfold InFrame at hx; bv_omega)

/-! ## What a step keeps -/

/-- What a stream goes on with: the return of a call, or a new thread. -/
def Comes (L : Layout ι) (w : Addr) (j : ι) (t : X86.State) : Option X86.State → Prop
  | some s0 => Resumed s0 t
  | none => Started L w j t

theorem start_aligned (x : Word) : ((x &&& -16) - 8).toNat % 16 = 8 := by
  rw [align16]
  bv_omega

/-- Where `f_cb` has been entered. -/
theorem InCallback.place {m : Memory} {f : Fn} {b : Option X86.State}
    (h : InCallback L w m j f t b) :
    (t.reg .rsp).toNat % 16 = 8 ∧ ∀ x, (x - t.reg .rsp).toNat < 8 → L.stack j x := by
  cases b with
  | none =>
    obtain ⟨-, -, hsp, -, -⟩ := h
    rw [hsp]
    exact ⟨start_aligned _, L.top j⟩
  | some s0 =>
    obtain ⟨-, -, hsp, -, hroom⟩ := h
    have halign := hroom.1
    rw [hsp]
    exact ⟨by bv_omega, fun x hx => hroom.2 x (by bv_omega)⟩

/-- What `f_cb` comes back to stays there when the frame does. -/
theorem InCallback.congr {f : Fn} {b : Option X86.State} (h : InCallback L w m j f t b)
    (hm : ∀ s0, b = some s0 → Room L j s0 → ∀ x, InFrame s0 x → m' x = m x) :
    InCallback L w m' j f t b := by
  cases b with
  | none => exact h
  | some s0 =>
    obtain ⟨h1, h2, h3, h4, h5⟩ := h
    exact ⟨h1, h2, h3, h4.congr (hm s0 rfl h5), h5⟩

/-- Behind `f_cb`. -/
theorem back_spec {f : Fn} {entry : X86.State} {b : Option X86.State}
    (h : InCallback L w s.mem j f entry b) (hret : Returns entry s) {a : Addr}
    (ha : Placed M entry.top f.tail a) :
    ∃ t, M.run f.tail.length s = some t ∧ t.mem = s.mem ∧ Comes L w j t b := by
  rw [← hret.rip] at ha
  have hr := run_tail ha
  cases b with
  | some s0 =>
    obtain ⟨hcont, hexit, hsp, hframe, -⟩ := h
    rw [hcont, hexit] at hr
    have hrsp : s.reg .rsp = s0.reg .rsp - 56 := by
      rw [hret.rsp, hsp]
      bv_omega
    have hmem := restore_mem s
    obtain ⟨h1, h2, h3, h4⟩ := restore_spec hframe hrsp
    generalize execs restore s = v at hr hmem h1 h2 h3 h4
    exact ⟨_, hr, hmem, ⟨h3, h2, h1⟩, h4⟩
  | none =>
    obtain ⟨hcont, hexit, hsp, h12, h13⟩ := h
    rw [hcont, hexit] at hr
    have hrsp : s.reg .rsp + -8 = (L.stacktop j &&& -16) - 8 := by
      rw [hret.rsp, hsp]
      bv_omega
    exact ⟨_, hr, rfl, (hret.kept .r13 (by decide)).trans h13,
      (hret.kept .r12 (by decide)).trans h12, hrsp⟩

theorem Inv.work (h : Inv M L w σ) {m : Memory} (ho : σ.Own L m) {cpu : κ → Cpu} :
    Inv M L w { σ with cpu := cpu, mem := m } where
  cur := h.cur
  running := h.running
  fresh k hk := (read64_congr (ho.1 k)).trans (h.fresh k hk)
  saved k s0 hk := by
    obtain ⟨h1, h2, h3⟩ := h.saved k s0 hk
    exact ⟨(read64_congr (ho.1 k)).trans h1, h2.congr fun x hx => ho.2.1 k s0 x hk hx, h3⟩
  callback e f b t he := by
    obtain ⟨ha, hb⟩ := h.callback e f b t he
    exact ⟨ha, hb.congr fun s0 hs0 _ x hx => ho.2.2 e f s0 t x (hs0 ▸ he) hx⟩

theorem Inv.cur_ne (h : Inv M L w σ) (hj : σ.status j = .fresh ∨ ∃ s0, σ.status j = .saved s0) :
    σ.cur e ≠ j := fun hc => by
  have hcur := h.cur e
  rw [hc] at hcur
  rcases hj with hj | ⟨s0, hj⟩ <;> rw [hj] at hcur <;> cases hcur

theorem Inv.reinit [DecidableEq ι] (h : Inv M L w σ) (hj : σ.status j = .gone) :
    Inv M L w { σ.setStatus j .fresh with mem := write64 σ.mem (L.ctx j) 0 } := by
  have hne : ∀ {k : ι}, σ.status k ≠ .gone → k ≠ j := fun hk he => hk (he ▸ hj)
  have hother : ∀ k, k ≠ j →
      read64 (write64 σ.mem (L.ctx j) 0) (L.ctx k) = read64 σ.mem (L.ctx k) := fun k hk =>
    read64_congr fun x hx => write64_of_not (L.ctx_apart k j x hk hx)
  have hstack : ∀ k x, L.stack k x → write64 σ.mem (L.ctx j) 0 x = σ.mem x := fun k x hx =>
    write64_of_not fun hc => L.ctx_stack j k x hc hx
  refine ⟨fun e => ?_, fun k e hk => ?_, fun k hk => ?_, fun k s0 hk => ?_, fun e f b t he => ?_⟩
  · show Function.update σ.status j .fresh (σ.cur e) = _
    rw [Function.update_of_ne (hne (by rw [h.cur e]; exact fun h => by cases h)), h.cur e]
  · replace hk : Function.update σ.status j .fresh k = .running e := hk
    by_cases hkj : k = j
    · rw [hkj, Function.update_self] at hk
      cases hk
    · rw [Function.update_of_ne hkj] at hk
      exact h.running k e hk
  · replace hk : Function.update σ.status j .fresh k = .fresh := hk
    show read64 (write64 σ.mem (L.ctx j) 0) (L.ctx k) = 0
    by_cases hkj : k = j
    · rw [hkj]
      exact read64_write64 ..
    · rw [Function.update_of_ne hkj] at hk
      rw [hother k hkj, h.fresh k hk]
  · replace hk : Function.update σ.status j .fresh k = .saved s0 := hk
    by_cases hkj : k = j
    · rw [hkj, Function.update_self] at hk
      cases hk
    · rw [Function.update_of_ne hkj] at hk
      obtain ⟨h1, h2, h3⟩ := h.saved k s0 hk
      exact ⟨(hother k hkj).trans h1, h2.congr fun x hx => hstack k x (h3.frame hx), h3⟩
  · obtain ⟨ha, hb⟩ := h.callback e f b t he
    exact ⟨ha, hb.congr fun s0 _ hroom x hx => hstack _ x (hroom.frame hx)⟩

theorem on_setMode_put [DecidableEq κ] (σ : State ι κ) (e : κ) (t : X86.State) (md : Mode) :
    ((σ.put e t).setMode e md).on e = t := by
  show ({ Function.update σ.cpu e t.toCpu e with mem := t.mem } : X86.State) = t
  rw [Function.update_self]

variable [DecidableEq ι] [DecidableEq κ]

/-- The stream `e` leaves its thread for `j`, and comes to `t` there. -/
theorem Inv.switch (h : Inv M L w σ) {t : X86.State} {md : Mode}
    (hj : σ.status j = .fresh ∨ ∃ s0, σ.status j = .saved s0)
    (hroom : c.saves = true → Room L (σ.cur e) (σ.on e))
    (hmem : ∀ x, ¬ L.stack j x → t.mem x = leftMem c (σ.on e) (L.ctx (σ.cur e)) x)
    (hmd : ∀ f b u, md = .callback f b u → (∃ a, Placed M u.top f.tail a) ∧
      InCallback L w t.mem j f u b) :
    Inv M L w (((σ.switch e j c.saves).put e t).setMode e md) := by
  have hij := h.cur_ne (e := e) hj
  have hother : ∀ k, k ≠ σ.cur e → k ≠ j → read64 t.mem (L.ctx k) = read64 σ.mem (L.ctx k) ∧
      ∀ x, L.stack k x → t.mem x = σ.mem x := fun k hki hkj => by
    obtain ⟨h1, h2⟩ := leftMem_other hroom hki.symm
    exact ⟨(read64_congr fun x hx => hmem x (L.ctx_stack k j x hx)).trans h1,
      fun x hx => (hmem x (L.stack_apart k j x hkj hx)).trans (h2 x hx)⟩
  have hself : c.saves = true →
      read64 t.mem (L.ctx (σ.cur e)) = (σ.on e).reg .rsp - 56 ∧ Frame t.mem (σ.on e) := fun hs => by
    obtain ⟨h1, h2⟩ := savedMem_spec (hroom hs)
    have hl : leftMem c (σ.on e) (L.ctx (σ.cur e)) = savedMem (σ.on e) (L.ctx (σ.cur e)) :=
      if_pos hs
    rw [hl] at hmem
    exact ⟨(read64_congr fun x hx => hmem x (L.ctx_stack _ j x hx)).trans h1,
      h2.congr fun x hx => hmem x (L.stack_apart _ j x hij ((hroom hs).frame hx))⟩
  -- the threads and the streams that the switch does not move
  have hst : ∀ k, k ≠ σ.cur e → k ≠ j →
      (((σ.switch e j c.saves).put e t).setMode e md).status k = σ.status k := fun k hki hkj =>
    (Function.update_of_ne hkj _ _).trans (Function.update_of_ne hki _ _)
  have hsti : (((σ.switch e j c.saves).put e t).setMode e md).status (σ.cur e) =
      if c.saves then .saved (σ.on e) else .gone :=
    (Function.update_of_ne hij _ _).trans (Function.update_self _ _ _)
  have hstj : (((σ.switch e j c.saves).put e t).setMode e md).status j = .running e :=
    Function.update_self _ _ _
  have hcur : ∀ e', e' ≠ e → (((σ.switch e j c.saves).put e t).setMode e md).cur e' = σ.cur e' :=
    fun e' he => Function.update_of_ne he _ _
  have hcure : (((σ.switch e j c.saves).put e t).setMode e md).cur e = j :=
    Function.update_self _ _ _
  have hapart : ∀ e', e' ≠ e → σ.cur e' ≠ σ.cur e ∧ σ.cur e' ≠ j := fun e' he => by
    refine ⟨fun hc => ?_, h.cur_ne hj⟩
    have h1 := h.cur e'
    rw [hc, h.cur e] at h1
    exact he (Status.running.inj h1).symm
  refine ⟨fun e' => ?_, fun k e' hk => ?_, fun k hk => ?_, fun k s0 hk => ?_, fun e' f b u hu => ?_⟩
  · by_cases he : e' = e
    · rw [he, hcure, hstj]
    · rw [hcur e' he, hst _ (hapart e' he).1 (hapart e' he).2, h.cur e']
  · by_cases hkj : k = j
    · rw [hkj, hstj] at hk
      rw [← Status.running.inj hk, hcure, hkj]
    · by_cases hki : k = σ.cur e
      · rw [hki, hsti] at hk
        cases hs : c.saves <;> rw [hs] at hk <;> cases hk
      · rw [hst k hki hkj] at hk
        have hk := h.running k e' hk
        rw [hcur e' fun he => hki (by rw [← hk, he]), hk]
  · by_cases hkj : k = j
    · rw [hkj, hstj] at hk
      cases hk
    · by_cases hki : k = σ.cur e
      · rw [hki, hsti] at hk
        cases hs : c.saves <;> rw [hs] at hk <;> cases hk
      · rw [hst k hki hkj] at hk
        exact (hother k hki hkj).1.trans (h.fresh k hk)
  · by_cases hkj : k = j
    · rw [hkj, hstj] at hk
      cases hk
    · by_cases hki : k = σ.cur e
      · rw [hki, hsti] at hk
        cases hs : c.saves with
        | false =>
          rw [hs] at hk
          cases hk
        | true =>
          rw [hs] at hk
          cases hk
          rw [hki]
          exact ⟨(hself hs).1, (hself hs).2, hroom hs⟩
      · rw [hst k hki hkj] at hk
        obtain ⟨h1, h2, h3⟩ := h.saved k s0 hk
        obtain ⟨h4, h5⟩ := hother k hki hkj
        exact ⟨h4.trans h1, h2.congr fun x hx => h5 x (h3.frame hx), h3⟩
  · by_cases he : e' = e
    · subst he
      rw [hcure]
      exact hmd f b u ((Function.update_self _ _ _).symm.trans hu)
    · rw [hcur e' he]
      obtain ⟨ha, hb⟩ := h.callback e' f b u ((Function.update_of_ne he _ _).symm.trans hu)
      obtain ⟨-, h6⟩ := hother (σ.cur e') (hapart e' he).1 (hapart e' he).2
      exact ⟨ha, hb.congr fun s0 _ hroom x hx => h6 x (hroom.frame hx)⟩

/-! ## The steps -/

theorem Inv.call (h : Inv M L w σ) (hs : (sys M L w).step σ (.call e j c) σ') :
    Inv M L w σ' ∧ Evt M.step (· = σ'.on e) (σ.on e) ∧
      (c.cb = none → σ'.mem = leftMem c (σ.on e) (L.ctx (σ.cur e)) ∧
        (σ.status j = .fresh → Started L w j (σ'.on e)) ∧ ∀ s0, σ.status j = .saved s0 →
          Resumed s0 (σ'.on e)) ∧
      ∀ g arg, c.cb = some (g, arg) → σ'.mode e ≠ .own ∧ (σ'.on e).rip = g ∧
      (σ'.on e).reg .rdi = arg ∧
        ((σ'.on e).reg .rsp).toNat % 16 = 8 ∧ ∀ x, ¬ (x - (σ'.on e).reg .rsp).toNat < 8 →
          σ'.mem x = leftMem c (σ.on e) (L.ctx (σ.cur e)) x := by
  obtain ⟨-, hj, ⟨b, hp⟩, hargs, hroom, t, hrun, hσ'⟩ := hs
  have hij := h.cur_ne (e := e) hj
  generalize hf : c.call (σ.started L j) (L.ctx (σ.cur e)) (L.ctx j) (L.stacktop j) w =
    r at hp hargs hrun hσ'
  obtain ⟨fn, args⟩ := r
  have hcalls := (call_shape hf).1
  subst hσ'
  rw [on_setMode_put]
  cases hcb : c.cb with
  | none =>
    obtain ⟨t', hrun', hmem, hstart, hback⟩ := switched (s := σ.on e) rfl hf hargs hroom hij hcb hp
    obtain rfl : t' = t := Option.some.inj (hrun'.symm.trans hrun)
    refine ⟨h.switch hj hroom (fun x _ => by rw [hmem]) fun f b u hm => ?_, Machine.run_evt hrun
      (.here rfl), fun _ => ⟨hmem, fun hf => hstart (h.fresh j hf), fun s0 hs0 => ?_⟩,
      fun g arg hg => (by cases hg)⟩
    · rw [hcalls, hcb] at hm
      cases hm
    · obtain ⟨h1, h2, h3⟩ := h.saved j s0 hs0
      exact hback s0 h1 h2 h3
  | some q =>
    obtain ⟨g, arg⟩ := q
    obtain ⟨t', next, hrun', hrip, hrdi, hmem, ha, hnew, hback⟩ :=
      called (s := σ.on e) rfl hf hargs hroom hij hcb hp
    obtain rfl : t' = t := Option.some.inj (hrun'.symm.trans hrun)
    have hin : InCallback L w t'.mem j fn t' (σ.left j) := by
      unfold State.left
      rcases hj with hf | ⟨s0, hs0⟩
      · rw [hf]
        exact hnew (h.fresh j hf)
      · rw [hs0]
        obtain ⟨h1, h2, h3⟩ := h.saved j s0 hs0
        exact hback s0 h1 h2 h3
    obtain ⟨halign, hpush⟩ := hin.place
    have htop : t'.top = next := by
      unfold State.top
      rw [hmem, read64_write64]
    refine ⟨h.switch hj hroom (fun x hx => ?_) fun f b u hm => ?_, Machine.run_evt hrun (.here rfl),
      fun hn => (by cases hn), fun g' arg' hg => ⟨?_, ?_, ?_, halign, fun x hx => ?_⟩⟩
    · rw [hmem]
      exact write64_of_not fun hx' => hx (hpush x hx')
    · rw [hcalls, hcb] at hm
      cases hm
      exact ⟨htop ▸ ha, hin⟩
    · intro hm
      replace hm := (Function.update_self _ _ _).symm.trans hm
      rw [hcalls, hcb] at hm
      cases hm
    · cases hg
      exact hrip
    · cases hg
      exact hrdi
    · show t'.mem x = _
      rw [hmem]
      exact write64_of_not hx

theorem Inv.back (h : Inv M L w σ) (hs : (sys M L w).step σ (.back e) σ') :
    Inv M L w σ' ∧ Evt M.step (· = σ'.on e) (σ.on e) ∧ σ'.mem = σ.mem ∧
      ∃ f b u, σ.mode e = .callback f b u ∧ Comes L w (σ.cur e) (σ'.on e) b := by
  obtain ⟨f, b, entry, hmode, hret, t, hrun, rfl⟩ := hs
  obtain ⟨⟨a, ha⟩, hin⟩ := h.callback e f b entry hmode
  obtain ⟨t', hrun', hmem, hcomes⟩ := back_spec (s := σ.on e) hin hret ha
  obtain rfl : t' = t := Option.some.inj (hrun'.symm.trans hrun)
  have hm : t'.mem = σ.mem := hmem
  have hw : Inv M L w (σ.put e t') :=
    h.work ⟨fun _ _ _ => by rw [hm], fun _ _ _ _ _ => by rw [hm], fun _ _ _ _ _ _ _ => by rw [hm]⟩
  rw [on_setMode_put]
  refine ⟨⟨hw.cur, hw.running, hw.fresh, hw.saved, fun e' f' b' u he => ?_⟩, Machine.run_evt hrun
    (.here rfl), hm, f, b, entry, hmode, hcomes⟩
  by_cases hee : e' = e
  · rw [hee] at he
    cases (Function.update_self _ _ _).symm.trans he
  · exact hw.callback e' f' b' u ((Function.update_of_ne hee _ _).symm.trans he)

theorem Inv.step {l : Label ι κ} (h : Inv M L w σ) (hs : (sys M L w).step σ l σ') :
    Inv M L w σ' := by
  cases l with
  | work e t =>
    obtain ⟨ho, rfl⟩ := hs
    exact h.work ho
  | reinit j =>
    obtain ⟨hj, rfl⟩ := hs
    exact h.reinit hj
  | call e j c => exact (h.call hs).1
  | back e => exact (h.back hs).1

theorem inv_of_reach (h : (sys M L w).Reach σ) : Inv M L w σ := by
  refine LTS.ReachIf.induct (fun s hs => ?_) (fun s l s' h _ hs => h.step hs) h
  obtain ⟨h1, h2⟩ := hs
  -- nothing has been saved yet
  have hno : ∀ j, s.status j = .fresh ∧ read64 s.mem (L.ctx j) = 0 ∨
    (∃ e, s.cur e = j ∧ s.status j = .running e) ∨
      s.status j = .gone := fun j => (h2 j).imp_right fun h => h.imp_left fun ⟨e, he⟩ =>
        ⟨e, he, he ▸ (h1 e).2⟩
  refine ⟨fun e => (h1 e).2, fun j e hj => ?_, fun j hj => ?_, fun j s0 hj => ?_,
    fun e f b u he => ?_⟩
  · rcases hno j with ⟨hf, -⟩ | ⟨e', he', hr⟩ | hg
    · cases hf.symm.trans hj
    · rw [← Status.running.inj (hr.symm.trans hj), he']
    · cases hg.symm.trans hj
  · rcases hno j with ⟨-, h0⟩ | ⟨e', -, hr⟩ | hg
    · exact h0
    · cases hr.symm.trans hj
    · cases hg.symm.trans hj
  · rcases hno j with ⟨hf, -⟩ | ⟨e', -, hr⟩ | hg
    · cases hf.symm.trans hj
    · cases hr.symm.trans hj
    · cases hg.symm.trans hj
  · cases (h1 e).1.symm.trans he

/-- `j` is not running: it has left with a call, or it is new. -/
def Away (σ : State ι κ) (j : ι) : Option X86.State → Prop
  | some s0 => σ.status j = .saved s0
  | none => σ.status j = .fresh

/-- A step in which a stream comes to the code of a thread that it was not in. -/
theorem goes_on {l : Label ι κ} (h : Inv M L w σ) (hs : (sys M L w).step σ l σ')
    {b : Option X86.State} (hleft : Away σ j b ∨ σ.cur e = j ∧ ∃ f u, σ.mode e = .callback f b u)
    (hcur : σ'.cur e = j) (hown : σ'.mode e = .own) :
    Evt M.step (· = σ'.on e) (σ.on e) ∧ Comes L w j (σ'.on e) b ∧
      ∀ x, ¬ (x - L.ctx (σ.cur e)).toNat < 8 → ¬ Below ((σ.on e).reg .rsp) 56 x →
        σ'.mem x = σ.mem x := by
  have haway : σ.cur e = j → ¬ Away σ j b := fun hc ha => by
    have hr := h.cur e
    rw [hc] at hr
    cases b <;> cases hr.symm.trans ha
  -- a step of another stream, or one that does not switch
  have hstay : σ'.cur e = σ.cur e → σ'.mode e = σ.mode e → False := fun h1 h2 => by
    rcases hleft with ha | ⟨-, f, u, hm⟩
    · exact haway (h1.symm.trans hcur) ha
    · cases hm.symm.trans (h2.symm.trans hown)
  cases l with
  | work e' t =>
    obtain ⟨-, rfl⟩ := hs
    exact (hstay rfl rfl).elim
  | reinit j' =>
    obtain ⟨-, rfl⟩ := hs
    exact (hstay rfl rfl).elim
  | call e' j' c =>
    obtain ⟨-, hevt, hnone, hsome⟩ := h.call hs
    obtain ⟨hmode, -, -, -, -, t, -, hσ'⟩ := hs
    by_cases hee : e = e'
    swap
    · refine (hstay ?_ ?_).elim <;> rw [hσ'] <;> exact Function.update_of_ne hee _ _
    subst hee
    have hj' : j' = j := by
      rw [hσ'] at hcur
      exact (Function.update_self _ _ _).symm.trans hcur
    subst hj'
    cases hcb : c.cb with
    | some q => exact absurd hown (hsome q.1 q.2 hcb).1
    | none =>
      obtain ⟨hmem, hnew, hback⟩ := hnone hcb
      refine ⟨hevt, ?_, fun x hc hb => ?_⟩
      · rcases hleft with ha | ⟨-, f, u, hm⟩
        · cases b with
          | none => exact hnew ha
          | some s0 => exact hback s0 ha
        · cases hm.symm.trans hmode
      · rw [hmem]
        unfold leftMem
        split
        · exact savedMem_of_not hc hb
        · rfl
  | back e' =>
    obtain ⟨-, hevt, hmem, f, b', u, hm, hcomes⟩ := h.back hs
    obtain ⟨-, -, -, -, -, t, -, hσ'⟩ := hs
    by_cases hee : e = e'
    swap
    · refine (hstay ?_ ?_).elim <;> rw [hσ']
      · rfl
      · exact Function.update_of_ne hee _ _
    subst hee
    have hc : σ.cur e = j := by
      rw [hσ'] at hcur
      exact hcur
    rcases hleft with ha | ⟨-, f', u', hm'⟩
    · exact absurd ha (haway hc)
    · cases hm.symm.trans hm'
      exact ⟨hevt, hc ▸ hcomes, fun x _ _ => by rw [hmem]⟩

/-- From a state of a run, and with the code in its place, a call can be made. -/
theorem Inv.can_call (h : Inv M L w σ) (hmode : σ.mode e = .own)
    (hj : σ.status j = .fresh ∨ ∃ s0, σ.status j = .saved s0) {f : Fn} {args : List Word}
    (hf : c.call (σ.started L j) (L.ctx (σ.cur e)) (L.ctx j) (L.stacktop j) w = (f, args))
    {b : Addr} (hp : Placed M (σ.on e).rip f.code b) (hargs : Passed (σ.on e) args)
    (hroom : c.saves = true → Room L (σ.cur e) (σ.on e)) :
    ∃ t, (sys M L w).step σ (.call e j c) (((σ.switch e j c.saves).put e t).setMode e
      (if f.calls then .callback f (σ.left j) t else .own)) := by
  have hrun : ∃ t, M.run f.steps (σ.on e) = some t := by
    cases hcb : c.cb with
    | none =>
      obtain ⟨t, hrun, -⟩ := switched (s := σ.on e) rfl hf hargs hroom (h.cur_ne hj) hcb hp
      exact ⟨t, hrun⟩
    | some q =>
      obtain ⟨t, -, hrun, -⟩ := called (s := σ.on e) rfl hf hargs hroom (h.cur_ne hj) hcb hp
      exact ⟨t, hrun⟩
  obtain ⟨t, hrun⟩ := hrun
  obtain ⟨rfl, rfl⟩ : (c.call (σ.started L j) (L.ctx (σ.cur e)) (L.ctx j) (L.stacktop j) w).1 = f ∧
      (c.call (σ.started L j) (L.ctx (σ.cur e)) (L.ctx j) (L.stacktop j) w).2 = args := by
    rw [hf]
    exact ⟨rfl, rfl⟩
  exact ⟨t, hmode, hj, ⟨b, hp⟩, hargs, hroom, t, hrun, rfl⟩

end

/-! ## A run -/

/-- Two threads, with their stacks of 64 KB. -/
def sampleLayout : Layout Bool where
  ctx j := if j then 0x2000 else 0x1000
  stack j x := (if j then 0x20000 else 0x10000) < x.toNat ∧ x.toNat < if j then 0x30000 else 0x20000
  stacktop j := if j then 0x30000 else 0x20000
  ctx_apart i j x hij := by
    cases i <;> cases j <;> simp only [Bool.false_eq_true, if_true, if_false]
    · exact absurd rfl hij
    · bv_omega
    · bv_omega
    · exact absurd rfl hij
  stack_apart i j x hij := by
    cases i <;> cases j <;> simp only [Bool.false_eq_true, if_true, if_false]
    · exact absurd rfl hij
    · omega
    · omega
    · exact absurd rfl hij
  ctx_stack i j x := by
    cases i <;> cases j <;> simp only [Bool.false_eq_true, if_true, if_false] <;> bv_omega
  not_null i h := by cases i <;> cases Nat.not_lt_zero _ h.1
  top i x := by
    have h1 : (0x20000 : Word) &&& -16 = 0x20000 := by decide
    have h2 : (0x30000 : Word) &&& -16 = 0x30000 := by decide
    cases i <;> simp only [Bool.false_eq_true, if_true, if_false, h1, h2] <;> bv_omega

/-- The code of three functions. -/
def sampleMachine : Machine where
  fetch a := if a.toNat < 0x4000 then listing 0x3000 init_and_switch_with_call_fcontext.code a
    else if a.toNat < 0x5000 then listing 0x4000 init_and_switch_fcontext.code a
    else listing 0x5000 switch_fcontext.code a
  kernel s := s
  foreign _ := none

/-- A core at the call of a function at `rip`. -/
def sampleCpu (rip rsp : Word) (args : List Word) : Cpu where
  reg r := if r = .rsp then rsp
    else (([Reg.rdi, .rsi, .rdx, .rcx, .r8, .r9].zip args).lookup r).getD 0
  flags := ⟨false, false, false, false⟩
  fpu := ⟨0x1f80, 0x37f⟩
  rip := rip

/-- The first thread is about to start the second one. -/
def sampleStart (s : Cpu) : State Bool Unit where
  cpu _ := s
  mem _ := 0
  cur _ := false
  mode _ := .own
  status j := if j then .fresh else .running ()

def sampleSwitch : State Bool Unit :=
  sampleStart (sampleCpu 0x4000 0x18008 [0x2000, 0x6000, 0x30000, 0x1000])

def sampleCall : State Bool Unit :=
  sampleStart (sampleCpu 0x3000 0x18008 [7, 0x7000, 0x2000, 0x6000, 0x30000, 0x1000])

theorem sampleStart_reach (s : Cpu) :
    (sys sampleMachine sampleLayout 0x6000).Reach (sampleStart s) :=
  .init ⟨fun _ => ⟨rfl, rfl⟩, fun j => by
    cases j
    · exact .inr (.inl ⟨(), rfl⟩)
    · exact .inl ⟨rfl, show read64 (fun _ => 0) 0x2000 = 0 by decide⟩⟩

theorem sample_room {s : X86.State} (h : s.reg .rsp = 0x18008) : Room sampleLayout false s := by
  unfold Room
  rw [h]
  refine ⟨by decide, fun x hx => ?_⟩
  show 0x10000 < x.toNat ∧ x.toNat < 0x20000
  bv_omega

theorem sampleSwitch_step : ∃ t, (sys sampleMachine sampleLayout 0x6000).step sampleSwitch
    (.call () true ⟨true, none⟩) (((sampleSwitch.switch () true true).put () t).setMode () .own) :=
  have hf : Switch.call ⟨true, none⟩ (sampleSwitch.started sampleLayout true) 0x1000 0x2000
      0x30000 0x6000 = (init_and_switch_fcontext, [0x2000, 0x6000, 0x30000, 0x1000]) := rfl
  (inv_of_reach (sampleStart_reach _)).can_call (e := ()) (j := true) (c := ⟨true, none⟩) rfl
    (.inl rfl) hf (b := 0x400d) (by decide) (by unfold Passed; decide) fun _ => sample_room rfl

theorem sampleCall_step : ∃ σ', (sys sampleMachine sampleLayout 0x6000).step sampleCall
    (.call () true ⟨true, some (0x7000, 7)⟩) σ' := by
  have hf : Switch.call ⟨true, some (0x7000, 7)⟩ (sampleCall.started sampleLayout true) 0x1000
      0x2000 0x30000 0x6000 =
      (init_and_switch_with_call_fcontext, [7, 0x7000, 0x2000, 0x6000, 0x30000, 0x1000]) := rfl
  obtain ⟨t, hs⟩ := (inv_of_reach (sampleStart_reach _)).can_call (e := ()) (j := true)
    (c := ⟨true, some (0x7000, 7)⟩) rfl (.inl rfl) hf (b := 0x3012) (by decide)
    (by unfold Passed; decide) fun _ => sample_room rfl
  exact ⟨_, hs⟩

/-- The second thread has run, and is about to switch back. -/
def sampleBack (t : X86.State) : State Bool Unit :=
  (((sampleSwitch.switch () true true).put () t).setMode () .own).put ()
    { sampleCpu 0x5000 0x28008 [0x1000, 0x2000] with mem := t.mem }

theorem sample_reach : ∃ t, (sys sampleMachine sampleLayout 0x6000).Reach (sampleBack t) := by
  obtain ⟨t, hs⟩ := sampleSwitch_step
  have h0 : (sys sampleMachine sampleLayout 0x6000).Reach sampleSwitch := sampleStart_reach _
  have h1 := h0.step (a := .call () true ⟨true, none⟩) trivial hs
  exact ⟨t, h1.step (a := .work () { sampleCpu 0x5000 0x28008 [0x1000, 0x2000] with mem := t.mem })
    trivial
    ⟨⟨fun _ _ _ => rfl, fun _ _ _ _ _ => rfl, fun _ _ _ _ _ _ _ => rfl⟩, rfl⟩⟩

theorem sample_call {t : X86.State}
    (h : (sys sampleMachine sampleLayout 0x6000).Reach (sampleBack t)) :
    ∃ σ', (sys sampleMachine sampleLayout 0x6000).step (sampleBack t)
      (.call () false ⟨true, none⟩) σ' ∧ σ'.cur () = false ∧ σ'.mode () = .own := by
  have hi := inv_of_reach h
  have h0 : read64 t.mem 0x1000 = (0x18008 : Word) - 56 :=
    (hi.saved false (sampleSwitch.on ()) rfl).1
  have hst : (read64 t.mem 0x1000 != 0) = true := by
    rw [h0]
    rfl
  have hf : Switch.call ⟨true, none⟩ (read64 t.mem 0x1000 != 0) 0x2000 0x1000 0x20000 0x6000 =
      (switch_fcontext, [0x1000, 0x2000]) := by
    rw [hst]
    rfl
  obtain ⟨u, hs⟩ := hi.can_call (e := ()) (j := false) (c := ⟨true, none⟩) rfl (.inr ⟨_, rfl⟩) hf
    (b := 0x5016) (show Placed sampleMachine 0x5000 switch_fcontext.code 0x5016 by decide)
    (show ∀ p ∈ [Reg.rdi, .rsi, .rdx, .rcx, .r8, .r9].zip [0x1000, 0x2000],
      (sampleCpu 0x5000 0x28008 [0x1000, 0x2000]).reg p.1 = p.2 by decide)
    fun _ => ⟨show (0x28008 : Word).toNat % 16 = 8 by decide, fun x hx => by
      have hx : (x - (0x28008 - 64)).toNat < 72 := hx
      show 0x20000 < x.toNat ∧ x.toNat < 0x30000
      bv_omega⟩
  exact ⟨_, hs, rfl, rfl⟩

section
variable {ι κ : Type} [DecidableEq ι] [DecidableEq κ] {L : Layout ι} {w : Addr} {σ σ' : State ι κ}
  {e : κ} {j : ι}
  {l : Label ι κ}

/-- Whatever the threads have done on any stream since a thread left with a call of one of the
functions: when a stream goes on with it, the call returns, by the calling convention, and the step
has written to nothing but the context and the stack of the thread that it leaves. -/
theorem context_switch_returns (h : (sys M L w).Reach σ) (hs : (sys M L w).step σ l σ')
    (hleft : σ.status j = .saved s0 ∨ σ.cur e = j ∧ ∃ f u, σ.mode e = .callback f (some s0) u)
    (hcur : σ'.cur e = j) (hown : σ'.mode e = .own) :
    Evt M.step (· = σ'.on e) (σ.on e) ∧ Resumed s0 (σ'.on e) ∧
      ∀ x, ¬ (x - L.ctx (σ.cur e)).toNat < 8 → ¬ Below ((σ.on e).reg .rsp) 56 x →
        σ'.mem x = σ.mem x :=
  goes_on (b := some s0) (inv_of_reach h) hs hleft hcur hown

end

theorem context_switch_returns_sample : ∃ σ σ' : State Bool Unit,
    σ.status false = .saved (sampleSwitch.on ()) ∧ σ'.cur () = false ∧
      Evt sampleMachine.step (· = σ'.on ()) (σ.on ()) ∧ Resumed (sampleSwitch.on ()) (σ'.on ()) ∧
      ∀ x, ¬ (x - sampleLayout.ctx (σ.cur ())).toNat < 8 → ¬ Below ((σ.on ()).reg .rsp) 56 x →
        σ'.mem x = σ.mem x := by
  obtain ⟨t, h⟩ := sample_reach
  obtain ⟨σ', hs, hcur, hown⟩ := sample_call h
  exact ⟨_, σ', rfl, hcur, context_switch_returns h hs (.inl rfl) hcur hown⟩

section
variable {ι κ : Type} [DecidableEq ι] [DecidableEq κ] {L : Layout ι} {w : Addr} {σ σ' : State ι κ}
  {e : κ} {j : ι}
  {l : Label ι κ}

/-- A new thread enters its function with its context as the argument and an aligned stack of its
own, also when `f_cb` has run on that stack before. -/
theorem thread_starts (h : (sys M L w).Reach σ) (hs : (sys M L w).step σ l σ')
    (hnew : σ.status j = .fresh ∨ σ.cur e = j ∧ ∃ f u, σ.mode e = .callback f none u)
    (hcur : σ'.cur e = j) (hown : σ'.mode e = .own) :
    Evt M.step (· = σ'.on e) (σ.on e) ∧ Started L w j (σ'.on e) ∧
    ((σ'.on e).reg .rsp).toNat % 16 = 8 := by
  obtain ⟨h1, h2, -⟩ := goes_on (b := none) (inv_of_reach h) hs hnew hcur hown
  have h2 : Started L w j (σ'.on e) := h2
  refine ⟨h1, h2, ?_⟩
  rw [h2.rsp]
  exact start_aligned _

end

theorem thread_starts_sample : ∃ σ : State Bool Unit,
    Evt sampleMachine.step (· = σ.on ()) (sampleSwitch.on ()) ∧
    Started sampleLayout 0x6000 true (σ.on ()) ∧ ((σ.on ()).reg .rsp).toNat % 16 = 8 := by
  obtain ⟨t, hs⟩ := sampleSwitch_step
  exact ⟨_, thread_starts (j := true) (sampleStart_reach _) hs (.inl rfl) rfl rfl⟩

section
variable {ι κ : Type} [DecidableEq ι] [DecidableEq κ] {L : Layout ι} {w : Addr} {σ σ' : State ι κ}
  {e : κ} {j : ι}

/-- `f_cb` is entered with its argument and an aligned stack. The thread that the call leaves can be
gone on with by then: its context has the address of its frame. Until then nothing has been written
but these two and the return address of `f_cb`. -/
theorem callback_enters {saves : Bool} {g arg : Word} (h : (sys M L w).Reach σ)
    (hs : (sys M L w).step σ (.call e j ⟨saves, some (g, arg)⟩) σ') :
    Evt M.step (· = σ'.on e) (σ.on e) ∧ (σ'.on e).rip = g ∧ (σ'.on e).reg .rdi = arg ∧
      ((σ'.on e).reg .rsp).toNat % 16 = 8 ∧
      (saves = true → σ'.status (σ.cur e) = .saved (σ.on e) ∧
        read64 σ'.mem (L.ctx (σ.cur e)) = (σ.on e).reg .rsp - 56 ∧ Frame σ'.mem (σ.on e)) ∧
      ∀ x, ¬ (x - (σ'.on e).reg .rsp).toNat < 8 →
        (saves = true → ¬ (x - L.ctx (σ.cur e)).toNat < 8 ∧ ¬ Below ((σ.on e).reg .rsp) 56 x) →
        σ'.mem x = σ.mem x := by
  obtain ⟨hi, h1, -, h2⟩ := (inv_of_reach h).call hs
  obtain ⟨-, h3, h4, h5, h6⟩ := h2 g arg rfl
  refine ⟨h1, h3, h4, h5, fun hsaves => ?_, fun x hx hold => (h6 x hx).trans ?_⟩
  · have hstatus : σ'.status (σ.cur e) = .saved (σ.on e) := by
      obtain ⟨-, hj, -, -, -, t, -, rfl⟩ := hs
      have hij := (inv_of_reach h).cur_ne (e := e) hj
      show Function.update (Function.update σ.status (σ.cur e) _) j _ (σ.cur e) = _
      rw [Function.update_of_ne hij, Function.update_self, if_pos hsaves]
    obtain ⟨hctx, hframe, -⟩ := hi.saved _ _ hstatus
    exact ⟨hstatus, hctx, hframe⟩
  · unfold leftMem
    split
    · rename_i hsaves
      exact savedMem_of_not (hold hsaves).1 (hold hsaves).2
    · rfl

end

theorem callback_enters_sample : ∃ σ : State Bool Unit,
    Evt sampleMachine.step (· = σ.on ()) (sampleCall.on ()) ∧ (σ.on ()).rip = 0x7000 ∧
    (σ.on ()).reg .rdi = 7 ∧
      ((σ.on ()).reg .rsp).toNat % 16 = 8 ∧ σ.status false = .saved (sampleCall.on ()) ∧
      read64 σ.mem 0x1000 = 0x17fd0 ∧ Frame σ.mem (sampleCall.on ()) := by
  obtain ⟨σ', hs⟩ := sampleCall_step
  obtain ⟨h1, h2, h3, h4, h5, -⟩ := callback_enters (sampleStart_reach _) hs
  obtain ⟨hstatus, hctx, hframe⟩ := h5 rfl
  have hold : sampleLayout.ctx (sampleCall.cur ()) = 0x1000 := rfl
  have hrsp : (sampleCall.on ()).reg .rsp = 0x18008 := rfl
  have h56 : (0x18008 : Word) - 56 = 0x17fd0 := by decide
  have hctx' := (congrArg (read64 σ'.mem) hold).symm.trans
    (hctx.trans ((congrArg (· - 56) hrsp).trans h56))
  exact ⟨σ', h1, h2, h3, h4, hstatus, hctx', hframe⟩

end Fcontext
