import Staut.Pthread.Lazy

/-!
# Initialised once

The object goes through three phases (`Phase`): all zero, busy in the hands of one ULT, and ready
with the address of the one wrapper. It stays in the last one as long as the low half of the address
is neither of the two flag values: alignment rules out `0xffffffff`, nothing rules out 0
(`initialised_once`, `initialised_twice`). A condition variable needs a clock for `NULL` as well.
-/

set_option autoImplicit false

namespace Pthread

open Run

/-- Before the compare-and-swap. -/
def Pc.Early : Pc → Prop
  | .idle | .test | .cas => True
  | _ => False

/-- Not initialising. -/
def Pc.Outside : Pc → Prop
  | .create | .clock _ | .store _ => False
  | _ => True

/-- Not past the polling loop. -/
def Pc.Held : Pc → Prop
  | .idle | .test | .cas | .wait => True
  | _ => False

/-- An address that does not look like a flag. -/
def Plain (w : Nat) : Prop := w % 2 ^ 32 ≠ oldMagic ∧ w % 2 ^ 32 ≠ newMagic

inductive Phase (s : State) : Prop
  | zero : s.word = 0 → s.wraps = [] → s.rets = [] → (∀ t, (s.pc t).Early) → Phase s
  | busy {t : Nat} : s.word = newMagic → s.rets = [] →
      (s.pc t = .create ∧ s.wraps = [] ∨ ∃ w, (s.pc t = .clock w ∨ s.pc t = .store w) ∧
        s.wraps = [w] ∧ Plain w) →
      (∀ u, u ≠ t → (s.pc u).Held) → Phase s
  | ready {w : Nat} : s.word = w → s.wraps = [w] → Plain w → (∀ r ∈ s.rets, r = handleOf w) →
      (∀ t, (s.pc t).Outside) → Phase s

@[simp] theorem goto_pc (s : State) (t : Nat) (pc : Pc) (u : Nat) :
    (s.goto t pc).pc u = if u = t then pc else s.pc u := Function.update_apply _ _ _ _
@[simp] theorem goto_word (s : State) (t : Nat) (pc : Pc) : (s.goto t pc).word = s.word := rfl
@[simp] theorem goto_wraps (s : State) (t : Nat) (pc : Pc) : (s.goto t pc).wraps = s.wraps := rfl
@[simp] theorem goto_crashed (s : State) (t : Nat) (pc : Pc) : (s.goto t pc).crashed = s.crashed :=
  rfl
@[simp] theorem goto_rets (s : State) (t : Nat) (pc : Pc) : (s.goto t pc).rets = s.rets := rfl

/-- The wrapper's address has a low half that is not 0. -/
def LowHalf (s : State) (l : Nat × Nat) : Prop := s.pc l.1 = .create → l.2 % 2 ^ 32 ≠ 0

theorem plain_of_aligned {a : Nat} (h16 : a % 16 = 0) (h0 : a % 2 ^ 32 ≠ 0) : Plain a := by
  refine ⟨h0, ?_⟩
  unfold newMagic
  omega

/-- Moving one ULT keeps what all of them keep to. -/
theorem forall_goto {s : State} {t : Nat} {pc : Pc} {P : Pc → Prop} (h : ∀ u, P (s.pc u))
    (hp : P pc) : ∀ u, P ((s.goto t pc).pc u) := by
  intro u
  rw [goto_pc]
  split
  · exact hp
  · exact h u

section
variable {getclock : Option Int → Option Int} {o : Obj} {s : State} {t a : Nat}

theorem Phase.step_zero (h0 : s.word = 0) (hw : s.wraps = []) (hr : s.rets = [])
    (hp : ∀ u, (s.pc u).Early) : Phase (s.step getclock o t a) := by
  have hm : s.magic = oldMagic := by simp [State.magic, h0, oldMagic]
  have ht := hp t
  cases hpc : s.pc t with
  | idle =>
    simp only [State.step, hpc]
    refine .zero h0 hw hr (forall_goto hp ?_)
    cases o <;> trivial
  | test =>
    simp only [State.step, hpc, hm, ↓reduceIte]
    exact .zero h0 hw hr (forall_goto hp trivial)
  | cas =>
    simp only [State.step, hpc, hm, ↓reduceIte]
    refine .busy (t := t) (by simp [h0]) hr (.inl ⟨by simp, hw⟩) fun u hu => ?_
    have hu' := hp u
    rw [goto_pc, if_neg hu]
    cases hpu : s.pc u <;> simp [hpu, Pc.Early, Pc.Held] at hu' ⊢
  | create => simp [hpc, Pc.Early] at ht
  | clock w => simp [hpc, Pc.Early] at ht
  | store w => simp [hpc, Pc.Early] at ht
  | wait => simp [hpc, Pc.Early] at ht
  | load => simp [hpc, Pc.Early] at ht

/-- While one ULT initialises the object, the others do not get past their tests. -/
theorem held_step (getclock : Option Int → Option Int) (o : Obj) (a : Nat) (hm : s.word = newMagic)
    (ht : (s.pc t).Held) :
    ∃ pc, Pc.Held pc ∧ ((s.step getclock o t a) = s ∨ s.step getclock o t a = s.goto t pc) := by
  have hne : s.magic ≠ oldMagic := by simp [State.magic, hm, oldMagic, newMagic]
  have heq : s.magic = newMagic := by simp [State.magic, hm, newMagic]
  cases hpc : s.pc t with
  | idle =>
    refine ⟨o.entry, ?_, .inr ?_⟩
    · cases o <;> trivial
    · simp only [State.step, hpc]
  | test => exact ⟨.wait, trivial, .inr (by simp only [State.step, hpc, hne, ↓reduceIte])⟩
  | cas => exact ⟨.wait, trivial, .inr (by simp only [State.step, hpc, hne, ↓reduceIte])⟩
  | wait => exact ⟨.wait, trivial, .inl (by simp only [State.step, hpc, heq, ↓reduceIte])⟩
  | create => simp [hpc, Pc.Held] at ht
  | clock w => simp [hpc, Pc.Held] at ht
  | store w => simp [hpc, Pc.Held] at ht
  | load => simp [hpc, Pc.Held] at ht

theorem Pc.Held.outside {pc : Pc} (h : pc.Held) : pc.Outside := by
  cases pc <;> simp [Pc.Held, Pc.Outside] at h ⊢

/-- The step of the ULT that initialises the object. -/
theorem Phase.step_own (hclock : o = .cond → getclock none ≠ none) (hm : s.word = newMagic)
    (hr : s.rets = []) (ht : s.pc t = .create ∧ s.wraps = [] ∨
      ∃ w, (s.pc t = .clock w ∨ s.pc t = .store w) ∧ s.wraps = [w] ∧ Plain w)
    (hobj : ∀ w, s.pc t = .clock w → o = .cond) (hp : ∀ v, v ≠ t → (s.pc v).Held)
    (ha : s.pc t = .create → Plain a) : Phase (s.step getclock o t a) := by
  have hother : ∀ pc, ∀ v, v ≠ t → ((s.goto t pc).pc v).Held := fun pc v hv => by
    rw [goto_pc, if_neg hv]
    exact hp v hv
  rcases ht with ⟨hpc, hw⟩ | ⟨w, hpc | hpc, hw, hplain⟩
  · simp only [State.step, hpc]
    refine .busy (t := t) hm hr (.inr ⟨a, ?_, by simp [hw], ha hpc⟩) (hother _)
    cases o
    · exact .inr (by simp [Obj.created])
    · exact .inl (by simp [Obj.created])
  · cases hc : getclock none with
    | none => exact absurd hc (hclock (hobj w hpc))
    | some c =>
      simp only [State.step, hpc, hc]
      exact .busy (t := t) hm hr (.inr ⟨w, .inr (by simp), hw, hplain⟩) (hother _)
  · simp only [State.step, hpc]
    refine .ready rfl hw hplain (by simp [hr]) fun v => ?_
    rw [goto_pc]
    split
    · cases o <;> trivial
    · rename_i hv
      exact (hp v hv).outside

theorem Phase.step_busy {u : Nat} (hclock : o = .cond → getclock none ≠ none)
    (hm : s.word = newMagic) (hr : s.rets = []) (hu : s.pc u = .create ∧ s.wraps = [] ∨
      ∃ w, (s.pc u = .clock w ∨ s.pc u = .store w) ∧ s.wraps = [w] ∧ Plain w)
    (hobj : ∀ t w, s.pc t = .clock w → o = .cond) (hp : ∀ v, v ≠ u → (s.pc v).Held)
    (ha : s.pc t = .create → Plain a) : Phase (s.step getclock o t a) := by
  by_cases htu : t = u
  · subst htu
    exact Phase.step_own hclock hm hr hu (hobj t) hp ha
  · obtain ⟨pc, hheld, hs | hs⟩ := held_step getclock o a hm (hp t htu)
    · rw [hs]
      exact .busy hm hr hu hp
    · rw [hs]
      refine .busy (t := u) hm hr ?_ fun v hv => ?_
      · rw [goto_pc, if_neg (Ne.symm htu)]
        exact hu
      · rw [goto_pc]
        split
        · exact hheld
        · exact hp v hv

theorem Phase.step_ready {w : Nat} (hw : s.word = w) (hs : s.wraps = [w]) (hplain : Plain w)
    (hr : ∀ r ∈ s.rets, r = handleOf w) (hp : ∀ u, (s.pc u).Outside) :
    Phase (s.step getclock o t a) := by
  have ht := hp t
  have h1 : s.magic ≠ oldMagic := by
    unfold State.magic
    rw [hw]
    exact hplain.1
  have h2 : s.magic ≠ newMagic := by
    unfold State.magic
    rw [hw]
    exact hplain.2
  cases hpc : s.pc t with
  | idle =>
    simp only [State.step, hpc]
    refine .ready hw hs hplain hr (forall_goto hp ?_)
    cases o <;> trivial
  | test =>
    simp only [State.step, hpc, h1, ↓reduceIte]
    exact .ready hw hs hplain hr (forall_goto hp trivial)
  | cas =>
    simp only [State.step, hpc, h1, ↓reduceIte]
    exact .ready hw hs hplain hr (forall_goto hp trivial)
  | wait =>
    simp only [State.step, hpc, h2, ↓reduceIte]
    exact .ready hw hs hplain hr (forall_goto hp trivial)
  | load =>
    simp only [State.step, hpc]
    refine .ready hw hs hplain (fun r hm => ?_) (forall_goto hp trivial)
    rw [goto_rets, List.mem_append, List.mem_singleton] at hm
    rcases hm with hm | rfl
    · exact hr r hm
    · rw [hw]
  | create => simp [hpc, Pc.Outside] at ht
  | clock w => simp [hpc, Pc.Outside] at ht
  | store w => simp [hpc, Pc.Outside] at ht

theorem Phase.step (hclock : o = .cond → getclock none ≠ none) (h : Phase s)
    (hobj : ∀ t w, s.pc t = .clock w → o = .cond) (ha : s.pc t = .create → Plain a) :
    Phase (s.step getclock o t a) := by
  cases h with
  | zero h0 hw hr hp => exact Phase.step_zero h0 hw hr hp
  | busy hm hr hu hp => exact Phase.step_busy hclock hm hr hu hobj hp ha
  | ready hw hs hplain hr hp => exact Phase.step_ready hw hs hplain hr hp

/-- Only `pthread_cond_init` asks for a clock. -/
theorem step_clock (hobj : ∀ t w, s.pc t = .clock w → o = .cond) {u w : Nat}
    (hu : (s.step getclock o t a).pc u = .clock w) : o = .cond := by
  have hgoto : ∀ {s0 : State} {pc : Pc}, s0.pc = s.pc → (∀ w, pc = .clock w → o = .cond) →
      (s0.goto t pc).pc u = .clock w → o = .cond := fun {s0 pc} h0 hpc hu => by
    rw [goto_pc] at hu
    split at hu
    · exact hpc w hu
    · rw [h0] at hu
      exact hobj u w hu
  unfold State.step at hu
  split at hu
  · exact hgoto rfl (fun w hw => by cases o <;> cases hw) hu
  · exact hgoto rfl (fun w hw => by split at hw <;> cases hw) hu
  · split at hu
    · exact hgoto rfl (fun w hw => by cases hw) hu
    · exact hgoto rfl (fun w hw => by cases hw) hu
  · refine hgoto rfl (fun w hw => ?_) hu
    cases o
    · cases hw
    · rfl
  · rename_i w' hw'
    exact hobj t w' hw'
  · exact hgoto rfl (fun w hw => by cases o <;> cases hw) hu
  · split at hu
    · exact hobj u w hu
    · exact hgoto rfl (fun w hw => by cases hw) hu
  · exact hgoto rfl (fun w hw => by cases hw) hu

/-- Nothing else ends the program. -/
theorem step_crashed (hclock : o = .cond → getclock none ≠ none)
    (hobj : ∀ t w, s.pc t = .clock w → o = .cond) :
    (s.step getclock o t a).crashed = s.crashed := by
  unfold State.step
  split
  case h_5 w hw =>
    split
    · rfl
    · rename_i hc
      exact absurd hc (hclock (hobj t w hw))
  all_goals first | rfl | (split <;> rfl)

/-- The phase of the object in a run that goes on. -/
structure LazyInv (o : Obj) (s : State) : Prop where
  phase : Phase s
  clock : ∀ t w, s.pc t = .clock w → o = .cond
  runs : s.crashed = false

theorem lazyInv_of_reach (hclock : o = .cond → getclock none ≠ none)
    (h : (lazy getclock o).ReachIf LowHalf s) : LazyInv o s := by
  refine LTS.ReachIf.induct (P := LazyInv o) ?_ ?_ h
  · rintro s ⟨h0, hp, hw, hr, hc⟩
    refine ⟨.zero h0 hw hr fun t => ?_, fun t w ht => ?_, hc⟩
    · rw [hp t]
      trivial
    · cases (hp t).symm.trans ht
  · rintro s l s' hi hlow ⟨hc, hfresh, rfl⟩
    refine ⟨hi.phase.step hclock hi.clock fun hpc => ?_, fun u w => step_clock hi.clock, ?_⟩
    · exact plain_of_aligned (hfresh hpc).2.1 (hlow hpc)
    · rw [step_crashed hclock hi.clock, hc]

/-- **Initialised once**: in every run in which the wrapper's address has a low half that is not 0,
and `real_pthread_condattr_getclock(NULL, ..)` returns if the object is a condition variable, at
most one wrapper is created, every call returns the handle in it, and no call ends the program. -/
theorem initialised_once (hclock : o = .cond → getclock none ≠ none)
    (h : (lazy getclock o).ReachIf LowHalf s) :
    s.crashed = false ∧ s.wraps.length ≤ 1 ∧ ∀ r ∈ s.rets, ∃ w, s.wraps = [w] ∧ r = handleOf w := by
  have hi := lazyInv_of_reach hclock h
  refine ⟨hi.runs, ?_⟩
  cases hi.phase with
  | zero _ hw hr _ => simp [hw, hr]
  | busy _ hr hu _ =>
    rcases hu with ⟨-, hw⟩ | ⟨w, -, hw, -⟩
    · simp [hw, hr]
    · simp [hw, hr]
  | ready _ hs _ hr _ => exact ⟨by simp [hs], fun r hm => ⟨_, hs, hr r hm⟩⟩

end

/-! ## Runs of two ULTs -/

/-- The steps of a run, each with the result of `malloc`. -/
def State.run (getclock : Option Int → Option Int) (o : Obj) (s : State) : List (Nat × Nat) → State
  | [] => s
  | l :: ls => (s.step getclock o l.1 l.2).run getclock o ls

/-- The run goes on, and its addresses are as `malloc` returns them and meet a condition. -/
def Allowed (getclock : Option Int → Option Int) (o : Obj) (p : Nat → Bool) (s : State) :
    List (Nat × Nat) → Bool
  | [] => true
  | l :: ls => !s.crashed && (s.pc l.1 ≠ .create || (Fresh s l.2 && p l.2)) &&
      Allowed getclock o p (s.step getclock o l.1 l.2) ls

def zeroed : State := ⟨0, fun _ => .idle, [], [], false⟩

section
variable {getclock : Option Int → Option Int} {o : Obj} {C : State → Nat × Nat → Prop}

theorem reach_run {p : Nat → Bool} (hC : ∀ s l, (s.pc l.1 = .create → p l.2 = true) → C s l) :
    ∀ (ls : List (Nat × Nat)) {s : State}, (lazy getclock o).ReachIf C s →
      Allowed getclock o p s ls = true → (lazy getclock o).ReachIf C (s.run getclock o ls)
  | [], _, h, _ => h
  | l :: ls, s, h, ha => by
    simp only [Allowed, Bool.and_eq_true, Bool.or_eq_true, decide_eq_true_eq,
      Bool.not_eq_true'] at ha
    obtain ⟨⟨hc, hl⟩, hls⟩ := ha
    refine reach_run hC ls (h.step (hC s l fun hpc => ?_) ⟨hc, fun hpc => ?_, rfl⟩) hls
    · exact (hl.resolve_left fun hne => hne hpc).2
    · exact (hl.resolve_left fun hne => hne hpc).1

theorem reach_zeroed : (lazy getclock o).ReachIf C zeroed :=
  .init ⟨rfl, fun _ => rfl, rfl, rfl, rfl⟩

end

/-- The steps of a call that initialises the object. -/
def Obj.steps : Obj → Nat
  | .mutex => 7
  | .cond => 6

/-- One call by ULT 0, then one by ULT 1 of `n` steps, with the address that `malloc` would give
each. -/
def twoCalls (o : Obj) (n a b : Nat) : List (Nat × Nat) :=
  List.replicate o.steps (0, a) ++ List.replicate n (1, b)

/-- A clock for every attribute, and for `NULL`. -/
def anyClock (_ : Option Int) : Option Int := some 0

theorem initialised_once_two :
    ((zeroed.run anyClock .cond (twoCalls .cond 4 16 32)).crashed = false ∧
      (zeroed.run anyClock .cond (twoCalls .cond 4 16 32)).wraps.length ≤ 1 ∧
      ∀ r ∈ (zeroed.run anyClock .cond (twoCalls .cond 4 16 32)).rets,
        ∃ w, (zeroed.run anyClock .cond (twoCalls .cond 4 16 32)).wraps = [w] ∧ r = handleOf w) ∧
    (zeroed.run anyClock .cond (twoCalls .cond 4 16 32)).rets = [24, 24] := by
  have h : (lazy anyClock .cond).ReachIf LowHalf
    (zeroed.run anyClock .cond (twoCalls .cond 4 16 32)) :=
    reach_run (p := fun a => a % 2 ^ 32 ≠ 0) (fun s l h hpc => by simpa using h hpc) _ reach_zeroed
      (by decide)
  exact ⟨initialised_once (fun _ => by decide) h, by decide⟩

/-- The first wrapper is at an address with a zero low half: the second call finds the object all
zero, creates another one and returns the handle in that. And where there is no clock for `NULL`,
the first call on a condition variable ends the program. -/
theorem initialised_twice :
    (∃ s, (lazy anyClock .mutex).Reach s ∧ s.wraps = [2 ^ 32, 2 ^ 32 + 16] ∧
      s.rets = [2 ^ 32 + 8, 2 ^ 32 + 24]) ∧
    (∃ s, (lazy anyClock .cond).Reach s ∧ s.wraps = [2 ^ 32, 2 ^ 32 + 16] ∧
      s.rets = [2 ^ 32 + 8, 2 ^ 32 + 24]) ∧
    ∃ s, (lazy (fun _ => none) .cond).Reach s ∧ s.wraps = [16] ∧ s.rets = [] ∧
    s.crashed = true := by
  refine ⟨?_, ?_, ?_⟩
  · refine ⟨zeroed.run anyClock .mutex (twoCalls .mutex 7 (2 ^ 32) (2 ^ 32 + 16)),
      ?_, by decide, by decide⟩
    exact reach_run (p := fun _ => true) (fun _ _ _ => trivial) _ reach_zeroed (by decide)
  · refine ⟨zeroed.run anyClock .cond (twoCalls .cond 6 (2 ^ 32) (2 ^ 32 + 16)),
      ?_, by decide, by decide⟩
    exact reach_run (p := fun _ => true) (fun _ _ _ => trivial) _ reach_zeroed (by decide)
  · refine ⟨zeroed.run (fun _ => none) .cond (List.replicate 4 (0, 16)),
      ?_, by decide, by decide, by decide⟩
    exact reach_run (p := fun _ => true) (fun _ _ _ => trivial) _ reach_zeroed (by decide)

end Pthread
