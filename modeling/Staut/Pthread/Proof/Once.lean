import Staut.Pthread.Once

/-!
# The initialiser and the ULTs of its core

`OnceInv` is kept by every step: the control goes through three phases, with one initialiser in the
second, and a ULT that is in `pthread_once` and not in `init_routine` is the one that its core runs.
So `init_routine` is started once and no call returns early, whatever the placement. The last part
of `OnceRight` is kept by a step exactly when it meets `OtherCore` (`once_right`): no ULT of the
initialiser's core comes to the compare-and-swap while `init_routine` is suspended. When one does,
it keeps the core for good (`once_stuck`).
-/

set_option autoImplicit false

namespace Pthread

open Run

/-- A call that finds `init_routine` running is not on the core of the ULT that runs it. -/
def OtherCore (core : Nat → Nat) (s : Once) : OnceOp → Prop
  | .run u => s.pc u = .cas → s.onceControl ≠ iniVal → ∀ t, s.pc t = .init → core t ≠ core u
  | _ => True

/-- Not the initialiser. -/
def OncePc.Other : OncePc → Prop
  | .outside | .cas | .wait => True
  | _ => False

/-- Has not found the control taken, and is not the initialiser. -/
def OncePc.Early : OncePc → Prop
  | .outside | .cas => True
  | _ => False

theorem OncePc.Early.other {pc : OncePc} (h : pc.Early) : pc.Other := by
  cases pc <;> trivial

inductive OncePhase (s : Once) : Prop
  | ini : s.onceControl = iniVal → s.started = 0 → s.rets = [] → (∀ t, (s.pc t).Early) → OncePhase s
  | run {t : Nat} : s.onceControl = runVal → s.started = 1 → s.rets = [] →
      (s.pc t = .init ∨ s.pc t = .store ∧ s.finished = true) → (∀ u, u ≠ t → (s.pc u).Other) →
      OncePhase s
  | done : s.onceControl = endVal → s.started = 1 → s.finished = true → (∀ r ∈ s.rets, r = true) →
      (∀ t, (s.pc t).Other) → OncePhase s

/-- A core runs its own ULTs, and only a ULT that may yield is suspended. -/
structure OnceInv (core : Nat → Nat) (s : Once) : Prop where
  phase : OncePhase s
  home : ∀ c t, s.running c = some t → core t = c
  runs : ∀ t, s.pc t ≠ .outside → s.pc t ≠ .init → s.running (core t) = some t

section
variable {core : Nat → Nat} {s s' : Once} {t u : Nat} {pc : OncePc} {op : OnceOp}

@[simp] theorem once_goto_pc (s : Once) (t : Nat) (pc : OncePc) (u : Nat) :
    (s.goto t pc).pc u = if u = t then pc else s.pc u := Function.update_apply _ _ _ _
@[simp] theorem once_ret_pc (s : Once) (t u : Nat) :
    (s.ret t).pc u = if u = t then .outside else s.pc u := Function.update_apply _ _ _ _

@[simp] theorem setRunning_running (s : Once) (c : Nat) (r : Option Nat) (d : Nat) :
    (s.setRunning c r).running d = if d = c then r else s.running d := Function.update_apply _ _ _ _

theorem forall_once_goto {P : OncePc → Prop} (h : ∀ u, P (s.pc u)) (hp : P pc) :
    ∀ u, P ((s.goto t pc).pc u) := by
  intro u
  rw [once_goto_pc]
  split
  · exact hp
  · exact h u

/-! ## What a step can do -/

/-- The steps of a call, on the control and on the place of its ULT. -/
inductive OnceMove (s : Once) (t : Nat) : OnceOp → Once → Prop
  | call : s.pc t = .outside → OnceMove s t (.call t) (s.goto t .cas)
  | first : s.pc t = .cas → s.onceControl = iniVal → OnceMove s t (.run t)
      ({ s with onceControl := runVal, started := s.started + 1 }.goto t .init)
  | wait : s.pc t = .cas → s.onceControl ≠ iniVal → OnceMove s t (.run t) (s.goto t .wait)
  | finish : s.pc t = .init → OnceMove s t (.finish t) ({ s with finished := true }.goto t .store)
  | store : s.pc t = .store → OnceMove s t (.run t) ({ s with onceControl := endVal }.ret t)
  | spin : s.pc t = .wait → s.onceControl ≠ endVal → OnceMove s t (.run t) s
  | leave : s.pc t = .wait → s.onceControl = endVal → OnceMove s t (.run t) (s.ret t)

/-- A core changes its running ULT, or the running ULT moves. -/
theorem once_step_cases (h : s.step core op = some s') :
    (∃ t, op = .sched t ∧ s.running (core t) = none ∧
      s' = s.setRunning (core t) (some t)) ∨
    (∃ t, op = .yield t ∧ s.running (core t) = some t ∧ (s.pc t = .outside ∨ s.pc t = .init) ∧
      s' = s.setRunning (core t) none) ∨
    ∃ t, s.running (core t) = some t ∧ OnceMove s t op s' := by
  cases op with
  | sched t =>
    obtain ⟨hr, h⟩ := Option.ite_none_right_eq_some.1 h
    exact .inl ⟨t, rfl, hr, (Option.some.inj h).symm⟩
  | yield t =>
    obtain ⟨⟨hr, hpc⟩, h⟩ := Option.ite_none_right_eq_some.1 h
    exact .inr (.inl ⟨t, rfl, hr, hpc, (Option.some.inj h).symm⟩)
  | call t =>
    obtain ⟨⟨hr, hpc⟩, h⟩ := Option.ite_none_right_eq_some.1 h
    rw [← Option.some.inj h]
    exact .inr (.inr ⟨t, hr, .call hpc⟩)
  | finish t =>
    obtain ⟨⟨hr, hpc⟩, h⟩ := Option.ite_none_right_eq_some.1 h
    rw [← Option.some.inj h]
    exact .inr (.inr ⟨t, hr, .finish hpc⟩)
  | run t =>
    obtain ⟨hr, h⟩ := Option.ite_none_right_eq_some.1 h
    refine .inr (.inr ⟨t, hr, ?_⟩)
    unfold Once.run at h
    cases hpc : s.pc t with
    | outside => simp [hpc] at h
    | init => simp [hpc] at h
    | cas =>
      simp only [hpc, Option.some.injEq] at h
      rw [← h]
      split
      · exact .first hpc ‹_›
      · exact .wait hpc ‹_›
    | store =>
      simp only [hpc, Option.some.injEq] at h
      rw [← h]
      exact .store hpc
    | wait =>
      simp only [hpc, Option.some.injEq] at h
      rw [← h]
      split
      · exact .spin hpc ‹_›
      · exact .leave hpc (Decidable.not_not.1 ‹_›)

theorem OnceMove.running (h : OnceMove s t op s') : s'.running = s.running := by
  cases h <;> rfl

theorem OnceMove.pc_other (h : OnceMove s t op s') (hu : u ≠ t) : s'.pc u = s.pc u := by
  cases h <;> simp [hu]

/-! ## What every step keeps -/

/-- Nobody is in `init_routine`, or past it, before the control is taken. -/
theorem OncePhase.move_ini (h0 : s.onceControl = iniVal) (hst : s.started = 0) (hr : s.rets = [])
    (hp : ∀ u, (s.pc u).Early) (h : OnceMove s t op s') : OncePhase s' := by
  have ht := hp t
  cases h with
  | call _ => exact .ini h0 hst hr (forall_once_goto hp trivial)
  | first hpc _ =>
    refine .run (t := t) rfl (by simp [Once.goto, hst]) hr (.inl (by simp)) fun u hu => ?_
    rw [once_goto_pc, if_neg hu]
    exact (hp u).other
  | wait _ hne => exact absurd h0 hne
  | finish hpc => simp [hpc, OncePc.Early] at ht
  | store hpc => simp [hpc, OncePc.Early] at ht
  | spin hpc _ => simp [hpc, OncePc.Early] at ht
  | leave hpc _ => simp [hpc, OncePc.Early] at ht

/-- The initialiser goes on, or another ULT, which stays out. -/
theorem OncePhase.move_run {v : Nat} (h1 : s.onceControl = runVal) (hst : s.started = 1)
    (hr : s.rets = []) (hv : s.pc v = .init ∨ s.pc v = .store ∧ s.finished = true)
    (hp : ∀ u, u ≠ v → (s.pc u).Other) (h : OnceMove s t op s') : OncePhase s' := by
  by_cases htv : t = v
  · subst htv
    cases h with
    | call hpc => simp [hpc] at hv
    | first hpc _ => simp [hpc] at hv
    | wait hpc _ => simp [hpc] at hv
    | finish hpc =>
      refine .run (t := t) h1 hst hr (.inr ⟨by simp, rfl⟩) fun u hu => ?_
      rw [once_goto_pc, if_neg hu]
      exact hp u hu
    | store hpc =>
      have hf : s.finished = true := by simpa [hpc] using hv
      refine .done rfl hst hf ?_ fun u => ?_
      · show ∀ r ∈ s.rets ++ [s.finished], r = true
        simp [hr, hf]
      · rw [once_ret_pc]
        split
        · trivial
        · exact hp u ‹_›
    | spin hpc _ => simp [hpc] at hv
    | leave hpc _ => simp [hpc] at hv
  · have ht := hp t htv
    have hne : v ≠ t := fun e => htv e.symm
    have hv' : ∀ pc, (s.goto t pc).pc v = s.pc v := fun pc => by rw [once_goto_pc, if_neg hne]
    have hother : ∀ pc : OncePc, pc.Other → ∀ u, u ≠ v → ((s.goto t pc).pc u).Other := by
      intro pc hpc u hu
      rw [once_goto_pc]
      split
      · exact hpc
      · exact hp u hu
    cases h with
    | call _ => exact .run h1 hst hr (by rw [hv']; exact hv) (hother _ trivial)
    | first _ h0 => simp [h0, iniVal, runVal] at h1
    | wait _ _ => exact .run h1 hst hr (by rw [hv']; exact hv) (hother _ trivial)
    | finish hpc => simp [hpc, OncePc.Other] at ht
    | store hpc => simp [hpc, OncePc.Other] at ht
    | spin _ _ => exact .run h1 hst hr hv hp
    | leave _ h2 => simp [h2, endVal, runVal] at h1

theorem OncePhase.move_done (h2 : s.onceControl = endVal) (hst : s.started = 1)
    (hf : s.finished = true) (hr : ∀ r ∈ s.rets, r = true) (hp : ∀ u, (s.pc u).Other)
    (h : OnceMove s t op s') : OncePhase s' := by
  have ht := hp t
  have hret : ∀ r ∈ s.rets ++ [s.finished], r = true := by
    intro r hm
    rcases List.mem_append.1 hm with hm | hm
    · exact hr r hm
    · rw [List.mem_singleton.1 hm, hf]
  cases h with
  | call _ => exact .done h2 hst hf hr (forall_once_goto hp trivial)
  | first _ h0 => simp [h0, iniVal, endVal] at h2
  | wait _ _ => exact .done h2 hst hf hr (forall_once_goto hp trivial)
  | finish hpc => simp [hpc, OncePc.Other] at ht
  | store hpc => simp [hpc, OncePc.Other] at ht
  | spin _ hne => exact absurd h2 hne
  | leave _ _ => exact .done h2 hst hf hret (forall_once_goto hp trivial)

theorem OncePhase.move (h : OncePhase s) (hm : OnceMove s t op s') : OncePhase s' := by
  cases h with
  | ini h0 hst hr hp => exact move_ini h0 hst hr hp hm
  | run h1 hst hr hv hp => exact move_run h1 hst hr hv hp hm
  | done h2 hst hf hr hp => exact move_done h2 hst hf hr hp hm

theorem OncePhase.setRunning (h : OncePhase s) (c : Nat) (r : Option Nat) :
    OncePhase (s.setRunning c r) := by
  cases h with
  | ini h0 hst hr hp => exact .ini h0 hst hr hp
  | run h1 hst hr hv hp => exact .run h1 hst hr hv hp
  | done h2 hst hf hr hp => exact .done h2 hst hf hr hp

theorem OnceInv.step (h : OnceInv core s) (hs : s.step core op = some s') : OnceInv core s' := by
  rcases once_step_cases hs with ⟨t, -, hnone, rfl⟩ | ⟨t, -, hrun, hpc, rfl⟩ | ⟨t, hrun, hm⟩
  · refine ⟨h.phase.setRunning _ _, fun c u hc => ?_, fun u h1 h2 => ?_⟩
    · rw [setRunning_running] at hc
      split at hc
      · rename_i hct
        rw [hct, Option.some.inj hc]
      · exact h.home c u hc
    · have hu := h.runs u h1 h2
      have hne : core u ≠ core t := by
        intro heq
        rw [heq, hnone] at hu
        cases hu
      rw [setRunning_running, if_neg hne, hu]
  · refine ⟨h.phase.setRunning _ _, fun c u hc => ?_, fun u h1 h2 => ?_⟩
    · rw [setRunning_running] at hc
      split at hc
      · cases hc
      · exact h.home c u hc
    · have hu := h.runs u h1 h2
      have hne : core u ≠ core t := by
        intro heq
        rw [heq, hrun] at hu
        rcases hpc with hpc | hpc
        · exact h1 (Option.some.inj hu ▸ hpc)
        · exact h2 (Option.some.inj hu ▸ hpc)
      rw [setRunning_running, if_neg hne, hu]
  · refine ⟨h.phase.move hm, fun c u hc => ?_, fun u h1 h2 => ?_⟩
    · rw [hm.running] at hc
      exact h.home c u hc
    · rw [hm.running]
      by_cases hut : u = t
      · rw [hut]
        exact hrun
      · rw [hm.pc_other hut] at h1 h2
        exact h.runs u h1 h2

theorem OnceInv.new (core : Nat → Nat) : OnceInv core .new :=
  ⟨.ini rfl rfl rfl fun _ => trivial, fun _ _ h => (nomatch h), fun _ h => absurd rfl h⟩

theorem onceInv_of_reach {C : Once → OnceOp → Prop}
    (h : (once core).ReachIf C s) : OnceInv core s :=
  LTS.ReachIf.induct (fun _ hs => hs ▸ OnceInv.new core) (fun _ _ _ hi _ hs => hi.step hs) h

/-! ## The waiting loop and the initialiser -/

/-- No core runs the waiting loop while the ULT in `init_routine` is suspended on it. -/
def Free (core : Nat → Nat) (s : Once) : Prop :=
  ∀ t u, s.pc t = .init → s.running (core t) = some u → s.pc u ≠ .wait

theorem OnceInv.right_iff (h : OnceInv core s) : OnceRight core s ↔ Free core s := by
  refine ⟨fun hr => hr.free, fun hf => ?_⟩
  cases h.phase with
  | ini h0 hst hr hp =>
    refine ⟨by omega, fun t ht => ?_, fun hne => absurd hr hne, by simp [hr], hf⟩
    have hpt := hp t
    rcases ht with ht | ht | ht <;> simp [ht, OncePc.Early] at hpt
  | run h1 hst hr hv hp => exact ⟨by omega, fun _ _ => hst, fun _ => hst, by simp [hr], hf⟩
  | done h2 hst hfin hr hp => exact ⟨by omega, fun _ _ => hst, fun _ => hst, hr, hf⟩

/-- A move that leads no ULT into `init_routine` or into the loop. -/
theorem Free.move (h : Free core s) (hm : OnceMove s t op s')
    (hi : s'.pc t = .init → s.pc t = .init) (hw : s'.pc t = .wait → s.pc t = .wait) :
    Free core s' := by
  have hpc : ∀ pc, (s'.pc t = pc → s.pc t = pc) → ∀ u, s'.pc u = pc → s.pc u = pc := by
    intro pc hp u hu
    by_cases hut : u = t
    · rw [hut] at hu ⊢
      exact hp hu
    · rwa [hm.pc_other hut] at hu
  intro v u hv hrun hu
  rw [hm.running] at hrun
  exact h v u (hpc _ hi v hv) hrun (hpc _ hw u hu)

theorem OnceInv.free_move (h : OnceInv core s) (hf : Free core s)
    (hrun : s.running (core t) = some t) (hm : OnceMove s t op s') :
    Free core s' ↔ OtherCore core s op := by
  cases hm with
  | call hpc =>
    have hm := OnceMove.call hpc
    exact iff_of_true (hf.move hm (by simp) (by simp)) trivial
  | finish hpc =>
    have hm := OnceMove.finish hpc
    exact iff_of_true (hf.move hm (by simp) (by simp)) trivial
  | store hpc =>
    have hm := OnceMove.store hpc
    exact iff_of_true (hf.move hm (by simp) (by simp)) fun hc => by simp [hpc] at hc
  | spin hpc _ => exact iff_of_true hf fun hc => by simp [hpc] at hc
  | leave hpc hc =>
    have hm := OnceMove.leave hpc hc
    exact iff_of_true (hf.move hm (by simp) (by simp)) fun hc => by simp [hpc] at hc
  | first hpc h0 =>
    refine iff_of_true (fun v u hv hr hu => ?_) fun _ hne => absurd h0 hne
    have hr' : s.running (core v) = some u := hr
    have hut : u ≠ t := by
      intro heq
      simp [heq] at hu
    have hu' : s.pc u = .wait := by simpa [hut, Once.goto] using hu
    by_cases hvt : v = t
    · rw [hvt, hrun] at hr'
      exact hut (Option.some.inj hr').symm
    · have hv' : s.pc v = .init := by simpa [hvt, Once.goto] using hv
      exact hf v u hv' hr' hu'
  | wait hpc hne =>
    constructor
    · intro hf' _ _ v hv hcore
      have hvt : v ≠ t := by
        intro heq
        rw [heq, hpc] at hv
        cases hv
      refine hf' v t (by simp [hvt, hv]) ?_ (by simp)
      show s.running (core v) = some t
      rw [hcore, hrun]
    · intro hother v u hv hr hu
      have hr' : s.running (core v) = some u := hr
      have hvt : v ≠ t := by
        intro heq
        simp [heq] at hv
      have hv' : s.pc v = .init := by simpa [hvt] using hv
      by_cases hut : u = t
      · rw [hut] at hr'
        exact hother hpc hne v hv' (h.home _ _ hr').symm
      · exact hf v u hv' hr' (by simpa [hut] using hu)

theorem OnceInv.free_step (h : OnceInv core s) (hf : Free core s) (hs : s.step core op = some s') :
    Free core s' ↔ OtherCore core s op := by
  rcases once_step_cases hs with ⟨t, rfl, hnone, rfl⟩ | ⟨t, rfl, -, -, rfl⟩ | ⟨t, hrun, hm⟩
  · refine iff_of_true (fun v u hv hr hu => ?_) trivial
    have hu' : s.pc u = .wait := hu
    rw [setRunning_running] at hr
    split at hr
    · -- a ULT in the loop has not been suspended
      have hwait := h.runs u (by simp [hu']) (by simp [hu'])
      rw [← Option.some.inj hr, hnone] at hwait
      cases hwait
    · exact hf v u hv hr hu'
  · refine iff_of_true (fun v u hv hr hu => ?_) trivial
    rw [setRunning_running] at hr
    split at hr
    · cases hr
    · exact hf v u hv hr hu
  · exact h.free_move hf hrun hm

theorem free_of_reach (h : (once core).ReachIf (OtherCore core) s) : Free core s := by
  induction h with
  | init hi =>
    rw [hi]
    intro t u ht
    cases ht
  | step hr hc hs ih => exact ((onceInv_of_reach hr).free_step ih hs).2 hc

/-- **One initialiser that nobody keeps from going on**: in every run in which no call finds
`init_routine` running on its own core. From a state of such a run, a step leads to a state where
all is right only if it is of this kind. -/
theorem once_right (h : (once core).ReachIf (OtherCore core) s) : OnceRight core s ∧
    ∀ op s', s.step core op = some s' → (OnceRight core s' ↔ OtherCore core s op) := by
  have hinv := onceInv_of_reach h
  have hfree := free_of_reach h
  refine ⟨hinv.right_iff.2 hfree, fun op s' hs => ?_⟩
  rw [(hinv.step hs).right_iff]
  exact hinv.free_step hfree hs

/-- ULTs on cores of their own. -/
theorem otherCore_of_injective (hc : Function.Injective core) (s : Once) (op : OnceOp) :
    OtherCore core s op := by
  cases op with
  | run u =>
    intro hu _ t ht heq
    rw [hc heq, hu] at ht
    cases ht
  | _ => trivial

/-- ULT 0 yields in `init_routine`, and ULT 1 waits for it on another core. -/
theorem once_right_two : ∃ s, (once id).ReachIf (OtherCore id) s ∧ s.rets = [true, true] ∧
    OnceRight id s := by
  have h0 : (once id).Reach .new := .init rfl
  have h := h0.exec (g := id) (fun _ _ _ hs => ⟨trivial, hs⟩)
    (l := [.sched 0, .call 0, .run 0, .yield 0, .sched 1, .call 1, .run 1, .run 1, .sched 0,
      .finish 0, .run 0, .run 1]) rfl
  have h' := h.mono fun s op _ => otherCore_of_injective Function.injective_id s op
  exact ⟨_, h', rfl, (once_right h').1⟩

/-- A ULT in the loop on the core of the suspended initialiser. -/
structure Blocked (core : Nat → Nat) (t u : Nat) (s : Once) : Prop where
  inv : OnceInv core s
  init : s.pc t = .init
  running : s.running (core t) = some u
  wait : s.pc u = .wait

theorem Blocked.step (h : Blocked core t u s) (hs : s.step core op = some s') :
    Blocked core t u s' := by
  have hne : t ≠ u := by
    intro heq
    have := h.init
    rw [heq, h.wait] at this
    cases this
  have hinv := h.inv.step hs
  rcases once_step_cases hs with ⟨v, rfl, hnone, rfl⟩ | ⟨v, rfl, hrun, hpc, rfl⟩ | ⟨v, hrun, hm⟩
  · refine ⟨hinv, h.init, ?_, h.wait⟩
    have hcore : core t ≠ core v := by
      intro heq
      rw [← heq, h.running] at hnone
      cases hnone
    rw [setRunning_running, if_neg hcore, h.running]
  · refine ⟨hinv, h.init, ?_, h.wait⟩
    have hcore : core t ≠ core v := by
      intro heq
      rw [← heq, h.running] at hrun
      rw [← Option.some.inj hrun, h.wait] at hpc
      simp at hpc
    rw [setRunning_running, if_neg hcore, h.running]
  · have htv : t ≠ v := by
      intro heq
      rw [← heq, h.running] at hrun
      exact hne (Option.some.inj hrun).symm
    by_cases huv : u = v
    · subst huv
      have hwait := h.wait
      cases hm with
      | call hpc => simp [hpc] at hwait
      | first hpc _ => simp [hpc] at hwait
      | wait hpc _ => simp [hpc] at hwait
      | finish hpc => simp [hpc] at hwait
      | store hpc => simp [hpc] at hwait
      | spin _ _ => exact h
      | leave _ hend =>
        -- the control is not set while a ULT is in `init_routine`
        have hinit := h.init
        cases h.inv.phase with
        | ini h0 _ _ _ => simp [hend, iniVal, endVal] at h0
        | run h1 _ _ _ _ => simp [hend, runVal, endVal] at h1
        | done _ _ _ _ hp =>
          have := hp t
          simp [hinit, OncePc.Other] at this
    · refine ⟨hinv, ?_, ?_, ?_⟩
      · rw [hm.pc_other htv, h.init]
      · rw [hm.running, h.running]
      · rw [hm.pc_other huv, h.wait]

/-- Then neither of the two goes on, ever. -/
theorem once_stuck (h : Blocked core t u s) (hs : (once core).Steps s s') :
    Blocked core t u s' := by
  induction hs with
  | refl => exact h
  | tail _ ht ih =>
    obtain ⟨op, ht⟩ := ht
    exact ih.step ht

end

/-- With two cores, the ULTs numbered 0 and 2 are on core 0. ULT 0 yields in `init_routine`, and ULT
2 calls `pthread_once`: from then on ULT 0 stays in `init_routine` and ULT 2 in the loop. -/
theorem once_blocks : ∃ s, (once (placedOn 2)).Reach s ∧ ¬ OnceRight (placedOn 2) s ∧
    ∀ s', (once (placedOn 2)).Steps s s' → s'.pc 0 = .init ∧ s'.pc 2 = .wait := by
  have h0 : (once (placedOn 2)).Reach .new := .init rfl
  have h := h0.exec (g := id) (fun _ _ _ hs => ⟨trivial, hs⟩)
    (l := [.sched 0, .call 0, .run 0, .yield 0, .sched 2, .call 2, .run 2]) rfl
  refine ⟨_, h, fun hr => hr.free 0 2 rfl rfl rfl, fun s' hs => ?_⟩
  have hb : Blocked (placedOn 2) 0 2 s' := once_stuck ⟨onceInv_of_reach h, rfl, rfl, rfl⟩ hs
  exact ⟨hb.init, hb.wait⟩

end Pthread
