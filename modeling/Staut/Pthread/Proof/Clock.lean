import Staut.Pthread.Cond
import Staut.Abt.Proof.Cond
import Mathlib.Tactic.NormNum

/-!
# Which clock a timed wait obeys

A wait times out only after its own reading of the clock `Fn.clock` (`passed_of_ret`). That is
`CLOCK_REALTIME` for `pthread_cond_timedwait`, whatever the attribute says, and the clock of the
condition variable for `pthread_cond_clockwait`, whatever its argument says (`timedout_on_clock`).
-/

set_option autoImplicit false

namespace Pthread

open Run Abt

/-- A thread is about to report a timeout of the wait `c`. -/
def Expiring (c : Nat) : Abt.Pc → Prop
  | .waiting _ d .expire | .waiting _ d .timeout => d = c
  | .relock _ d true => d = c
  | _ => False

/-- The clock that the wait reads has passed its target while it was waiting. -/
def Passed (clocks : Clocks) (s : Abt.State) (c : Nat) : Prop :=
  ∃ ts τ, (s.call c).wait.fn.target = some ts ∧ (s.call c).since ≤ τ ∧ τ ≤ s.now ∧
    ts.toSec ≤ (clocks ((s.call c).wait.fn.clock s.clkid) τ).toSec

structure Clocked (clocks : Clocks) (clkid : Int) (s : Abt.State) : Prop where
  clkid : s.clkid = clkid
  since : ∀ c < s.calls, (s.call c).since ≤ s.now
  pcs : ∀ t c, Expiring c (s.pc t) → Passed clocks s c
  rets : ∀ c, s.ret c = some true → Passed clocks s c

section
variable {clocks : Clocks} {clkid : Int} {s s' : Abt.State} {t c fuel : Nat} {w : Wait}

/-- What a step of a thread does to the history, to the clock and to who is about to time out. -/
structure RunFrame (clocks : Clocks) (s : Abt.State) (t : Nat) (s' : Abt.State) : Prop where
  clkid : s'.clkid = s.clkid
  now : s'.now = s.now
  kept : ∀ c < s.calls, s'.call c = s.call c
  since : ∀ c < s'.calls, c < s.calls ∨ (s'.call c).since = s.now
  other : ∀ u, u ≠ t → s'.pc u = s.pc u
  self : ∀ c, Expiring c (s'.pc t) →
    Expiring c (s.pc t) ∨ ∃ w loc, s.pc t = .waiting w c loc ∧ s.expired clocks w = true
  ret : ∀ c, s'.ret c = some true → s.ret c = some true ∨ Expiring c (s.pc t)

theorem runFrame_goto {l m : Option Nat} {owner : Nat → Option Nat} {wl : Waitlist} {pc : Abt.Pc}
    {status : Nat → Status} (h : ∀ c, Expiring c pc →
      Expiring c (s.pc t) ∨ ∃ w loc, s.pc t = .waiting w c loc ∧ s.expired clocks w = true) :
    RunFrame clocks s t
      ({ s with
        lock := l, waiterMutex := m, owner := owner, wl := wl, status := status }.goto t pc) := by
  refine ⟨rfl, rfl, fun _ _ => rfl, fun _ => .inl, fun u hu => ?_, fun c hc => ?_, fun c => .inl⟩
  · simp [hu]
  · rw [goto_pc, if_pos rfl] at hc
    exact h c hc

theorem runFrame_rfl : RunFrame clocks s t s where
  clkid := rfl
  now := rfl
  kept _ _ := rfl
  since _ := .inl
  other _ _ := rfl
  self _ := .inl
  ret _ := .inl

theorem runFrame_acquire {pc : Abt.Pc} (h : ∀ c, Expiring c pc → Expiring c (s.pc t)) :
    RunFrame clocks s t (s.acquire t pc) := by
  unfold Abt.State.acquire
  cases s.lock with
  | none => exact runFrame_goto fun c hc => .inl (h c hc)
  | some u => exact runFrame_rfl

theorem runFrame_runWait {loc : Loc} (hpc : s.pc t = .waiting w c loc)
    (hr : s.runWait clocks t w c loc = some s') : RunFrame clocks s t s' := by
  cases loc with
  | top =>
    cases hr
    refine runFrame_goto fun d hd => ?_
    cases hexp : s.expired clocks w with
    | true =>
      simp only [hexp, ↓reduceIte, Expiring] at hd
      exact .inr ⟨w, .top, hd ▸ hpc, hexp⟩
    | false => simp [hexp, Expiring] at hd
  | check =>
    cases hr
    refine runFrame_goto fun d hd => ?_
    split at hd <;> simp [Expiring] at hd
  | again =>
    cases hr
    exact runFrame_acquire fun d hd => hd.elim
  | poll =>
    simp only [Abt.State.runWait] at hr
    split at hr
    · cases hr
      exact runFrame_goto fun d hd => hd.elim
    · split at hr
      · cases hr
        exact runFrame_goto fun d hd => hd.elim
      · cases hr
        refine runFrame_goto fun d hd => ?_
        split at hd <;> simp [Expiring] at hd
  | clock =>
    cases hr
    refine runFrame_goto fun d hd => ?_
    cases hexp : s.expired clocks w with
    | true =>
      simp only [hexp, ↓reduceIte, Expiring] at hd
      exact .inr ⟨w, .clock, hd ▸ hpc, hexp⟩
    | false => simp [hexp, Expiring] at hd
  | expire =>
    cases hr
    refine runFrame_acquire fun d hd => ?_
    rw [hpc]
    exact hd
  | timeout =>
    simp only [Abt.State.runWait] at hr
    cases hto : s.wl.timeout w.node with
    | none => simp [hto] at hr
    | some r =>
      simp only [hto] at hr
      cases hr
      refine runFrame_goto fun d hd => .inl ?_
      rw [hpc]
      cases hr2 : r.2 with
      | true =>
        rw [hr2] at hd
        exact hd
      | false =>
        rw [hr2] at hd
        exact hd.elim

/-- A new wait, which starts now. -/
theorem runFrame_arrive {l : Option Nat} {wl : Waitlist} {loc : Loc}
    (hloc : loc ≠ .expire ∧ loc ≠ .timeout) :
    RunFrame clocks s t
      ({ s.arrive t w wl with lock := l }.goto t (.waiting w s.calls loc)) := by
  refine ⟨rfl, rfl, fun c hc => ?_, fun c hc => ?_, fun u hu => ?_, fun c hc => ?_, fun _ => .inl⟩
  · simp [Abt.State.goto, Abt.State.arrive, hc.ne]
  · rcases Nat.lt_succ_iff_lt_or_eq.1 hc with hc | hc
    · exact .inl hc
    · exact .inr (by simp [Abt.State.goto, Abt.State.arrive, hc])
  · simp [hu, Abt.State.arrive]
  · rw [goto_pc, if_pos rfl] at hc
    cases loc <;> simp_all [Expiring]

theorem runFrame_run (hr : s.run clocks fuel t = some s') : RunFrame clocks s t s' := by
  cases hpc : s.pc t with
  | idle => simp [Abt.State.run, hpc] at hr
  | acquire op =>
    simp only [Abt.State.run, hpc, Option.some.injEq] at hr
    subst hr
    exact runFrame_acquire fun d hd => hd.elim
  | locked op =>
    cases op with
    | wait w =>
      simp only [Abt.State.run, hpc] at hr
      split at hr
      · cases hr
        exact runFrame_goto fun d hd => hd.elim
      · cases hr
        exact runFrame_goto fun d hd => hd.elim
    | signal =>
      simp only [Abt.State.run, hpc, Option.some.injEq] at hr
      subst hr
      exact runFrame_goto fun d hd => hd.elim
    | broadcast =>
      simp only [Abt.State.run, hpc] at hr
      cases hb : s.wl.broadcast fuel with
      | none => simp [hb] at hr
      | some r =>
        simp only [hb] at hr
        cases hr
        exact runFrame_goto fun d hd => hd.elim
  | enqueue w =>
    simp only [Abt.State.run, hpc] at hr
    cases hb : s.wl.enter w with
    | none => simp [hb] at hr
    | some wl =>
      simp only [hb] at hr
      cases hr
      split
      · exact runFrame_arrive (by simp)
      · exact runFrame_arrive (by simp)
  | waiting w c loc =>
    simp only [Abt.State.run, hpc] at hr
    exact runFrame_runWait hpc hr
  | relock w c r =>
    simp only [Abt.State.run, hpc, Option.some.injEq] at hr
    subst hr
    split
    · refine ⟨rfl, rfl, fun _ _ => rfl, fun _ => .inl, fun u hu => by simp [hu], ?_, ?_⟩
      · intro d hd
        rw [goto_pc, if_pos rfl] at hd
        exact hd.elim
      · intro d hd
        by_cases hdc : d = c
        · simp only [Abt.State.goto, hdc, Function.update_self, Option.some.injEq] at hd
          right
          rw [hpc, hd, hdc]
          rfl
        · exact .inl (by simpa [Abt.State.goto, hdc] using hd)
    · exact runFrame_rfl

theorem expiring_lt (h : Inv s) (he : Expiring c (s.pc t)) : c < s.calls := by
  have hok := h.pcs t
  cases hpc : s.pc t with
  | waiting w d loc =>
    rw [hpc] at hok he
    cases loc <;> simp only [Expiring] at he
    · exact he ▸ hok.1
    · exact he ▸ hok.1
  | relock w d r =>
    rw [hpc] at hok he
    cases r <;> simp only [Expiring] at he
    exact he ▸ hok.1
  | idle => simp [hpc, Expiring] at he
  | acquire op => simp [hpc, Expiring] at he
  | locked op => simp [hpc, Expiring] at he
  | enqueue w => simp [hpc, Expiring] at he

/-- The reading that ends the wait. -/
theorem passed_of_expired (h : Inv s) (hc : Clocked clocks clkid s) {loc : Loc}
    (hpc : s.pc t = .waiting w c loc) (hexp : s.expired clocks w = true) : Passed clocks s c := by
  have hok := h.pcs t
  rw [hpc] at hok
  obtain ⟨hlt, -, hw, -, -⟩ := hok
  unfold Abt.State.expired at hexp
  cases htar : w.fn.target with
  | none => simp [htar] at hexp
  | some ts =>
    rw [htar, decide_eq_true_eq] at hexp
    exact ⟨ts, s.now, by rw [hw, htar], hc.since c hlt, le_refl _, by rwa [hw]⟩

theorem Passed.frame (h : Passed clocks s c) (hcall : s'.call c = s.call c)
    (hclk : s'.clkid = s.clkid) (hnow : s.now ≤ s'.now) : Passed clocks s' c := by
  obtain ⟨ts, τ, htar, hsince, hτ, hle⟩ := h
  exact ⟨ts, τ, by rw [hcall, htar], by rwa [hcall], hτ.trans hnow, by rwa [hcall, hclk]⟩

theorem Clocked.run (h : Inv s) (hc : Clocked clocks clkid s) (hr : s.run clocks fuel t = some s') :
    Clocked clocks clkid s' := by
  have hf := runFrame_run hr
  have hpassed : ∀ c, c < s.calls → Passed clocks s c → Passed clocks s' c :=
    fun c hlt hp => hp.frame (hf.kept c hlt) hf.clkid hf.now.ge
  refine ⟨hf.clkid.trans hc.clkid, fun c hlt => ?_, fun u c he => ?_, fun c hret => ?_⟩
  · rw [hf.now]
    rcases hf.since c hlt with hlt | heq
    · rw [hf.kept c hlt]
      exact hc.since c hlt
    · exact heq.le
  · by_cases hut : u = t
    · rw [hut] at he
      rcases hf.self c he with he | ⟨w, loc, hpc, hexp⟩
      · exact hpassed c (expiring_lt h he) (hc.pcs t c he)
      · have hok := h.pcs t
        rw [hpc] at hok
        exact hpassed c hok.1 (passed_of_expired h hc hpc hexp)
    · rw [hf.other u hut] at he
      exact hpassed c (expiring_lt h he) (hc.pcs u c he)
  · rcases hf.ret c hret with hret | he
    · exact hpassed c (h.rets c true hret).1 (hc.rets c hret)
    · exact hpassed c (expiring_lt h he) (hc.pcs t c he)

/-- Nothing but the passing of time, or a thread outside of any wait. -/
theorem Clocked.frame (h : Clocked clocks clkid s) (hclk : s'.clkid = s.clkid)
    (hnow : s.now ≤ s'.now) (hcalls : s'.calls = s.calls) (hcall : s'.call = s.call)
    (hret : s'.ret = s.ret) (hpc : ∀ t c, Expiring c (s'.pc t) → Expiring c (s.pc t)) :
    Clocked clocks clkid s' where
  clkid := hclk.trans h.clkid
  since := by
    rw [hcalls, hcall]
    exact fun c hc => (h.since c hc).trans hnow
  pcs t c he := (h.pcs t c (hpc t c he)).frame (by rw [hcall]) hclk hnow
  rets := by
    rw [hret]
    exact fun c hr => (h.rets c hr).frame (by rw [hcall]) hclk hnow

theorem clocked_of_reach (h : (condSys clocks clkid).Reach s) : Clocked clocks clkid s := by
  induction h with
  | init hs =>
    obtain ⟨hclk, -, -, -, -, hpc, hcalls, hret⟩ := hs
    refine ⟨hclk, by simp [hcalls], fun t c he => ?_, by simp [hret]⟩
    simp [hpc, Expiring] at he
  | @step s s' l hreach _ hs ih =>
    cases l with
    | run t fuel => exact Clocked.run (inv_of_reach hreach) ih hs
    | start t op =>
      obtain ⟨hpc, -, rfl⟩ := hs
      refine ih.frame rfl le_rfl rfl rfl rfl fun u c he => ?_
      rw [goto_pc] at he
      split at he
      · exact he.elim
      · exact he
    | lock t m =>
      obtain ⟨-, -, rfl⟩ := hs
      exact ih.frame rfl le_rfl rfl rfl rfl fun _ _ => id
    | unlock t m =>
      obtain ⟨-, -, rfl⟩ := hs
      exact ih.frame rfl le_rfl rfl rfl rfl fun _ _ => id
    | tick =>
      obtain rfl := hs
      exact ih.frame rfl (Nat.le_succ _) rfl rfl rfl fun _ _ => id
    | links a next prev =>
      obtain ⟨-, rfl⟩ := hs
      exact ih.frame rfl le_rfl rfl rfl rfl fun _ _ => id

end

/-! ## The right clock -/

/-- The clock of a condition variable, as it was asked for. -/
def Creation.clock : Creation → Int
  | .init (some k) => k
  | _ => clockRealtime

/-- The clock that a timed wait has to obey. -/
def TimedWait.clock (cr : Creation) : TimedWait → Int
  | .timedwait => cr.clock
  | .clockwait clk => clk

/-- The wait is on the clock that the functions below read. -/
def TimedWait.Reads (getclock : Option Int → Option Int) (cr : Creation) : TimedWait → Prop
  | .timedwait => cr.clock = clockRealtime
  | .clockwait clk => ∀ k, cr.clkid getclock = some k → k = clk

/-- In every run on a condition variable made like this, whatever the clocks show, a wait returns
`ETIMEDOUT` only after the right clock has reached `abstime` during the wait. -/
def ObeysClock (getclock : Option Int → Option Int) (cr : Creation) (tw : TimedWait) : Prop :=
  ∀ clkid, cr.clkid getclock = some clkid → ∀ clocks s, (condSys clocks clkid).Reach s →
    ∀ c abstime, (s.call c).wait.fn = tw.fn abstime →
      ∀ r, s.ret c = some r → condRet (abtRet r) = etimedout →
        ∃ τ, (s.call c).since ≤ τ ∧ τ ≤ s.now ∧ abstime.toSec ≤ (clocks (tw.clock cr) τ).toSec

section
variable {getclock : Option Int → Option Int} {cr : Creation} {tw : TimedWait}

theorem condRet_eq_etimedout {r : Bool} : condRet (abtRet r) = etimedout ↔ r = true := by
  cases r <;> simp [condRet, abtRet, etimedout]

/-- The clock that the functions below read. -/
theorem obeysClock_of_reads (h : tw.Reads getclock cr) : ObeysClock getclock cr tw := by
  intro clkid hclkid clocks s hs c abstime hfn r hr hret
  have hc := clocked_of_reach hs
  obtain ⟨ts, τ, htar, hsince, hnow, hle⟩ := hc.rets c (condRet_eq_etimedout.1 hret ▸ hr)
  refine ⟨τ, hsince, hnow, ?_⟩
  rw [hfn] at htar hle
  rw [hc.clkid] at hle
  cases tw with
  | timedwait =>
    cases htar
    have hclock : cr.clock = clockRealtime := h
    show abstime.toSec ≤ (clocks cr.clock τ).toSec
    rw [hclock]
    exact hle
  | clockwait clk =>
    cases htar
    obtain rfl := h clkid hclkid
    exact hle

/-- One clock is at 1 s and all others at 0. -/
def oneClock (k : Int) : Clocks := fun k' _ => if k' = k then ⟨1, 0⟩ else ⟨0, 0⟩

theorem fn_target (abstime : Timespec) : (tw.fn abstime).target = some abstime := by
  cases tw <;> rfl

/-- On a run where the clock that is read is the only one to reach `abstime`. -/
theorem clock_of_obeys {clkid : Int} (h : ObeysClock getclock cr tw)
    (hclkid : cr.clkid getclock = some clkid) : tw.clock cr = (tw.fn ⟨1, 0⟩).clock clkid := by
  have htar : (tw.fn ⟨1, 0⟩).target = some ⟨1, 0⟩ := fn_target _
  obtain ⟨s, hs, hcall, -, hret⟩ := reach_timedout (oneClock ((tw.fn ⟨1, 0⟩).clock clkid)) clkid
    (w := ⟨tw.fn ⟨1, 0⟩, 0, 0, false⟩) rfl (by simp [Fn.timed, htar])
    fun s hclk _ => by simp [Abt.State.expired, htar, hclk, oneClock]
  obtain ⟨τ, -, -, hle⟩ := h clkid hclkid _ s hs 0 ⟨1, 0⟩ (by rw [hcall]) true hret rfl
  by_contra hne
  rw [oneClock, if_neg hne] at hle
  norm_num [Timespec.toSec] at hle

/-- **Timed waits and their clock**: a timed wait obeys the right clock if and only if that is the
clock which the functions below it read. -/
theorem timedout_on_clock (hg : ∀ k, getclock (some k) = some k) :
    ObeysClock getclock cr tw ↔ tw.Reads getclock cr := by
  refine ⟨fun h => ?_, obeysClock_of_reads⟩
  cases tw with
  | timedwait =>
    cases cr with
    | static => rfl
    | init attr =>
      cases attr with
      | none => rfl
      | some k => exact clock_of_obeys h (hg k)
  | clockwait clk =>
    intro k hk
    exact (clock_of_obeys h hk).symm

end

theorem timedout_on_clock_default :
    ObeysClock (fun attr => attr) (.init (some clockRealtime)) .timedwait :=
  (timedout_on_clock fun _ => rfl).2 rfl

/-- A timed wait on a condition variable with `CLOCK_MONOTONIC`, and a clock wait on that clock on
one with `CLOCK_REALTIME`: both are ended by `CLOCK_REALTIME`. -/
theorem wrong_clock :
    ¬ ObeysClock (fun attr => attr) (.init (some clockMonotonic)) .timedwait ∧
    ¬ ObeysClock (fun attr => attr) (.init (some clockRealtime)) (.clockwait clockMonotonic) := by
  constructor
  · intro h
    have hclock : clockMonotonic = clockRealtime := clock_of_obeys h rfl
    simp [clockMonotonic, clockRealtime] at hclock
  · intro h
    have hclock : clockMonotonic = clockRealtime := clock_of_obeys h rfl
    simp [clockMonotonic, clockRealtime] at hclock

end Pthread
