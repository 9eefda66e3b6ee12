import Staut.Hook.Timeouts
import Mathlib.Tactic.NormNum

/-!
# How long emulated timeouts last

The three loops compare the same difference (`late_add`), unnormalised seconds and nanoseconds that
wrap. A difference that wraps upwards only makes a call wait longer. One that wraps downwards is
that of the nanoseconds of a request beyond `Timespec.Fits`, and some clock then shows it
(`earlyClock`).

The calls differ in what they do with the request: a copy, a copy that is made before the test for
`NULL`, and none.
-/

set_option autoImplicit false

namespace Hook

section
variable {clock : Nat → Timespec} {polls : Nat → Int} {start now req alarm : Timespec}
  {fuel k m : Nat}

theorem bmod_le {x : Int} (h : -2 ^ 63 ≤ x) : x.bmod (2 ^ 64) ≤ x := by
  rw [Int.bmod_def]
  split <;> omega

theorem late_iff : now.late alarm = true ↔
    0 < (now.sec.toInt - alarm.sec.toInt).bmod (2 ^ 64) * 10 ^ 9 +
      (now.nsec.toInt - alarm.nsec.toInt).bmod (2 ^ 64) := by
  simp [Timespec.late]

theorem add_comm_timespec (t u : Timespec) : t.add u = u.add t := by
  simp only [Timespec.add, Int64.add_comm]

/-- The comparison with an alarm that is set at `start`. -/
theorem late_add : now.late (start.add req) = true ↔
    0 < (now.sec.toInt - start.sec.toInt - req.sec.toInt).bmod (2 ^ 64) * 10 ^ 9 +
      (now.nsec.toInt - start.nsec.toInt - req.nsec.toInt).bmod (2 ^ 64) := by
  rw [late_iff]
  simp only [Timespec.add, Int64.toInt_add, Int.sub_bmod_bmod, Int.sub_sub]

/-- An alarm that goes off is not early. -/
theorem late_sound (hc : ClockTrace clock) (hf : req.Fits)
    (hl : (clock k).late ((clock 0).add req) = true) :
    req.nanos < (clock k).nanos - (clock 0).nanos := by
  rw [late_add] at hl
  have hmono := hc.mono 0 k (Nat.zero_le k)
  have hs := hc.sec k
  have hs0 := hc.sec 0
  have hn := hc.nsec k
  have hn0 := hc.nsec 0
  have hsec := Int64.toInt_lt req.sec
  have hsec0 := Int64.toInt_lt (clock 0).sec
  have hnsec := Int64.toInt_lt req.nsec
  unfold Timespec.nanos at hmono ⊢
  have hle : (clock 0).sec.toInt ≤ (clock k).sec.toInt := by omega
  have h1 : ((clock k).sec.toInt - (clock 0).sec.toInt - req.sec.toInt).bmod (2 ^ 64) ≤
      (clock k).sec.toInt - (clock 0).sec.toInt - req.sec.toInt := bmod_le (by omega)
  by_cases hy : -2 ^ 63 ≤ (clock k).nsec.toInt - (clock 0).nsec.toInt - req.nsec.toInt
  · have h2 := bmod_le hy
    omega
  · -- then time has passed, and the request is not positive
    have hneg : req.nanos ≤ 0 := hf.resolve_left (by omega)
    unfold Timespec.nanos at hneg
    omega

/-! ## The loops -/

theorem nanosleepLoop_time (h : nanosleepLoop clock alarm fuel k = .time m) :
    (clock m).late alarm = true := by
  induction fuel generalizing k with
  | zero => cases h
  | succ fuel ih =>
    unfold nanosleepLoop at h
    split at h
    · rename_i hl
      cases h
      exact hl
    · exact ih h

theorem nanosleepLoop_fault : nanosleepLoop clock alarm fuel k ≠ .fault := by
  induction fuel generalizing k with
  | zero => exact nofun
  | succ fuel ih =>
    unfold nanosleepLoop
    split
    · exact nofun
    · exact ih

theorem pselect6Loop_time {a6 : Bool} (h : pselect6Loop clock polls alarm a6 fuel k = .time m) :
    (clock m).late alarm = true := by
  induction fuel generalizing k with
  | zero => cases h
  | succ fuel ih =>
    unfold pselect6Loop at h
    split at h
    · rename_i hl
      cases h
      exact (Bool.and_eq_true_iff.1 hl).2
    · split at h
      · cases h
      · exact ih h

theorem pselect6Loop_fault {a6 : Bool} : pselect6Loop clock polls alarm a6 fuel k ≠ .fault := by
  induction fuel generalizing k with
  | zero => exact nofun
  | succ fuel ih =>
    unfold pselect6Loop
    split
    · exact nofun
    · split
      · exact nofun
      · exact ih

theorem epollPwait2Loop_time {ts : Option Timespec}
    (h : epollPwait2Loop clock polls ts fuel k = .time m) :
    ∃ alarm, ts = some alarm ∧ (clock m).late alarm = true := by
  induction fuel generalizing k with
  | zero => cases h
  | succ fuel ih =>
    unfold epollPwait2Loop at h
    split at h
    · cases h
    · split at h
      · rename_i hl
        cases h
        exact (Option.any_eq_true _ _).1 hl
      · exact ih h

theorem epollPwait2Loop_fault {ts : Option Timespec} :
    epollPwait2Loop clock polls ts fuel k ≠ .fault := by
  induction fuel generalizing k with
  | zero => exact nofun
  | succ fuel ih =>
    unfold epollPwait2Loop
    split
    · exact nofun
    · split
      · exact nofun
      · exact ih

/-! ## A clock that shows the wrap -/

/-- The end of a second at entry, and the start of second `d` from then on. -/
def earlyClock (d : Int) : Nat → Timespec
  | 0 => ⟨0, 999999999⟩
  | _ + 1 => ⟨Int64.ofInt d, 0⟩

theorem earlyClock_trace {d : Int} (h1 : 1 ≤ d) (h2 : d < 2 ^ 63) : ClockTrace (earlyClock d) := by
  have hd : (Int64.ofInt d).toInt = d := Int64.toInt_ofInt_of_le (by omega) h2
  have h0 : (0 : Int64).toInt = 0 := rfl
  have h9 : (999999999 : Int64).toInt = 999999999 := rfl
  refine ⟨fun k => ?_, fun k => ?_, fun i j hij => ?_⟩
  · cases k with
    | zero => exact le_refl _
    | succ k =>
      show 0 ≤ (Int64.ofInt d).toInt
      omega
  · cases k with
    | zero => exact ⟨by rw [earlyClock, h9]; norm_num, by rw [earlyClock, h9]; norm_num⟩
    | succ k => exact ⟨le_refl _, by rw [earlyClock, h0]; norm_num⟩
  · cases i with
    | zero =>
      cases j with
      | zero => exact le_refl _
      | succ j =>
        simp only [earlyClock, Timespec.nanos, hd, h0, h9]
        omega
    | succ i =>
      cases j with
      | zero => omega
      | succ j => exact le_refl _

/-- The second at which a request that does not fit is over too early. -/
def earlySec (req : Timespec) : Int := max 1 req.sec.toInt

theorem early (hf : ¬ req.Fits) : ClockTrace (earlyClock (earlySec req)) ∧
    ((earlyClock (earlySec req)) 1).late ((earlyClock (earlySec req) 0).add req) = true ∧
    (earlyClock (earlySec req) 1).nanos - (earlyClock (earlySec req) 0).nanos ≤ req.nanos := by
  have hn := Int64.toInt_lt req.nsec
  have hs := Int64.toInt_lt req.sec
  obtain ⟨hbig, hpos⟩ := not_or.1 hf
  have hd1 : 1 ≤ earlySec req := le_max_left _ _
  have hd2 : earlySec req < 2 ^ 63 := max_lt (by norm_num) hs
  have hd : (Int64.ofInt (earlySec req)).toInt = earlySec req :=
    Int64.toInt_ofInt_of_le (by omega) hd2
  have h0 : (0 : Int64).toInt = 0 := rfl
  have h9 : (999999999 : Int64).toInt = 999999999 := rfl
  unfold Timespec.nanos at hpos
  have hcases : earlySec req = 1 ∧ req.sec.toInt ≤ 1 ∨ earlySec req = req.sec.toInt := by
    rcases le_total req.sec.toInt 1 with hle | hle
    · exact .inl ⟨max_eq_left hle, hle⟩
    · exact .inr (max_eq_right hle)
  have hsec : (earlySec req - 0 - req.sec.toInt).bmod (2 ^ 64) = earlySec req - req.sec.toInt := by
    rw [Int.bmod_def]
    split <;> omega
  have hnsec : (0 - 999999999 - req.nsec.toInt).bmod (2 ^ 64) =
      2 ^ 64 - 999999999 - req.nsec.toInt := by
    rw [Int.bmod_def]
    split <;> omega
  refine ⟨earlyClock_trace hd1 hd2, ?_, ?_⟩
  · rw [late_add]
    simp only [earlyClock, hd, h0, h9, hsec, hnsec]
    omega
  · simp only [earlyClock, Timespec.nanos, hd, h0, h9]
    omega

/-! ## The calls -/

theorem nanosleep_right {whichClock flags : Int} (hf : req.Fits) :
    TimeoutRight (some req) fun clock _ fuel =>
      hookClockNanosleep clock whichClock flags req fuel := by
  intro clock polls fuel hc
  refine ⟨fun k hk => ⟨req, rfl, ?_⟩, ?_, rfl⟩
  · simp only [hookClockNanosleep] at hk
    split at hk
    · cases hk
    · split at hk
      · cases hk
      · exact late_sound hc hf (nanosleepLoop_time hk)
  · simp only [hookClockNanosleep]
    split
    · exact nofun
    · split
      · exact nofun
      · exact nanosleepLoop_fault

theorem pselect6_right (hf : req.Fits) :
    TimeoutRight (some req) fun clock polls fuel => pselect6 clock polls (some req) fuel := by
  intro clock polls fuel hc
  refine ⟨fun k hk => ⟨req, rfl, late_sound hc hf (pselect6Loop_time hk)⟩, ?_, rfl⟩
  exact pselect6Loop_fault

/-- `epoll_pwait2` waits long enough too. -/
theorem epollPwait2_late (hc : ClockTrace clock) (hf : req.Fits)
    (h : (epollPwait2 clock polls (some req) fuel).outcome = .time k) :
    req.nanos < (clock k).nanos - (clock 0).nanos := by
  obtain ⟨alarm, ha, hl⟩ := epollPwait2Loop_time h
  have halarm : alarm = (clock 0).add req := by rw [← Option.some.inj ha, add_comm_timespec]
  rw [halarm] at hl
  exact late_sound hc hf hl

theorem epollPwait2_right : TimeoutRight none fun clock polls fuel =>
    epollPwait2 clock polls none fuel := by
  intro clock polls fuel hc
  refine ⟨fun k hk => ?_, epollPwait2Loop_fault, rfl⟩
  obtain ⟨alarm, ha, -⟩ := epollPwait2Loop_time hk
  cases ha

/-- The alarm is another timespec, so the next call with it waits longer. -/
theorem add_nsec_ne (ts : Timespec) : ts.add ⟨0, 999999999⟩ ≠ ts := by
  intro h
  have hn : (ts.nsec + 999999999).toInt = ts.nsec.toInt := congrArg (fun t => t.nsec.toInt) h
  have h9 : (999999999 : Int64).toInt = 999999999 := rfl
  have h1 := Int64.toInt_lt ts.nsec
  have h2 := Int64.le_toInt ts.nsec
  rw [Int64.toInt_add, h9, Int.bmod_def] at hn
  split at hn <;> omega

end

theorem nanosleep_right_iff (whichClock flags : Int) (req : Timespec) :
    TimeoutRight (some req)
      (fun clock _ fuel => hookClockNanosleep clock whichClock flags req fuel) ↔
      whichClock ≠ CLOCK_REALTIME ∨ flags ≠ 0 ∨ req.Fits := by
  refine ⟨fun h => ?_, fun h => ?_⟩
  · by_contra hn
    obtain ⟨h1, hn⟩ := not_or.1 hn
    obtain ⟨h2, hf⟩ := not_or.1 hn
    obtain ⟨hc, hl, hle⟩ := early hf
    have hrun : (hookClockNanosleep (earlyClock (earlySec req)) whichClock flags req 1).outcome =
        .time 1 := by
      simp only [hookClockNanosleep]
      rw [if_neg h1, if_neg h2, nanosleepLoop, if_pos hl]
    obtain ⟨ts, hts, hlt⟩ := (h _ (fun _ => 0) 1 hc).time 1 hrun
    rw [← Option.some.inj hts] at hlt
    omega
  · by_cases hf : req.Fits
    · exact nanosleep_right hf
    · intro clock polls fuel _
      have habort : (hookClockNanosleep clock whichClock flags req fuel).outcome = .abort := by
        simp only [hookClockNanosleep]
        rcases h with h | h | h
        · rw [if_pos h]
        · rw [if_pos h, ite_self]
        · exact absurd h hf
      refine ⟨fun k hk => ?_, ?_, rfl⟩
      · rw [habort] at hk
        cases hk
      · rw [habort]
        exact nofun

theorem pselect6_right_iff (ats : Option Timespec) :
    TimeoutRight ats (fun clock polls fuel => pselect6 clock polls ats fuel) ↔
      ∃ ts, ats = some ts ∧ ts.Fits := by
  refine ⟨fun h => ?_, fun h => ?_⟩
  · cases ats with
    | none =>
      have htrace : ClockTrace (earlyClock 1) := earlyClock_trace (by norm_num) (by norm_num)
      exact absurd rfl (h _ (fun _ => 0) 0 htrace).noFault
    | some req =>
      refine ⟨req, rfl, ?_⟩
      by_contra hf
      obtain ⟨hc, hl, hle⟩ := early hf
      have hrun : (pselect6 (earlyClock (earlySec req)) (fun _ => 0) (some req) 1).outcome =
        .time 1 := by
        simp only [pselect6]
        rw [pselect6Loop, if_pos (by rw [hl]; rfl)]
      obtain ⟨ts, hts, hlt⟩ := (h _ _ 1 hc).time 1 hrun
      rw [← Option.some.inj hts] at hlt
      omega
  · obtain ⟨ts, rfl, hf⟩ := h
    exact pselect6_right hf

theorem epollPwait2_right_iff (ts : Option Timespec) :
    TimeoutRight ts (fun clock polls fuel => epollPwait2 clock polls ts fuel) ↔ ts = none := by
  refine ⟨fun h => ?_, fun h => ?_⟩
  · cases ts with
    | none => rfl
    | some ts =>
      have htrace : ClockTrace (earlyClock 1) := earlyClock_trace (by norm_num) (by norm_num)
      exact absurd (Option.some.inj (h _ (fun _ => 0) 0 htrace).kept) (add_nsec_ne ts)
  · rw [h]
    exact epollPwait2_right

/-- **Which timeouts last**: on every clock that does not go back, a sleep is right when it does not
wrap (or is refused), `pselect6` when in addition there is a timespec, and `epoll_pwait2` when there
is none. -/
theorem timeouts_right_iff (whichClock flags : Int) (req : Timespec) (ats ts : Option Timespec) :
    (TimeoutRight (some req)
        (fun clock _ fuel => hookClockNanosleep clock whichClock flags req fuel) ↔
      whichClock ≠ CLOCK_REALTIME ∨ flags ≠ 0 ∨ req.Fits) ∧
    (TimeoutRight ats (fun clock polls fuel => pselect6 clock polls ats fuel) ↔
      ∃ ts, ats = some ts ∧ ts.Fits) ∧
    (TimeoutRight ts (fun clock polls fuel => epollPwait2 clock polls ts fuel) ↔ ts = none) :=
  ⟨nanosleep_right_iff whichClock flags req, pselect6_right_iff ats, epollPwait2_right_iff ts⟩

/-- Uptime of one second, and no more. -/
def secondClock : Nat → Timespec := fun _ => ⟨1, 0⟩

theorem secondClock_trace : ClockTrace secondClock where
  sec _ := (by decide : 0 ≤ (1 : Int64).toInt)
  nsec _ := (by decide : 0 ≤ (0 : Int64).toInt ∧ (0 : Int64).toInt < 10 ^ 9)
  mono _ _ _ := le_refl _

/-- `epoll_pwait2` with a timeout of 5 ns makes 1.000000005 s of it; `pselect6` without a timeout
reads `NULL`; a sleep of 2^63 - 1 ns is over in the nanosecond after it began. -/
theorem timeouts_wrong : ClockTrace secondClock ∧ ClockTrace (earlyClock 1) ∧
    (epollPwait2 secondClock (fun _ => 0) (some ⟨0, 5⟩) 1).req = some ⟨1, 5⟩ ∧
    ¬ WaitRight secondClock (some ⟨0, 5⟩) (epollPwait2 secondClock (fun _ => 0) (some ⟨0, 5⟩) 1) ∧
    ¬ WaitRight secondClock none (pselect6 secondClock (fun _ => 0) none 1) ∧
    (hookClockNanosleep (earlyClock 1) CLOCK_REALTIME 0 ⟨0, Int64.maxValue⟩ 1).outcome = .time 1 ∧
    (earlyClock 1 1).nanos - (earlyClock 1 0).nanos = 1 := by
  refine ⟨secondClock_trace, earlyClock_trace (by norm_num) (by norm_num), rfl, fun h => ?_,
    fun h => h.noFault rfl, by decide, by decide⟩
  have hsec := congrArg (fun t => t.map fun t => t.sec) h.kept
  cases hsec

end Hook
