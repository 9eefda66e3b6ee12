import Mathlib.Data.Int.Basic
import Mathlib.Algebra.Group.Nat.Defs
import Mathlib.Algebra.Group.Int.Defs

/-!
# Emulated timeouts (`mylib/hook.c`)

`hook_clock_nanosleep`, and the cases 270 (`pselect6`) and 441 (`epoll_pwait2`) of `hook_function`.
Each of them polls in a loop and compares the clock with an alarm; `k` counts the rounds. Reading 0
of the clock is the one at entry, and round `k` takes reading `k + 1`. What the system call with a
zero timeout returns in round `k` is `polls k`. A fuel bounds the number of rounds.

`tv_sec` and `tv_nsec` are 64-bit and wrap; the arithmetic on `double` is exact.
-/

set_option autoImplicit false

namespace Hook

/-- `struct timespec`. -/
structure Timespec where
  sec : Int64
  nsec : Int64

/-- `tv_sec` and `tv_nsec` are added one by one. -/
def Timespec.add (t u : Timespec) : Timespec := ⟨t.sec + u.sec, t.nsec + u.nsec⟩

/-- `diff_nsec > 0`. -/
def Timespec.late (now alarm : Timespec) : Bool :=
  0 < (now.sec - alarm.sec).toInt * 10 ^ 9 + (now.nsec - alarm.nsec).toInt

/-- How a call ends: on account of time after a reading of the clock, with what the system call
returned, by dereferencing `NULL`, or by a failed `assert`; or it is still running. -/
inductive WaitEnd
  | time (reading : Nat)
  | ready (ret : Int)
  | fault
  | abort
  | running
deriving DecidableEq

/-- How a call ends, and the caller's timespec after it. -/
structure WaitRun where
  outcome : WaitEnd
  req : Option Timespec

def CLOCK_REALTIME : Int := 0

section
variable (clock : Nat → Timespec) (polls : Nat → Int)

/-- The loop of `hook_clock_nanosleep`, from round `k` on. -/
def nanosleepLoop (alarm : Timespec) : Nat → Nat → WaitEnd
  | 0, _ => .running
  | fuel + 1, k => if (clock (k + 1)).late alarm then .time (k + 1)
      else nanosleepLoop alarm fuel (k + 1)

/-- `hook_clock_nanosleep`; `rem` is not used. -/
def hookClockNanosleep (whichClock flags : Int) (req : Timespec) (fuel : Nat) : WaitRun where
  outcome :=
    if whichClock ≠ CLOCK_REALTIME then .abort
    else if flags ≠ 0 then .abort
    else nanosleepLoop clock ((clock 0).add req) fuel 0
  req := some req

/-- The loop of `pselect6`; `a6` tells whether the pointer is not `NULL`. -/
def pselect6Loop (ts : Timespec) (a6 : Bool) : Nat → Nat → WaitEnd
  | 0, _ => .running
  | fuel + 1, k =>
    if a6 && (clock (k + 1)).late ts then .time (k + 1)
    else if polls k ≠ 0 then .ready (polls k)
    else pselect6Loop ts a6 fuel (k + 1)

/-- `pselect6`: `ats` is read before the test of `a6`. -/
def pselect6 (ats : Option Timespec) (fuel : Nat) : WaitRun where
  outcome :=
    match ats with
    | none => .fault
    | some a => pselect6Loop clock polls ((clock 0).add a) ats.isSome fuel 0
  req := ats

/-- The loop of `epoll_pwait2`. -/
def epollPwait2Loop (ts : Option Timespec) : Nat → Nat → WaitEnd
  | 0, _ => .running
  | fuel + 1, k =>
    if polls k > 0 then .ready (polls k)
    else if ts.any fun ts => (clock (k + 1)).late ts then .time (k + 1)
    else epollPwait2Loop ts fuel (k + 1)

/-- `epoll_pwait2`: the caller's timespec becomes the alarm. -/
def epollPwait2 (ts : Option Timespec) (fuel : Nat) : WaitRun where
  outcome := epollPwait2Loop clock polls (ts.map fun ts => ts.add (clock 0)) fuel 0
  req := ts.map fun ts => ts.add (clock 0)

end

def Timespec.nanos (t : Timespec) : Int := t.sec.toInt * 10 ^ 9 + t.nsec.toInt

/-- What a clock shows that does not go back. -/
structure ClockTrace (clock : Nat → Timespec) : Prop where
  sec : ∀ k, 0 ≤ (clock k).sec.toInt
  nsec : ∀ k, 0 ≤ (clock k).nsec.toInt ∧ (clock k).nsec.toInt < 10 ^ 9
  mono : ∀ i j, i ≤ j → (clock i).nanos ≤ (clock j).nanos

/-- A call ends on account of time only when there is a request, and more than that has passed since
its first reading; it does not dereference `NULL`, and leaves the caller's timespec as it was. -/
structure WaitRight (clock : Nat → Timespec) (req : Option Timespec) (run : WaitRun) : Prop where
  time : ∀ k, run.outcome = .time k → ∃ ts, req = some ts ∧
    ts.nanos < (clock k).nanos - (clock 0).nanos
  noFault : run.outcome ≠ .fault
  kept : run.req = req

/-- The call is right on every such clock, whatever the system call returns and for as long as it
runs. -/
def TimeoutRight (req : Option Timespec)
    (run : (Nat → Timespec) → (Nat → Int) → Nat → WaitRun) : Prop :=
  ∀ clock polls fuel, ClockTrace clock → WaitRight clock req (run clock polls fuel)

/-- The nanoseconds do not wrap, or the request is over at once. -/
def Timespec.Fits (t : Timespec) : Prop := t.nsec.toInt ≤ 2 ^ 63 - 999999999 ∨ t.nanos ≤ 0

instance (t : Timespec) : Decidable t.Fits := inferInstanceAs (Decidable (_ ∨ _))

end Hook
