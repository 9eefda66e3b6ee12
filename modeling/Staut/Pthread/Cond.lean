import Staut.Abt.Cond

/-!
# Timed waits on a `pthread_cond_t` (`mylib/mylib.c`)

`pthread_cond_init`, `get_abt_cond`, `pthread_cond_timedwait` and `pthread_cond_clockwait` over the
condition variables of Argobots. `real_pthread_condattr_getclock` is a parameter: `none` where it
does not return.
-/

set_option autoImplicit false

namespace Pthread

open Run Abt

/-- How a condition variable comes to be: `pthread_cond_init` with an attribute (of which only the
clock matters) or with `NULL`, or `get_abt_cond` on a static initializer. -/
inductive Creation
  | init (attr : Option Int)
  | static

/-- `pthread_cond_init`: the clock is passed on to `ABT_cond_create2`. -/
def condInit (getclock : Option Int → Option Int) (attr : Option Int) : Option Int := getclock attr

/-- The `clkid` of the condition variable; `get_abt_cond` calls `pthread_cond_init(cond, NULL)`. -/
def Creation.clkid (getclock : Option Int → Option Int) : Creation → Option Int
  | .init attr => condInit getclock attr
  | .static => condInit getclock none

/-- The two timed waits, without their `abstime`. -/
inductive TimedWait
  | timedwait
  | clockwait (clk : Int)

/-- The Argobots function that is called. -/
def TimedWait.fn (abstime : Timespec) : TimedWait → Fn
  | .timedwait => .timedwait abstime
  | .clockwait clk => .clockwait clk abstime

inductive AbtRet
  | success
  | errCondTimedout
deriving DecidableEq

def abtRet (isTimedout : Bool) : AbtRet := if isTimedout then .errCondTimedout else .success

def etimedout : Int := 110

/-- The last lines of both functions. -/
def condRet (ret : AbtRet) : Int := if ret = .errCondTimedout then etimedout else 0

end Pthread
