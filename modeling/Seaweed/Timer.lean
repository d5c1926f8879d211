import Mathlib

/-! `drivers/timer.c`: the tick counter and the wait on it. What the code reads is a
stream of readings of `ticks`, which the interrupts change in between. -/

namespace Seaweed

/-- `TIMER_HZ`. -/
def timerHz : UInt32 := 100

/-- `timer_callback`, once for every interrupt. -/
def timerCallback (ticks : UInt32) : UInt32 := ticks + 1

def timerSeconds (ticks : UInt32) : UInt32 := ticks / timerHz

def sleepWanted (ms : UInt32) : UInt32 := (ms * timerHz + 999) / 1000

/-- `(int32_t)(target - ticks) > 0` -/
def stillWaiting (target ticks : UInt32) : Bool := decide (0 < (target - ticks).toInt32.toInt)

/-- The loop of `timer_sleep` from reading `k` on, for as many turns as there are: the
reading at which it is left. -/
def sleepFrom (target : UInt32) (readings : Stream' UInt32) : ℕ → ℕ → Option ℕ
  | 0, _ => none
  | turns + 1, k => if stillWaiting target (readings.get k) then sleepFrom target readings turns (k + 1) else some k

/-- Reading 0 is the one that sets the target. -/
def timerSleep (ms : UInt32) (readings : Stream' UInt32) (turns : ℕ) : Option ℕ :=
  sleepFrom (readings.get 0 + sleepWanted ms) readings turns 1

/-- The readings when `passed k` interrupts have come before reading `k`. -/
def readingsOf (start : UInt32) (passed : ℕ → ℕ) : Stream' UInt32 := fun k => timerCallback^[passed k] start

end Seaweed
