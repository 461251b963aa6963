import Cron.Pattern

/-!
# What can go wrong with a scheduler

A call is refused because its pattern is bad, because the loop that owns the queue is gone, because
a stop is still under way, or because there is nothing to run tasks on (the errors of `Scheduler` in
the engine, and their texts).

A call may also break down, and then no answer comes back. That happens on a lock that an earlier
breakdown has poisoned. It is kept as one more way in which the loss of the queue shows
(`LoopLoss.poisoned`), so that each call has one type of outcome; what stands for the answer is the
text with which it breaks down.
-/

namespace Cron

/-- How it shows that the loop is gone. -/
inductive LoopLoss where
  /-- It went away before it answered. -/
  | requestDropped
  /-- It takes no commands any more. -/
  | channelClosed
  /-- Its end was noticed earlier. -/
  | failedEarlier
  /-- The lock on the scheduler is poisoned: the call breaks down instead of being answered. -/
  | poisoned
deriving DecidableEq, Repr

/-- Why a call on a scheduler is refused, or that it breaks down. -/
inductive SchedulerError where
  | pattern (e : PatternError)
  | loopGone (loss : LoopLoss)
  | stopping
  | noRuntime
deriving DecidableEq, Repr

/-- The sign of the loss in words. -/
def LoopLoss.message : LoopLoss → String
  | requestDropped => "snapshot request dropped"
  | channelClosed => "command channel closed"
  | failedEarlier => "scheduler loop panicked earlier"
  | poisoned => "scheduler state poisoned"

/-- The error in words. -/
def SchedulerError.message : SchedulerError → String
  | pattern e => e.message
  | loopGone loss => "Scheduler loop is gone: " ++ loss.message
  | stopping => "Scheduler is still stopping"
  | noRuntime =>
    "No Tokio runtime available: there is no reactor running, must be called from the context of "
      ++ "a Tokio 1.x runtime"

end Cron
