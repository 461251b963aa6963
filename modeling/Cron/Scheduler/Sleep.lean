import Cron.Scheduler.Session

/-!
# Sleeping while the clock is set

A loop that waits for an instant takes the time until then from the clock, once, and sleeps for so
long (`Dispatcher::run` in the engine). It does not notice that the clock is set by hand in the
meantime. When it wakes up, the clock shows the instant that it waited for only if nobody has set
the clock. Otherwise it is off by as much as the clock was set on or back, which is the drift that a
`TimedSession` keeps.

Even so the loop fires what it has been waiting for, as due at that instant. It looks at the clock
only afterwards: it fires what else is overdue by then, and fixes its next wait.

In `Session.step` nothing of this shows, because there the loop is woken before any time goes by
(`Scheduler.settle`). Here it is left alone by `TimedSession.sleep`, and woken by the steps of a
session as before. Where it has a command to handle, it does not sleep on.

Assumed of the runtime's timer: who sleeps for a time wakes up exactly when that time has passed.
The clock shows whole milliseconds and the entries are due at whole seconds, so nothing is rounded.
Out of scope: that a loop which waits for the idle time only wakes up after it. It then waits anew,
or dies if it cannot, which is left to the next time that tasks run.
-/

namespace Cron

/-- The whole milliseconds since 1970 began in UTC. -/
def Instant.millis (t : Instant) : Int := t.seconds * 1000 + t.nanos / 1000000

/-- The instant that many milliseconds later, or earlier. -/
def Instant.shift (t : Instant) (ms : Int) : Instant :=
  let nanos := t.nanos + ms * 1000000
  ⟨t.seconds + nanos / 1000000000, (nanos % 1000000000).toNat, by omega⟩

/-- What a loop does that has slept until an instant was due and wakes up at another time on the clock.
What fired is listed, and the queue is left, unless the loop died. -/
def Queue.wakeFor (tuning : Tuning) (due now : Instant) (q : Queue) : Option Queue × List Firing :=
  let after := q.fireAt tuning.zone tuning.horizon due
  let fired := after.2.map fun id => ⟨id, due, now⟩
  match after.1.attend? tuning now with
  | none => (none, fired)
  | some _ =>
    let rest := after.1.fireUpTo tuning now fun _ => now
    (rest.1, fired ++ rest.2)

/-- A session in which time may go by without the loop being woken. -/
structure TimedSession where
  session : Session
  /-- By how many milliseconds the clock has been set on by hand since the loop last fixed its wait. It
  is negative if the clock has been set back. -/
  drift : Int

namespace TimedSession

/-- A session whose scheduler has no entries. -/
def new (tuning : Tuning) (clock : Instant) : TimedSession := ⟨Session.new tuning clock, 0⟩

/-- The drift after a call. A loop that is woken or answers looks at the clock. -/
def driftAfter (t : TimedSession) (call : Call) (settles : Bool) : Int :=
  match call, settles with
  | .setClock clock, _ => t.drift + (clock.inMillis.millis - t.session.clock.millis)
  | .entries, _ | .runTasks, _ | .advance _, _ => 0
  | _, true => 0
  | _, false => t.drift

/-- The session after a call. -/
def step (t : TimedSession) (call : Call) (settles : Bool) : TimedSession :=
  ⟨(t.session.step call settles).session, t.driftAfter call settles⟩

/-- What the clock shows when a loop wakes up that has slept until an instant was due. -/
def wakesAt (t : TimedSession) (due : Instant) : Instant :=
  let woken := due.shift t.drift
  if woken ≤ t.session.clock then t.session.clock else woken

/-- Lets time go by. A loop that waits without a command to handle sleeps on until its time has passed;
all other tasks run at once. -/
def sleep (t : TimedSession) (ms : Nat) : TimedSession × List Firing :=
  let s := t.session.scheduler
  let later := t.session.clock.addMillis ms
  match s.phase, s.pending with
  | .running (.waiting q), [] =>
    match q.peek with
    | none => (⟨⟨s, later⟩, t.drift⟩, [])
    | some due =>
      if t.wakesAt due ≤ later then
        let (left, fired) := q.wakeFor s.tuning due (t.wakesAt due)
        let (scheduler, further) := (s.resume left).passTime later
        (⟨⟨scheduler, later⟩, 0⟩, fired ++ further)
      else (⟨⟨s, later⟩, t.drift⟩, [])
  | _, _ =>
    let outcome := t.session.perform (.advance ms)
    (⟨outcome.session, 0⟩, outcome.fired)

end TimedSession

end Cron
