import Cron.Scheduler.Basic

/-!
# Sessions

A session is a scheduler with a clock that only moves when it is told to. The clock shows whole
milliseconds and no leap seconds. `Session.step` performs a call and then, as a rule, lets a running
loop settle at the clock's time.

Whenever tasks run in a session, the loop is woken first (`Scheduler.settle`). So where the clock is
set by hand, the loop learns of it before any time goes by. A loop that is left alone is in
`TimedSession`.
-/

namespace Cron

/-- The instant as a clock of whole milliseconds shows it, where a leap second is the start of the
next one. -/
def Instant.inMillis (t : Instant) : Instant :=
  let ms := t.nanos / 1000000
  ⟨t.seconds + ms / 1000, ms % 1000 * 1000000, by omega⟩

/-- The instant that many milliseconds later. -/
def Instant.addMillis (t : Instant) (ms : Nat) : Instant :=
  let nanos := t.nanos + ms * 1000000
  ⟨t.seconds + nanos / 1000000000, nanos % 1000000000, by omega⟩

/-- A scheduler and its clock. -/
structure Session where
  scheduler : Scheduler
  clock : Instant

/-- What can be asked of a session. -/
inductive Call where
  | add (id : EntryId) (pattern : String)
  | remove (id : EntryId)
  | entries
  | start (inRuntime : Bool)
  | stop (inRuntime : Bool)
  /-- Signals a stop, if that takes time, and does not wait. -/
  | stopWithoutWaiting
  /-- Wakes the loop, if there is one, and lets tasks run. -/
  | runTasks
  /-- Sets the clock by hand. -/
  | setClock (clock : Instant)
  /-- Wakes the loop, if there is one, lets tasks run, and then lets time go by. -/
  | advance (ms : Nat)

/-- What a call answers, if it is not refused. -/
inductive Reply where
  | nothing
  | done
  /-- The stop is under way. -/
  | pending
  | listing (entries : List Entry)

/-- What a call comes to. -/
structure Outcome where
  session : Session
  reply : Except SchedulerError Reply
  fired : List Firing

namespace Session

/-- A session whose scheduler has no entries. -/
def new (tuning : Tuning) (clock : Instant) : Session :=
  { scheduler := Scheduler.new tuning, clock := clock.inMillis }

/-- The outcome of a call that changes the scheduler or is refused, and fires nothing. -/
def attempt (session : Session) (result : Except SchedulerError Scheduler) : Outcome :=
  match result with
  | .ok scheduler => ⟨{ session with scheduler }, .ok .done, []⟩
  | .error e => ⟨session, .error e, []⟩

/-- Performs a call. Nothing settles afterwards. -/
def perform (session : Session) (call : Call) : Outcome :=
  let s := session.scheduler
  let now := session.clock
  match call with
  | .add id pattern => session.attempt (s.add id pattern)
  | .remove id => session.attempt (s.remove id)
  | .start inRuntime => session.attempt (s.start inRuntime)
  | .entries =>
    let (scheduler, result) := s.entries now
    ⟨{ session with scheduler }, result.map .listing, []⟩
  | .stop inRuntime =>
    let (scheduler, result) := s.stop inRuntime now
    ⟨{ session with scheduler }, result.map fun _ => .done, []⟩
  | .stopWithoutWaiting =>
    let scheduler := s.signalStop
    let reply :=
      if scheduler.isPoisoned then .error (.loopGone .poisoned)
      else .ok (if scheduler.isStopping then .pending else .done)
    ⟨{ session with scheduler }, reply, []⟩
  | .runTasks =>
    let (scheduler, fired) := s.runTasks now
    ⟨{ session with scheduler }, .ok .nothing, fired⟩
  | .setClock clock => ⟨{ session with clock := clock.inMillis }, .ok .nothing, []⟩
  | .advance ms =>
    let clock := now.addMillis ms
    let (settled, missed) := s.runTasks now
    let (scheduler, fired) := settled.passTime clock
    ⟨{ scheduler, clock }, .ok .nothing, missed ++ fired⟩

/-- Performs a call and then lets the loop settle, unless told otherwise; moving the clock by hand
never settles. -/
def step (session : Session) (call : Call) (settles : Bool) : Outcome :=
  let outcome := session.perform call
  match call, settles with
  | .setClock _, _ | _, false => outcome
  | _, true =>
    let (scheduler, fired) := outcome.session.scheduler.settle outcome.session.clock
    { outcome with
      session := { outcome.session with scheduler }
      fired := outcome.fired ++ fired }

end Session

end Cron
