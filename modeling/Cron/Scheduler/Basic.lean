import Cron.Scheduler.Error
import Cron.Scheduler.Loop

/-!
# The scheduler

A scheduler is idle and owns its queue; or it is running, and a loop owns the queue; or a stop has
been signalled, and the queue comes back once the loop has ended; or it has failed, because the loop
died (`Scheduler`, `State` and `reap` in the engine). Commands wait in a channel until someone
handles them: the loop, if it is running; the scheduler itself, when it is stopped or asked for its
entries. The scheduler does that under a lock. If the clock cannot be read then, the lock is
poisoned, and every later call that takes the lock breaks down (`Phase.poisoned`).

Tasks only run when the scheduler is told so: `settle` lets a running loop do all that it has to do
at an instant, `finishStop` completes a signalled stop, `passTime` lets time go by. All other
operations only change what is waiting.

A loop that waits does not look at the clock. `run` leaves it alone, as long as there is no command
for it. `settle` wakes it up first, with a request for the entries that nobody waits for any more,
so that it looks at the clock, fires what is overdue and fixes its next wait.

Assumed of the runtime's timer: a loop that waits for a time wakes up when that time has passed.
`passTime` is for a loop that has just fixed its wait, and the clock goes on as the time passes, so
that the loop wakes up exactly when the clock shows the instant at which its first entry is due.
Where the clock is set by hand while a loop waits, and time passes without the loop being woken, the
two fall apart; that is what `TimedSession.sleep` is for. A loop with nothing to wait for but the
idle time wakes up after that time. It then waits anew, or dies if it cannot; `passTime` leaves that
to the next time that tasks run.

Out of scope: the tasks' own memory and threads, and that a program may drop its scheduler. The name
of a new entry is handed to `add`; the generator that names are taken from reads the clock as well,
and gives none before 1970.
-/

namespace Cron

/-- The loop of a running scheduler. -/
inductive Loop where
  /-- It has been started but has not run yet. -/
  | fresh (queue : Queue)
  /-- It has started up and is waiting. -/
  | waiting (queue : Queue)
  /-- It died, and the queue with it. -/
  | dead

/-- Where the queue is. -/
inductive Phase where
  | idle (queue : Queue)
  | running (loop : Loop)
  | stopping (loop : Loop)
  | failed
  /-- The clock could not be read while commands were handled under the lock. Nobody gets at the queue
  any more; the channel stays open if the scheduler was idle, and was closed if the loop had ended. -/
  | poisoned (channelOpen : Bool)

/-- A scheduler. -/
structure Scheduler where
  tuning : Tuning
  phase : Phase
  /-- Commands that no one has handled yet, in the order in which they were sent. -/
  pending : List Command

namespace Scheduler

/-- A scheduler without entries. -/
def new (tuning : Tuning) : Scheduler :=
  { tuning, phase := .idle Queue.empty, pending := [] }

/-- Whether the scheduler was started and no stop has been signalled since. To ask this of a poisoned
scheduler breaks down; here it counts as one that does not run. -/
def isRunning (s : Scheduler) : Bool :=
  match s.phase with
  | .running _ => true
  | _ => false

/-- Whether the lock on the scheduler is poisoned. -/
def isPoisoned (s : Scheduler) : Bool :=
  match s.phase with
  | .poisoned _ => true
  | _ => false

/-- Whether someone will handle commands. -/
def takesCommands (s : Scheduler) : Bool :=
  match s.phase with
  | .idle _ => true
  | .running .dead | .stopping .dead | .failed | .poisoned _ => false
  | .running _ | .stopping _ => true

/-- Whether commands can be sent, even if nobody will ever handle them. -/
def channelOpen (s : Scheduler) : Bool :=
  match s.phase with
  | .poisoned isOpen => isOpen
  | _ => s.takesCommands

/-! ## Sending commands -/

/-- Sends a command. -/
def send (s : Scheduler) (command : Command) : Except SchedulerError Scheduler :=
  if s.channelOpen then .ok { s with pending := s.pending ++ [command] }
  else .error (.loopGone .channelClosed)

/-- Registers an entry of a new name under a pattern. -/
def add (s : Scheduler) (id : EntryId) (pattern : String) : Except SchedulerError Scheduler := do
  let schedule ← (Schedule.compile pattern).mapError .pattern
  s.send (.add (Entry.new id schedule))

/-- Removes the entry of a name. -/
def remove (s : Scheduler) (id : EntryId) : Except SchedulerError Scheduler :=
  s.send (.remove id)

/-! ## Running tasks -/

/-- The queue of a loop that has started up, unless it is dead. -/
def queueAfterStartUp? (s : Scheduler) (now : Instant) : Loop → Option Queue
  | .fresh q => q.startUp? s.tuning now
  | .waiting q => some q
  | .dead => none

/-- The scheduler without waiting commands, in a new phase. -/
def enter (s : Scheduler) (phase : Phase) : Scheduler := { s with phase, pending := [] }

/-- The scheduler with its loop waiting on a queue, or dead without one. -/
def resume (s : Scheduler) : Option Queue → Scheduler
  | some q => s.enter (.running (.waiting q))
  | none => s.enter (.running .dead)

/-- Whether a loop has started up and waits, and no command is left for it. -/
def isWaiting (s : Scheduler) : Bool :=
  match s.phase with
  | .running (.waiting _) => s.pending.isEmpty
  | _ => false

/-- The scheduler with a command for its loop to wake up for, if there is a loop. -/
def wake (s : Scheduler) : Scheduler :=
  match s.phase with
  | .running _ => { s with pending := s.pending ++ [.list] }
  | _ => s

/-- Lets a running loop start up, handle all commands and fire all that is due by now. A loop that
waits and has no command to handle goes on waiting. -/
def run (s : Scheduler) (now : Instant) : Scheduler × List Firing :=
  match s.phase with
  | .running loop =>
    if s.isWaiting then (s, [])
    else
      match (s.queueAfterStartUp? now loop).bind (·.obeyAll? s.tuning now s.pending) with
      | none => (s.resume none, [])
      | some q =>
        let (left, fired) := q.fireUpTo s.tuning now fun _ => now
        (s.resume left, fired)
  | _ => (s, [])

/-- Wakes a running loop and lets it do all that it has to do by now. -/
def settle (s : Scheduler) (now : Instant) : Scheduler × List Firing := s.wake.run now

/-- The scheduler with a queue that is its own, after all commands have been handled, unless that
poisons the lock. -/
def goIdle (s : Scheduler) (channelOpen : Bool) (now : Instant) (q : Queue) : Scheduler :=
  match q.drain? s.tuning now s.pending with
  | some q => s.enter (.idle q)
  | none => s.enter (.poisoned channelOpen)

/-- Completes a stop that has been signalled. The loop only starts up, if it has not yet; the
commands that are waiting are handled after its end. -/
def finishStop (s : Scheduler) (now : Instant) : Scheduler :=
  match s.phase with
  | .stopping loop =>
    match s.queueAfterStartUp? now loop with
    | some q => s.goIdle false now q
    | none => s.enter .failed
  | _ => s

/-- Wakes the loop, if there is one, and lets all tasks run. -/
def runTasks (s : Scheduler) (now : Instant) : Scheduler × List Firing :=
  (s.finishStop now).settle now

/-- Lets time go by: a loop that has just fixed its wait fires what falls due on the way, at its
instant. -/
def passTime (s : Scheduler) (later : Instant) : Scheduler × List Firing :=
  match s.phase with
  | .running (.waiting q) =>
    let (left, fired) := q.fireUpTo s.tuning later id
    (s.resume left, fired)
  | _ => (s, [])

/-! ## Starting and stopping -/

/-- Starts the loop. Starting a running scheduler changes nothing. -/
def start (s : Scheduler) (inRuntime : Bool) : Except SchedulerError Scheduler :=
  if inRuntime then
    match s.phase with
    | .idle q => .ok { s with phase := .running (.fresh q) }
    | .running _ => .ok s
    | .stopping _ => .error .stopping
    | .failed => .error (.loopGone .failedEarlier)
    | .poisoned _ => .error (.loopGone .poisoned)
  else .error .noRuntime

/-- Signals the loop to end. -/
def signalStop (s : Scheduler) : Scheduler :=
  match s.phase with
  | .running loop => { s with phase := .stopping loop }
  | _ => s

/-- Whether a stop is under way. -/
def isStopping (s : Scheduler) : Bool :=
  match s.phase with
  | .stopping _ => true
  | _ => false

/-- Signals a stop and waits for it. Waiting on a scheduler that neither runs nor stops is over at
once. -/
def stop (s : Scheduler) (inRuntime : Bool) (now : Instant) :
    Scheduler × Except SchedulerError Unit :=
  if inRuntime then
    let signalled := s.signalStop
    let done := signalled.finishStop now
    match signalled.isStopping, done.phase with
    | _, .poisoned _ => (done, .error (.loopGone .poisoned))
    | true, .failed => (done, .error (.loopGone .failedEarlier))
    | _, _ => (done, .ok ())
  else (s, .error .noRuntime)

/-! ## Listing -/

/-- The entries in fire order, after all commands that were sent. A running loop handles the request as
one more command, so it looks at the clock and fixes its wait anew once it has answered. -/
def entries (s : Scheduler) (now : Instant) : Scheduler × Except SchedulerError (List Entry) :=
  match s.phase with
  | .idle q =>
    let done := s.goIdle true now q
    match done.phase with
    | .idle q => (done, .ok q.fireOrder)
    | _ => (done, .error (.loopGone .poisoned))
  | .running .dead | .stopping .dead => (s, .error (.loopGone .channelClosed))
  | .running loop =>
    match (s.queueAfterStartUp? now loop).bind (·.obeyAll? s.tuning now s.pending) with
    | some q => (s.resume (q.attend? s.tuning now), .ok q.fireOrder)
    | none => (s.resume none, .error (.loopGone .requestDropped))
  | .stopping _ =>
    let done := s.finishStop now
    match done.phase with
    | .idle q => (done, .ok q.fireOrder)
    | _ => (done, .error (.loopGone .requestDropped))
  | .failed => (s, .error (.loopGone .failedEarlier))
  | .poisoned _ => (s, .error (.loopGone .poisoned))

end Scheduler

end Cron
