import Cron.Queue.Basic

/-!
# The loop that owns the queue

While a scheduler runs, a loop owns its queue (`Dispatcher` in the engine: `run`, `fire_due`,
`apply` and `drain_pending`). When the loop starts up, it looks for all next occurrences anew. Then
it waits for whatever comes first: the end, a command, or the instant at which the first entry is
due. If nothing will ever fire, it waits for a fixed idle time instead; it cannot wait beyond the
end of the calendar, and dies if it would have to (`attend?`). The clock that it reads before it
waits counts from 1970, and it dies of an earlier time as well.

The clock is read each time before the loop waits, and not while it waits: only an entry that falls
due or a command wakes it up. A request for the entries is a command that leaves the queue as it is
(`Command.list`). Where no loop is waiting, commands are handled all the same when a scheduler is
stopped or lists its entries. Then it is a command that adds an entry which reads the clock, and it
cannot be handled before 1970 (`drain?`).

An overdue entry fires as due at the instant when it was due, and its next occurrence is looked for
from there. So a loop that is late makes up what it missed, one due instant after the other
(`fireUpTo`). That ends because each due instant is later than the one before.

Assumed of the host: the clock is the system's and may be set at any time; of the channel: commands
arrive in the order in which they were sent; of the runtime: each wait is over when its time has
passed, and of several things that a loop could wake up for the end comes first, then a command. Out
of scope: how long a job runs and what it does, which is why jobs are only named.
-/

namespace Cron

/-- How a scheduler is set up. -/
structure Tuning where
  zone : Zone
  /-- How many years ahead occurrences are looked for. -/
  horizon : Int
  /-- How many seconds the loop waits if nothing is due. -/
  idleSeconds : Nat

/-- A request to the loop. -/
inductive Command where
  | add (e : Entry)
  | remove (id : EntryId)
  /-- Asks for the entries. Whether anyone still waits for them makes no difference to the loop. -/
  | list

/-- Whether a command adds an entry. -/
def Command.isAdd : Command → Bool
  | .add _ => true
  | .remove _ | .list => false

/-- That an entry fired: as due at which instant, and when on the clock. -/
structure Firing where
  id : EntryId
  due : Instant
  clock : Instant
deriving DecidableEq

namespace Queue

/-- The queue after a command that is handled at an instant. -/
def obey (tuning : Tuning) (now : Instant) (q : Queue) : Command → Queue
  | .add e => q.push (e.scheduledAfter tuning.zone tuning.horizon now)
  | .remove id => q.erase id
  | .list => q

/-- The queue after a list of commands, if the clock can be read whenever it has to be. -/
def drain (tuning : Tuning) (now : Instant) (commands : List Command) (q : Queue) : Queue :=
  commands.foldl (obey tuning now) q

/-- The queue after a command that is handled where no loop waits. To schedule an entry takes a look
at the clock, which cannot be read before 1970. -/
def obey? (tuning : Tuning) (now : Instant) (q : Queue) (command : Command) : Option Queue :=
  if command.isAdd ∧ now.seconds < 0 then none else some (q.obey tuning now command)

/-- The queue after a list of commands that are handled where no loop waits. -/
def drain? (tuning : Tuning) (now : Instant) (commands : List Command) (q : Queue) : Option Queue :=
  commands.foldlM (obey? tuning now) q

/-- The queue if the loop can wait on it: until the first entry is due, or for the idle time. -/
def attend? (tuning : Tuning) (now : Instant) (q : Queue) : Option Queue :=
  if 0 ≤ now.seconds ∧ (q.peek.isSome ∨ (now.addSeconds? tuning.idleSeconds).isSome) then some q
  else none

/-- The queue after the loop has started up. -/
def startUp? (tuning : Tuning) (now : Instant) (q : Queue) : Option Queue :=
  (q.reschedule tuning.zone tuning.horizon now).attend? tuning now

/-- The queue after the loop has handled a list of commands, waiting after each. -/
def obeyAll? (tuning : Tuning) (now : Instant) (commands : List Command) (q : Queue) :
    Option Queue :=
  commands.foldlM (fun q command => (q.obey tuning now command).attend? tuning now) q

/-- Commands are handled where no loop waits unless one of them adds an entry before 1970. -/
theorem drain?_eq (tuning : Tuning) (now : Instant) (commands : List Command) (q : Queue) :
    q.drain? tuning now commands =
      if commands.any Command.isAdd = true ∧ now.seconds < 0 then none
      else some (q.drain tuning now commands) := by
  induction commands generalizing q with
  | nil => rfl
  | cons command rest ih =>
    have htail := ih (q.obey tuning now command)
    rw [drain?] at htail
    rw [drain?, List.foldlM_cons, obey?, List.any_cons]
    cases command.isAdd with
    | true => by_cases hnow : now.seconds < 0 <;> simp [hnow, htail, drain]
    | false => simp [htail, drain]

theorem attend?_eq_some {tuning : Tuning} {now : Instant} {q r : Queue}
    (h : q.attend? tuning now = some r) : r = q := by
  unfold attend? at h
  split at h
  · exact (Option.some.inj h).symm
  · cases h

/-- How many ticks there are up to a limit from what comes first in the queue. -/
def ticksLeft (limit : Instant) (q : Queue) : Nat :=
  match q.peek with
  | some due => (limit.ticks - due.ticks + 1).toNat
  | none => 0

/-- Fires all that is due up to an instant, one due instant after the other. The clock at each of
them is given by `clockAt`. What fired is listed, and the queue is left, unless the loop died. -/
def fireUpTo (tuning : Tuning) (limit : Instant) (clockAt : Instant → Instant) (q : Queue) :
    Option Queue × List Firing :=
  match _h : q.peek with
  | none => (some q, [])
  | some due =>
    if due ≤ limit then
      let after := q.fireAt tuning.zone tuning.horizon due
      let fired := after.2.map fun id => ⟨id, due, clockAt due⟩
      match after.1.attend? tuning (clockAt due) with
      | none => (none, fired)
      | some _ =>
        let rest := after.1.fireUpTo tuning limit clockAt
        (rest.1, fired ++ rest.2)
    else (some q, [])
termination_by q.ticksLeft limit
decreasing_by
  rename_i hle
  rw [Instant.le_iff_ticks_le] at hle
  simp only [ticksLeft, _h]
  cases hnext : (q.fireAt tuning.zone tuning.horizon due).1.peek with
  | none =>
    simp only
    omega
  | some next =>
    have := lt_peek_fireAt _h hnext
    rw [Instant.lt_iff_ticks_lt] at this
    simp only
    omega

end Queue

end Cron
