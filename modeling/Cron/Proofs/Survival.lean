import Cron.Proofs.DeadLoop
import Cron.Proofs.NextOccurrence
import Cron.Settings.Basic

/-!
# Surviving in the usable calendar

A loop dies of the calendar only: because it cannot read the clock, or because it cannot wait as
long as it would have to. So a clock is usable if it can be read, if the idle time after it ends in
the calendar, and if the wall clock shows a time of the calendar (`Tuning.Usable`). At such clocks
no loop dies, however it is set up and whatever it has in its queue.

An occurrence that is found lies in the calendar, and so does what the wall clock shows then
(`Zone.Covers`), provided that the search has started from such an instant. From there the next one
is looked for when the entry fires. So every search of a run has such a start, and every instant
that a loop waits for lies in the calendar.

Headlines:
* `covers_of_firstAfter`: a search does not leave the calendar;
* `takesCommands_take`: a step at clocks at which loops can wait does not kill the loop;
* `Trace.covered`: what is planned stays in the calendar;
* `survives_usable_clocks`: both, for the runs of a scheduler with any settings.
-/

namespace Cron

/-! ## Searches -/

/-- The instant lies in the calendar, and so does what the wall clock shows then. -/
structure Zone.Covers (z : Zone) (t : Instant) : Prop where
  firstSecond_le : Instant.firstSecond ≤ t.seconds
  le_lastSecond : t.seconds ≤ Instant.lastSecond
  inCalendar : (z.wallTime t).inCalendar = true

theorem WallTime.inCalendar_iff {w : WallTime} :
    w.inCalendar = true ↔ firstYear ≤ w.date.year ∧ w.date.year ≤ lastYear := by
  rw [inCalendar, Bool.and_eq_true, decide_eq_true_iff, decide_eq_true_iff]

namespace Schedule

variable {s : Schedule} {z : Zone} {horizon limit : Int} {since t : Instant} {start : WallTime}

/-- From a time of the calendar on, a time of the calendar is found. -/
theorem inCalendar_of_firstFrom (hstart : start.inCalendar = true)
    (h : s.firstFrom? z since limit start = some t) : (z.wallTime t).inCalendar = true := by
  fun_induction firstFrom? s z since limit start with
  | case1 => cases h
  | case2 start found hfound u hafter =>
    cases h
    obtain ⟨hfirst, hlast⟩ := WallTime.inCalendar_iff.mp hstart
    obtain ⟨heligible, -⟩ := (search_eq_some_iff hlast).mp hfound
    have hyear := Int.le_trans hfirst (WallTime.year_le_of_seconds_le heligible.start_le)
    rw [(Zone.shows_of_after?_locate hafter).wallTime_eq]
    exact WallTime.inCalendar_iff.mpr ⟨hyear, heligible.year_le⟩
  | case3 start found hfound hafter hnext ih =>
    refine ih (WallTime.inCalendar_iff.mpr ⟨?_, hnext⟩) h
    obtain ⟨hfirst, -⟩ := WallTime.inCalendar_iff.mp hstart
    have hle := Int.le_trans (le_of_search hfound) (Int.le_of_lt found.seconds_lt_nextSecond)
    exact Int.le_trans hfirst (WallTime.year_le_of_seconds_le hle)
  | case4 => cases h

/-- A search that starts in the calendar does not leave it. -/
theorem covers_of_firstAfter (hsince : z.Covers since)
    (h : s.firstAfter? z horizon since = some t) : z.Covers t := by
  obtain ⟨w, hshows, -⟩ := shows_of_firstAfter h
  refine ⟨hshows.firstSecond_le, hshows.le_lastSecond, ?_⟩
  obtain ⟨⟨-, hlast⟩, hfound⟩ := firstAfter?_eq_some_iff.mp h
  refine inCalendar_of_firstFrom (WallTime.inCalendar_iff.mpr ⟨?_, hlast⟩) hfound
  obtain ⟨hfirst, -⟩ := WallTime.inCalendar_iff.mp hsince.inCalendar
  have hle := Int.le_of_lt (z.wallTime since).seconds_lt_nextSecond
  exact Int.le_trans hfirst (WallTime.year_le_of_seconds_le hle)

end Schedule

/-! ## Clocks -/

/-- A clock at which a loop can do all that it may have to. -/
structure Tuning.Usable (tuning : Tuning) (now : Instant) : Prop extends tuning.CanWait now where
  /-- The wall clock shows a time of the calendar. -/
  shown : (tuning.zone.wallTime now).inCalendar = true

instance (tuning : Tuning) : DecidablePred tuning.Usable := fun now =>
  decidable_of_iff
    (0 ≤ now.seconds ∧ now.seconds + tuning.idleSeconds ≤ Instant.lastSecond ∧
      (tuning.zone.wallTime now).inCalendar = true)
    ⟨fun h => ⟨⟨h.1, h.2.1⟩, h.2.2⟩, fun h => ⟨h.readable, h.inCalendar, h.shown⟩⟩

theorem Tuning.Usable.covers {tuning : Tuning} {now : Instant} (h : tuning.Usable now) :
    tuning.zone.Covers now := by
  have hread := h.readable
  have hidle := h.inCalendar
  refine ⟨Int.le_trans (by decide) hread, by omega, h.shown⟩

namespace Queue

variable {q : Queue} {tuning : Tuning} {now : Instant}

/-- Until when a loop waits: until the first entry is due, or for the idle time. -/
def wakeUp? (tuning : Tuning) (now : Instant) (q : Queue) : Option Instant :=
  q.peek.or (now.addSeconds? tuning.idleSeconds)

/-- A loop waits if it can read the clock, and if there is an instant to wait for. -/
theorem attend?_eq_wakeUp (tuning : Tuning) (now : Instant) (q : Queue) :
    q.attend? tuning now =
      if 0 ≤ now.seconds ∧ (q.wakeUp? tuning now).isSome then some q else none := by
  simp only [attend?, wakeUp?, Option.isSome_or, Bool.or_eq_true]

/-- A loop that can wait handles any commands. -/
theorem obeyAll?_of_canWait (h : tuning.CanWait now) (commands : List Command) (q : Queue) :
    q.obeyAll? tuning now commands = some (q.drain tuning now commands) := by
  induction commands generalizing q with
  | nil => rfl
  | cons command rest ih =>
    rw [obeyAll?, List.foldlM_cons, attend?_of_canWait _ h]
    exact ih (q.obey tuning now command)

end Queue

namespace Scheduler

variable {s t : Scheduler} {q : Queue} {now later : Instant} {loop : Loop}

/-! ## Surviving -/

/-- A loop that can wait starts up. -/
theorem exists_queueAfterStartUp (halive : loop ≠ .dead) (hwait : s.tuning.CanWait now) :
    ∃ q, s.queueAfterStartUp? now loop = some q := by
  cases loop with
  | fresh q => exact ⟨_, Queue.attend?_of_canWait _ hwait⟩
  | waiting q => exact ⟨q, rfl⟩
  | dead => exact absurd rfl halive

/-- A loop that can wait handles all commands and catches up with the clock. -/
theorem settle_of_canWait (hphase : s.phase = .running loop)
    (hq : s.queueAfterStartUp? now loop = some q) (hwait : s.tuning.CanWait now) :
    let caughtUp := (q.drain s.tuning now s.pending).catchUp s.tuning now
    s.settle now =
      (s.resume (some caughtUp.1), caughtUp.2.map fun fired => ⟨fired.1, fired.2, now⟩) := by
  rw [settle_eq, hphase]
  simp only [hq, Queue.obeyAll?_of_canWait hwait, Queue.attend?_of_canWait _ hwait,
    Option.bind_eq_bind, Option.bind_some, Queue.fireUpTo_eq_catchUp fun _ _ _ _ _ => hwait]

theorem takesCommands_settle (halive : s.takesCommands = true) (hwait : s.tuning.CanWait now) :
    (s.settle now).1.takesCommands = true := by
  cases hphase : s.phase with
  | running loop =>
    have hloop : loop ≠ .dead := by
      rintro rfl
      rw [takesCommands, hphase] at halive
      cases halive
    obtain ⟨q, hq⟩ := exists_queueAfterStartUp hloop hwait
    rw [settle_of_canWait hphase hq hwait]
    rfl
  | idle | stopping | failed | poisoned =>
    rwa [settle_of_not_running (by rw [isRunning, hphase])]

theorem takesCommands_passTime (halive : s.takesCommands = true) (h : s.Settled now)
    (hread : 0 ≤ now.seconds) (hwait : s.tuning.CanWait later) :
    (s.passTime later).1.takesCommands = true := by
  by_cases hphase : ∃ q, s.phase = .running (.waiting q)
  · obtain ⟨q, hphase⟩ := hphase
    rw [passTime_eq_catchUp h hphase hread hwait]
    rfl
  · have hsame : s.passTime later = (s, []) := by
      unfold passTime
      split
      next q hq => exact absurd ⟨q, hq⟩ hphase
      next => rfl
    rwa [hsame]

/-- A scheduler that is not running survives that a stop is completed, if loops can wait. -/
theorem takesCommands_finishStop (halive : s.takesCommands = true) (hwait : s.tuning.CanWait now) :
    (s.finishStop now).takesCommands = true := by
  cases hrunning : s.isRunning with
  | true => rwa [finishStop_of_not_stopping (isStopping_eq_false_of_running hrunning)]
  | false =>
    exact (takesCommands_finishStop_iff hrunning halive).mpr (canStop_of_canWait hwait)

theorem takesCommands_entries (halive : s.takesCommands = true) (hwait : s.tuning.CanWait now) :
    (s.entries now).1.takesCommands = true := by
  unfold entries
  split
  next =>
    simp only
    split <;> exact takesCommands_goIdle_iff.mpr fun h => Int.not_le.mpr h.2 hwait.readable
  next => exact halive
  next => exact halive
  next loop hloop hphase =>
    obtain ⟨q, hq⟩ := exists_queueAfterStartUp hloop hwait
    simp only [hq, Option.bind_some, Queue.obeyAll?_of_canWait hwait,
      Queue.attend?_of_canWait _ hwait]
    rfl
  next =>
    simp only
    split <;> exact takesCommands_finishStop halive hwait
  next => exact halive
  next => exact halive

/-- A loop that survives it lists the entries. -/
theorem exists_listing_of_entries (halive : (s.entries now).1.takesCommands = true) :
    ∃ l, (s.entries now).2 = .ok l := by
  obtain ⟨q, -, hlist⟩ := s.entries_spec now halive
  exact ⟨_, hlist⟩

theorem tuning_finishStop (s : Scheduler) (now : Instant) : (s.finishStop now).tuning = s.tuning := by
  obtain ⟨deeds, htrace, -⟩ := @tasks_finishStop now s now
  exact htrace.tuning_eq

theorem takesCommands_of_phase_eq (h : t.phase = s.phase) : t.takesCommands = s.takesCommands := by
  unfold takesCommands
  rw [h]

end Scheduler

/-! ## What is planned -/

/-- All that is planned lies in the calendar. -/
def Queue.Covered (z : Zone) (q : Queue) : Prop :=
  ∀ e ∈ q.entries, ∀ t, e.next = some t → z.Covers t

/-- The instant from which next occurrences are looked for. -/
def Deed.since? : Deed → Option Instant
  | startedUp now | obeyed now _ | drained now => some now
  | fired firing => some firing.due
  | _ => none

theorem Deed.since?_of_fired {deed : Deed} {firing : Firing} (h : deed.fired? = some firing) :
    deed.since? = some firing.due := by
  cases deed with
  | fired =>
    cases h
    rfl
  | _ => cases h

namespace Queue

variable {q : Queue} {tuning : Tuning} {now due : Instant}

theorem covered_reschedule (h : tuning.zone.Covers now) (q : Queue) :
    (q.reschedule tuning.zone tuning.horizon now).Covered tuning.zone := by
  intro e he t ht
  obtain ⟨f, -, rfl⟩ := List.mem_map.mp he
  exact Schedule.covers_of_firstAfter h ht

theorem Covered.obey (hq : q.Covered tuning.zone) (h : tuning.zone.Covers now) (command : Command) :
    (q.obey tuning now command).Covered tuning.zone := by
  intro e he t ht
  rcases mem_obey he with he | ⟨f, -, rfl⟩
  · exact hq e he t ht
  · exact Schedule.covers_of_firstAfter h ht

theorem Covered.drain (hq : q.Covered tuning.zone) (h : tuning.zone.Covers now)
    (commands : List Command) : (q.drain tuning now commands).Covered tuning.zone := by
  induction commands generalizing q with
  | nil => exact hq
  | cons command rest ih => exact ih (hq.obey h command)

theorem Covered.fire {rest : Queue} {e : Entry} (hq : q.Covered tuning.zone)
    (htake : q.takeDue? due = some (e, rest)) :
    tuning.zone.Covers due ∧
      (rest.push (e.fire tuning.zone tuning.horizon due)).Covered tuning.zone := by
  obtain ⟨-, hnext, before, behind, hentries, -⟩ := of_takeDue htake
  have hdue : tuning.zone.Covers due :=
    hq e (hentries ▸ List.mem_append_right before List.mem_cons_self) due hnext
  refine ⟨hdue, fun f hf t ht => ?_⟩
  rcases mem_fire htake hf with hf | rfl
  · exact hq f hf t ht
  · exact Schedule.covers_of_firstAfter hdue ht

/-- Where all that is planned lies in the calendar, a loop that can wait wakes up in the calendar. -/
theorem Covered.exists_wakeUp (hq : q.Covered tuning.zone) (h : tuning.CanWait now) :
    ∃ t, q.wakeUp? tuning now = some t ∧
      Instant.firstSecond ≤ t.seconds ∧ t.seconds ≤ Instant.lastSecond := by
  unfold wakeUp?
  cases hpeek : q.peek with
  | some due =>
    obtain ⟨e, he, hnext⟩ := (peek_eq_some_iff.mp hpeek).1
    have hdue := hq e he due hnext
    exact ⟨due, rfl, hdue.firstSecond_le, hdue.le_lastSecond⟩
  | none =>
    have hread := h.readable
    have hfirst : Instant.firstSecond ≤ 0 := by decide
    refine ⟨{ now with seconds := now.seconds + tuning.idleSeconds }, ?_, ?_, h.inCalendar⟩
    · rw [Option.none_or, Instant.addSeconds?, if_pos h.inCalendar]
    · simp only
      omega

end Queue

namespace Scheduler

variable {s t : Scheduler} {deed : Deed} {deeds : List Deed} {now limit : Instant}

/-- All that is planned in the queue lies in the calendar, whoever has the queue. -/
def Covered (s : Scheduler) : Prop :=
  ∀ q, s.phase.queue? = some q → q.Covered s.tuning.zone

/-- A move at a time in the calendar does not leave it. -/
theorem Covered.of_move (h : s.Covered) (hmove : Move s deed t) (hnow : s.tuning.zone.Covers now)
    (htimely : deed.isAsked = true ∨ deed.ByTasks now limit) :
    t.Covered ∧ ∀ since, deed.since? = some since → s.tuning.zone.Covers since := by
  cases hmove with
  | send => exact ⟨h, nofun⟩
  | start hphase =>
    refine ⟨fun r hr => h r ?_, nofun⟩
    rwa [hphase]
  | signalStop hphase =>
    refine ⟨fun r hr => h r ?_, nofun⟩
    rwa [hphase]
  | @startUp q other hphase | @startUpToStop q other hphase =>
    obtain rfl : other = now := htimely.resolve_left nofun
    refine ⟨?_, fun since hsince => ?_⟩
    · rintro r ⟨⟩
      exact q.covered_reschedule hnow
    · cases hsince
      exact hnow
  | @obey q command rest other hphase =>
    obtain rfl : other = now := htimely.resolve_left nofun
    refine ⟨?_, fun since hsince => ?_⟩
    · rintro r ⟨⟩
      exact (h q (by rw [hphase]; rfl)).obey hnow command
    · cases hsince
      exact hnow
  | @fire q rest e due clock hphase hpending htake =>
    obtain ⟨hdue, hrest⟩ := (h q (by rw [hphase]; rfl)).fire htake
    refine ⟨?_, fun since hsince => ?_⟩
    · rintro r ⟨⟩
      exact hrest
    · cases hsince
      exact hdue
  | @drain q other hphase =>
    obtain rfl : other = now := htimely.resolve_left nofun
    refine ⟨?_, fun since hsince => ?_⟩
    · rintro r ⟨⟩
      refine (h q ?_).drain hnow s.pending
      rcases hphase with hphase | hphase <;> rw [hphase] <;> rfl
    · cases hsince
      exact hnow
  | poison | die | fail => exact ⟨nofun, nofun⟩

theorem Trace.covered (htrace : Trace s deeds t) (h : s.Covered) (hnow : s.tuning.zone.Covers now)
    (htimely : ∀ deed ∈ deeds, deed.isAsked = true ∨ deed.ByTasks now limit) :
    t.Covered ∧ ∀ deed ∈ deeds, ∀ since, deed.since? = some since → s.tuning.zone.Covers since := by
  induction htrace with
  | nil => exact ⟨h, nofun⟩
  | cons head _ ih =>
    obtain ⟨hnext, hsince⟩ := h.of_move head hnow (htimely _ List.mem_cons_self)
    rw [head.tuning_eq] at ih
    obtain ⟨hlast, hrest⟩ := ih hnext hnow fun deed hdeed =>
      htimely deed (List.mem_cons_of_mem _ hdeed)
    exact ⟨hlast, List.forall_mem_cons.mpr ⟨hsince, hrest⟩⟩

end Scheduler

namespace Session

variable {session : Session} {call : Call} {x : Step} {steps : List Step}

/-- A call at a time at which loops can wait does not kill the loop. -/
theorem takesCommands_perform (halive : session.scheduler.takesCommands = true)
    (hnow : session.scheduler.tuning.CanWait session.clock)
    (hlater : session.scheduler.tuning.CanWait (session.perform call).session.clock) :
    (session.perform call).session.scheduler.takesCommands = true := by
  have hdone : (session.scheduler.finishStop session.clock).takesCommands = true :=
    Scheduler.takesCommands_finishStop halive hnow
  have htuning := session.scheduler.tuning_finishStop session.clock
  cases call with
  | add id pattern =>
    simp only [perform, attempt]
    split
    next t hadd =>
      exact (Scheduler.takesCommands_of_phase_eq (Scheduler.phase_of_add hadd)).trans halive
    next => exact halive
  | remove id =>
    simp only [perform, attempt]
    split
    next t hsend =>
      exact (Scheduler.takesCommands_of_phase_eq (Scheduler.phase_of_send hsend)).trans halive
    next => exact halive
  | entries => exact Scheduler.takesCommands_entries halive hnow
  | start inRuntime =>
    obtain ⟨⟨tuning, phase, pending⟩, clock⟩ := session
    cases inRuntime <;> cases phase <;> first | rfl | exact halive
  | stop inRuntime =>
    cases inRuntime with
    | false => exact halive
    | true =>
      exact (Scheduler.takesCommands_stop_iff halive).mpr (Scheduler.canStop_of_canWait hnow)
  | stopWithoutWaiting => exact session.scheduler.takesCommands_signalStop.trans halive
  | runTasks => exact Scheduler.takesCommands_settle hdone (htuning ▸ hnow)
  | setClock clock => exact halive
  | advance ms =>
    have hsettled := Scheduler.takesCommands_settle hdone (htuning ▸ hnow)
    have hwait : ((session.scheduler.finishStop session.clock).settle session.clock).1.tuning.CanWait
        (session.clock.addMillis ms) := by
      rw [Scheduler.tuning_settle, htuning]
      exact hlater
    exact Scheduler.takesCommands_passTime hsettled (Scheduler.settled_settle _ _) hnow.readable hwait

theorem takesCommands_take (halive : session.scheduler.takesCommands = true)
    (hnow : session.scheduler.tuning.CanWait session.clock)
    (hlater : session.scheduler.tuning.CanWait (session.take x).session.clock) :
    (session.take x).session.scheduler.takesCommands = true := by
  rcases session.take_cases x with htake | ⟨-, htake⟩
  · rw [htake] at hlater ⊢
    exact takesCommands_perform halive hnow hlater
  · rw [htake] at hlater ⊢
    refine Scheduler.takesCommands_settle (takesCommands_perform halive hnow hlater) ?_
    rw [tuning_perform]
    exact hlater

/-! ## Replies -/

theorem takesCommands_of_send_refused {command : Command} {e : SchedulerError}
    (h : (session.attempt (session.scheduler.send command)).reply = .error e) :
    (session.attempt (session.scheduler.send command)).session.scheduler.takesCommands = false := by
  rw [attempt_of_refused h]
  unfold Scheduler.send at h
  split at h
  next => cases h
  next hclosed =>
    exact Bool.eq_false_iff.mpr fun halive => hclosed (Scheduler.channelOpen_of_takesCommands halive)

/-- If a call is answered with the loss of the loop, the loop is gone afterwards. -/
theorem takesCommands_of_loopGone {loss : LoopLoss}
    (h : (session.perform call).reply = .error (.loopGone loss)) :
    (session.perform call).session.scheduler.takesCommands = false := by
  cases call with
  | add id pattern =>
    simp only [perform] at h ⊢
    cases hcompile : Schedule.compile pattern with
    | error e =>
      rw [Scheduler.add_eq_error _ hcompile] at h
      cases h
    | ok schedule =>
      rw [Scheduler.add_eq_send _ hcompile] at h ⊢
      exact takesCommands_of_send_refused h
  | remove id => exact takesCommands_of_send_refused h
  | entries =>
    refine Bool.eq_false_iff.mpr fun halive => ?_
    obtain ⟨l, hl⟩ := Scheduler.exists_listing_of_entries halive
    simp only [perform, hl] at h
    cases h
  | start inRuntime =>
    obtain ⟨⟨tuning, phase, pending⟩, clock⟩ := session
    cases inRuntime <;> cases phase <;> first | rfl | cases h
  | stop inRuntime =>
    cases inRuntime with
    | false => cases h
    | true =>
      refine Bool.eq_false_iff.mpr fun halive => ?_
      simp only [perform, (Scheduler.stop_ends_idle halive).1] at h
      cases h
  | stopWithoutWaiting =>
    simp only [perform] at h ⊢
    split at h
    next hpoisoned => exact Scheduler.takesCommands_eq_false_iff.mpr (.inr hpoisoned)
    next => cases h
  | runTasks | setClock | advance => cases h

theorem takesCommands_take_of_loopGone {loss : LoopLoss}
    (h : (session.take x).reply = .error (.loopGone loss)) :
    (session.take x).session.scheduler.takesCommands = false := by
  rw [reply_take] at h
  have hgone := takesCommands_of_loopGone h
  rcases session.take_cases x with htake | ⟨-, htake⟩
  · rwa [htake]
  · rw [htake]
    obtain ⟨deeds, htrace, -⟩ := (session.perform x.call).session.scheduler.tasks_settle
      (session.perform x.call).session.clock
    exact Bool.eq_false_iff.mpr fun ht => Bool.eq_false_iff.mp hgone (htrace.takesCommands ht)

/-! ## Runs -/

/-- The clock shows only times with a property in a run: at its start and after each step. -/
def ClockKeeps (session : Session) (p : Instant → Prop) : List Step → Prop
  | [] => p session.clock
  | x :: rest => p session.clock ∧ (session.take x).session.ClockKeeps p rest

instance decidableClockKeeps (session : Session) (p : Instant → Prop) [DecidablePred p] :
    (steps : List Step) → Decidable (session.ClockKeeps p steps)
  | [] => inferInstanceAs (Decidable (p session.clock))
  | x :: rest =>
    have := (session.take x).session.decidableClockKeeps p rest
    inferInstanceAs (Decidable (_ ∧ _))

theorem ClockKeeps.clock {p : Instant → Prop} (h : session.ClockKeeps p steps) :
    p session.clock := by
  cases steps with
  | nil => exact h
  | cons x rest => exact h.1

theorem clockKeeps_append {p : Instant → Prop} {others : List Step} :
    session.ClockKeeps p (steps ++ others) ↔
      session.ClockKeeps p steps ∧ (session.after steps).ClockKeeps p others := by
  induction steps generalizing session with
  | nil => exact ⟨fun h => ⟨h.clock, h⟩, fun h => h.2⟩
  | cons x rest ih => rw [List.cons_append, ClockKeeps, ClockKeeps, ih, and_assoc, after_cons]

/-- At usable clocks a step does not kill the loop, and what is planned stays in the calendar. -/
theorem exists_course_of_usable (halive : session.scheduler.takesCommands = true)
    (hcovered : session.scheduler.Covered) (hnow : session.scheduler.tuning.Usable session.clock)
    (hlater : session.scheduler.tuning.Usable (session.take x).session.clock) :
    ∃ deeds, session.Course x deeds ∧ (∀ deed ∈ deeds, deed.isFatal = false) ∧
      (session.take x).session.scheduler.Covered ∧
      ∀ deed ∈ deeds, ∀ since, deed.since? = some since →
        session.scheduler.tuning.zone.Covers since := by
  obtain ⟨deeds, hcourse⟩ := session.exists_course x
  have hsurvives := takesCommands_take halive hnow.toCanWait hlater.toCanWait
  exact ⟨deeds, hcourse, (hcourse.trace.takesCommands_iff.mp hsurvives).2,
    hcourse.trace.covered hcovered hnow.covers hcourse.timely⟩

theorem alive_and_covered_after (halive : session.scheduler.takesCommands = true)
    (hcovered : session.scheduler.Covered)
    (hclock : session.ClockKeeps session.scheduler.tuning.Usable steps) :
    (session.after steps).scheduler.takesCommands = true ∧ (session.after steps).scheduler.Covered := by
  induction steps generalizing session with
  | nil => exact ⟨halive, hcovered⟩
  | cons x rest ih =>
    obtain ⟨deeds, hcourse, -, hnext, -⟩ :=
      exists_course_of_usable halive hcovered hclock.1 hclock.2.clock
    have hsurvives := takesCommands_take halive hclock.1.toCanWait hclock.2.clock.toCanWait
    refine ih hsurvives hnext ?_
    rw [hcourse.trace.tuning_eq]
    exact hclock.2

/-- **No settings kill a loop in the usable calendar.** Whatever the settings and the zone are, and
whatever is registered, as long as all clocks of a run are usable: in every state of it the loop is
alive, all that is planned lies in the calendar, and so does the instant until which a loop waits. In
every step no loop dies, no lock is poisoned, and no call is answered with the loss of the loop. Whatever fires is due in
the calendar, and every search starts there. There is at least one year ahead to look through, and the
idle time is between a day and the longest one. -/
theorem survives_usable_clocks (settings : Settings) (zone : Zone) (clock : Instant)
    (steps : List Step)
    (h : (new (settings.tuning zone) clock).ClockKeeps (settings.tuning zone).Usable steps) :
    let tuning := settings.tuning zone
    let start := new tuning clock
    (∀ before rest, steps = before ++ rest →
      let session := start.after before
      session.scheduler.takesCommands = true ∧
      ∀ q, session.scheduler.phase.queue? = some q →
        (∀ e ∈ q.entries, ∀ t, e.next = some t → zone.Covers t) ∧
        ∃ t, q.wakeUp? tuning session.clock = some t ∧
          Instant.firstSecond ≤ t.seconds ∧ t.seconds ≤ Instant.lastSecond) ∧
    (∀ before x rest, steps = before ++ x :: rest →
      let session := start.after before
      (∀ loss, (session.take x).reply ≠ .error (.loopGone loss)) ∧
      (∀ firing ∈ (session.take x).fired, zone.Covers firing.due) ∧
      ∃ deeds, session.Course x deeds ∧ .died ∉ deeds ∧
        (∀ now, .poisoned now ∉ deeds) ∧
        ∀ deed ∈ deeds, ∀ since, deed.since? = some since → zone.Covers since) ∧
    (∀ start : WallTime, start.inCalendar = true →
      start.date.year < Schedule.yearLimit start.date.year tuning.horizon) ∧
    86400 ≤ tuning.idleSeconds ∧ tuning.idleSeconds ≤ 31536000000 := by
  intro tuning start
  have hnone : start.scheduler.Covered := by
    rintro q ⟨⟩
    exact List.forall_mem_nil _
  have hstates : ∀ before rest, steps = before ++ rest →
      (start.after before).scheduler.takesCommands = true ∧
        (start.after before).scheduler.Covered ∧
        (start.after before).ClockKeeps tuning.Usable rest := by
    rintro before rest rfl
    obtain ⟨hbefore, hrest⟩ := clockKeeps_append.mp h
    obtain ⟨halive, hcovered⟩ := alive_and_covered_after rfl hnone hbefore
    exact ⟨halive, hcovered, hrest⟩
  refine ⟨fun before rest hsteps => ?_, fun before x rest hsteps => ?_, fun start hstart => ?_, ?_⟩
  · obtain ⟨halive, hcovered, hclock⟩ := hstates before rest hsteps
    refine ⟨halive, fun q hq => ?_⟩
    have hplanned : q.Covered tuning.zone := by
      have := hcovered q hq
      rwa [tuning_after] at this
    exact ⟨hplanned, hplanned.exists_wakeUp hclock.clock.toCanWait⟩
  · obtain ⟨halive, hcovered, hclock⟩ := hstates before (x :: rest) hsteps
    have htuning : (start.after before).scheduler.tuning = tuning := tuning_after start before
    rw [← htuning] at hclock
    obtain ⟨deeds, hcourse, hlives, -, hsince⟩ :=
      exists_course_of_usable halive hcovered hclock.1 hclock.2.clock
    rw [htuning] at hsince
    refine ⟨fun loss hreply => ?_, fun firing hfiring => ?_, deeds, hcourse,
      fun hdied => ?_, fun now hpoisoned => ?_, hsince⟩
    · have hsurvives := takesCommands_take halive hclock.1.toCanWait hclock.2.clock.toCanWait
      exact Bool.eq_false_iff.mp (takesCommands_take_of_loopGone hreply) hsurvives
    · rw [← hcourse.fired_eq] at hfiring
      obtain ⟨deed, hdeed, hfired⟩ := List.mem_filterMap.mp hfiring
      exact hsince deed hdeed firing.due (Deed.since?_of_fired hfired)
    · cases hlives _ hdied
    · cases hlives _ hpoisoned
  · obtain ⟨hfirst, hlast⟩ := WallTime.inCalendar_iff.mp hstart
    have hhorizon : 1 ≤ tuning.horizon := Int.le_max_right _ _
    unfold firstYear at hfirst
    unfold lastYear at hlast
    unfold Schedule.yearLimit
    omega
  · have hidle : tuning.idleSeconds = (max 1 (min settings.idleDays 365000)).toNat * 86400 := rfl
    omega

/-- With the smallest of all settings, at the end of the calendar: one entry fires up to the last moment
at which the loop can wait, one falls due later than the calendar ends, and one never. -/
theorem survives_usable_clocks_at_end :
    let settings : Settings :=
      { searchYears := -2147483648, idleDays := -9223372036854775808, clock := .utc }
    let start := new (settings.tuning .utc) (Instant.ofSeconds (Instant.lastSecond - 86403))
    let steps : List Step :=
      [⟨.add ⟨"a"⟩ "* * * * * *", true⟩, ⟨.add ⟨"b"⟩ "0 0 0 1 1 *", true⟩,
        ⟨.add ⟨"c"⟩ "* * * 30 2 *", true⟩, ⟨.start true, true⟩, ⟨.advance 3000, true⟩]
    start.ClockKeeps (settings.tuning .utc).Usable steps ∧
      (start.after steps).scheduler.takesCommands = true ∧
      (start.firings steps).map (fun firing => firing.due.seconds - Instant.lastSecond) =
        [-86402, -86401, -86400] := by
  intro settings start steps
  have hclock : start.ClockKeeps (settings.tuning .utc).Usable steps := by decide +kernel
  obtain ⟨hstates, -⟩ := survives_usable_clocks settings .utc _ steps hclock
  exact ⟨hclock, (hstates steps [] (List.append_nil _).symm).1, by decide +kernel⟩

/-- A clock that shows a time before 1970 kills the loop, although it lies well inside the calendar. -/
theorem dies_before_1970 :
    let tuning := Settings.default.tuning .utc
    let start := new tuning (Instant.ofSeconds (-1))
    let steps : List Step := [⟨.start true, true⟩]
    start.ClockKeeps (fun now => (tuning.zone.wallTime now).inCalendar = true ∧
        Instant.firstSecond ≤ now.seconds ∧
        now.seconds + tuning.idleSeconds ≤ Instant.lastSecond) (steps ++ [⟨.entries, true⟩]) ∧
      (start.after steps).scheduler.takesCommands = false ∧
      ∃ loss, ((start.after steps).take ⟨.entries, true⟩).reply = .error (.loopGone loss) := by
  intro tuning start steps
  have hdead : (start.after steps).scheduler.hasDied = true := by decide +kernel
  refine ⟨by decide +kernel, Scheduler.takesCommands_of_hasDied hdead, ?_⟩
  obtain ⟨loss, hentries⟩ :=
    Scheduler.exists_entries_of_dead hdead (start.after steps).clock
  refine ⟨loss, ?_⟩
  rw [reply_take]
  simp only [perform, hentries]
  rfl

end Session

end Cron
