import Cron.Proofs.Survival

/-!
# Listing the entries of an idle scheduler

To list its entries, an idle scheduler handles the commands that are waiting, and looks for the next
occurrences of what they add. That is earlier than it would have done so otherwise, and it shows in
what is listed, or in that the scheduler breaks down over it. But a loop that starts up looks for
all next occurrences anew. So all that matters of an idle scheduler is what a loop comes to wait
with once it has started up and handled all commands (`Queue.readyAt`), and that does not depend on
who handles them, or when.

Two schedulers without a loop that has started up are alike if they have this in common
(`Scheduler.Alike`), and if the second one has an entry to add only if the first one has. In any run
they stay alike until a loop starts up, and then they are the same, as long as the first one does
not break down: it may, where the second one has handled all commands in time.

Headlines:
* `readyAt_drain`: it makes no difference for a loop that starts up whether commands were handled
  before;
* `alike_take`: no step tells schedulers apart that are alike, but for when their entries are due and
  for the order in which they are listed;
* `idle_listing_is_neutral`: so listing the entries of an idle scheduler does not change what fires,
  where nothing breaks down.
-/

namespace Cron

/-- The idle time ends in the calendar. -/
def Tuning.IdleEnds (tuning : Tuning) (now : Instant) : Prop :=
  now.seconds + tuning.idleSeconds ≤ Instant.lastSecond

instance (tuning : Tuning) : DecidablePred tuning.IdleEnds := fun _ =>
  inferInstanceAs (Decidable (_ ≤ _))

/-- An entry but for when it fires next. -/
def Entry.unscheduled (e : Entry) : Entry := { e with next := none }

namespace Queue

variable {q r : Queue} {tuning : Tuning} {now since : Instant} {commands others : List Command}

/-- What a loop comes to wait with if it starts up and handles some commands. -/
def readyAt (tuning : Tuning) (now : Instant) (commands : List Command) (q : Queue) : Queue :=
  (q.reschedule tuning.zone tuning.horizon now).drain tuning now commands

theorem drain_append :
    q.drain tuning now (commands ++ others) = (q.drain tuning now commands).drain tuning now others :=
  List.foldl_append

theorem reschedule_obey (tuning : Tuning) (since now : Instant) (q : Queue) (command : Command) :
    (q.obey tuning since command).reschedule tuning.zone tuning.horizon now =
      (q.reschedule tuning.zone tuning.horizon now).obey tuning now command := by
  cases command with
  | add e => exact congrArg Queue.mk List.map_append
  | remove id =>
    refine congrArg Queue.mk ?_
    rw [reschedule, List.filter_map]
    rfl
  | list => rfl

/-- A loop that starts up handles anew what was handled before. -/
theorem reschedule_drain (tuning : Tuning) (since now : Instant) (commands : List Command)
    (q : Queue) :
    (q.drain tuning since commands).reschedule tuning.zone tuning.horizon now =
      q.readyAt tuning now commands := by
  induction commands generalizing q with
  | nil => rfl
  | cons command rest ih =>
    have htail := ih (q.obey tuning since command)
    rw [readyAt, reschedule_obey] at htail
    exact htail

/-- It makes no difference for a loop that starts up whether commands were handled before. -/
theorem readyAt_drain :
    (q.drain tuning since commands).readyAt tuning now others =
      q.readyAt tuning now (commands ++ others) := by
  rw [readyAt, reschedule_drain, readyAt, readyAt, drain_append]

/-- A loop that has time to wait starts up if it can read the clock. -/
theorem startUp?_of_idleEnds (h : tuning.IdleEnds now) (q : Queue) :
    q.startUp? tuning now =
      if 0 ≤ now.seconds then some (q.reschedule tuning.zone tuning.horizon now) else none := by
  split
  next hread => exact attend?_of_canWait _ ⟨hread, h⟩
  next hread => exact if_neg fun hwait => hread hwait.1

theorem startUp?_bind_obeyAll (h : tuning.IdleEnds now) (commands : List Command) (q : Queue) :
    (q.startUp? tuning now).bind (fun q => q.obeyAll? tuning now commands) =
      if 0 ≤ now.seconds then some (q.readyAt tuning now commands) else none := by
  rw [startUp?_of_idleEnds h]
  split
  next hread => exact obeyAll?_of_canWait ⟨hread, h⟩ commands _
  next => rfl

/-- What a loop comes to wait with has the entries that are listed before, but for when they are due. -/
theorem unscheduled_readyAt :
    (q.readyAt tuning now commands).entries.map Entry.unscheduled =
      (q.drain tuning since commands).entries.map Entry.unscheduled := by
  rw [← reschedule_drain tuning since, reschedule, List.map_map]
  rfl

end Queue

namespace Scheduler

variable {s t : Scheduler} {q r : Queue} {tuning : Tuning} {commands others : List Command}
  {now : Instant}

/-- A queue with the commands that wait for it is the same as another for any loop that starts up, and
there is an entry to add if there is one with the other. -/
structure SameOnceReady (tuning : Tuning) (q : Queue) (commands : List Command) (r : Queue)
    (others : List Command) : Prop where
  readyAt_eq : ∀ now, q.readyAt tuning now commands = r.readyAt tuning now others
  adds : others.any Command.isAdd = true → commands.any Command.isAdd = true

/-- Two schedulers are the same, or no loop has started up in them and they are the same to any loop
that does. -/
inductive Alike : Scheduler → Scheduler → Prop
  | same (s : Scheduler) : Alike s s
  | idle {tuning : Tuning} {q r : Queue} {commands others : List Command}
      (h : SameOnceReady tuning q commands r others) :
      Alike ⟨tuning, .idle q, commands⟩ ⟨tuning, .idle r, others⟩
  | running {tuning : Tuning} {q r : Queue} {commands others : List Command}
      (h : SameOnceReady tuning q commands r others) :
      Alike ⟨tuning, .running (.fresh q), commands⟩ ⟨tuning, .running (.fresh r), others⟩
  | stopping {tuning : Tuning} {q r : Queue} {commands others : List Command}
      (h : SameOnceReady tuning q commands r others) :
      Alike ⟨tuning, .stopping (.fresh q), commands⟩ ⟨tuning, .stopping (.fresh r), others⟩

theorem SameOnceReady.append (h : SameOnceReady tuning q commands r others) (more : List Command) :
    SameOnceReady tuning q (commands ++ more) r (others ++ more) := by
  refine ⟨fun now => ?_, fun hadd => ?_⟩
  · simp only [Queue.readyAt, Queue.drain_append]
    exact congrArg (Queue.drain tuning now more) (h.readyAt_eq now)
  · rw [List.any_append, Bool.or_eq_true] at hadd ⊢
    exact hadd.imp_left h.adds

theorem SameOnceReady.drain (h : SameOnceReady tuning q commands r others) (since : Instant) :
    SameOnceReady tuning (q.drain tuning since commands) [] (r.drain tuning since others) [] := by
  refine ⟨fun now => ?_, id⟩
  rw [Queue.readyAt_drain, Queue.readyAt_drain, List.append_nil, List.append_nil]
  exact h.readyAt_eq now

/-- The entries that are listed are the same but for their order and for when they are due. -/
theorem SameOnceReady.fireOrder_perm (h : SameOnceReady tuning q commands r others) (now : Instant) :
    ((q.drain tuning now commands).fireOrder.map Entry.unscheduled).Perm
      ((r.drain tuning now others).fireOrder.map Entry.unscheduled) := by
  have hsame : (q.drain tuning now commands).entries.map Entry.unscheduled =
      (r.drain tuning now others).entries.map Entry.unscheduled := by
    rw [← @Queue.unscheduled_readyAt q tuning now now, h.readyAt_eq now, Queue.unscheduled_readyAt]
  have hleft := (q.drain tuning now commands).fireOrder_perm.map Entry.unscheduled
  have hright := (r.drain tuning now others).fireOrder_perm.map Entry.unscheduled
  rw [hsame] at hleft
  exact hleft.trans hright.symm

section Loops

variable (h : SameOnceReady tuning q commands r others)
  (hidle : tuning.IdleEnds now)

include h hidle

/-- A loop that starts up is the same in both. -/
theorem SameOnceReady.startUp :
    (q.startUp? tuning now).bind (fun q => q.obeyAll? tuning now commands) =
      (r.startUp? tuning now).bind (fun r => r.obeyAll? tuning now others) := by
  rw [Queue.startUp?_bind_obeyAll hidle, Queue.startUp?_bind_obeyAll hidle, h.readyAt_eq now]

theorem SameOnceReady.settle :
    (Scheduler.mk tuning (.running (.fresh q)) commands).settle now =
      (Scheduler.mk tuning (.running (.fresh r)) others).settle now := by
  have hready := congrArg (fun ready => ready.bind fun q => q.attend? tuning now) (h.startUp hidle)
  simp only [Option.bind_assoc] at hready
  simp only [settle_eq, queueAfterStartUp?, Option.bind_eq_bind, hready]
  rfl

theorem SameOnceReady.entries :
    (Scheduler.mk tuning (.running (.fresh q)) commands).entries now =
      (Scheduler.mk tuning (.running (.fresh r)) others).entries now := by
  simp only [Scheduler.entries, queueAfterStartUp?, h.startUp hidle]
  rfl

theorem SameOnceReady.finishStop :
    (Scheduler.mk tuning (.stopping (.fresh q)) commands).finishStop now =
      (Scheduler.mk tuning (.stopping (.fresh r)) others).finishStop now := by
  simp only [Scheduler.finishStop, queueAfterStartUp?, Queue.startUp?_of_idleEnds hidle]
  by_cases hread : 0 ≤ now.seconds
  · have hnow : ¬ now.seconds < 0 := Int.not_lt.mpr hread
    simp only [if_pos hread, goIdle_eq, hnow, and_false, if_false]
    exact congrArg (fun q => Scheduler.mk tuning (.idle q) []) (h.readyAt_eq now)
  · simp only [if_neg hread]
    rfl

end Loops

namespace Alike

theorem isRunning_eq (h : Alike s t) : s.isRunning = t.isRunning := by cases h <;> rfl

theorem isStopping_eq (h : Alike s t) : s.isStopping = t.isStopping := by cases h <;> rfl

theorem isPoisoned_eq (h : Alike s t) : s.isPoisoned = t.isPoisoned := by cases h <;> rfl

theorem signalStop (h : Alike s t) : Alike s.signalStop t.signalStop := by
  cases h with
  | same => exact .same _
  | idle h => exact .idle h
  | running h => exact .stopping h
  | stopping h => exact .stopping h

variable (h : Alike s t) (hidle : s.tuning.IdleEnds now)

include h hidle

theorem finishStop : Alike (s.finishStop now) (t.finishStop now) := by
  cases h with
  | same => exact .same _
  | idle h => exact .idle h
  | running h => exact .running h
  | stopping h =>
    rw [h.finishStop hidle]
    exact .same _

theorem settle : Alike (s.settle now).1 (t.settle now).1 ∧ (s.settle now).2 = (t.settle now).2 := by
  cases h with
  | same => exact ⟨.same _, rfl⟩
  | idle h => exact ⟨.idle h, rfl⟩
  | running h =>
    -- the loops start up here, and the schedulers are the same from now on
    rw [h.settle hidle]
    exact ⟨.same _, rfl⟩
  | stopping h => exact ⟨.stopping h, rfl⟩

theorem stop :
    Alike (s.stop true now).1 (t.stop true now).1 ∧ (s.stop true now).2 = (t.stop true now).2 := by
  cases h with
  | same => exact ⟨.same _, rfl⟩
  | idle h => exact ⟨.idle h, rfl⟩
  | running h | stopping h =>
    have hdone := h.finishStop hidle
    simp only [Scheduler.stop, Scheduler.signalStop, Scheduler.isStopping, if_true, hdone]
    exact ⟨.same _, trivial⟩

omit hidle in
/-- Time goes by in loops that have started up only. -/
theorem passTime (later : Instant) :
    Alike (s.passTime later).1 (t.passTime later).1 ∧ (s.passTime later).2 = (t.passTime later).2 := by
  cases h with
  | same => exact ⟨.same _, rfl⟩
  | idle h => exact ⟨.idle h, rfl⟩
  | running h => exact ⟨.running h, rfl⟩
  | stopping h => exact ⟨.stopping h, rfl⟩

theorem runTasks :
    Alike (s.runTasks now).1 (t.runTasks now).1 ∧ (s.runTasks now).2 = (t.runTasks now).2 := by
  refine (h.finishStop hidle).settle ?_
  rwa [tuning_finishStop]

end Alike

end Scheduler

/-- The same answer, but for the order of a listing and for when its entries are due. -/
inductive Reply.Alike : Except SchedulerError Reply → Except SchedulerError Reply → Prop
  | same (reply : Except SchedulerError Reply) : Alike reply reply
  | listing {l others : List Entry}
      (h : (l.map Entry.unscheduled).Perm (others.map Entry.unscheduled)) :
      Alike (.ok (.listing l)) (.ok (.listing others))

/-- Two outcomes of a call that are the same, but for when entries are due before a loop starts up. -/
structure Outcome.Alike (call : Call) (outcome other : Outcome) : Prop where
  scheduler : outcome.session.scheduler.Alike other.session.scheduler
  clock_eq : outcome.session.clock = other.session.clock
  fired_eq : outcome.fired = other.fired
  reply : Reply.Alike outcome.reply other.reply
  reply_eq : call ≠ .entries → outcome.reply = other.reply

theorem Outcome.Alike.of_scheduler {s t : Scheduler} {clock : Instant} {call : Call}
    {reply : Except SchedulerError Reply} {fired : List Firing} (h : s.Alike t) :
    Outcome.Alike call ⟨⟨s, clock⟩, reply, fired⟩ ⟨⟨t, clock⟩, reply, fired⟩ :=
  ⟨h, rfl, rfl, .same _, fun _ => rfl⟩

theorem Outcome.Alike.refl (call : Call) (outcome : Outcome) : Outcome.Alike call outcome outcome :=
  .of_scheduler (.same _)

namespace Session

variable {s t : Scheduler} {clock : Instant} {call : Call} {x : Step} {steps : List Step}

theorem alike_send (h : s.Alike t) (clock : Instant) (command : Command) :
    Outcome.Alike call (attempt ⟨s, clock⟩ (s.send command)) (attempt ⟨t, clock⟩ (t.send command)) := by
  cases h with
  | same => exact .refl _ _
  | idle h => exact .of_scheduler (.idle (h.append _))
  | running h => exact .of_scheduler (.running (h.append _))
  | stopping h => exact .of_scheduler (.stopping (h.append _))

theorem alike_start (h : s.Alike t) (clock : Instant) (inRuntime : Bool) :
    Outcome.Alike call (attempt ⟨s, clock⟩ (s.start inRuntime))
      (attempt ⟨t, clock⟩ (t.start inRuntime)) := by
  cases inRuntime with
  | false => exact .of_scheduler h
  | true =>
    cases h with
    | same => exact .refl _ _
    | idle h | running h => exact .of_scheduler (.running h)
    | stopping h => exact .of_scheduler (.stopping h)

/-- An idle scheduler that does not break down over what is waiting lists its entries. -/
theorem perform_entries_of_idle {tuning : Tuning} {q : Queue} {commands : List Command}
    (h : ¬ (commands.any Command.isAdd = true ∧ clock.seconds < 0)) :
    perform ⟨⟨tuning, .idle q, commands⟩, clock⟩ .entries =
      ⟨⟨⟨tuning, .idle (q.drain tuning clock commands), []⟩, clock⟩,
        .ok (.listing (q.drain tuning clock commands).fireOrder), []⟩ := by
  simp only [perform, Scheduler.entries, Scheduler.goIdle_eq, h, if_false]
  rfl

theorem alike_entries (h : s.Alike t) (hidle : s.tuning.IdleEnds clock)
    (hsound : ¬ BreaksDown ⟨s, clock⟩ .entries) :
    Outcome.Alike .entries (perform ⟨s, clock⟩ .entries) (perform ⟨t, clock⟩ .entries) := by
  cases h with
  | same => exact .refl _ _
  | idle h =>
    have hcommands : ¬ (_ ∧ clock.seconds < 0) := fun hstuck =>
      hsound ⟨rfl, Scheduler.exists_add_of_any hstuck.1, hstuck.2⟩
    rw [perform_entries_of_idle hcommands,
      perform_entries_of_idle fun hstuck => hcommands ⟨h.adds hstuck.1, hstuck.2⟩]
    exact ⟨.idle (h.drain clock), rfl, rfl, .listing (h.fireOrder_perm clock),
      fun hcall => absurd rfl hcall⟩
  | running h =>
    simp only [perform, h.entries hidle]
    exact .refl _ _
  | stopping h =>
    simp only [perform, Scheduler.entries, h.finishStop hidle]
    exact .refl _ _

/-- No call tells schedulers apart that are alike, unless the first one breaks down. -/
theorem alike_perform (h : s.Alike t) (hidle : s.tuning.IdleEnds clock)
    (hsound : ¬ BreaksDown ⟨s, clock⟩ call) :
    Outcome.Alike call (perform ⟨s, clock⟩ call) (perform ⟨t, clock⟩ call) := by
  cases call with
  | add id pattern =>
    simp only [perform]
    cases hcompile : Schedule.compile pattern with
    | error e =>
      rw [Scheduler.add_eq_error _ hcompile, Scheduler.add_eq_error _ hcompile]
      exact .of_scheduler h
    | ok schedule =>
      rw [Scheduler.add_eq_send _ hcompile, Scheduler.add_eq_send _ hcompile]
      exact alike_send h clock _
  | remove id => exact alike_send h clock _
  | entries => exact alike_entries h hidle hsound
  | start inRuntime => exact alike_start h clock inRuntime
  | stop inRuntime =>
    cases inRuntime with
    | false => exact .of_scheduler h
    | true =>
      obtain ⟨hstopped, hreply⟩ := h.stop hidle
      simp only [perform, hreply]
      exact .of_scheduler hstopped
  | stopWithoutWaiting =>
    simp only [perform, h.signalStop.isStopping_eq, h.signalStop.isPoisoned_eq]
    exact .of_scheduler h.signalStop
  | runTasks =>
    obtain ⟨htasks, hfired⟩ := h.runTasks hidle
    exact ⟨htasks, rfl, hfired, .same _, fun _ => rfl⟩
  | setClock other => exact .of_scheduler h
  | advance ms =>
    obtain ⟨htasks, hmissed⟩ := h.runTasks hidle
    obtain ⟨hpassed, hfired⟩ := htasks.passTime (clock.addMillis ms)
    refine ⟨hpassed, rfl, ?_, .same _, fun _ => rfl⟩
    simp only [perform, hmissed, hfired]

theorem alike_settled {outcome other : Outcome} (h : Outcome.Alike call outcome other)
    (hidle : outcome.session.scheduler.tuning.IdleEnds outcome.session.clock) :
    Outcome.Alike call outcome.settled other.settled := by
  obtain ⟨hsettled, hfired⟩ := h.scheduler.settle hidle
  rw [h.clock_eq] at hsettled hfired
  refine ⟨?_, h.clock_eq, ?_, h.reply, h.reply_eq⟩
  · simp only [Outcome.settled, h.clock_eq]
    exact hsettled
  · simp only [Outcome.settled, h.clock_eq, h.fired_eq, hfired]

/-- No step tells schedulers apart that are alike, unless the first one breaks down. -/
theorem alike_take {session other : Session} (h : session.scheduler.Alike other.scheduler)
    (hclock : session.clock = other.clock) {x : Step}
    (hnow : session.scheduler.tuning.IdleEnds session.clock)
    (hlater : session.scheduler.tuning.IdleEnds (session.take x).session.clock)
    (hsound : ¬ session.BreaksDown x.call) :
    Outcome.Alike x.call (session.take x) (other.take x) := by
  obtain ⟨s, clock⟩ := session
  obtain ⟨t, _⟩ := other
  obtain rfl : clock = _ := hclock
  have hcall := alike_perform h hnow hsound
  rcases take_eq_perform_or_settled x with htake | ⟨-, htake⟩
  · rw [htake, htake]
    exact hcall
  · rw [htake] at hlater
    rw [htake, htake]
    refine alike_settled hcall ?_
    rw [tuning_perform]
    exact hlater

/-- No run tells schedulers apart that are alike, unless the first one breaks down. -/
theorem alike_after {session other : Session} (h : session.scheduler.Alike other.scheduler)
    (hclock : session.clock = other.clock)
    (hidle : session.ClockKeeps session.scheduler.tuning.IdleEnds steps)
    (hsound : session.Unbroken steps) :
    (session.after steps).scheduler.Alike (other.after steps).scheduler ∧
      (session.after steps).clock = (other.after steps).clock ∧
      session.firings steps = other.firings steps := by
  induction steps generalizing session other with
  | nil => exact ⟨h, hclock, rfl⟩
  | cons x rest ih =>
    obtain ⟨hfirst, hlater⟩ := unbroken_cons.mp hsound
    have hx := alike_take h hclock hidle.1 hidle.2.clock hfirst
    have htuning : (session.take x).session.scheduler.tuning = session.scheduler.tuning :=
      tuning_after session [x]
    obtain ⟨halike, hclocks, hfired⟩ := ih hx.scheduler hx.clock_eq (by rw [htuning]; exact hidle.2)
      hlater
    refine ⟨halike, hclocks, ?_⟩
    rw [firings, firings, hx.fired_eq, hfired]

/-- **Listing the entries of an idle scheduler changes nothing that matters.** It fires nothing, and in
any run that follows the same fires at the same times as without it, every call is answered in the same
way, and the scheduler runs at the same times. Only the entries themselves may be listed in another
order and as due at other times. This holds as long as the clock leaves enough time to wait, and neither
the listing nor any call of the run without it breaks down; then none does with it either. -/
theorem idle_listing_is_neutral (session : Session) {q : Queue}
    (hphase : session.scheduler.phase = .idle q) (settles : Bool) (steps : List Step)
    (hidle : session.ClockKeeps session.scheduler.tuning.IdleEnds steps)
    (hlisting : ¬ session.BreaksDown .entries) (hsound : session.Unbroken steps) :
    let listed := session.take ⟨.entries, settles⟩
    let observed := listed.session
    listed.fired = [] ∧ session.firings steps = observed.firings steps ∧ observed.Unbroken steps ∧
      ∀ before x rest, steps = before ++ x :: rest →
        let unseen := (session.after before).take x
        let seen := (observed.after before).take x
        unseen.fired = seen.fired ∧ unseen.session.clock = seen.session.clock ∧
          unseen.session.scheduler.isRunning = seen.session.scheduler.isRunning ∧
          (x.call ≠ .entries → unseen.reply = seen.reply) ∧ Reply.Alike unseen.reply seen.reply := by
  intro listed observed
  obtain ⟨⟨tuning, phase, commands⟩, clock⟩ := session
  obtain rfl : phase = .idle q := hphase
  have hcommands : ¬ (commands.any Command.isAdd = true ∧ clock.seconds < 0) := fun hstuck =>
    hlisting ⟨rfl, Scheduler.exists_add_of_any hstuck.1, hstuck.2⟩
  have hlisted : listed.fired = [] ∧
      observed = ⟨⟨tuning, .idle (q.drain tuning clock commands), []⟩, clock⟩ := by
    have hperform := @perform_entries_of_idle clock tuning q commands hcommands
    have htake : listed = perform ⟨⟨tuning, .idle q, commands⟩, clock⟩ .entries :=
      take_of_not_running (by rw [hperform]; rfl)
    rw [show observed = listed.session from rfl, htake, hperform]
    exact ⟨rfl, rfl⟩
  have halike : (Scheduler.mk tuning (.idle q) commands).Alike observed.scheduler := by
    rw [hlisted.2]
    refine .idle ⟨fun now => ?_, nofun⟩
    rw [Queue.readyAt_drain, List.append_nil]
  have hclock : clock = observed.clock := by rw [hlisted.2]
  obtain ⟨hlast, -, hfirings⟩ := alike_after halike hclock hidle hsound
  refine ⟨hlisted.1, hfirings, ?_, ?_⟩
  · rw [unbroken_iff halike.isPoisoned_eq.symm, ← hlast.isPoisoned_eq, ← unbroken_iff rfl]
    exact hsound
  rintro before x rest rfl
  obtain ⟨hbefore, hrest⟩ := clockKeeps_append.mp hidle
  obtain ⟨hsoundBefore, hsoundRest⟩ := unbroken_append.mp hsound
  obtain ⟨hthen, hclocks, -⟩ := alike_after halike hclock hbefore hsoundBefore
  have htuning := tuning_after ⟨⟨tuning, .idle q, commands⟩, clock⟩ before
  have hx := alike_take hthen hclocks (by rw [htuning]; exact hrest.1)
    (by rw [htuning]; exact hrest.2.clock) (unbroken_cons.mp hsoundRest).1
  exact ⟨hx.fired_eq, hx.clock_eq, hx.scheduler.isRunning_eq, hx.reply_eq, hx.reply⟩

/-- Three entries are registered and one of them is removed. Listed now, the second one is due earlier
than it is when the loop starts up, nine seconds later; it fires at the same time all the same. -/
theorem idle_listing_is_neutral_before_start :
    let tuning : Tuning := { zone := .utc, horizon := 5, idleSeconds := 86400 }
    let session := (new tuning (Instant.ofSeconds 0)).after
      [⟨.add ⟨"a"⟩ "*/10 * * * * *", true⟩, ⟨.add ⟨"b"⟩ "*/4 * * * * *", true⟩,
        ⟨.add ⟨"c"⟩ "* * * * * *", true⟩, ⟨.remove ⟨"c"⟩, true⟩]
    let observed := (session.take ⟨.entries, true⟩).session
    let steps : List Step :=
      [⟨.setClock (Instant.ofSeconds 9), true⟩, ⟨.add ⟨"d"⟩ "*/5 * * * * *", true⟩,
        ⟨.start true, true⟩, ⟨.advance 3000, true⟩]
    (∃ q, session.scheduler.phase = .idle q) ∧
      session.ClockKeeps session.scheduler.tuning.IdleEnds steps ∧
      ¬ session.BreaksDown .entries ∧ session.Unbroken steps ∧
      (observed.firings steps).map Firing.dispatch =
        [(⟨"a"⟩, Instant.ofSeconds 10), (⟨"d"⟩, Instant.ofSeconds 10),
          (⟨"b"⟩, Instant.ofSeconds 12)] := by
  intro tuning session observed steps
  have hover : session.scheduler.isStopping = false := by decide +kernel
  have hdone := Scheduler.finishStop_of_not_stopping hover session.clock
  obtain ⟨q, hphase⟩ : ∃ q, session.scheduler.phase = .idle q := by
    rw [← hdone]
    refine Scheduler.exists_idle_of_finishStop (by decide +kernel) ?_
    rw [hdone]
    decide +kernel
  have hidle : session.ClockKeeps session.scheduler.tuning.IdleEnds steps := by decide +kernel
  have hlisting : ¬ session.BreaksDown .entries := fun hbreaks =>
    absurd hbreaks.2.2 (by decide +kernel)
  have hsound : session.Unbroken steps :=
    (unbroken_iff (by decide +kernel)).mpr (by decide +kernel)
  obtain ⟨-, hfired, -⟩ :=
    idle_listing_is_neutral session hphase true steps hidle hlisting hsound
  refine ⟨⟨q, hphase⟩, hidle, hlisting, hsound, ?_⟩
  rw [← hfired]
  decide +kernel

/-- A second before 1970 the entries of an idle scheduler are asked for, to which one has been added
before. Without that call the entry fires as soon as the clock can be read and the scheduler is started;
with it the scheduler breaks down, and nothing fires any more. -/
theorem idle_listing_poisons_before_1970 :
    let tuning : Tuning := { zone := .utc, horizon := 5, idleSeconds := 86400 }
    let session := (new tuning (Instant.ofSeconds 0)).after
      [⟨.add ⟨"a"⟩ "* * * * * *", true⟩, ⟨.setClock (Instant.ofSeconds (-1)), true⟩]
    let observed := (session.take ⟨.entries, true⟩).session
    let steps : List Step :=
      [⟨.setClock (Instant.ofSeconds 0), true⟩, ⟨.start true, true⟩, ⟨.advance 1000, true⟩]
    session.scheduler.isRunning = false ∧ session.scheduler.isStopping = false ∧
      session.scheduler.takesCommands = true ∧
      session.ClockKeeps session.scheduler.tuning.IdleEnds steps ∧
      (session.firings steps).map Firing.dispatch = [(⟨"a"⟩, Instant.ofSeconds 1)] ∧
      (observed.firings steps).map Firing.dispatch = [] ∧
      ((session.after [⟨.setClock (Instant.ofSeconds 0), true⟩]).perform (.start true)).reply.isOk = true ∧
      ((observed.after [⟨.setClock (Instant.ofSeconds 0), true⟩]).perform (.start true)).reply.isOk =
        false := by
  decide +kernel

end Session

end Cron
