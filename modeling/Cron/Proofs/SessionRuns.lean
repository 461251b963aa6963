import Cron.Proofs.Moves
import Cron.Scheduler.Session

/-!
# Runs of sessions

A run is a list of steps, each a call with the choice whether the loop settles after it. This file
says what a run leads to, what it fires and what it answers, and takes each step apart into moves: a
step first does what its call asks for, and then lets tasks run (`Session.Course`).

Headlines:
* `exists_course_in_parts`: every step is a trace that sends what its answer says, signals a stop
  only if the call does, and whose tasks all run at the clock's time before the step, firing nothing
  later than the clock's time after it;
* `settled_take`: after a step that lets tasks run, the loop has settled;
* `pending_take`: after any step, all commands have been handled or the loop is as it was.
-/

namespace Cron

/-- The clock never goes back by being told to go on. -/
theorem Instant.le_addMillis (t : Instant) (ms : Nat) : t ≤ t.addMillis ms := by
  rw [Instant.le_iff_ticks_le]
  simp only [Instant.ticks, Instant.addMillis]
  omega

/-- A call, and whether the loop settles after it. -/
structure Step where
  call : Call
  settles : Bool

namespace Call

/-- What a call has sent if it is answered in a certain way. -/
def commands : Call → Except SchedulerError Reply → List Command
  | .add id pattern, .ok _ =>
    match Schedule.compile pattern with
    | .ok schedule => [.add (Entry.new id schedule)]
    | .error _ => []
  | .remove id, .ok _ => [.remove id]
  | _, _ => []

/-- Whether a call signals a stop to a running scheduler. -/
def signalsStop : Call → Bool
  | .stop inRuntime => inRuntime
  | .stopWithoutWaiting => true
  | _ => false

/-- Whether a call lets the tasks run that complete a stop. -/
def runsTasks : Call → Bool
  | .stop inRuntime => inRuntime
  | .entries | .runTasks | .advance _ => true
  | _ => false

end Call

/-- Whether the loop has settled after a step, if it is running. -/
def Step.settlesLoop (x : Step) : Bool :=
  match x.call with
  | .runTasks | .advance _ => true
  | .setClock _ => false
  | _ => x.settles

namespace Scheduler

variable {id : EntryId} {pattern : String} {schedule : Schedule} {e : PatternError}

/-- A pattern that compiles is sent as an entry. -/
theorem add_eq_send (s : Scheduler) (h : Schedule.compile pattern = .ok schedule) :
    s.add id pattern = s.send (.add (Entry.new id schedule)) := by
  rw [add, h]
  rfl

/-- A pattern that does not compile is refused. -/
theorem add_eq_error (s : Scheduler) (h : Schedule.compile pattern = .error e) :
    s.add id pattern = .error (.pattern e) := by
  rw [add, h]
  rfl

end Scheduler

/-- The outcome once the loop has settled. -/
def Outcome.settled (outcome : Outcome) : Outcome :=
  let settled := outcome.session.scheduler.settle outcome.session.clock
  ⟨⟨settled.1, outcome.session.clock⟩, outcome.reply, outcome.fired ++ settled.2⟩

namespace Session

/-- The outcome of a step. -/
def take (session : Session) (x : Step) : Outcome := session.step x.call x.settles

/-- The session after some steps. -/
def after (session : Session) (steps : List Step) : Session :=
  steps.foldl (fun session x => (session.take x).session) session

/-- All that fires in some steps. -/
def firings (session : Session) : List Step → List Firing
  | [] => []
  | x :: rest => (session.take x).fired ++ (session.take x).session.firings rest

/-- The calls of some steps and how they are answered. -/
def history (session : Session) : List Step → List (Call × Except SchedulerError Reply)
  | [] => []
  | x :: rest => (x.call, (session.take x).reply) :: (session.take x).session.history rest

/-- The name under which a call has added an entry. -/
def addedId? : Call × Except SchedulerError Reply → Option EntryId
  | (.add id _, .ok _) => some id
  | _ => none

/-- The names under which entries have been added. -/
def addedIds (history : List (Call × Except SchedulerError Reply)) : List EntryId :=
  history.filterMap addedId?

variable {session : Session} {x : Step} {steps others : List Step}

theorem after_cons : session.after (x :: steps) = (session.take x).session.after steps := rfl

theorem after_append : session.after (steps ++ others) = (session.after steps).after others :=
  List.foldl_append

theorem history_append :
    session.history (steps ++ others) =
      session.history steps ++ (session.after steps).history others := by
  induction steps generalizing session with
  | nil => rfl
  | cons x rest ih => simp only [List.cons_append, history, after_cons, ih]

theorem firings_append :
    session.firings (steps ++ others) =
      session.firings steps ++ (session.after steps).firings others := by
  induction steps generalizing session with
  | nil => rfl
  | cons x rest ih => simp only [List.cons_append, firings, after_cons, ih, List.append_assoc]

/-! ## A step as a trace -/

open Scheduler (Trace Move Tasks Unattended)

/-- What a call asks for is done at once. -/
structure Asked (call : Call) (reply : Except SchedulerError Reply) (s : Scheduler)
    (deeds : List Deed) (t : Scheduler) : Prop where
  trace : Trace s deeds t
  isAsked : ∀ deed ∈ deeds, deed.isAsked = true
  sent_eq : deeds.filterMap Deed.sent? = call.commands reply
  signalsStop : Deed.stopSignalled ∈ deeds → call.signalsStop = true

variable {call : Call} {reply : Except SchedulerError Reply} {s t : Scheduler}

theorem Asked.nil (h : call.commands reply = []) (s : Scheduler) : Asked call reply s [] s :=
  ⟨.nil s, nofun, h.symm, nofun⟩

theorem Asked.of_move {deed : Deed} (h : Move s deed t) (hasked : deed.isAsked = true)
    (hsent : deed.sent?.toList = call.commands reply)
    (hstop : deed = .stopSignalled → call.signalsStop = true) : Asked call reply s [deed] t := by
  refine ⟨h.trace, by simpa using hasked, ?_, fun hmem => hstop (List.mem_singleton.mp hmem).symm⟩
  rw [← hsent]
  cases hcommand : deed.sent? <;> simp [hcommand]

/-- A stop is signalled, if the scheduler is running. -/
theorem asked_signalStop (hsent : ∀ reply, call.commands reply = [])
    (hstop : call.signalsStop = true) (s : Scheduler) :
    ∃ asked, ∀ reply, Asked call reply s asked s.signalStop := by
  unfold Scheduler.signalStop
  split
  next loop hphase =>
    refine ⟨_, fun reply => .of_move (.signalStop hphase) rfl ?_ fun _ => hstop⟩
    rw [hsent]
    rfl
  next => exact ⟨[], fun reply => .nil (hsent reply) s⟩

/-- Once time has gone by, the loop has settled. -/
theorem settled_advance (session : Session) (ms : Nat) :
    let outcome := session.perform (.advance ms)
    outcome.session.scheduler.Settled outcome.session.clock :=
  Scheduler.settled_passTime
    (Scheduler.settled_settle (session.scheduler.finishStop session.clock) session.clock) _

/-- Every call first does what it asks for, and then lets tasks run. -/
theorem perform_spec (session : Session) (call : Call) :
    let outcome := session.perform call
    ∃ asked s, Asked call outcome.reply session.scheduler asked s ∧
      Tasks session.clock outcome.session.clock s outcome.fired outcome.session.scheduler := by
  cases call with
  | add id pattern =>
    simp only [perform]
    cases hcompile : Schedule.compile pattern with
    | error e =>
      rw [Scheduler.add_eq_error _ hcompile]
      exact ⟨[], _, .nil rfl _, .nil _⟩
    | ok schedule =>
      rw [Scheduler.add_eq_send _ hcompile, Scheduler.send]
      split
      next htakes =>
        refine ⟨_, _, .of_move (.send _ htakes) rfl ?_ (fun h => by cases h), .nil _⟩
        simp only [attempt, Call.commands, hcompile, Deed.sent?, Option.toList_some]
      next => exact ⟨[], _, .nil rfl _, .nil _⟩
  | remove id =>
    simp only [perform, Scheduler.remove, Scheduler.send]
    split
    next htakes =>
      exact ⟨_, _, .of_move (.send _ htakes) rfl rfl (fun h => by cases h), .nil _⟩
    next => exact ⟨[], _, .nil rfl _, .nil _⟩
  | entries => exact ⟨[], _, .nil rfl _, Scheduler.tasks_entries _ _⟩
  | start inRuntime =>
    simp only [perform, Scheduler.start]
    split
    · split
      next q hphase =>
        exact ⟨_, _, .of_move (.start hphase) rfl rfl (fun h => by cases h), .nil _⟩
      all_goals exact ⟨[], _, .nil rfl _, .nil _⟩
    · exact ⟨[], _, .nil rfl _, .nil _⟩
  | stop inRuntime =>
    simp only [perform]
    cases inRuntime with
    | false => exact ⟨[], _, .nil rfl _, .nil _⟩
    | true =>
      obtain ⟨asked, hasked⟩ :=
        @asked_signalStop (.stop true) (fun _ => rfl) rfl session.scheduler
      refine ⟨asked, _, hasked _, ?_⟩
      simp only [Scheduler.stop_fst]
      exact Scheduler.tasks_finishStop _ _
  | stopWithoutWaiting =>
    obtain ⟨asked, hasked⟩ :=
      @asked_signalStop .stopWithoutWaiting (fun _ => rfl) rfl session.scheduler
    exact ⟨asked, _, hasked _, .nil _⟩
  | runTasks => exact ⟨[], _, .nil rfl _, Scheduler.tasks_runTasks _ _⟩
  | setClock clock => exact ⟨[], _, .nil rfl _, .nil _⟩
  | advance ms =>
    have hle := Instant.le_addMillis session.clock ms
    have hsettled :=
      Scheduler.settled_settle (session.scheduler.finishStop session.clock) session.clock
    exact ⟨[], _, .nil rfl _, ((Scheduler.tasks_runTasks _ _).mono hle).append
      (Scheduler.tasks_passTime _ hsettled _)⟩

/-- A call settles unless it moves the clock by hand. -/
theorem take_of_settles (session : Session) {call : Call} (h : ∀ clock, call ≠ .setClock clock) :
    session.take ⟨call, true⟩ = (session.perform call).settled := by
  cases call with
  | setClock clock => exact absurd rfl (h clock)
  | _ => rfl

/-- Whether the loop settles after a step does not depend on the session. -/
theorem take_eq_perform_or_settled (x : Step) :
    (∀ session : Session, session.take x = session.perform x.call) ∨
      (∀ clock, x.call ≠ .setClock clock) ∧
        ∀ session : Session, session.take x = (session.perform x.call).settled := by
  obtain ⟨call, settles⟩ := x
  cases settles with
  | false => exact .inl fun session => by cases call <;> rfl
  | true =>
    cases call with
    | setClock clock => exact .inl fun session => rfl
    | _ => exact .inr ⟨nofun, fun session => session.take_of_settles nofun⟩

/-- A step performs its call, and lets the loop settle afterwards unless it is told otherwise or
moves the clock by hand. -/
theorem take_cases (session : Session) (x : Step) :
    session.take x = session.perform x.call ∨
      (∀ clock, x.call ≠ .setClock clock) ∧
        let outcome := session.perform x.call
        let settled := outcome.session.scheduler.settle outcome.session.clock
        session.take x = ⟨⟨settled.1, outcome.session.clock⟩, outcome.reply,
          outcome.fired ++ settled.2⟩ := by
  rcases take_eq_perform_or_settled x with htake | ⟨hcall, htake⟩
  · exact .inl (htake session)
  · exact .inr ⟨hcall, htake session⟩

/-- Only two calls move the clock. -/
theorem clock_perform (session : Session) (call : Call) :
    (session.perform call).session.clock =
      match call with
      | .setClock clock => clock.inMillis
      | .advance ms => session.clock.addMillis ms
      | _ => session.clock := by
  cases call with
  | add | remove | start =>
    simp only [perform, attempt]
    split <;> rfl
  | _ => rfl

theorem tuning_perform (session : Session) (call : Call) :
    (session.perform call).session.scheduler.tuning = session.scheduler.tuning := by
  obtain ⟨asked, s, hasked, tasks, htrace, -⟩ := session.perform_spec call
  exact htrace.tuning_eq.trans hasked.trace.tuning_eq

/-- Every step first does what its call asks for, and then lets tasks run. -/
theorem take_spec (session : Session) (x : Step) :
    let outcome := session.take x
    ∃ asked s, Asked x.call outcome.reply session.scheduler asked s ∧
      Tasks session.clock outcome.session.clock s outcome.fired outcome.session.scheduler := by
  obtain ⟨asked, s, hasked, htasks⟩ := session.perform_spec x.call
  refine ⟨asked, s, ?_⟩
  rcases session.take_cases x with htake | ⟨hset, htake⟩
  · rw [htake]
    exact ⟨hasked, htasks⟩
  · rw [htake]
    refine ⟨hasked, htasks.append ?_⟩
    have hclock := session.clock_perform x.call
    cases hcall : x.call with
    | setClock clock => exact absurd hcall (hset clock)
    | advance ms =>
      exact Scheduler.tasks_settle_of_settled (session.settled_advance ms)
    | _ =>
      rw [hcall] at hclock
      simp only at hclock
      rw [hclock]
      exact Scheduler.tasks_settle _ _

/-- What happens in a step. -/
structure Course (session : Session) (x : Step) (deeds : List Deed) : Prop where
  trace : Trace session.scheduler deeds (session.take x).session.scheduler
  fired_eq : deeds.filterMap Deed.fired? = (session.take x).fired
  sent_eq : deeds.filterMap Deed.sent? = x.call.commands (session.take x).reply
  signalsStop : Deed.stopSignalled ∈ deeds → x.call.signalsStop = true
  timely : ∀ deed ∈ deeds, deed.isAsked = true ∨
    deed.ByTasks session.clock (session.take x).session.clock

/-- Every step has a course, in which all that is asked for comes before what tasks do. -/
theorem exists_course_in_parts (session : Session) (x : Step) :
    ∃ asked tasks, session.Course x (asked ++ tasks) ∧
      (∀ deed ∈ asked, deed.isAsked = true) ∧
      ∀ deed ∈ tasks, deed.ByTasks session.clock (session.take x).session.clock := by
  obtain ⟨asked, s, hasked, tasks, htrace, htimely, hfired⟩ := session.take_spec x
  have hnofire : asked.filterMap Deed.fired? = [] := by
    refine List.filterMap_eq_nil_iff.mpr fun deed hdeed => ?_
    have := hasked.isAsked deed hdeed
    cases deed <;> first | rfl | cases this
  have hnosend : tasks.filterMap Deed.sent? = [] := by
    refine List.filterMap_eq_nil_iff.mpr fun deed hdeed => ?_
    have := htimely deed hdeed
    cases deed <;> first | rfl | cases this
  refine ⟨asked, tasks, ⟨hasked.trace.append htrace, ?_, ?_, fun hstop => ?_, fun deed hdeed => ?_⟩,
    hasked.isAsked, htimely⟩
  · rw [List.filterMap_append, hnofire, hfired, List.nil_append]
  · rw [List.filterMap_append, hnosend, hasked.sent_eq, List.append_nil]
  · rcases List.mem_append.mp hstop with hstop | hstop
    · exact hasked.signalsStop hstop
    · exact (htimely _ hstop).elim
  · rcases List.mem_append.mp hdeed with hdeed | hdeed
    · exact .inl (hasked.isAsked deed hdeed)
    · exact .inr (htimely deed hdeed)

theorem exists_course (session : Session) (x : Step) : ∃ deeds, session.Course x deeds := by
  obtain ⟨asked, tasks, hcourse, -, -⟩ := session.exists_course_in_parts x
  exact ⟨asked ++ tasks, hcourse⟩

/-- No run changes how the scheduler is set up. -/
theorem tuning_after (session : Session) (steps : List Step) :
    (session.after steps).scheduler.tuning = session.scheduler.tuning := by
  induction steps generalizing session with
  | nil => rfl
  | cons x rest ih =>
    obtain ⟨deeds, hcourse⟩ := session.exists_course x
    exact (ih (session.take x).session).trans hcourse.trace.tuning_eq

/-! ## After a step -/

/-- After a step that lets tasks run, the loop has settled. -/
theorem settled_take (session : Session) {x : Step} (h : x.settlesLoop = true) :
    (session.take x).session.scheduler.Settled (session.take x).session.clock := by
  obtain ⟨call, settles⟩ := x
  cases settles with
  | false =>
    cases call with
    | runTasks => exact Scheduler.settled_settle _ _
    | advance ms => exact session.settled_advance ms
    | _ => cases h
  | true =>
    have hset : ∀ clock, call ≠ .setClock clock := by
      rintro clock rfl
      cases h
    rw [session.take_of_settles hset]
    exact Scheduler.settled_settle _ _

/-- After a call, all commands have been handled or the loop is as it was. -/
theorem pending_perform (session : Session) (call : Call) :
    (session.perform call).session.scheduler.pending = [] ∨
      Unattended session.scheduler (session.perform call).session.scheduler := by
  cases call with
  | add id pattern =>
    refine .inr fun q hq => ?_
    simp only [perform] at hq
    cases hcompile : Schedule.compile pattern with
    | error e =>
      rw [Scheduler.add_eq_error _ hcompile] at hq
      exact hq
    | ok schedule =>
      rw [Scheduler.add_eq_send _ hcompile, Scheduler.send] at hq
      split at hq <;> exact hq
  | remove id =>
    refine .inr fun q hq => ?_
    simp only [perform, Scheduler.remove, Scheduler.send] at hq
    split at hq <;> exact hq
  | entries =>
    simp only [perform, Scheduler.entries]
    split
    next =>
      refine .inl ?_
      split <;> exact Scheduler.pending_goIdle _ _ _ _
    next => exact .inr fun q hq => hq
    next => exact .inr fun q hq => hq
    next =>
      split
      · exact .inl (Scheduler.pending_resume _ _)
      · exact .inl rfl
    next =>
      refine .inr fun q hq => ?_
      split at hq <;> rwa [← Scheduler.finishStop_eq_self hq]
    next => exact .inr fun q hq => hq
    next => exact .inr fun q hq => hq
  | start inRuntime =>
    refine .inr fun q hq => ?_
    simp only [perform, Scheduler.start] at hq
    split at hq
    · split at hq
      next => cases hq
      all_goals exact hq
    · exact hq
  | stop inRuntime =>
    refine .inr fun q hq => ?_
    cases inRuntime with
    | false => exact hq
    | true =>
      simp only [perform, Scheduler.stop_fst] at hq
      rw [Scheduler.finishStop_eq_self hq] at hq
      exact absurd hq (Scheduler.signalStop_phase_ne _ _)
  | stopWithoutWaiting => exact .inr fun q hq => absurd hq (Scheduler.signalStop_phase_ne _ _)
  | runTasks => exact Scheduler.pending_runTasks _ _
  | setClock clock => exact .inr fun q hq => hq
  | advance ms =>
    simp only [perform, Scheduler.passTime]
    split
    · exact .inl (Scheduler.pending_resume _ _)
    · exact Scheduler.pending_runTasks _ _

/-- After a step, all commands have been handled or the loop is as it was. -/
theorem pending_take (session : Session) (x : Step) :
    (session.take x).session.scheduler.pending = [] ∨
      Unattended session.scheduler (session.take x).session.scheduler := by
  rcases session.take_cases x with htake | ⟨-, htake⟩
  · rw [htake]
    exact session.pending_perform x.call
  · rw [htake]
    simp only
    rcases Scheduler.pending_settle (session.perform x.call).session.scheduler
      (session.perform x.call).session.clock with h | h
    · exact .inl h
    · rw [h]
      exact session.pending_perform x.call

end Session

end Cron
