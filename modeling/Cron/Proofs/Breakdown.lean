import Cron.Proofs.SessionRuns

/-!
# Breaking down

The scheduler has the queue to itself while it is idle, and when its loop has ended. It then handles
the commands that are waiting under its lock, and to add an entry it reads the clock. If the clock
shows a time before 1970 it cannot, and the call that made it do so breaks down
(`Session.BreaksDown`). The lock is poisoned from then on, for good.

A call that only sends a command, a loop that waits, and a loop that dies poison nothing.

Headlines:
* `isPoisoned_take_iff`: a step poisons the lock exactly if its call breaks down;
* `isPoisoned_after_iff`, `unbroken_iff`: the lock is poisoned after a run exactly if some call of it
  broke down.
-/

namespace Cron

namespace Scheduler

variable {s t : Scheduler} {q : Queue} {command : Command} {deed : Deed} {deeds : List Deed}
  {now : Instant}

/-- Whether a call makes the scheduler handle what is waiting by itself. -/
def handles (s : Scheduler) (call : Call) : Bool :=
  match s.phase, call with
  | .idle _, .entries | .running (.waiting _), .stop true | .stopping (.waiting _), .stop true
  | .stopping (.waiting _), .entries | .stopping (.waiting _), .runTasks
  | .stopping (.waiting _), .advance _ => true
  | _, _ => false

/-- What is waiting cannot be handled at an instant: it adds an entry, and the clock cannot be read. -/
def Stuck (now : Instant) (s : Scheduler) : Prop := (∃ e, .add e ∈ s.pending) ∧ now.seconds < 0

/-- To handle what is waiting poisons the lock if it cannot be handled. -/
theorem isPoisoned_goIdle_iff {channelOpen : Bool} :
    (s.goIdle channelOpen now q).isPoisoned = true ↔ s.Stuck now := by
  rw [goIdle_eq]
  split
  next h => exact ⟨fun _ => ⟨exists_add_of_any h.1, h.2⟩, fun _ => rfl⟩
  next h =>
    refine ⟨nofun, fun ⟨⟨e, he⟩, hnow⟩ => ?_⟩
    exact absurd ⟨List.any_eq_true.mpr ⟨_, he, rfl⟩, hnow⟩ h

/-- The end of a loop that has yet to start up poisons nothing: either it reads the clock, or it dies. -/
theorem isPoisoned_finishStop_iff :
    (s.finishStop now).isPoisoned = true ↔
      s.isPoisoned = true ∨ (∃ q, s.phase = .stopping (.waiting q)) ∧ s.Stuck now := by
  obtain ⟨tuning, phase, pending⟩ := s
  cases phase with
  | idle | running | failed | poisoned => simp [finishStop, isPoisoned]
  | stopping loop =>
    cases loop with
    | dead => simp [finishStop, queueAfterStartUp?, isPoisoned, enter]
    | waiting q =>
      refine isPoisoned_goIdle_iff.trans ?_
      simp [isPoisoned, Stuck]
    | fresh q =>
      simp only [finishStop, queueAfterStartUp?]
      cases hq : q.startUp? tuning now with
      | none => simp [isPoisoned, enter]
      | some r =>
        have hread := Queue.seconds_nonneg_of_attend hq
        refine isPoisoned_goIdle_iff.trans ?_
        simp only [isPoisoned, Stuck, Phase.stopping.injEq, reduceCtorEq, exists_false, false_and,
          Bool.false_eq_true, or_self, iff_false, not_and]
        omega

/-- A loop poisons nothing. -/
theorem isPoisoned_resume (s : Scheduler) (left : Option Queue) :
    (s.resume left).isPoisoned = false := by
  cases left <;> rfl

theorem isPoisoned_settle (s : Scheduler) (now : Instant) :
    (s.settle now).1.isPoisoned = s.isPoisoned := by
  rw [settle_eq]
  split
  next loop hphase =>
    have hsound : s.isPoisoned = false := by rw [isPoisoned, hphase]
    simp only [hsound]
    split
    next => rfl
    next => exact s.isPoisoned_resume _
  next => rfl

theorem isPoisoned_passTime (s : Scheduler) (later : Instant) :
    (s.passTime later).1.isPoisoned = s.isPoisoned := by
  unfold passTime
  split
  next q hphase =>
    have hsound : s.isPoisoned = false := by rw [isPoisoned, hphase]
    simp only [hsound]
    exact s.isPoisoned_resume _
  next => rfl

/-- What a scheduler handles when time goes by is what it handles when tasks run. -/
theorem handles_advance (s : Scheduler) (ms : Nat) : s.handles (.advance ms) = s.handles .runTasks := by
  obtain ⟨tuning, phase, pending⟩ := s
  cases phase with
  | running loop | stopping loop => cases loop <;> rfl
  | idle | failed | poisoned => rfl

theorem isPoisoned_runTasks_iff :
    (s.runTasks now).1.isPoisoned = true ↔
      s.isPoisoned = true ∨ s.handles .runTasks = true ∧ s.Stuck now := by
  rw [runTasks, isPoisoned_settle, isPoisoned_finishStop_iff]
  obtain ⟨tuning, phase, pending⟩ := s
  cases phase with
  | running loop | stopping loop => cases loop <;> simp [handles]
  | idle | failed | poisoned => simp [handles]

theorem isPoisoned_signalStop (s : Scheduler) : s.signalStop.isPoisoned = s.isPoisoned := by
  obtain ⟨tuning, phase, pending⟩ := s
  cases phase <;> rfl

/-- To send a command poisons nothing. -/
theorem isPoisoned_of_send (h : s.send command = .ok t) : t.isPoisoned = s.isPoisoned := by
  unfold send at h
  split at h
  · cases h
    rfl
  · cases h

theorem isPoisoned_of_add {id : EntryId} {pattern : String} (h : s.add id pattern = .ok t) :
    t.isPoisoned = s.isPoisoned := by
  cases hcompile : Schedule.compile pattern with
  | error e =>
    rw [add_eq_error s hcompile] at h
    cases h
  | ok schedule =>
    rw [add_eq_send s hcompile] at h
    exact isPoisoned_of_send h

theorem isPoisoned_of_start {inRuntime : Bool} (h : s.start inRuntime = .ok t) :
    t.isPoisoned = s.isPoisoned := by
  obtain ⟨tuning, phase, pending⟩ := s
  cases inRuntime <;> cases phase <;> cases h <;> rfl

/-- A loop that runs handles the request itself, without the lock. -/
theorem isPoisoned_entries_of_running {loop : Loop} (h : s.phase = .running loop) :
    (s.entries now).1.isPoisoned = false := by
  cases loop with
  | dead => simp [entries, isPoisoned, h]
  | fresh q | waiting q =>
    simp only [entries, h]
    split
    · exact s.isPoisoned_resume _
    · exact s.isPoisoned_resume none

theorem isPoisoned_entries_iff :
    (s.entries now).1.isPoisoned = true ↔
      s.isPoisoned = true ∨ s.handles .entries = true ∧ s.Stuck now := by
  obtain ⟨tuning, phase, pending⟩ := s
  cases phase with
  | idle q =>
    rw [entries_fst_of_idle rfl, isPoisoned_goIdle_iff]
    simp [isPoisoned, handles]
  | failed | poisoned => simp [entries, isPoisoned, handles]
  | running loop =>
    rw [isPoisoned_entries_of_running rfl]
    simp [isPoisoned, handles]
  | stopping loop =>
    cases loop with
    | dead => simp [entries, isPoisoned, handles]
    | fresh q | waiting q =>
      rw [entries_fst_of_stopping rfl (by simp), isPoisoned_finishStop_iff]
      simp [isPoisoned, handles]

theorem isPoisoned_stop_iff :
    (s.stop true now).1.isPoisoned = true ↔
      s.isPoisoned = true ∨ s.handles (.stop true) = true ∧ s.Stuck now := by
  rw [stop_fst, isPoisoned_finishStop_iff, isPoisoned_signalStop]
  obtain ⟨tuning, phase, pending⟩ := s
  cases phase with
  | running loop | stopping loop =>
    cases loop <;> simp [isPoisoned, signalStop, handles, Stuck]
  | idle | failed | poisoned => simp [isPoisoned, signalStop, handles]

end Scheduler

namespace Session

variable {session : Session} {call : Call} {x : Step} {steps : List Step}

/-- A call breaks down over what is waiting. -/
def BreaksDown (session : Session) (call : Call) : Prop :=
  session.scheduler.handles call = true ∧ session.scheduler.Stuck session.clock

/-- What is answered at once breaks down over nothing. -/
theorem not_breaksDown_of_not_runsTasks (h : call.runsTasks = false) : ¬ session.BreaksDown call := by
  rintro ⟨hhandles, -⟩
  unfold Scheduler.handles at hhandles
  split at hhandles <;> first | cases h | cases hhandles

theorem isPoisoned_attempt {result : Except SchedulerError Scheduler}
    (h : ∀ s, result = .ok s → s.isPoisoned = session.scheduler.isPoisoned) :
    (session.attempt result).session.scheduler.isPoisoned = session.scheduler.isPoisoned := by
  cases result with
  | ok s => exact h s rfl
  | error e => rfl

theorem isPoisoned_perform_of_not_runsTasks (h : call.runsTasks = false) :
    (session.perform call).session.scheduler.isPoisoned = session.scheduler.isPoisoned := by
  cases call with
  | add id pattern => exact isPoisoned_attempt fun s => Scheduler.isPoisoned_of_add
  | remove id => exact isPoisoned_attempt fun s => Scheduler.isPoisoned_of_send
  | start inRuntime => exact isPoisoned_attempt fun s => Scheduler.isPoisoned_of_start
  | stop inRuntime =>
    obtain rfl : inRuntime = false := h
    rfl
  | stopWithoutWaiting => exact session.scheduler.isPoisoned_signalStop
  | setClock clock => rfl
  | entries | runTasks | advance => cases h

/-- A call poisons the lock exactly if it breaks down. -/
theorem isPoisoned_perform_iff :
    (session.perform call).session.scheduler.isPoisoned = true ↔
      session.scheduler.isPoisoned = true ∨ session.BreaksDown call := by
  cases hcall : call.runsTasks with
  | false =>
    rw [isPoisoned_perform_of_not_runsTasks hcall]
    exact ⟨.inl, fun h => h.resolve_right (not_breaksDown_of_not_runsTasks hcall)⟩
  | true =>
    cases call with
    | entries => exact Scheduler.isPoisoned_entries_iff
    | stop inRuntime =>
      obtain rfl : inRuntime = true := hcall
      exact Scheduler.isPoisoned_stop_iff
    | runTasks => exact Scheduler.isPoisoned_runTasks_iff
    | advance ms =>
      simp only [perform, Scheduler.isPoisoned_passTime, BreaksDown, Scheduler.handles_advance]
      exact Scheduler.isPoisoned_runTasks_iff
    | add | remove | start | stopWithoutWaiting | setClock => cases hcall

/-- A step poisons the lock exactly if its call breaks down. -/
theorem isPoisoned_take_iff :
    (session.take x).session.scheduler.isPoisoned = true ↔
      session.scheduler.isPoisoned = true ∨ session.BreaksDown x.call := by
  rw [← isPoisoned_perform_iff]
  rcases session.take_cases x with htake | ⟨-, htake⟩
  · rw [htake]
  · rw [htake, Scheduler.isPoisoned_settle]

/-- The lock is poisoned after a run exactly if it was before, or some call of the run broke down. -/
theorem isPoisoned_after_iff :
    (session.after steps).scheduler.isPoisoned = true ↔
      session.scheduler.isPoisoned = true ∨
        ∃ before x rest, steps = before ++ x :: rest ∧ (session.after before).BreaksDown x.call := by
  induction steps generalizing session with
  | nil => simp [after]
  | cons x rest ih =>
    rw [after_cons, ih, isPoisoned_take_iff, or_assoc]
    refine or_congr_right ⟨?_, ?_⟩
    · rintro (hx | ⟨before, y, later, rfl, hy⟩)
      · exact ⟨[], x, rest, rfl, hx⟩
      · exact ⟨x :: before, y, later, rfl, hy⟩
    · rintro ⟨before, y, later, heq, hy⟩
      cases before with
      | nil =>
        obtain ⟨rfl, rfl⟩ := List.cons.inj heq
        exact .inl hy
      | cons first before =>
        obtain ⟨rfl, rfl⟩ := List.cons.inj heq
        exact .inr ⟨before, y, later, rfl, hy⟩

/-- No call of a run breaks down. -/
def Unbroken (session : Session) (steps : List Step) : Prop :=
  ∀ before x rest, steps = before ++ x :: rest → ¬ (session.after before).BreaksDown x.call

/-- No call of a run breaks down exactly if the lock is not poisoned in the end. -/
theorem unbroken_iff (h : session.scheduler.isPoisoned = false) :
    session.Unbroken steps ↔ (session.after steps).scheduler.isPoisoned = false := by
  rw [Bool.eq_false_iff, ne_eq, isPoisoned_after_iff, h]
  constructor
  · rintro hsound (hstart | ⟨before, x, rest, heq, hbreaks⟩)
    · cases hstart
    · exact hsound before x rest heq hbreaks
  · exact fun hsound before x rest heq hbreaks => hsound (.inr ⟨before, x, rest, heq, hbreaks⟩)

theorem unbroken_cons :
    session.Unbroken (x :: steps) ↔
      ¬ session.BreaksDown x.call ∧ (session.take x).session.Unbroken steps := by
  constructor
  · intro h
    exact ⟨h [] x steps rfl, fun before y rest heq =>
      h (x :: before) y rest (congrArg (x :: ·) heq)⟩
  · rintro ⟨hx, hrest⟩ before y rest heq
    cases before with
    | nil =>
      obtain ⟨rfl, rfl⟩ := List.cons.inj heq
      exact hx
    | cons first before =>
      obtain ⟨rfl, rfl⟩ := List.cons.inj heq
      exact hrest before y rest rfl

theorem unbroken_append {others : List Step} :
    session.Unbroken (steps ++ others) ↔
      session.Unbroken steps ∧ (session.after steps).Unbroken others := by
  induction steps generalizing session with
  | nil =>
    refine ⟨fun h => ⟨fun before x rest heq => ?_, h⟩, fun h => h.2⟩
    simp at heq
  | cons x rest ih => rw [List.cons_append, unbroken_cons, unbroken_cons, ih, and_assoc, after_cons]

end Session

end Cron
