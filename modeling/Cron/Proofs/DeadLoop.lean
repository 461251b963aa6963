import Cron.Proofs.Lifecycle

/-!
# A loop that died

A loop dies together with its queue, and nobody is told. The phase goes on to say that the scheduler
runs until a stop is signalled, and that it is stopping until tasks run; only then has it failed.
Meanwhile it takes no commands, and that is how its death can be told from the outside. (A scheduler
whose lock is poisoned takes none either, but its loop did not die.)

All that can happen to such a scheduler is that a stop is signalled and that the death is noticed.
So it never fires again, and no call makes it idle, or running once it has been told to stop.

Headlines:
* `Trace.takesCommands_iff`: a scheduler takes commands until it loses its queue;
* `Move.of_dead`: what can happen to it from then on;
* `dead_for_good`: what is answered from then on, in any run.
-/

namespace Cron

namespace Scheduler

variable {s t : Scheduler} {deed : Deed} {deeds : List Deed} {now : Instant}

theorem takesCommands_of_hasDied (h : s.hasDied = true) : s.takesCommands = false :=
  takesCommands_eq_false_iff.mpr (.inl h)

theorem channelOpen_of_hasDied (h : s.hasDied = true) : s.channelOpen = false := by
  rcases hasDied_iff.mp h with h | h | h <;> simp [channelOpen, takesCommands, h]

/-- A scheduler takes commands until it loses its queue. -/
theorem Move.takesCommands_iff (h : Move s deed t) :
    t.takesCommands = true ↔ s.takesCommands = true ∧ deed.isFatal = false := by
  constructor
  · intro ht
    refine ⟨h.takesCommands ht, ?_⟩
    cases h with
    | poison | die | fail => cases ht
    | _ => rfl
  · rintro ⟨hs, hdeed⟩
    cases h with
    | send => exact hs
    | signalStop h =>
      rw [takesCommands_iff] at hs ⊢
      rwa [h] at hs
    | start | startUp | startUpToStop | obey | fire | drain => rfl
    | poison | die | fail => cases hdeed

theorem Trace.takesCommands_iff (h : Trace s deeds t) :
    t.takesCommands = true ↔ s.takesCommands = true ∧ ∀ deed ∈ deeds, deed.isFatal = false := by
  induction h with
  | nil => simp
  | cons head _ ih => rw [ih, head.takesCommands_iff, List.forall_mem_cons, and_assoc]

/-- All that happens to a scheduler whose loop died is that a stop is signalled, and that the death is
noticed. -/
theorem Move.of_dead (h : Move s deed t) (hdead : s.hasDied = true) :
    t.hasDied = true ∧ (deed = .stopSignalled ∨ deed = .died) := by
  have hphase := hasDied_iff.mp hdead
  cases h with
  | signalStop h =>
    refine ⟨?_, .inl rfl⟩
    rw [h] at hphase
    rcases hphase with hphase | hphase | hphase <;> cases hphase
    rfl
  | die | fail => exact ⟨rfl, .inr rfl⟩
  | send _ hopen => cases (channelOpen_of_hasDied hdead).symm.trans hopen
  | drain _ h | poison _ _ h => rcases h with h | h <;> simp [h] at hphase
  | start h | startUp _ h | startUpToStop _ h | obey _ h | fire h => simp [h] at hphase

/-- Nothing fires any more, and no trace brings a loop back. -/
theorem Trace.of_dead (h : Trace s deeds t) (hdead : s.hasDied = true) :
    t.hasDied = true ∧ deeds.filterMap Deed.fired? = [] := by
  induction h with
  | nil => exact ⟨hdead, rfl⟩
  | cons head _ ih =>
    obtain ⟨hnext, hdeed⟩ := head.of_dead hdead
    obtain ⟨hlast, hfired⟩ := ih hnext
    refine ⟨hlast, ?_⟩
    rw [filterMap_cons_eq_append, hfired]
    rcases hdeed with rfl | rfl <;> rfl

/-- A scheduler that has failed stays as it is. -/
theorem Trace.eq_of_failed (h : Trace s deeds t) (hfailed : s.phase = .failed) : t = s := by
  cases h with
  | nil => rfl
  | cons head _ =>
    cases head with
    | send _ hopen =>
      have hdead : s.hasDied = true := hasDied_iff.mpr (.inr (.inr hfailed))
      cases (channelOpen_of_hasDied hdead).symm.trans hopen
    | drain _ h | poison _ _ h => rcases h with h | h <;> cases hfailed.symm.trans h
    | start h | signalStop h | startUp _ h | startUpToStop _ h | obey _ h | fire h | die h | fail h =>
      cases hfailed.symm.trans h

/-! ## Replies -/

theorem send_of_dead (h : s.hasDied = true) (command : Command) :
    s.send command = .error (.loopGone .channelClosed) := by
  rw [send, channelOpen_of_hasDied h]
  rfl

/-- The entries of a loop that died are gone, and nothing changes. -/
theorem exists_entries_of_dead (h : s.hasDied = true) (now : Instant) :
    ∃ loss, s.entries now = (s, .error (.loopGone loss)) := by
  unfold entries
  rcases hasDied_iff.mp h with h | h | h
  · exact ⟨.channelClosed, by rw [h]⟩
  · exact ⟨.channelClosed, by rw [h]⟩
  · exact ⟨.failedEarlier, by rw [h]⟩

/-- A stop that was signalled notices that the loop died. -/
theorem finishStop_of_dead (h : s.phase = .stopping .dead) (now : Instant) :
    s.finishStop now = s.enter .failed := by
  simp only [finishStop, h, queueAfterStartUp?]

/-- A stop of a scheduler that has not failed yet notices that the loop died. -/
theorem stop_of_dead (h : s.hasDied = true) (hfailed : s.phase ≠ .failed) (now : Instant) :
    s.stop true now = (s.enter .failed, .error (.loopGone .failedEarlier)) := by
  have hsignalled : s.signalStop = { s with phase := .stopping .dead } := by
    rcases hasDied_iff.mp h with h | h | h
    · simp only [signalStop, h]
    · simp only [signalStop, h]
      rw [← h]
    · exact absurd h hfailed
  have hdone : { s with phase := .stopping .dead }.finishStop now = s.enter .failed :=
    finishStop_of_dead rfl now
  simp only [stop, if_true, hsignalled, hdone]
  rfl

end Scheduler

namespace Session

variable {session : Session} {x : Step} {steps : List Step}

theorem hasDied_take (h : session.scheduler.hasDied = true) (x : Step) :
    (session.take x).session.scheduler.hasDied = true := by
  obtain ⟨deeds, hcourse⟩ := session.exists_course x
  exact (hcourse.trace.of_dead h).1

theorem hasDied_after (h : session.scheduler.hasDied = true) (steps : List Step) :
    (session.after steps).scheduler.hasDied = true := by
  induction steps generalizing session with
  | nil => exact h
  | cons x rest ih => exact ih (hasDied_take h x)

/-- Nothing fires once the loop has died. -/
theorem firings_of_dead (h : session.scheduler.hasDied = true) (steps : List Step) :
    session.firings steps = [] := by
  induction steps generalizing session with
  | nil => rfl
  | cons x rest ih =>
    obtain ⟨deeds, hcourse⟩ := session.exists_course x
    rw [firings, ← hcourse.fired_eq, (hcourse.trace.of_dead h).2, ih (hasDied_take h x),
      List.append_nil]

/-- Nothing changes once the death has been noticed. -/
theorem scheduler_after_of_failed (h : session.scheduler.phase = .failed) (steps : List Step) :
    (session.after steps).scheduler = session.scheduler := by
  induction steps generalizing session with
  | nil => rfl
  | cons x rest ih =>
    obtain ⟨deeds, hcourse⟩ := session.exists_course x
    have hnext := hcourse.trace.eq_of_failed h
    rw [after_cons, ih (by rw [hnext]; exact h), hnext]

/-- A `start` is only answered while the scheduler runs anyway. -/
theorem isRunning_take_of_dead (h : session.scheduler.hasDied = true) (x : Step) :
    (session.take x).session.scheduler.isRunning =
      (session.scheduler.isRunning && !x.call.signalsStop) := by
  have hstarts : starts (x.call, (session.take x).reply) = true →
      session.scheduler.isRunning = true ∧ x.call.signalsStop = false := by
    obtain ⟨call, settles⟩ := x
    rw [reply_take]
    cases call with
    | start inRuntime =>
      obtain ⟨⟨tuning, phase, pending⟩, clock⟩ := session
      intro hstarted
      rcases Scheduler.hasDied_iff.mp h with rfl | rfl | rfl
      · exact ⟨rfl, rfl⟩
      · cases inRuntime <;> cases hstarted
      · cases inRuntime <;> cases hstarted
    | _ => nofun
  rw [isRunning_take, Bool.or_eq_right_iff_imp, Bool.and_eq_true, Bool.not_eq_true']
  exact hstarts

/-- A scheduler whose loop died runs for as long as no stop is signalled. -/
theorem isRunning_after_of_dead (h : session.scheduler.hasDied = true) (steps : List Step) :
    (session.after steps).scheduler.isRunning = true ↔
      session.scheduler.isRunning = true ∧ ∀ y ∈ steps, y.call.signalsStop = false := by
  induction steps generalizing session with
  | nil => simp [after]
  | cons x rest ih =>
    rw [after_cons, ih (hasDied_take h x), isRunning_take_of_dead h,
      List.forall_mem_cons, Bool.and_eq_true, Bool.not_eq_true', and_assoc]

/-- Once a stop has been signalled, the death is noticed when tasks run. -/
theorem phase_take_of_tasks (h : session.scheduler.hasDied = true)
    (hrunning : session.scheduler.isRunning = false) (x : Step)
    (htasks : x.call = .runTasks ∨ ∃ ms, x.call = .advance ms) :
    (session.take x).session.scheduler.phase = .failed := by
  have hdone : (session.scheduler.finishStop session.clock).phase = .failed := by
    rcases Scheduler.hasDied_iff.mp h with hphase | hphase | hphase
    · exact absurd hphase (Scheduler.isRunning_eq_false_iff.mp hrunning _)
    · rw [Scheduler.finishStop_of_dead hphase]
      rfl
    · simp only [Scheduler.finishStop, hphase]
  have hstopped : (session.scheduler.finishStop session.clock).isRunning = false :=
    (Scheduler.isRunning_finishStop _ _).trans hrunning
  have hperform : (session.perform x.call).session.scheduler =
      session.scheduler.finishStop session.clock := by
    rcases htasks with hcall | ⟨ms, hcall⟩
    · simp only [hcall, perform, Scheduler.runTasks, Scheduler.settle_of_not_running hstopped]
    · simp only [hcall, perform, Scheduler.runTasks, Scheduler.settle_of_not_running hstopped,
        Scheduler.passTime_of_not_running hstopped]
  rw [take_of_not_running (by rw [hperform]; exact hstopped), hperform, hdone]

/-- **A loop that died stays dead, and is silent.** From then on nothing fires in any run. Every pattern
that compiles, every removal and every request for the entries is answered with the loss of the loop.
The scheduler goes on running until a stop is signalled, and never again runs after that or becomes
idle. A stop that is waited for reports the loss if nobody has noticed it before. Once it has been
noticed, nothing changes any more: every `start` reports the loss, and every stop succeeds. -/
theorem dead_for_good (session : Session) (h : session.scheduler.hasDied = true)
    (steps : List Step) :
    let last := session.after steps
    session.firings steps = [] ∧
    last.scheduler.hasDied = true ∧ last.scheduler.takesCommands = false ∧
    (∀ q, last.scheduler.phase ≠ .idle q) ∧
    (last.scheduler.isRunning = true ↔
      session.scheduler.isRunning = true ∧ ∀ y ∈ steps, y.call.signalsStop = false) ∧
    (session.scheduler.phase = .failed → last.scheduler = session.scheduler) ∧
    ∀ settles,
      (∀ id pattern e, Schedule.compile pattern = .error e →
        (last.take ⟨.add id pattern, settles⟩).reply = .error (.pattern e)) ∧
      (∀ id pattern schedule, Schedule.compile pattern = .ok schedule →
        (last.take ⟨.add id pattern, settles⟩).reply = .error (.loopGone .channelClosed)) ∧
      (∀ id, (last.take ⟨.remove id, settles⟩).reply = .error (.loopGone .channelClosed)) ∧
      (∃ loss, (last.take ⟨.entries, settles⟩).reply = .error (.loopGone loss)) ∧
      (last.scheduler.phase ≠ .failed →
        (last.take ⟨.stop true, settles⟩).reply = .error (.loopGone .failedEarlier) ∧
        (last.take ⟨.stop true, settles⟩).session.scheduler.phase = .failed) ∧
      (last.scheduler.isRunning = false → ∀ call, call = .runTasks ∨ (∃ ms, call = .advance ms) →
        (last.take ⟨call, settles⟩).session.scheduler.phase = .failed) ∧
      (last.scheduler.phase = .failed →
        (last.take ⟨.start true, settles⟩).reply = .error (.loopGone .failedEarlier) ∧
        (last.take ⟨.stop true, settles⟩).reply = .ok .done) := by
  intro last
  have hdead : last.scheduler.hasDied = true := hasDied_after h steps
  refine ⟨firings_of_dead h steps, hdead, Scheduler.takesCommands_of_hasDied hdead, fun q hidle => ?_, isRunning_after_of_dead h steps,
    fun hfailed => scheduler_after_of_failed hfailed steps, fun settles =>
    ⟨fun id pattern e hcompile => ?_, fun id pattern schedule hcompile => ?_, fun id => ?_, ?_,
      fun hfailed => ?_, fun hrunning call => phase_take_of_tasks hdead hrunning ⟨call, settles⟩,
      fun hfailed => ⟨?_, ?_⟩⟩⟩
  · simp [Scheduler.hasDied_iff, hidle] at hdead
  · rw [reply_take]
    simp only [perform, Scheduler.add_eq_error _ hcompile]
    rfl
  · rw [reply_take]
    simp only [perform, Scheduler.add_eq_send _ hcompile, Scheduler.send_of_dead hdead]
    rfl
  · rw [reply_take]
    simp only [perform, Scheduler.remove, Scheduler.send_of_dead hdead]
    rfl
  · obtain ⟨loss, hentries⟩ := Scheduler.exists_entries_of_dead hdead last.clock
    refine ⟨loss, ?_⟩
    rw [reply_take]
    simp only [perform, hentries]
    rfl
  · rw [take_stop_eq_perform]
    simp only [perform, Scheduler.stop_of_dead hdead hfailed]
    exact ⟨rfl, rfl⟩
  · rw [reply_take]
    simp only [perform, Scheduler.start, if_true, hfailed]
    rfl
  · rw [reply_take]
    simp only [perform, Scheduler.stop, Scheduler.signalStop, Scheduler.finishStop,
      Scheduler.isStopping, if_true, hfailed]
    rfl

/-- On the last day of the calendar an entry is registered that never fires. The loop starts up and dies,
because it cannot wait until tomorrow. The clock goes back, a stop is signalled without waiting, tasks
run, and the scheduler is started and stopped again. -/
theorem dead_for_good_after_last_day :
    let tuning : Tuning := { zone := .utc, horizon := 5, idleSeconds := 86400 }
    let start := new tuning (Instant.ofSeconds (Instant.lastSecond - 86399))
    let session := start.after [⟨.add ⟨"a"⟩ "* * * 30 2 *", true⟩, ⟨.start true, true⟩]
    let early : List Step := [⟨.setClock (Instant.ofSeconds 0), true⟩, ⟨.start true, true⟩]
    let late := early ++ [⟨.stopWithoutWaiting, true⟩, ⟨.runTasks, true⟩, ⟨.advance 5000, true⟩]
    session.scheduler.hasDied = true ∧ session.firings late = [] ∧
      (session.after early).scheduler.isRunning = true ∧
      ((session.after early).take ⟨.stop true, true⟩).reply = .error (.loopGone .failedEarlier) ∧
      (session.after late).scheduler.isRunning = false ∧
      ((session.after late).take ⟨.start true, true⟩).reply = .error (.loopGone .failedEarlier) ∧
      ((session.after late).take ⟨.stop true, true⟩).reply = .ok .done := by
  intro tuning start session early late
  have hdead : session.scheduler.hasDied = true := by decide +kernel
  obtain ⟨-, -, -, -, hearly, -, hreplies⟩ := dead_for_good session hdead early
  obtain ⟨hsilent, hlateDead, -, -, hlate, -, hreplies'⟩ := dead_for_good session hdead late
  have hrunning : (session.after early).scheduler.isRunning = true :=
    hearly.mpr ⟨by decide +kernel, by decide⟩
  have hstopped : (session.after late).scheduler.isRunning = false :=
    Bool.eq_false_iff.mpr fun hrunning => absurd (hlate.mp hrunning).2 (by decide)
  have hunnoticed : (session.after early).scheduler.phase ≠ .failed := fun hfailed => by
    rw [Scheduler.isRunning, hfailed] at hrunning
    cases hrunning
  have hnoticed : (session.after late).scheduler.phase = .failed := by
    have hover : (session.after late).scheduler.isStopping = false := by decide +kernel
    rcases Scheduler.hasDied_iff.mp hlateDead with hphase | hphase | hphase
    · exact absurd hphase (Scheduler.isRunning_eq_false_iff.mp hstopped _)
    · rw [Scheduler.isStopping, hphase] at hover
      cases hover
    · exact hphase
  obtain ⟨-, -, -, -, hstop, -⟩ := hreplies true
  obtain ⟨-, -, -, -, -, -, hafter⟩ := hreplies' true
  exact ⟨hdead, hsilent, hrunning, (hstop hunnoticed).1, hstopped, hafter hnoticed⟩

end Session

end Cron
