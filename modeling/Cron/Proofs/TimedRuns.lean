import Cron.Proofs.SessionRuns
import Cron.Scheduler.Sleep

/-!
# Runs in which the loop is left alone

A run of a timed session is a list of events, each a step of the session or a time for which
everyone sleeps. As for sessions, this file says what a run leads to and takes each event apart into
moves (`TimedSession.Course`).

A loop that has slept through a change of the clock fires late if the clock has been set on, and
early if it has been set back. So what fires in a sleep is due by then on one condition: the clock
has not been set back since the loop fixed its wait (`TimedSession.Punctual`).

Headlines:
* `exists_course`: every event is a trace that sends what is answered, and fires nothing early if it is
  punctual;
* `after_map_step`, `firings_map_step`, `history_map_step`: a run of steps is a run of the session;
* `Still.sleep_eq`: where the clock has not been set, who sleeps lets time go by as a session does.
-/

namespace Cron

theorem Instant.le_shift (t : Instant) {ms : Int} (h : 0 ≤ ms) : t ≤ t.shift ms := by
  rw [Instant.le_iff_ticks_le]
  simp only [Instant.ticks, Instant.shift]
  omega

/-- No time is none, unless it is counted from a leap second. -/
theorem Instant.shift_zero {t : Instant} (h : t.nanos < 1000000000) : t.shift 0 = t := by
  apply Instant.ext_ticks
  simp only [Instant.ticks, Instant.shift]
  omega

/-- A loop that wakes up in time fires what is due first, and nothing else yet. -/
theorem Queue.wakeFor_self {q : Queue} {tuning : Tuning} {due : Instant} (hpeek : q.peek = some due) :
    let after := q.fireAt tuning.zone tuning.horizon due
    q.wakeFor tuning due due =
      (after.1.attend? tuning due, after.2.map fun id => ⟨id, due, due⟩) := by
  intro after
  have hquiet : after.1.fireUpTo tuning due (fun _ => due) = (some after.1, []) := by
    unfold fireUpTo
    split
    next => rfl
    next next hnext => rw [if_neg fun hle => hle (lt_peek_fireAt hpeek hnext)]
  unfold wakeFor
  cases hattend : after.1.attend? tuning due with
  | none => simp only [after, hattend]
  | some r =>
    obtain rfl := attend?_eq_some hattend
    simp only [after, hattend, hquiet, List.append_nil]

/-- A loop that is late fires what is due first, looks at the clock, and goes on. -/
theorem Queue.fireUpTo_of_due {q : Queue} {tuning : Tuning} {due limit : Instant}
    {clockAt : Instant → Instant} (hpeek : q.peek = some due) (hle : due ≤ limit) :
    let after := q.fireAt tuning.zone tuning.horizon due
    let fired : List Firing := after.2.map fun id => ⟨id, due, clockAt due⟩
    let rest := after.1.fireUpTo tuning limit clockAt
    q.fireUpTo tuning limit clockAt =
      match after.1.attend? tuning (clockAt due) with
      | none => (none, fired)
      | some _ => (rest.1, fired ++ rest.2) := by
  intro after fired rest
  conv => lhs; unfold fireUpTo
  split
  next hnone => cases hnone.symm.trans hpeek
  next other hother =>
    obtain rfl := Option.some.inj (hother.symm.trans hpeek)
    exact if_pos hle

/-- In a loop that wakes up in time, time goes by from what is due first. -/
theorem Scheduler.passTime_of_due {s : Scheduler} {q : Queue} {due later : Instant}
    (hphase : s.phase = .running (.waiting q)) (hpeek : q.peek = some due) (hle : due ≤ later) :
    let woken := q.wakeFor s.tuning due due
    let passed := (s.resume woken.1).passTime later
    s.passTime later = (passed.1, woken.2 ++ passed.2) := by
  intro woken passed
  simp only [passed, woken, Queue.wakeFor_self hpeek, passTime, hphase,
    Queue.fireUpTo_of_due hpeek hle, id_eq]
  cases hattend : (q.fireAt s.tuning.zone s.tuning.horizon due).1.attend? s.tuning due with
  | none => simp only [resume, enter, List.append_nil]
  | some r =>
    obtain rfl := Queue.attend?_eq_some hattend
    simp only [resume, enter]

namespace Scheduler

variable {s : Scheduler} {q : Queue} {due now later : Instant}

theorem settled_wakeFor : (s.resume (q.wakeFor s.tuning due now).1).Settled now := by
  unfold Queue.wakeFor
  simp only
  split
  · trivial
  · exact settled_resume_fireUpTo

/-- A loop fires what it has waited for, which may not be due yet, and goes on as tasks do. -/
theorem trace_fireAt_tasks {t : Scheduler} {log : List Firing} (due now other : Instant)
    (hphase : s.phase = .running (.waiting q)) (hpending : s.pending = [])
    (h : Tasks other now (s.resume (some (q.fireAt s.tuning.zone s.tuning.horizon due).1)) log t) :
    ∃ deeds, Trace s deeds t ∧
      deeds.filterMap Deed.fired? =
        (q.fireAt s.tuning.zone s.tuning.horizon due).2.map (fun id => ⟨id, due, now⟩) ++ log ∧
      ∀ deed ∈ deeds, deed.isAsked = false ∧ (due ≤ now → deed.ByTasks other now) := by
  obtain ⟨deeds, htrace, htimely, hlog⟩ := h
  refine ⟨_, (trace_fireAt rfl hphase hpending now).append htrace, ?_, fun deed hdeed => ?_⟩
  · rw [List.filterMap_append, hlog, List.filterMap_map]
    exact congrArg (· ++ log) (congrFun List.filterMap_eq_map' _)
  · rcases List.mem_append.mp hdeed with hdeed | hdeed
    · obtain ⟨id, -, rfl⟩ := List.mem_map.mp hdeed
      exact ⟨rfl, fun hle => ⟨hle, Instant.le_refl now⟩⟩
    · exact ⟨(htimely deed hdeed).not_asked, fun _ => htimely deed hdeed⟩

theorem trace_wakeFor (due now other : Instant) (hphase : s.phase = .running (.waiting q))
    (hpending : s.pending = []) :
    ∃ deeds, Trace s deeds (s.resume (q.wakeFor s.tuning due now).1) ∧
      deeds.filterMap Deed.fired? = (q.wakeFor s.tuning due now).2 ∧
      ∀ deed ∈ deeds, deed.isAsked = false ∧ (due ≤ now → deed.ByTasks other now) := by
  have hgoesOn := @trace_fireAt_tasks s q
  unfold Queue.wakeFor
  cases hattend : (q.fireAt s.tuning.zone s.tuning.horizon due).1.attend? s.tuning now with
  | none =>
    have hdied := hgoesOn due now other hphase hpending (tasks_die rfl)
    rw [List.append_nil] at hdied
    simp only [hattend]
    exact hdied
  | some r =>
    simp only [hattend]
    exact hgoesOn due now other hphase hpending
      (tasks_fireUpTo rfl rfl rfl fun due hle => ⟨hle, Instant.le_refl now⟩)

/-- A loop that has woken up waits anew, and time goes by in it. -/
theorem trace_wakeFor_passTime (due other : Instant) (hphase : s.phase = .running (.waiting q))
    (hpending : s.pending = []) (hlater : now ≤ later) :
    let woken := q.wakeFor s.tuning due now
    let passed := (s.resume woken.1).passTime later
    ∃ deeds, Trace s deeds passed.1 ∧ deeds.filterMap Deed.fired? = woken.2 ++ passed.2 ∧
      ∀ deed ∈ deeds, deed.isAsked = false ∧ (due ≤ now → deed.ByTasks other later) := by
  intro woken passed
  have hsettled : (s.resume woken.1).Settled now := settled_wakeFor
  obtain ⟨deeds, htrace, hfired, hdeeds⟩ := trace_wakeFor due now other hphase hpending
  obtain ⟨others, htrace', hothers, hfired'⟩ := tasks_passTime other hsettled later
  refine ⟨deeds ++ others, htrace.append htrace', ?_, fun deed hdeed => ?_⟩
  · rw [List.filterMap_append, hfired, hfired']
  · rcases List.mem_append.mp hdeed with hdeed | hdeed
    · obtain ⟨hasked, htimely⟩ := hdeeds deed hdeed
      exact ⟨hasked, fun hle => (htimely hle).mono hlater⟩
    · exact ⟨(hothers deed hdeed).not_asked, fun _ => hothers deed hdeed⟩

end Scheduler

/-- What happens in a timed session: a step is taken, or everyone sleeps. -/
inductive Event where
  | step (x : Step)
  | sleep (ms : Nat)

namespace Event

/-- Whether an event signals a stop to a running scheduler. -/
def signalsStop : Event → Bool
  | step x => x.call.signalsStop
  | sleep _ => false

/-- Whether the loop has settled after an event, if it is running. -/
def settlesLoop : Event → Bool
  | step x => x.settlesLoop
  | sleep _ => false

end Event

namespace TimedSession

/-- The session after an event. -/
def take (t : TimedSession) : Event → TimedSession
  | .step x => t.step x.call x.settles
  | .sleep ms => (t.sleep ms).1

/-- What fires in an event. -/
def fired (t : TimedSession) : Event → List Firing
  | .step x => (t.session.take x).fired
  | .sleep ms => (t.sleep ms).2

/-- The call of an event, if there is one, and how it is answered. -/
def answers (t : TimedSession) : Event → List (Call × Except SchedulerError Reply)
  | .step x => [(x.call, (t.session.take x).reply)]
  | .sleep _ => []

/-- The session after some events. -/
def after (t : TimedSession) (events : List Event) : TimedSession := events.foldl take t

/-- All that fires in some events. -/
def firings (t : TimedSession) : List Event → List Firing
  | [] => []
  | x :: rest => t.fired x ++ (t.take x).firings rest

/-- The calls of some events and how they are answered. -/
def history (t : TimedSession) : List Event → List (Call × Except SchedulerError Reply)
  | [] => []
  | x :: rest => t.answers x ++ (t.take x).history rest

/-- Whenever a loop sleeps on, the clock has not been set back since it fixed its wait. -/
def Punctual (t : TimedSession) : Event → Prop
  | .step _ => True
  | .sleep _ => t.session.scheduler.isWaiting = true → 0 ≤ t.drift

/-- All events of a run are punctual. -/
def PunctualThrough (t : TimedSession) : List Event → Prop
  | [] => True
  | x :: rest => t.Punctual x ∧ (t.take x).PunctualThrough rest

instance (t : TimedSession) (x : Event) : Decidable (t.Punctual x) :=
  match x with
  | .step _ => isTrue trivial
  | .sleep _ => inferInstanceAs (Decidable (_ → _))

instance decidablePunctualThrough (t : TimedSession) :
    (events : List Event) → Decidable (t.PunctualThrough events)
  | [] => isTrue trivial
  | x :: rest =>
    have := (t.take x).decidablePunctualThrough rest
    inferInstanceAs (Decidable (_ ∧ _))

variable {t : TimedSession} {x : Event} {events others : List Event} {steps : List Step}

theorem after_cons : t.after (x :: events) = (t.take x).after events := rfl

theorem after_append : t.after (events ++ others) = (t.after events).after others := List.foldl_append

theorem history_append :
    t.history (events ++ others) = t.history events ++ (t.after events).history others := by
  induction events generalizing t with
  | nil => rfl
  | cons x rest ih => simp only [List.cons_append, history, after_cons, ih, List.append_assoc]

/-! ## Runs of steps -/

theorem after_map_step (t : TimedSession) (steps : List Step) :
    (t.after (steps.map .step)).session = t.session.after steps := by
  induction steps generalizing t with
  | nil => rfl
  | cons x rest ih => exact ih (t.take (.step x))

theorem firings_map_step (t : TimedSession) (steps : List Step) :
    t.firings (steps.map .step) = t.session.firings steps := by
  induction steps generalizing t with
  | nil => rfl
  | cons x rest ih => exact congrArg ((t.session.take x).fired ++ ·) (ih (t.take (.step x)))

theorem history_map_step (t : TimedSession) (steps : List Step) :
    t.history (steps.map .step) = t.session.history steps := by
  induction steps generalizing t with
  | nil => rfl
  | cons x rest ih => exact congrArg (_ :: ·) (ih (t.take (.step x)))

/-- In a run of steps nobody sleeps on. -/
theorem punctualThrough_map_step (t : TimedSession) (steps : List Step) :
    t.PunctualThrough (steps.map .step) := by
  induction steps generalizing t with
  | nil => trivial
  | cons x rest ih => exact ⟨trivial, ih (t.take (.step x))⟩

/-! ## An event as a trace -/

open Scheduler (Trace Unattended)

/-- What sleeping comes to. A loop without a command to handle that waits for an instant wakes up, or
sleeps on; in all other cases time goes by as in a session. -/
theorem sleep_cases (t : TimedSession) (ms : Nat) :
    let s := t.session.scheduler
    let later := t.session.clock.addMillis ms
    let outcome := t.session.perform (.advance ms)
    t.sleep ms = (⟨outcome.session, 0⟩, outcome.fired) ∨
    t.sleep ms = (⟨⟨s, later⟩, t.drift⟩, []) ∧ s.pending = [] ∨
    ∃ q due, s.phase = .running (.waiting q) ∧ s.pending = [] ∧ q.peek = some due ∧
      t.wakesAt due ≤ later ∧
      let woken := q.wakeFor s.tuning due (t.wakesAt due)
      let passed := (s.resume woken.1).passTime later
      t.sleep ms = (⟨⟨passed.1, later⟩, 0⟩, woken.2 ++ passed.2) := by
  intro s later outcome
  unfold sleep
  simp only
  split
  next q hphase hpending =>
    split
    next => exact .inr (.inl ⟨rfl, hpending⟩)
    next due hpeek =>
      split
      next hwoken => exact .inr (.inr ⟨q, due, hphase, hpending, hpeek, hwoken, rfl⟩)
      next => exact .inr (.inl ⟨rfl, hpending⟩)
  next => exact .inl rfl

/-- A loop wakes up when what it has waited for is due, or later, unless the clock was set back. -/
theorem le_wakesAt (h : 0 ≤ t.drift) (due : Instant) : due ≤ t.wakesAt due := by
  have hle := due.le_shift h
  unfold wakesAt
  simp only
  split
  next hlate => exact Instant.le_trans hle hlate
  next => exact hle

/-- Who sleeps sends nothing and stops nothing, and fires nothing early if that is punctual. -/
theorem sleep_spec (t : TimedSession) (ms : Nat) :
    ∃ deeds, Trace t.session.scheduler deeds (t.sleep ms).1.session.scheduler ∧
      deeds.filterMap Deed.fired? = (t.sleep ms).2 ∧ deeds.filterMap Deed.sent? = [] ∧
      .stopSignalled ∉ deeds ∧
      (t.Punctual (.sleep ms) → ∀ deed ∈ deeds, deed.isAsked = true ∨
        deed.ByTasks t.session.clock (t.sleep ms).1.session.clock) := by
  rcases t.sleep_cases ms with h | ⟨h, -⟩ | ⟨q, due, hphase, hpending, hpeek, hwoken, h⟩
  · rw [h]
    obtain ⟨deeds, hcourse⟩ := t.session.exists_course ⟨.advance ms, false⟩
    exact ⟨deeds, hcourse.trace, hcourse.fired_eq, hcourse.sent_eq,
      fun hmem => Bool.false_ne_true (hcourse.signalsStop hmem), fun _ => hcourse.timely⟩
  · rw [h]
    exact ⟨[], .nil _, rfl, rfl, nofun, fun _ => nofun⟩
  · rw [h]
    obtain ⟨deeds, htrace, hfired, hdeeds⟩ :=
      Scheduler.trace_wakeFor_passTime due t.session.clock hphase hpending hwoken
    have hwaiting : t.session.scheduler.isWaiting = true := by
      rw [Scheduler.isWaiting, hphase, hpending]
      rfl
    refine ⟨deeds, htrace, hfired, ?_, fun hmem => ?_, fun hpunctual deed hdeed => ?_⟩
    · refine List.filterMap_eq_nil_iff.mpr fun deed hdeed => ?_
      have hasked := (hdeeds deed hdeed).1
      cases deed <;> first | rfl | cases hasked
    · cases (hdeeds _ hmem).1
    · exact .inr ((hdeeds deed hdeed).2 (le_wakesAt (hpunctual hwaiting) due))

/-- What happens in an event. -/
structure Course (t : TimedSession) (x : Event) (deeds : List Deed) : Prop where
  trace : Trace t.session.scheduler deeds (t.take x).session.scheduler
  fired_eq : deeds.filterMap Deed.fired? = t.fired x
  sent_eq : deeds.filterMap Deed.sent? =
    (t.answers x).flatMap fun answer => answer.1.commands answer.2
  signalsStop : Deed.stopSignalled ∈ deeds → x.signalsStop = true
  timely : t.Punctual x → ∀ deed ∈ deeds, deed.isAsked = true ∨
    deed.ByTasks t.session.clock (t.take x).session.clock

/-- Every event has a course. -/
theorem exists_course (t : TimedSession) (x : Event) : ∃ deeds, t.Course x deeds := by
  cases x with
  | step x =>
    obtain ⟨deeds, hcourse⟩ := t.session.exists_course x
    exact ⟨deeds, hcourse.trace, hcourse.fired_eq, hcourse.sent_eq.trans (List.append_nil _).symm,
      hcourse.signalsStop, fun _ => hcourse.timely⟩
  | sleep ms =>
    obtain ⟨deeds, htrace, hfired, hsent, hstop, htimely⟩ := t.sleep_spec ms
    exact ⟨deeds, htrace, hfired, hsent, fun hmem => absurd hmem hstop, htimely⟩

/-- No run changes how the scheduler is set up. -/
theorem tuning_after (t : TimedSession) (events : List Event) :
    (t.after events).session.scheduler.tuning = t.session.scheduler.tuning := by
  induction events generalizing t with
  | nil => rfl
  | cons x rest ih =>
    obtain ⟨deeds, hcourse⟩ := t.exists_course x
    exact (ih (t.take x)).trans hcourse.trace.tuning_eq

theorem takesCommands_after (h : (t.after events).session.scheduler.takesCommands = true) :
    t.session.scheduler.takesCommands = true := by
  induction events generalizing t with
  | nil => exact h
  | cons x rest ih =>
    obtain ⟨deeds, hcourse⟩ := t.exists_course x
    exact hcourse.trace.takesCommands (ih h)

/-! ## After an event -/

/-- After a step that lets tasks run, the loop has settled. -/
theorem settled_take (t : TimedSession) (h : x.settlesLoop = true) :
    (t.take x).session.scheduler.Settled (t.take x).session.clock := by
  cases x with
  | step x => exact t.session.settled_take h
  | sleep ms => cases h

/-- After an event, all commands have been handled or the loop is as it was. -/
theorem pending_take (t : TimedSession) (x : Event) :
    (t.take x).session.scheduler.pending = [] ∨
      Unattended t.session.scheduler (t.take x).session.scheduler := by
  cases x with
  | step x => exact t.session.pending_take x
  | sleep ms =>
    rw [take]
    rcases t.sleep_cases ms with h | ⟨h, hpending⟩ | ⟨q, due, hphase, hpending, hpeek, hwoken, h⟩
    · rw [h]
      exact t.session.pending_perform (.advance ms)
    · rw [h]
      exact .inl hpending
    · rw [h]
      refine .inl ?_
      unfold Scheduler.passTime
      simp only
      split
      · exact Scheduler.pending_resume _ _
      · exact Scheduler.pending_resume _ _

/-- The clock has not been set since the loop fixed its wait, and the loop waits for a whole second that
the clock does not show yet. -/
structure Still (t : TimedSession) : Prop where
  drift_eq : t.drift = 0
  due_later : ∀ q due, t.session.scheduler.phase = .running (.waiting q) → q.peek = some due →
    t.session.clock < due ∧ due.nanos < 1000000000

/-- A loop that is still has settled, if it has no command to handle. -/
theorem Still.settled {q : Queue} (h : t.Still)
    (hphase : t.session.scheduler.phase = .running (.waiting q))
    (hpending : t.session.scheduler.pending = []) :
    t.session.scheduler.Settled t.session.clock := by
  rw [Scheduler.Settled, hphase]
  exact ⟨hpending, Queue.quietUpTo_of_peek fun due hpeek => (h.due_later q due hphase hpeek).1⟩

/-- Where everything is still, who sleeps lets time go by as a session does. -/
theorem Still.sleep_eq {q : Queue} (h : t.Still)
    (hphase : t.session.scheduler.phase = .running (.waiting q))
    (hpending : t.session.scheduler.pending = []) (ms : Nat) :
    let later := t.session.clock.addMillis ms
    let passed := t.session.scheduler.passTime later
    t.sleep ms = (⟨⟨passed.1, later⟩, 0⟩, passed.2) := by
  intro later passed
  have hquiet (hfar : ∀ due, q.peek = some due → later < due) : passed = (t.session.scheduler, []) := by
    simp only [passed, Scheduler.passTime, hphase, (Queue.quietUpTo_of_peek hfar).fireUpTo_eq,
      Scheduler.resume_eq_self hphase hpending]
  unfold sleep
  simp only [hphase, hpending]
  cases hpeek : q.peek with
  | none =>
    rw [hquiet fun due hdue => by cases hpeek.symm.trans hdue]
    simp only [h.drift_eq]
    rfl
  | some due =>
    obtain ⟨hdue, hwhole⟩ := h.due_later q due hphase hpeek
    have hwakes : t.wakesAt due = due := by
      unfold wakesAt
      rw [h.drift_eq, Instant.shift_zero hwhole]
      exact if_neg fun hle => hle hdue
    simp only [hwakes]
    split
    next hle => simp only [passed, later, Scheduler.passTime_of_due hphase hpeek hle]
    next hle =>
      have hfar : ∀ other, q.peek = some other → later < other := fun other hother => by
        obtain rfl := Option.some.inj (hpeek.symm.trans hother)
        exact Decidable.not_not.mp hle
      rw [hquiet hfar]
      simp only [h.drift_eq]
      rfl

end TimedSession

end Cron
