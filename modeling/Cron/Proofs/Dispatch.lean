import Cron.Proofs.TimedRuns
import Cron.Proofs.Tracking

/-!
# What fires for an entry

A span of a run starts with the event that schedules an entry, and the entry is kept through it:
nobody removes it or signals a stop (`TimedSession.Span`). Whatever else happens in the meantime,
once the loop has settled the entry has fired at each of its occurrences up to the time on the
clock.

The clock may move in any way up to that time, whether the loop notices or sleeps on and wakes up
late. There are two provisos. The loop has to be alive, so it must not look at the clock before
1970. And the clock must not be set back while a loop sleeps on, since such a loop wakes up early.
Without them an entry may miss what occurs, or fire before it does (`fires_early_or_not_at_all`).

A run of a session is a run in which nobody sleeps on, so an entry that is held in it is followed in
the same way (`Session.Held`).

Headlines:
* `TimedSession.Held.tracks`, `Session.Held.tracks`: an entry is tracked as long as it is held;
* `dues_eq_occurrences`: what has fired for it are its occurrences, each once and in their order.
-/

namespace Cron

/-- Whether a call removes an entry of a name. -/
def Call.removes (id : EntryId) : Call → Bool
  | .remove other => other = id
  | _ => false

namespace Call

variable {call : Call} {reply : Except SchedulerError Reply} {id : EntryId}

/-- A call sends a command that adds an entry only if its reply says so. -/
theorem countP_commands_le (call : Call) (reply : Except SchedulerError Reply) (id : EntryId) :
    (call.commands reply).countP (Command.adds id) ≤
      (Session.addedId? (call, reply)).toList.count id := by
  unfold commands
  split
  next other pattern reply =>
    split
    · by_cases h : other = id <;> simp [Command.adds, Session.addedId?, Entry.new, h]
    · exact Nat.zero_le _
  next => exact Nat.zero_le _
  next => exact Nat.zero_le _

/-- A call that neither adds nor removes an entry sends no command about it. -/
theorem not_concerns_of_mem_commands (hadds : id ∉ Session.addedId? (call, reply))
    (hremoves : call.removes id = false) :
    ∀ command ∈ call.commands reply, command.concerns id = false := by
  unfold commands
  split
  next other pattern reply =>
    split
    · intro command hmem
      rw [List.mem_singleton.mp hmem]
      exact decide_eq_false fun heq => hadds (congrArg some heq)
    · nofun
  next other reply =>
    intro command hmem
    rw [List.mem_singleton.mp hmem]
    exact hremoves
  next => nofun

end Call

/-- Whether an event removes an entry of a name. -/
def Event.removes (id : EntryId) : Event → Bool
  | step x => x.call.removes id
  | sleep _ => false

open Session (addedId? addedIds)

namespace TimedSession

variable {t : TimedSession} {x : Event} {events : List Event} {id : EntryId} {schedule : Schedule}
  {since limit : Instant} {dues : List Instant} {q : Queue} {e : Entry}

/-- An event sends a command that adds an entry only if an answer says so. -/
theorem countP_sent_le (t : TimedSession) (x : Event) (id : EntryId) :
    ((t.answers x).flatMap fun answer => answer.1.commands answer.2).countP (Command.adds id) ≤
      (addedIds (t.answers x)).count id := by
  cases x with
  | step x =>
    have hsent := x.call.countP_commands_le (t.session.take x).reply id
    rw [answers, addedIds, filterMap_cons_eq_append, List.flatMap_cons, List.flatMap_nil,
      List.append_nil, List.count_append]
    exact Nat.le_trans hsent (Nat.le_add_right _ _)
  | sleep ms => exact Nat.le_refl 0

/-- An event that neither adds nor removes an entry sends no command about it. -/
theorem not_concerns_of_mem_sent (hadds : id ∉ addedIds (t.answers x)) (hremoves : x.removes id = false) :
    ∀ command ∈ (t.answers x).flatMap (fun answer => answer.1.commands answer.2),
      command.concerns id = false := by
  cases x with
  | step x =>
    rw [answers, List.flatMap_cons, List.flatMap_nil, List.append_nil]
    refine Call.not_concerns_of_mem_commands (fun hmem => hadds ?_) hremoves
    exact List.mem_filterMap.mpr ⟨_, List.mem_singleton_self _, hmem⟩
  | sleep ms => nofun

theorem addedIds_history_cons (t : TimedSession) (x : Event) (rest : List Event) :
    addedIds (t.history (x :: rest)) =
      addedIds (t.answers x) ++ addedIds ((t.take x).history rest) := List.filterMap_append

theorem addedIds_history_append (t : TimedSession) (events others : List Event) :
    addedIds (t.history (events ++ others)) =
      addedIds (t.history events) ++ addedIds ((t.after events).history others) := by
  rw [history_append]
  exact List.filterMap_append

/-- There are no more entries of a name than were added under it. -/
theorem copies_after_le (t : TimedSession) (events : List Event) (id : EntryId) :
    (t.after events).session.scheduler.copies id ≤
      t.session.scheduler.copies id + (addedIds (t.history events)).count id := by
  induction events generalizing t with
  | nil => exact Nat.le_refl _
  | cons x rest ih =>
    obtain ⟨deeds, hcourse⟩ := t.exists_course x
    have hstep := @Scheduler.Trace.copies_le _ _ _ id hcourse.trace
    have hsent := t.countP_sent_le x id
    have hrest := ih (t.take x)
    rw [hcourse.sent_eq] at hstep
    rw [after_cons, addedIds_history_cons, List.count_append]
    omega

/-- All that fires in a punctual run was due no later than the clock shows at some time. -/
theorem due_le_of_mem_firings (hpunctual : t.PunctualThrough events)
    (hclock : ∀ n < events.length, (t.after (events.take (n + 1))).session.clock ≤ limit) :
    ∀ firing ∈ t.firings events, firing.due ≤ limit := by
  induction events generalizing t with
  | nil => nofun
  | cons x rest ih =>
    intro firing hmem
    rcases List.mem_append.mp hmem with hmem | hmem
    · obtain ⟨deeds, hcourse⟩ := t.exists_course x
      rw [← hcourse.fired_eq] at hmem
      obtain ⟨deed, hdeed, hfired⟩ := List.mem_filterMap.mp hmem
      have htimely := hcourse.timely hpunctual.1 deed hdeed
      have hx := hclock 0 (Nat.zero_lt_succ _)
      cases deed with
      | fired other =>
        cases hfired
        obtain ⟨hdue, hle⟩ := htimely.resolve_left nofun
        exact Instant.le_trans hdue (Instant.le_trans hle hx)
      | _ => cases hfired
    · exact ih hpunctual.2 (fun n hn => hclock (n + 1) (Nat.succ_lt_succ hn)) firing hmem

/-- A run in which nobody removes an entry or signals a stop keeps it tracked. -/
theorem tracks_after (h : t.session.scheduler.Tracks id schedule since dues q e)
    (hpending : ∀ command ∈ t.session.scheduler.pending, command.concerns id = false)
    (hevents : ∀ x ∈ events, x.signalsStop = false ∧ x.removes id = false)
    (hadds : id ∉ addedIds (t.history events))
    (halive : (t.after events).session.scheduler.takesCommands = true) :
    ∃ r f, (t.after events).session.scheduler.Tracks id schedule since
      (dues ++ duesOf id (t.firings events)) r f := by
  induction events generalizing t q e dues with
  | nil => exact ⟨q, e, (List.append_nil dues).symm ▸ h⟩
  | cons x rest ih =>
    obtain ⟨deeds, hcourse⟩ := t.exists_course x
    obtain ⟨hstop, hremoves⟩ := hevents x List.mem_cons_self
    rw [addedIds_history_cons, List.mem_append, not_or] at hadds
    have hquiet : .stopSignalled ∉ deeds := fun hmem => by
      rw [hcourse.signalsStop hmem] at hstop
      cases hstop
    have hsent : ∀ command ∈ deeds.filterMap Deed.sent?, command.concerns id = false := by
      rw [hcourse.sent_eq]
      exact not_concerns_of_mem_sent hadds.1 hremoves
    obtain ⟨⟨r, f, hnext⟩, hpending'⟩ :=
      hcourse.trace.tracks_of_kept h hquiet hpending hsent (takesCommands_after halive)
    rw [hcourse.fired_eq] at hnext
    have hrest :=
      ih hnext hpending' (fun y hy => hevents y (List.mem_cons_of_mem x hy)) hadds.2 halive
    rwa [List.append_assoc, ← duesOf_append] at hrest

/-- An event that puts an entry before a loop schedules it at the time on the clock, and leaves no
command behind. -/
theorem tracks_take (hfree : t.session.scheduler.Free e.id)
    (hwaiting : e ∈ (t.take x).session.scheduler.waiting) (hpunctual : t.Punctual x)
    (hstop : x.signalsStop = false)
    (honce : t.session.scheduler.copies e.id + (addedIds (t.answers x)).count e.id ≤ 1) :
    (∃ q, (t.take x).session.scheduler.Tracks e.id e.schedule t.session.clock
      (duesOf e.id (t.fired x)) q e) ∧
      (t.take x).session.scheduler.pending = [] := by
  obtain ⟨deeds, hcourse⟩ := t.exists_course x
  have hheld : ¬ (t.take x).session.scheduler.Free e.id := fun h => h e hwaiting rfl
  have hquiet : .stopSignalled ∉ deeds := fun hmem => by
    rw [hcourse.signalsStop hmem] at hstop
    cases hstop
  have hsent := t.countP_sent_le x e.id
  obtain ⟨q, f, htracks⟩ := hcourse.trace.tracks_of_scheduled hfree hquiet
    (by rw [hcourse.sent_eq]; omega) (hcourse.timely hpunctual) hheld
  have hmem : e ∈ q.entriesOf e.id := by
    unfold Scheduler.waiting at hwaiting
    rw [htracks.phase_eq] at hwaiting
    exact List.mem_filter.mpr ⟨hwaiting, decide_eq_true rfl⟩
  rw [htracks.entriesOf_eq] at hmem
  obtain rfl := List.mem_singleton.mp hmem
  rw [hcourse.fired_eq] at htracks
  refine ⟨⟨q, htracks⟩, ?_⟩
  rcases t.pending_take x with hpending | hsame
  · exact hpending
  · -- a loop that is as it was does not wait with a new entry
    have hphase := hsame q htracks.phase_eq
    refine absurd ?_ hheld
    rw [Scheduler.free_iff_of_waiting htracks.phase_eq]
    exact (Scheduler.free_iff_of_waiting hphase).mp hfree

theorem settled_after {last : Event} (h : last.settlesLoop = true) :
    (t.after (events ++ [last])).session.scheduler.Settled
      (t.after (events ++ [last])).session.clock := by
  rw [after_append]
  exact settled_take _ h

/-- A part of a run in which an entry is scheduled and kept. The clock may move in any way, but whenever
a loop sleeps on, it has not been set back since the loop fixed its wait. -/
structure Held (start : TimedSession) (before : List Event) (x : Event) (rest : List Event)
    (e : Entry) : Prop where
  /-- No other entry was added under the name. -/
  once : (addedIds (start.history (before ++ x :: rest))).count e.id ≤ 1
  /-- No loop waits with the entry before the first event. -/
  free : (start.after before).session.scheduler.Free e.id
  /-- The first event schedules it. -/
  scheduled : e ∈ ((start.after before).take x).session.scheduler.waiting
  /-- No stop is signalled, and the entry is not removed. -/
  kept : ∀ y ∈ x :: rest, y.signalsStop = false ∧ y.removes e.id = false
  punctual : (start.after before).PunctualThrough (x :: rest)
  alive : ((start.after before).after (x :: rest)).session.scheduler.takesCommands = true

/-- A part of a run in which an entry is scheduled and kept until the loop settles. -/
structure Span (start : TimedSession) (before : List Event) (x : Event) (rest : List Event)
    (e : Entry) : Prop extends Held start before x rest e where
  /-- The clock never shows a later time than at the end. -/
  clock_le : ∀ n < (x :: rest).length,
    ((start.after before).after ((x :: rest).take (n + 1))).session.clock ≤
      ((start.after before).after (x :: rest)).session.clock
  /-- At the end the loop settles. -/
  settles : ((x :: rest).getLast (List.cons_ne_nil x rest)).settlesLoop = true

variable {start : TimedSession} {before rest : List Event}

instance : Decidable (Held start before x rest e) :=
  decidable_of_iff
    ((addedIds (start.history (before ++ x :: rest))).count e.id ≤ 1 ∧
      (start.after before).session.scheduler.Free e.id ∧
      e ∈ ((start.after before).take x).session.scheduler.waiting ∧
      (∀ y ∈ x :: rest, y.signalsStop = false ∧ y.removes e.id = false) ∧
      (start.after before).PunctualThrough (x :: rest) ∧
      ((start.after before).after (x :: rest)).session.scheduler.takesCommands = true)
    ⟨fun ⟨once, free, scheduled, kept, punctual, alive⟩ =>
      ⟨once, free, scheduled, kept, punctual, alive⟩,
      fun h => ⟨h.once, h.free, h.scheduled, h.kept, h.punctual, h.alive⟩⟩

instance : Decidable (Span start before x rest e) :=
  decidable_of_iff
    (Held start before x rest e ∧
      (∀ n < (x :: rest).length,
        ((start.after before).after ((x :: rest).take (n + 1))).session.clock ≤
          ((start.after before).after (x :: rest)).session.clock) ∧
      ((x :: rest).getLast (List.cons_ne_nil x rest)).settlesLoop = true)
    ⟨fun ⟨held, clock_le, settles⟩ => ⟨held, clock_le, settles⟩,
      fun h => ⟨h.toHeld, h.clock_le, h.settles⟩⟩

/-- As long as an entry is held, it is tracked from the time on the clock when it is scheduled. -/
theorem Held.tracks (h : Held start before x rest e) (hnew : start.session.scheduler.copies e.id = 0) :
    ∃ q f, ((start.after before).after (x :: rest)).session.scheduler.Tracks e.id e.schedule
      (start.after before).session.clock
      (duesOf e.id ((start.after before).firings (x :: rest))) q f := by
  have honce := h.once
  have hbefore := start.copies_after_le before e.id
  have hx := (start.after before).copies_after_le [x] e.id
  rw [addedIds_history_append, addedIds_history_cons, List.count_append, List.count_append] at honce
  rw [history, history, List.append_nil] at hx
  change ((start.after before).take x).session.scheduler.copies e.id ≤ _ at hx
  obtain ⟨hstop, -⟩ := h.kept x List.mem_cons_self
  obtain ⟨⟨q, hfirst⟩, hpending⟩ := tracks_take h.free h.scheduled h.punctual.1 hstop (by omega)
  -- the entry is there already, so the one name it has is used up
  have hrest : e.id ∉ addedIds (((start.after before).take x).history rest) := by
    have hone := hfirst.copies_eq
    refine List.count_eq_zero.mp ?_
    omega
  have hlast := tracks_after hfirst (hpending ▸ List.forall_mem_nil _)
    (fun y hy => h.kept y (List.mem_cons_of_mem x hy)) hrest h.alive
  rw [← duesOf_append] at hlast
  exact hlast

/-- **Every occurrence fires once.** What fires for an entry, from the time at which it is scheduled
up to the time on the clock when the loop has settled, are its occurrences, each looked for from the
one before, in their order. Where the offset is constant and each occurrence is within reach of the
one before, these are all that there are. -/
theorem dues_eq_occurrences (tuning : Tuning) (clock : Instant) (before : List Event) (x : Event)
    (rest : List Event) (e : Entry) (h : Span (new tuning clock) before x rest e) :
    let start := (new tuning clock).after before
    let since := start.session.clock
    let limit := (start.after (x :: rest)).session.clock
    let dues := duesOf e.id (start.firings (x :: rest))
    (∀ n, dues.take n = (e.schedule.occurrences tuning.zone tuning.horizon n since).filter
      fun t => decide (t ≤ limit)) ∧
    dues.Pairwise (· < ·) ∧
    ∀ offset, tuning.zone.HasOffset offset →
      e.schedule.EachReached tuning.zone tuning.horizon since limit →
        ∀ t, t ∈ dues ↔ e.schedule.Occurs tuning.zone t ∧ since < t ∧ t ≤ limit := by
  intro start since limit dues
  obtain ⟨q, f, htracks⟩ := h.toHeld.tracks rfl
  have htuning : (start.after (x :: rest)).session.scheduler.tuning = tuning := by
    rw [tuning_after, tuning_after]
    rfl
  have htraversed := htracks.traversed
  rw [htuning] at htraversed
  have hdues : ∀ t ∈ dues, t ≤ limit := by
    intro t ht
    obtain ⟨firing, hfiring, rfl⟩ := List.mem_map.mp ht
    exact due_le_of_mem_firings h.punctual h.clock_le firing (List.mem_filter.mp hfiring).1
  have hnext : ∀ t, f.next = some t → limit < t := by
    have hsettled := @settled_after start (x :: rest).dropLast _ h.settles
    rw [List.dropLast_concat_getLast] at hsettled
    have hmem : f ∈ q.entriesOf e.id := htracks.entriesOf_eq ▸ List.mem_cons_self
    exact (hsettled.of_waiting htracks.phase_eq).2 f (List.mem_filter.mp hmem).1
  refine ⟨fun n => (htraversed.filter_occurrences hdues hnext n).symm, htraversed.pairwise, ?_⟩
  intro offset hz hreach t
  have hcal : Instant.firstSecond ≤ since.seconds :=
    Int.le_trans (by decide) htracks.since_nonneg
  exact htraversed.mem_iff hz hcal hreach hdues hnext

/-- A loop sleeps while the clock is set on past two occurrences. Before it wakes up another entry is
added and the clock is set back a little, which it notices as it handles the command. Later it sleeps
past an occurrence once more, and wakes up late by itself. -/
theorem dues_eq_occurrences_when_late :
    let start := new { zone := .utc, horizon := 5, idleSeconds := 86400 } (Instant.ofSeconds 0)
    let before : List Event :=
      [.step ⟨.add ⟨"a"⟩ "0 */10 * * * *", false⟩, .step ⟨.start true, false⟩]
    let x : Event := .step ⟨.runTasks, true⟩
    let rest : List Event :=
      [.step ⟨.setClock (Instant.ofSeconds 1500), false⟩, .sleep 100000,
        .step ⟨.add ⟨"b"⟩ "0 */7 * * * *", false⟩,
        .step ⟨.setClock (Instant.ofSeconds 1300), false⟩, .sleep 300000,
        .step ⟨.setClock (Instant.ofSeconds 1900), false⟩, .sleep 600000, .step ⟨.runTasks, true⟩]
    let e : Entry :=
      { id := ⟨"a"⟩
        schedule := (Schedule.compile "0 */10 * * * *").toOption.getD Schedule.everySecond
        next := some (Instant.ofSeconds 600)
        prev := none }
    let dues := duesOf e.id ((start.after before).firings (x :: rest))
    Span start before x rest e ∧
      dues.take 5 = [Instant.ofSeconds 600, Instant.ofSeconds 1200, Instant.ofSeconds 1800,
        Instant.ofSeconds 2400] ∧
      ∀ t, t ∈ dues ↔
        e.schedule.Occurs .utc t ∧ Instant.ofSeconds 0 < t ∧ t ≤ Instant.ofSeconds 2500 := by
  intro start before x rest e dues
  -- the run is evaluated once for all that is read off it
  obtain ⟨hspan, hclock, hlimit⟩ :
      Span start before x rest e ∧ (start.after before).session.clock = Instant.ofSeconds 0 ∧
        ((start.after before).after (x :: rest)).session.clock = Instant.ofSeconds 2500 := by
    decide +kernel
  obtain ⟨htake, -, hmem⟩ := dues_eq_occurrences
    { zone := .utc, horizon := 5, idleSeconds := 86400 } (Instant.ofSeconds 0) before x rest e hspan
  rw [hclock, hlimit] at htake hmem
  refine ⟨hspan, (htake 5).trans (by decide +kernel), ?_⟩
  refine hmem 0 Zone.hasOffset_utc (Schedule.eachReached_of_reaches Zone.hasOffset_utc ?_)
  unfold Schedule.Reaches
  decide +kernel

/-- A loop that sleeps while the clock is set back fires too early: it has waited for 110 since 100, and
wakes up at 60. Then the clock is set to 105, and up to there nothing occurs. A loop that is woken before
1970 dies, and what occurs afterwards does not fire. -/
theorem fires_early_or_not_at_all :
    let tuning : Tuning := { zone := .utc, horizon := 5, idleSeconds := 86400 }
    let ten := (Schedule.compile "*/10 * * * * *").toOption.getD Schedule.everySecond
    let early := (new tuning (Instant.ofSeconds 100)).after
      [.step ⟨.add ⟨"a"⟩ "*/10 * * * * *", true⟩, .step ⟨.start true, true⟩]
    let setBack : List Event :=
      [.step ⟨.setClock (Instant.ofSeconds 50), false⟩, .sleep 15000,
        .step ⟨.setClock (Instant.ofSeconds 105), false⟩, .step ⟨.runTasks, true⟩]
    let lost := (new tuning (Instant.ofSeconds 0)).after
      [.step ⟨.add ⟨"a"⟩ "* * * * * *", true⟩, .step ⟨.start true, true⟩]
    let beforeEpoch : List Event :=
      [.step ⟨.setClock (Instant.ofSeconds (-2)), false⟩, .step ⟨.advance 4000, true⟩]
    (early.session.clock = Instant.ofSeconds 100 ∧
      (early.after setBack).session.clock = Instant.ofSeconds 105 ∧
      early.firings setBack = [⟨⟨"a"⟩, Instant.ofSeconds 110, Instant.ofSeconds 60⟩] ∧
      (ten.occurrences .utc 5 1 (Instant.ofSeconds 100)).filter
        (fun t => decide (t ≤ Instant.ofSeconds 105)) = []) ∧
    lost.session.clock = Instant.ofSeconds 0 ∧
      (lost.after beforeEpoch).session.clock = Instant.ofSeconds 2 ∧
      lost.firings beforeEpoch = [] ∧
      (Schedule.everySecond.occurrences .utc 5 3 (Instant.ofSeconds 0)).filter
        (fun t => decide (t ≤ Instant.ofSeconds 2)) = [Instant.ofSeconds 1, Instant.ofSeconds 2] := by
  decide +kernel

end TimedSession

/-! ## Runs of steps -/

namespace Session

variable {session start : Session} {x : Step} {steps before rest : List Step} {id : EntryId}
  {e : Entry}

theorem takesCommands_after (h : (session.after steps).scheduler.takesCommands = true) :
    session.scheduler.takesCommands = true := by
  rw [← TimedSession.after_map_step ⟨session, 0⟩] at h
  exact TimedSession.takesCommands_after h

/-- There are no more entries of a name than were added under it. -/
theorem copies_after_le (session : Session) (steps : List Step) (id : EntryId) :
    (session.after steps).scheduler.copies id ≤
      session.scheduler.copies id + (addedIds (session.history steps)).count id := by
  have hcopies := TimedSession.copies_after_le ⟨session, 0⟩ (steps.map .step) id
  rwa [TimedSession.after_map_step, TimedSession.history_map_step] at hcopies

theorem addedIds_history_append (session : Session) (steps others : List Step) :
    addedIds (session.history (steps ++ others)) =
      addedIds (session.history steps) ++ addedIds ((session.after steps).history others) := by
  rw [history_append]
  exact List.filterMap_append

/-- A part of a run of steps in which an entry is scheduled and kept. -/
structure Held (start : Session) (before : List Step) (x : Step) (rest : List Step) (e : Entry) :
    Prop where
  /-- No other entry was added under the name. -/
  once : (addedIds (start.history (before ++ x :: rest))).count e.id ≤ 1
  /-- No loop waits with the entry before the first step. -/
  free : (start.after before).scheduler.Free e.id
  /-- The first step schedules it. -/
  scheduled : e ∈ ((start.after before).take x).session.scheduler.waiting
  /-- No stop is signalled, and the entry is not removed. -/
  kept : ∀ y ∈ x :: rest, y.call.signalsStop = false ∧ y.call.removes e.id = false
  alive : ((start.after before).after (x :: rest)).scheduler.takesCommands = true

instance : Decidable (Held start before x rest e) :=
  decidable_of_iff
    ((addedIds (start.history (before ++ x :: rest))).count e.id ≤ 1 ∧
      (start.after before).scheduler.Free e.id ∧
      e ∈ ((start.after before).take x).session.scheduler.waiting ∧
      (∀ y ∈ x :: rest, y.call.signalsStop = false ∧ y.call.removes e.id = false) ∧
      ((start.after before).after (x :: rest)).scheduler.takesCommands = true)
    ⟨fun ⟨once, free, scheduled, kept, alive⟩ => ⟨once, free, scheduled, kept, alive⟩,
      fun h => ⟨h.once, h.free, h.scheduled, h.kept, h.alive⟩⟩

/-- As long as an entry is held, it is tracked from the time on the clock when it is scheduled. -/
theorem Held.tracks (h : Held start before x rest e) (hnew : start.scheduler.copies e.id = 0) :
    ∃ q f, ((start.after before).after (x :: rest)).scheduler.Tracks e.id e.schedule
      (start.after before).clock (duesOf e.id ((start.after before).firings (x :: rest))) q f := by
  let timed : TimedSession := ⟨start, 0⟩
  have hbefore : (timed.after (before.map .step)).session = start.after before :=
    timed.after_map_step before
  have hevents : ∀ steps : List Step,
      ((timed.after (before.map .step)).after (steps.map .step)).session =
        (start.after before).after steps := by
    intro steps
    rw [TimedSession.after_map_step, hbefore]
  have hheld : TimedSession.Held timed (before.map .step) (.step x) (rest.map .step) e := by
    refine ⟨?_, ?_, ?_, ?_, TimedSession.punctualThrough_map_step _ (x :: rest), ?_⟩
    · have honce := h.once
      rw [← timed.history_map_step, List.map_append, List.map_cons] at honce
      exact honce
    · rw [hbefore]
      exact h.free
    · have hscheduled := h.scheduled
      rw [← hbefore] at hscheduled
      exact hscheduled
    · intro event hevent
      obtain ⟨y, hy, rfl⟩ := List.mem_map.mp (List.map_cons.symm ▸ hevent)
      exact h.kept y hy
    · rw [← List.map_cons, hevents]
      exact h.alive
  have htracks := hheld.tracks hnew
  rwa [← List.map_cons, hevents, TimedSession.firings_map_step, hbefore] at htracks

end Session

end Cron
