import Cron.Proofs.TimedRuns

/-!
# Catching up

A loop that is late fires what it missed as due when it was due, and looks for each next occurrence
from there. So it does not matter how late it is, or how often it wakes up on the way: what fires,
in which order and as due when, and what is left in the queue, are determined by the queue and by
the instant up to which the loop has caught up (`Queue.catchUp`). Only the clock that a job reads
when it runs depends on when the loop woke up.

This holds as long as the loop can wait at each of these instants (`Tuning.CanWait`): the clock can
be read, that is, it does not show a time before 1970, and the idle time ends in the calendar.

A loop catches up because it is woken, or because it wakes up by itself in time. If it sleeps on
after the clock has been set, it wakes up at the wrong time (`late_ne_timely`).

Headlines:
* `catchUp_catchUp`: catching up in two parts is catching up at once;
* `fireUpTo_eq_catchUp`: a loop that can wait catches up;
* `after_late_eq_after_timely`: waking up once, waking up often, letting time go by and sleeping come
  to the same.
-/

namespace Cron

/-- The clock goes on by two times as by their sum. -/
theorem Instant.addMillis_addMillis (t : Instant) (a b : Nat) :
    (t.addMillis a).addMillis b = t.addMillis (a + b) := by
  refine ext_ticks ?_
  simp only [ticks, addMillis]
  omega

/-- A loop can wait at an instant, whatever is due. -/
structure Tuning.CanWait (tuning : Tuning) (now : Instant) : Prop where
  /-- The clock can be read. -/
  readable : 0 ≤ now.seconds
  /-- The idle time ends in the calendar. -/
  inCalendar : now.seconds + tuning.idleSeconds ≤ Instant.lastSecond

/-- A loop can wait at an earlier instant as well, if the clock can be read then. -/
theorem Tuning.CanWait.of_le {tuning : Tuning} {t now : Instant} (h : tuning.CanWait now)
    (ht : 0 ≤ t.seconds) (hle : t ≤ now) : tuning.CanWait t :=
  ⟨ht, Int.le_trans (Int.add_le_add_right (Instant.seconds_le_of_le hle) _) h.inCalendar⟩

namespace Queue

variable {q r : Queue} {tuning : Tuning} {now limit later : Instant} {clockAt : Instant → Instant}

theorem attend?_of_canWait (q : Queue) (h : tuning.CanWait now) : q.attend? tuning now = some q := by
  have hidle : (now.addSeconds? tuning.idleSeconds).isSome = true := by
    rw [Instant.addSeconds?, if_pos h.inCalendar]
    rfl
  exact if_pos ⟨h.readable, .inr hidle⟩

/-- The queue after everything has fired that is due up to a limit, and what fired as due when. -/
def catchUp (tuning : Tuning) (limit : Instant) (q : Queue) : Queue × List (EntryId × Instant) :=
  match _h : q.peek with
  | none => (q, [])
  | some due =>
    if due ≤ limit then
      let after := q.fireAt tuning.zone tuning.horizon due
      let rest := after.1.catchUp tuning limit
      (rest.1, after.2.map (fun id => (id, due)) ++ rest.2)
    else (q, [])
termination_by q.ticksLeft limit
decreasing_by
  rename_i hle
  rw [Instant.le_iff_ticks_le] at hle
  simp only [ticksLeft, _h]
  cases hnext : (q.fireAt tuning.zone tuning.horizon due).1.peek with
  | none =>
    simp only
    omega
  | some next =>
    have := lt_peek_fireAt _h hnext
    rw [Instant.lt_iff_ticks_lt] at this
    simp only
    omega

/-- Catching up in two parts is catching up at once. -/
theorem catchUp_catchUp (tuning : Tuning) (h : limit ≤ later) (q : Queue) :
    q.catchUp tuning later =
      (((q.catchUp tuning limit).1.catchUp tuning later).1,
        (q.catchUp tuning limit).2 ++ ((q.catchUp tuning limit).1.catchUp tuning later).2) := by
  fun_induction catchUp tuning limit q with
  | case1 q hnone => rfl
  | case2 q due hpeek hle after rest ih =>
    rw [catchUp]
    split
    next hnone =>
      rw [hpeek] at hnone
      cases hnone
    next due' hpeek' =>
      obtain rfl : due = due' := Option.some.inj (hpeek.symm.trans hpeek')
      rw [if_pos (Instant.le_trans hle h)]
      simp only
      rw [ih, List.append_assoc]
  | case3 q due hpeek hle => rfl

/-- Once it has caught up, a queue is left as it is. -/
theorem catchUp_self (q : Queue) :
    (q.catchUp tuning limit).1.catchUp tuning limit = ((q.catchUp tuning limit).1, []) := by
  have htwice := catchUp_catchUp tuning (Instant.le_refl limit) q
  exact Prod.ext (congrArg Prod.fst htwice).symm
    (List.append_right_eq_self.mp (congrArg Prod.snd htwice).symm)

/-- What is left to catch up with, in two parts. -/
theorem catchUp_of_le {middle : Instant} (h : limit ≤ middle) (h' : middle ≤ later) (q : Queue) :
    ((q.catchUp tuning limit).1.catchUp tuning later).2 =
      ((q.catchUp tuning limit).1.catchUp tuning middle).2 ++
        ((q.catchUp tuning middle).1.catchUp tuning later).2 := by
  rw [congrArg Prod.fst (catchUp_catchUp tuning h q)]
  exact congrArg Prod.snd (catchUp_catchUp tuning h' (q.catchUp tuning limit).1)

/-- A loop that can wait at each instant at which it fires catches up. -/
theorem fireUpTo_eq_catchUp
    (h : ∀ first, q.peek = some first → ∀ due, first ≤ due → due ≤ limit →
      tuning.CanWait (clockAt due)) :
    q.fireUpTo tuning limit clockAt =
      (some (q.catchUp tuning limit).1,
        (q.catchUp tuning limit).2.map fun fired => ⟨fired.1, fired.2, clockAt fired.2⟩) := by
  fun_induction catchUp tuning limit q with
  | case1 q hnone =>
    rw [fireUpTo]
    split
    · rfl
    next due hpeek =>
      rw [hpeek] at hnone
      cases hnone
  | case2 q due hpeek hle after rest ih =>
    have hwait := h due hpeek
    rw [fireUpTo]
    split
    next hnone =>
      rw [hpeek] at hnone
      cases hnone
    next due' hpeek' =>
      obtain rfl : due = due' := Option.some.inj (hpeek.symm.trans hpeek')
      rw [if_pos hle]
      simp only
      rw [attend?_of_canWait _ (hwait due (Instant.le_refl due) hle)]
      simp only
      rw [ih fun next hnext due' hdue' => hwait due'
        (Instant.le_trans (Instant.le_of_lt (lt_peek_fireAt hpeek hnext)) hdue')]
      simp only [List.map_append, List.map_map]
      rfl
  | case3 q due hpeek hle =>
    rw [fireUpTo]
    split
    · rfl
    next due' hpeek' =>
      obtain rfl : due = due' := Option.some.inj (hpeek.symm.trans hpeek')
      rw [if_neg hle]
      rfl

end Queue

namespace Scheduler

variable {s : Scheduler} {q : Queue} {now limit : Instant}

theorem isWaiting_iff :
    s.isWaiting = true ↔ ∃ q, s.phase = .running (.waiting q) ∧ s.pending = [] := by
  unfold isWaiting
  split
  next q hphase =>
    rw [List.isEmpty_iff]
    exact ⟨fun hpending => ⟨q, hphase, hpending⟩, fun ⟨_, _, hpending⟩ => hpending⟩
  next hphase =>
    constructor
    · nofun
    · rintro ⟨q, hq, -⟩
      exact absurd hq (hphase q)

/-- A waiting loop that settles catches up with the clock. -/
theorem settle_eq_catchUp (hphase : s.phase = .running (.waiting q)) (hpending : s.pending = [])
    (hwait : s.tuning.CanWait now) :
    s.settle now =
      (s.resume (some (q.catchUp s.tuning now).1),
        (q.catchUp s.tuning now).2.map fun fired => ⟨fired.1, fired.2, now⟩) := by
  rw [settle_of_waiting hphase hpending, q.attend?_of_canWait hwait]
  simp only
  rw [Queue.fireUpTo_eq_catchUp fun _ _ _ _ _ => hwait]

/-- A waiting loop that has caught up has nothing to do. -/
theorem settle_eq_self (hphase : s.phase = .running (.waiting q)) (hpending : s.pending = [])
    (hwait : s.tuning.CanWait now) (hcaught : q.catchUp s.tuning now = (q, [])) :
    s.settle now = (s, []) := by
  rw [settle_eq_catchUp hphase hpending hwait, hcaught, resume_eq_self hphase hpending]
  rfl

/-- Time goes by in a loop that has caught up, and it catches up with later instants. -/
theorem passTime_eq_catchUp (h : s.Settled now) (hphase : s.phase = .running (.waiting q))
    (hread : 0 ≤ now.seconds) (hwait : s.tuning.CanWait limit) :
    s.passTime limit =
      (s.resume (some (q.catchUp s.tuning limit).1),
        (q.catchUp s.tuning limit).2.map fun fired => ⟨fired.1, fired.2, fired.2⟩) := by
  have hquiet := (h.of_waiting hphase).2
  have hdue : ∀ first, q.peek = some first → ∀ due, first ≤ due → due ≤ limit →
      s.tuning.CanWait (id due) := by
    intro first hfirst due hle hlimit
    obtain ⟨e, he, hnext⟩ := (Queue.peek_eq_some_iff.mp hfirst).1
    have hlater : now ≤ due := Instant.le_trans (Instant.le_of_lt (hquiet e he first hnext)) hle
    exact hwait.of_le (Int.le_trans hread (Instant.seconds_le_of_le hlater)) hlimit
  unfold passTime
  rw [hphase]
  simp only
  rw [Queue.fireUpTo_eq_catchUp hdue]
  rfl

theorem finishStop_of_running {loop : Loop} (h : s.phase = .running loop) : s.finishStop now = s :=
  finishStop_of_not_stopping (by rw [isStopping, h]) now

end Scheduler

/-- What fired as due when, without the clock. -/
def Firing.dispatch (firing : Firing) : EntryId × Instant := (firing.id, firing.due)

namespace Session

variable {session : Session} {q : Queue} {steps others : List Step} {clock last : Instant}
  {stops : List Instant}

/-- The loop wakes up when the clock shows each of some times. -/
def wakeUps (clocks : List Instant) : List Step :=
  clocks.flatMap fun clock => [⟨.setClock clock, true⟩, ⟨.runTasks, true⟩]

/-- The session once a waiting loop has caught up with the clock. -/
def caughtUp (session : Session) (q : Queue) (clock : Instant) : Session :=
  { scheduler := session.scheduler.resume (some (q.catchUp session.scheduler.tuning clock).1), clock }

theorem caughtUp_caughtUp (h : clock ≤ last) :
    (session.caughtUp q clock).caughtUp (q.catchUp session.scheduler.tuning clock).1 last =
      session.caughtUp q last := by
  have htwice := Queue.catchUp_catchUp session.scheduler.tuning h q
  unfold caughtUp
  rw [htwice]
  rfl

/-- A loop that wakes up catches up with the clock. -/
theorem wakeUp_eq_catchUp (hphase : session.scheduler.phase = .running (.waiting q))
    (hpending : session.scheduler.pending = [])
    (hwait : session.scheduler.tuning.CanWait clock.inMillis) :
    session.after (wakeUps [clock]) = session.caughtUp q clock.inMillis ∧
      (session.firings (wakeUps [clock])).map Firing.dispatch =
        (q.catchUp session.scheduler.tuning clock.inMillis).2 := by
  have hsettle := Scheduler.settle_eq_catchUp hphase hpending hwait
  have hagain := Scheduler.settle_eq_self
    (s := session.scheduler.resume (some (q.catchUp session.scheduler.tuning clock.inMillis).1))
    rfl rfl hwait (Queue.catchUp_self q)
  have htake : (session.take ⟨.setClock clock, true⟩).session.take ⟨.runTasks, true⟩ =
      ⟨session.caughtUp q clock.inMillis, .ok .nothing,
        (q.catchUp session.scheduler.tuning clock.inMillis).2.map
          fun fired => ⟨fired.1, fired.2, clock.inMillis⟩⟩ := by
    simp only [take, step, perform, Scheduler.runTasks, Scheduler.finishStop_of_running hphase,
      hsettle, hagain, List.append_nil]
    rfl
  constructor
  · exact congrArg Outcome.session htake
  · have hfired : session.firings (wakeUps [clock]) =
        ((session.take ⟨.setClock clock, true⟩).session.take ⟨.runTasks, true⟩).fired ++ [] := rfl
    rw [hfired, htake, List.append_nil, List.map_map]
    exact List.map_id _

/-- A loop that wakes up several times, ever later, catches up with the last time. -/
theorem wakeUps_eq_catchUp (hphase : session.scheduler.phase = .running (.waiting q))
    (hpending : session.scheduler.pending = [])
    (hwait : ∀ clock ∈ stops ++ [last], session.scheduler.tuning.CanWait clock.inMillis)
    (hstops : ∀ clock ∈ stops, clock.inMillis ≤ last.inMillis) :
    session.after (wakeUps (stops ++ [last])) = session.caughtUp q last.inMillis ∧
      (session.firings (wakeUps (stops ++ [last]))).map Firing.dispatch =
        (q.catchUp session.scheduler.tuning last.inMillis).2 := by
  induction stops generalizing session q with
  | nil => exact wakeUp_eq_catchUp hphase hpending (hwait last List.mem_cons_self)
  | cons clock rest ih =>
    obtain ⟨hafter, hfired⟩ := wakeUp_eq_catchUp hphase hpending (hwait clock List.mem_cons_self)
    have htwice := Queue.catchUp_catchUp session.scheduler.tuning (hstops clock List.mem_cons_self) q
    obtain ⟨hafter', hfired'⟩ := @ih (session.caughtUp q clock.inMillis) _ rfl rfl
      (fun t ht => hwait t (List.mem_cons_of_mem clock ht))
      (fun t ht => hstops t (List.mem_cons_of_mem clock ht))
    have hsplit : wakeUps (clock :: rest ++ [last]) = wakeUps [clock] ++ wakeUps (rest ++ [last]) :=
      rfl
    rw [hsplit, after_append, firings_append, hafter, hafter', List.map_append, hfired, hfired',
      caughtUp_caughtUp (hstops clock List.mem_cons_self), htwice]
    exact ⟨rfl, rfl⟩

/-- A waiting loop through which time goes by fires what it missed before, and then what falls due on
the way. -/
theorem advance_eq_catchUp {ms : Nat} (hphase : session.scheduler.phase = .running (.waiting q))
    (hpending : session.scheduler.pending = []) (hread : 0 ≤ session.clock.seconds)
    (hwait : session.scheduler.tuning.CanWait (session.clock.addMillis ms)) :
    let tuning := session.scheduler.tuning
    let missed := q.catchUp tuning session.clock
    session.after [⟨.advance ms, true⟩] = session.caughtUp q (session.clock.addMillis ms) ∧
      session.firings [⟨.advance ms, true⟩] =
        (missed.2.map fun fired => ⟨fired.1, fired.2, session.clock⟩) ++
          (missed.1.catchUp tuning (session.clock.addMillis ms)).2.map
            fun fired => ⟨fired.1, fired.2, fired.2⟩ := by
  intro tuning missed
  have hle := session.clock.le_addMillis ms
  let settled := session.scheduler.resume (some missed.1)
  let later := missed.1.catchUp tuning (session.clock.addMillis ms)
  have hsettle : session.scheduler.settle session.clock =
      (settled, missed.2.map fun fired => ⟨fired.1, fired.2, session.clock⟩) :=
    Scheduler.settle_eq_catchUp hphase hpending (hwait.of_le hread hle)
  have hquiet : settled.Settled session.clock := by
    have := session.scheduler.settled_settle session.clock
    rwa [hsettle] at this
  have hpass : settled.passTime (session.clock.addMillis ms) =
      (settled.resume (some later.1), later.2.map fun fired => ⟨fired.1, fired.2, fired.2⟩) :=
    Scheduler.passTime_eq_catchUp hquiet rfl hread hwait
  have hagain : (settled.resume (some later.1)).settle (session.clock.addMillis ms) =
      (settled.resume (some later.1), []) :=
    Scheduler.settle_eq_self rfl rfl hwait (Queue.catchUp_self missed.1)
  have htake : session.take ⟨.advance ms, true⟩ =
      ⟨(session.caughtUp q session.clock).caughtUp missed.1 (session.clock.addMillis ms), .ok .nothing,
        (missed.2.map fun fired => ⟨fired.1, fired.2, session.clock⟩) ++
          later.2.map fun fired => ⟨fired.1, fired.2, fired.2⟩⟩ := by
    simp only [take, step, perform, Scheduler.runTasks, Scheduler.finishStop_of_running hphase,
      hsettle, hpass, hagain, List.append_nil]
    rfl
  rw [← caughtUp_caughtUp hle]
  constructor
  · exact congrArg Outcome.session htake
  · have hfired : session.firings [⟨.advance ms, true⟩] =
        (session.take ⟨.advance ms, true⟩).fired ++ [] := rfl
    rw [hfired, htake, List.append_nil]

/-- A waiting loop that has caught up before fires what falls due on the way. -/
theorem advance_caughtUp {ms : Nat} (hread : 0 ≤ clock.seconds)
    (hwait : session.scheduler.tuning.CanWait (clock.addMillis ms)) :
    let tuning := session.scheduler.tuning
    (session.caughtUp q clock).after [⟨.advance ms, true⟩] =
        session.caughtUp q (clock.addMillis ms) ∧
      (session.caughtUp q clock).firings [⟨.advance ms, true⟩] =
        ((q.catchUp tuning clock).1.catchUp tuning (clock.addMillis ms)).2.map
          fun fired => ⟨fired.1, fired.2, fired.2⟩ := by
  intro tuning
  obtain ⟨hafter, hfired⟩ := @advance_eq_catchUp (session.caughtUp q clock) _ ms rfl rfl hread hwait
  have hcaught : (q.catchUp tuning clock).1.catchUp (session.caughtUp q clock).scheduler.tuning
      (session.caughtUp q clock).clock = ((q.catchUp tuning clock).1, []) := Queue.catchUp_self q
  rw [hcaught] at hfired
  exact ⟨hafter.trans (caughtUp_caughtUp (clock.le_addMillis ms)), hfired⟩

/-- Time goes by in two parts as it does at once. -/
theorem advance_advance {a b : Nat} (hphase : session.scheduler.phase = .running (.waiting q))
    (hpending : session.scheduler.pending = []) (hread : 0 ≤ session.clock.seconds)
    (hwait : session.scheduler.tuning.CanWait (session.clock.addMillis (a + b))) :
    session.after [⟨.advance a, true⟩, ⟨.advance b, true⟩] = session.after [⟨.advance (a + b), true⟩] ∧
      session.firings [⟨.advance a, true⟩, ⟨.advance b, true⟩] =
        session.firings [⟨.advance (a + b), true⟩] := by
  have hsplit : ([⟨.advance a, true⟩, ⟨.advance b, true⟩] : List Step) =
      [⟨.advance a, true⟩] ++ [⟨.advance b, true⟩] := rfl
  have hle := session.clock.le_addMillis a
  have hle' := (session.clock.addMillis a).le_addMillis b
  have hread' : 0 ≤ (session.clock.addMillis a).seconds :=
    Int.le_trans hread (Instant.seconds_le_of_le hle)
  obtain ⟨honce, hfiredOnce⟩ := advance_eq_catchUp hphase hpending hread hwait
  rw [← Instant.addMillis_addMillis] at hwait honce hfiredOnce
  obtain ⟨hfirst, hfiredFirst⟩ := advance_eq_catchUp hphase hpending hread (hwait.of_le hread' hle')
  obtain ⟨hsecond, hfiredSecond⟩ := @advance_caughtUp session q (session.clock.addMillis a) b hread' hwait
  rw [hsplit, after_append, firings_append, hfirst, hsecond, honce, hfiredFirst, hfiredSecond,
    hfiredOnce, Queue.catchUp_of_le hle hle', List.map_append, List.append_assoc]
  exact ⟨rfl, rfl⟩

/-- A loop that sleeps on wakes up in time if the clock has not been set, and fires what falls due on the
way. -/
theorem sleep_eq_catchUp {t : TimedSession} {ms : Nat} (hstill : t.Still)
    (hphase : t.session.scheduler.phase = .running (.waiting q))
    (hpending : t.session.scheduler.pending = []) (hread : 0 ≤ t.session.clock.seconds)
    (hwait : t.session.scheduler.tuning.CanWait (t.session.clock.addMillis ms)) :
    let later := t.session.clock.addMillis ms
    (t.sleep ms).1.session = t.session.caughtUp q later ∧
      (t.sleep ms).2.map Firing.dispatch = (q.catchUp t.session.scheduler.tuning later).2 := by
  intro later
  have hpass := Scheduler.passTime_eq_catchUp (hstill.settled hphase hpending) hphase hread hwait
  rw [hstill.sleep_eq hphase hpending ms, hpass]
  refine ⟨rfl, ?_⟩
  rw [List.map_map]
  exact List.map_id _

/-- **Late makes up for timely.** A waiting loop that is woken once, that is woken any number of times on
the way, that is woken before time goes by, or that sleeps on while the clock is not set fires the same
entries as due at the same instants in the same order, and is left with the same queue, provided that it
can wait at each of these times. Time that goes by in two parts even fires them at the same times on the
clock as time that goes by at once. -/
theorem after_late_eq_after_timely (session : Session) (stops : List Instant) (last : Instant)
    (hloop : session.scheduler.isWaiting = true)
    (hstops : ∀ clock ∈ stops, clock.inMillis ≤ last.inMillis)
    (hread : ∀ clock ∈ stops ++ [last], 0 ≤ clock.inMillis.seconds)
    (hidle : last.inMillis.seconds + session.scheduler.tuning.idleSeconds ≤ Instant.lastSecond) :
    let late := wakeUps [last]
    let timely := wakeUps (stops ++ [last])
    session.after timely = session.after late ∧
      (session.firings timely).map Firing.dispatch = (session.firings late).map Firing.dispatch ∧
      ∀ ms, 0 ≤ session.clock.seconds → session.clock.addMillis ms = last.inMillis →
        session.after [⟨.advance ms, true⟩] = session.after late ∧
        (session.firings [⟨.advance ms, true⟩]).map Firing.dispatch =
          (session.firings late).map Firing.dispatch ∧
        (∀ t : TimedSession, t.session = session → t.Still →
          (t.sleep ms).1.session = session.after late ∧
          (t.sleep ms).2.map Firing.dispatch = (session.firings late).map Firing.dispatch) ∧
        ∀ a b, a + b = ms →
          session.after [⟨.advance a, true⟩, ⟨.advance b, true⟩] =
            session.after [⟨.advance ms, true⟩] ∧
          session.firings [⟨.advance a, true⟩, ⟨.advance b, true⟩] =
            session.firings [⟨.advance ms, true⟩] := by
  intro late timely
  obtain ⟨q, hphase, hpending⟩ := Scheduler.isWaiting_iff.mp hloop
  have hlast : session.scheduler.tuning.CanWait last.inMillis :=
    ⟨hread last List.mem_concat_self, hidle⟩
  have hwait : ∀ clock ∈ stops ++ [last], session.scheduler.tuning.CanWait clock.inMillis := by
    intro clock hclock
    refine hlast.of_le (hread clock hclock) ?_
    rcases List.mem_append.mp hclock with hstop | hlast
    · exact hstops clock hstop
    · rw [List.mem_singleton.mp hlast]
      exact Instant.le_refl _
  obtain ⟨hlate, hlateFired⟩ := wakeUp_eq_catchUp hphase hpending hlast
  obtain ⟨htimely, htimelyFired⟩ := wakeUps_eq_catchUp hphase hpending hwait hstops
  refine ⟨htimely.trans hlate.symm, htimelyFired.trans hlateFired.symm, fun ms hclock hms => ?_⟩
  rw [← hms] at hlast hlate hlateFired
  obtain ⟨hadvance, hadvanceFired⟩ := advance_eq_catchUp hphase hpending hclock hlast
  refine ⟨hadvance.trans hlate.symm, ?_, ?_, fun a b hab => ?_⟩
  · rw [hadvanceFired, hlateFired, List.map_append, List.map_map, List.map_map,
      congrArg Prod.snd (Queue.catchUp_catchUp _ (session.clock.le_addMillis ms) q)]
    exact congr (congrArg (· ++ ·) (List.map_id _)) (List.map_id _)
  · rintro t rfl hstill
    obtain ⟨hslept, hsleptFired⟩ := sleep_eq_catchUp hstill hphase hpending hclock hlast
    exact ⟨hslept.trans hlate.symm, hsleptFired.trans hlateFired.symm⟩
  · subst hab
    exact advance_advance hphase hpending hclock hlast

/-- Two entries have been due at once for a while when the loop wakes up, and a third falls due on the
way. -/
theorem after_late_eq_after_timely_when_overdue :
    let start := new { zone := .utc, horizon := 5, idleSeconds := 86400 } (Instant.ofSeconds 0)
    let session := start.after
      [⟨.add ⟨"a"⟩ "*/10 * * * * *", true⟩, ⟨.add ⟨"b"⟩ "*/5 * * * * *", true⟩, ⟨.start true, true⟩,
        ⟨.setClock (Instant.ofSeconds 12), true⟩]
    let late := wakeUps [Instant.ofSeconds 16]
    let timely := wakeUps [Instant.ofSeconds 12, Instant.ofSeconds 15, Instant.ofSeconds 16]
    let dispatches := [(⟨"b"⟩, Instant.ofSeconds 5), (⟨"a"⟩, Instant.ofSeconds 10),
      (⟨"b"⟩, Instant.ofSeconds 10), (⟨"b"⟩, Instant.ofSeconds 15)]
    session.after timely = session.after late ∧
      session.after [⟨.advance 4000, true⟩] = session.after late ∧
      (session.firings timely).map Firing.dispatch = dispatches ∧
      (session.firings [⟨.advance 4000, true⟩]).map Firing.dispatch = dispatches := by
  intro start session late timely dispatches
  have hfired : (session.firings late).map Firing.dispatch = dispatches := by decide +kernel
  obtain ⟨htimely, htimelyFired, hadvance⟩ := after_late_eq_after_timely session
    [Instant.ofSeconds 12, Instant.ofSeconds 15] (Instant.ofSeconds 16) (by decide +kernel)
    (by decide +kernel) (by decide +kernel) (by decide +kernel)
  obtain ⟨hafter, hadvanceFired, -⟩ := hadvance 4000 (by decide +kernel) (by decide +kernel)
  exact ⟨htimely, hafter, htimelyFired.trans hfired, hadvanceFired.trans hfired⟩

/-- A loop whose clock has been set back before 1970 makes up for what it missed if it is woken once it
can read the clock again. If it is woken before, it dies and fires nothing; if it sleeps on, it fires what
it waits for, and dies then. A loop that sleeps on after the clock has been set back from 100 to 50 fires
at 60 what is due at 110. -/
theorem late_ne_timely :
    let tuning : Tuning := { zone := .utc, horizon := 5, idleSeconds := 86400 }
    let unreadable := (TimedSession.new tuning (Instant.ofSeconds 0)).after
      [.step ⟨.add ⟨"a"⟩ "* * * * * *", true⟩, .step ⟨.start true, true⟩,
        .step ⟨.setClock (Instant.ofSeconds (-2)), true⟩]
    let setBack := (TimedSession.new tuning (Instant.ofSeconds 100)).after
      [.step ⟨.add ⟨"a"⟩ "*/10 * * * * *", true⟩, .step ⟨.start true, true⟩,
        .step ⟨.setClock (Instant.ofSeconds 50), true⟩]
    (unreadable.session.scheduler.isWaiting = true ∧
      unreadable.session.clock = Instant.ofSeconds (-2) ∧
      2 + (tuning.idleSeconds : Int) ≤ Instant.lastSecond ∧
      (unreadable.session.firings (wakeUps [Instant.ofSeconds 2])).map Firing.dispatch =
        [(⟨"a"⟩, Instant.ofSeconds 1), (⟨"a"⟩, Instant.ofSeconds 2)] ∧
      unreadable.session.firings [⟨.advance 4000, true⟩] = [] ∧
      (unreadable.sleep 4000).2.map Firing.dispatch = [(⟨"a"⟩, Instant.ofSeconds 1)]) ∧
    setBack.session.scheduler.isWaiting = true ∧
      setBack.session.clock = Instant.ofSeconds 50 ∧
      setBack.session.firings (wakeUps [Instant.ofSeconds 65]) = [] ∧
      (setBack.sleep 15000).2 = [⟨⟨"a"⟩, Instant.ofSeconds 110, Instant.ofSeconds 60⟩] := by
  decide +kernel

end Session

end Cron
