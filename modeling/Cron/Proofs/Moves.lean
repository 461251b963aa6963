import Cron.Proofs.CalendarOrder
import Cron.Scheduler.Basic

/-!
# What a scheduler does, move by move

The operations of a scheduler do a lot at once. This file takes them apart: a `Move` is the smallest
thing that a scheduler does, such as handling one command or firing one entry, and a `Trace` is a
sequence of moves. Each move has a `Deed` that says what happened, with the instant at which it did.
What every move keeps is kept by every operation, whatever its loops do.

The moves allow more than the operations do: an entry fires when it comes first, whether or not the
limit has been reached, a loop may die at any point, and commands may be handled where there is no
loop whatever the clock shows. But a loop only starts up or handles a command at an instant at which
it can read the clock, and a lock is only poisoned where that cannot be done for an entry that is
added.

A loop that has handled all commands and waits for something later has settled
(`Scheduler.Settled`): told to settle again, it does nothing.

Headlines:
* `tasks_settle`, `tasks_passTime`, `tasks_finishStop`, `tasks_entries`: what each operation that
  runs tasks does is a trace in which no command is sent and nobody starts or stops the scheduler;
* `settled_settle`, `settled_passTime`: how the loop has settled afterwards.
-/

namespace Cron

/-- What happens in a move. -/
inductive Deed where
  | sent (command : Command)
  | started
  | stopSignalled
  /-- The loop starts up. -/
  | startedUp (now : Instant)
  /-- The loop handles a command. -/
  | obeyed (now : Instant) (command : Command)
  | fired (firing : Firing)
  /-- The scheduler handles what is waiting, while it is idle or when its loop has ended. -/
  | drained (now : Instant)
  /-- The loop dies, or its death is noticed. -/
  | died
  /-- The scheduler breaks down over what is waiting. -/
  | poisoned (now : Instant)

namespace Deed

/-- The command that was sent. -/
def sent? : Deed → Option Command
  | sent command => some command
  | _ => none

/-- The entry that fired. -/
def fired? : Deed → Option Firing
  | fired firing => some firing
  | _ => none

/-- Whether it is done at once when it is asked for, and not by tasks. -/
def isAsked : Deed → Bool
  | sent _ | started | stopSignalled => true
  | _ => false

/-- Whether the queue is lost in it. -/
def isFatal : Deed → Bool
  | died | poisoned _ => true
  | _ => false

/-- Whether tasks do it at an instant, firing nothing later than a limit. -/
def ByTasks (now limit : Instant) : Deed → Prop
  | sent _ | started | stopSignalled => False
  | startedUp t | obeyed t _ | drained t | poisoned t => t = now
  | fired firing => firing.due ≤ firing.clock ∧ firing.clock ≤ limit
  | died => True

variable {deed : Deed} {now limit later : Instant}

theorem ByTasks.not_asked (h : deed.ByTasks now limit) : deed.isAsked = false := by
  cases deed <;> first | rfl | cases h

/-- What happens up to a limit happens up to a later one. -/
theorem ByTasks.mono (h : deed.ByTasks now limit) (hle : limit ≤ later) : deed.ByTasks now later := by
  cases deed with
  | fired firing => exact ⟨h.1, Instant.le_trans h.2 hle⟩
  | _ => exact h

end Deed

/-- The queue of a loop, unless it died. -/
def Loop.queue? : Loop → Option Queue
  | .fresh q | .waiting q => some q
  | .dead => none

/-- The queue, whoever has it. -/
def Phase.queue? : Phase → Option Queue
  | .idle q => some q
  | .running loop | .stopping loop => loop.queue?
  | .failed | .poisoned _ => none

namespace Queue

variable {q r : Queue} {tuning : Tuning} {limit : Instant} {clockAt : Instant → Instant}

/-- A loop that waits has read a clock that counts from 1970. -/
theorem seconds_nonneg_of_attend {now : Instant} (h : q.attend? tuning now = some r) :
    0 ≤ now.seconds := by
  unfold attend? at h
  split at h
  next hwait => exact hwait.1
  next => cases h

/-- A loop that can read the clock waits, unless nothing will ever fire. -/
theorem peek_eq_none_of_attend {now : Instant} (h : q.attend? tuning now = none)
    (hread : 0 ≤ now.seconds) : q.peek = none := by
  unfold attend? at h
  split at h
  next => cases h
  next hwait =>
    cases hpeek : q.peek with
    | none => rfl
    | some due =>
      rw [hpeek] at hwait
      exact absurd ⟨hread, .inl rfl⟩ hwait

/-- Nothing is due up to a limit. -/
def QuietUpTo (limit : Instant) (q : Queue) : Prop :=
  ∀ e ∈ q.entries, ∀ t, e.next = some t → limit < t

/-- If what comes first is due after a limit, nothing is due up to it. -/
theorem quietUpTo_of_peek (h : ∀ due, q.peek = some due → limit < due) : q.QuietUpTo limit := by
  intro e he t ht
  cases hpeek : q.peek with
  | none =>
    have hnone := earliest_eq_none_iff.mp hpeek e.next (List.mem_map_of_mem he)
    cases hnone.symm.trans ht
  | some due =>
    have hfirst := (peek_eq_some_iff.mp hpeek).2 e he t ht
    have hlater := h due hpeek
    rw [Instant.le_iff_ticks_le] at hfirst
    rw [Instant.lt_iff_ticks_lt] at hlater ⊢
    omega

/-- After firing up to a limit nothing is due up to it. -/
theorem quietUpTo_of_fireUpTo (h : (q.fireUpTo tuning limit clockAt).1 = some r) :
    r.QuietUpTo limit := by
  fun_induction fireUpTo tuning limit clockAt q with
  | case1 q hnone =>
    cases h
    exact quietUpTo_of_peek (by rw [hnone]; nofun)
  | case2 => cases h
  | case3 q due hpeek hle after fired kept hattend rest =>
    rename_i ih
    exact ih h
  | case4 q due hpeek hle =>
    cases h
    refine quietUpTo_of_peek fun first hfirst => ?_
    obtain rfl := Option.some.inj (hpeek.symm.trans hfirst)
    exact Decidable.not_not.mp hle

/-- Where nothing is due up to a limit, nothing fires. -/
theorem QuietUpTo.fireUpTo_eq (h : q.QuietUpTo limit) :
    q.fireUpTo tuning limit clockAt = (some q, []) := by
  unfold fireUpTo
  split
  · rfl
  next due hpeek =>
    obtain ⟨e, he, hdue⟩ := (peek_eq_some_iff.mp hpeek).1
    have hlt := h e he due hdue
    rw [if_neg]
    rw [Instant.lt_iff_ticks_lt] at hlt
    rw [Instant.le_iff_ticks_le]
    omega

end Queue

theorem filterMap_cons_eq_append {α β : Type} (f : α → Option β) (a : α) (l : List α) :
    (a :: l).filterMap f = (f a).toList ++ l.filterMap f := by
  cases h : f a <;> simp [h]

namespace Scheduler

/-- A move of a scheduler, and what happens in it. -/
inductive Move : Scheduler → Deed → Scheduler → Prop
  | send {s : Scheduler} (command : Command) (h : s.channelOpen = true) :
      Move s (.sent command) { s with pending := s.pending ++ [command] }
  | start {s : Scheduler} {q : Queue} (h : s.phase = .idle q) :
      Move s .started { s with phase := .running (.fresh q) }
  | signalStop {s : Scheduler} {loop : Loop} (h : s.phase = .running loop) :
      Move s .stopSignalled { s with phase := .stopping loop }
  | startUp {s : Scheduler} {q : Queue} (now : Instant) (h : s.phase = .running (.fresh q))
      (hnow : 0 ≤ now.seconds) :
      Move s (.startedUp now) { s with
        phase := .running (.waiting (q.reschedule s.tuning.zone s.tuning.horizon now)) }
  | startUpToStop {s : Scheduler} {q : Queue} (now : Instant) (h : s.phase = .stopping (.fresh q))
      (hnow : 0 ≤ now.seconds) :
      Move s (.startedUp now) { s with
        phase := .stopping (.waiting (q.reschedule s.tuning.zone s.tuning.horizon now)) }
  | obey {s : Scheduler} {q : Queue} {command : Command} {rest : List Command} (now : Instant)
      (h : s.phase = .running (.waiting q)) (hpending : s.pending = command :: rest)
      (hnow : 0 ≤ now.seconds) :
      Move s (.obeyed now command) { s with
        phase := .running (.waiting (q.obey s.tuning now command)), pending := rest }
  | fire {s : Scheduler} {q rest : Queue} {e : Entry} {due clock : Instant}
      (h : s.phase = .running (.waiting q)) (hpending : s.pending = [])
      (htake : q.takeDue? due = some (e, rest)) :
      Move s (.fired ⟨e.id, due, clock⟩) { s with
        phase := .running (.waiting (rest.push (e.fire s.tuning.zone s.tuning.horizon due))) }
  | drain {s : Scheduler} {q : Queue} (now : Instant)
      (h : s.phase = .idle q ∨ s.phase = .stopping (.waiting q)) :
      Move s (.drained now) (s.enter (.idle (q.drain s.tuning now s.pending)))
  | poison {s : Scheduler} {q : Queue} (now : Instant) (channelOpen : Bool)
      (h : s.phase = .idle q ∨ s.phase = .stopping (.waiting q)) (hnow : now.seconds < 0)
      (hadd : ∃ e, .add e ∈ s.pending) :
      Move s (.poisoned now) (s.enter (.poisoned channelOpen))
  | die {s : Scheduler} {loop : Loop} (h : s.phase = .running loop) :
      Move s .died (s.enter (.running .dead))
  | fail {s : Scheduler} {loop : Loop} (h : s.phase = .stopping loop) :
      Move s .died (s.enter .failed)

/-- A sequence of moves, and what happens in them. -/
inductive Trace : Scheduler → List Deed → Scheduler → Prop
  | nil (s : Scheduler) : Trace s [] s
  | cons {s t u : Scheduler} {deed : Deed} {deeds : List Deed} (head : Move s deed t)
      (tail : Trace t deeds u) : Trace s (deed :: deeds) u

variable {s t u : Scheduler} {q r : Queue} {deed : Deed} {deeds others : List Deed}
  {now limit : Instant} {log log' : List Firing}

theorem Trace.append (h : Trace s deeds t) (h' : Trace t others u) : Trace s (deeds ++ others) u := by
  induction h with
  | nil => exact h'
  | cons head _ ih => exact .cons head (ih h')

/-- A trace can be interrupted anywhere. -/
theorem Trace.split (h : Trace s (deeds ++ others) u) : ∃ t, Trace s deeds t ∧ Trace t others u := by
  induction deeds generalizing s with
  | nil => exact ⟨s, .nil s, h⟩
  | cons deed rest ih =>
    cases h with
    | cons head tail =>
      obtain ⟨t, hrest, hothers⟩ := ih tail
      exact ⟨t, .cons head hrest, hothers⟩

theorem Move.trace (h : Move s deed t) : Trace s [deed] t := .cons h (.nil t)

/-- Someone will handle commands if there is a queue. -/
theorem takesCommands_iff : s.takesCommands = true ↔ ∃ q, s.phase.queue? = some q := by
  obtain ⟨tuning, phase, pending⟩ := s
  cases phase with
  | running loop | stopping loop => cases loop <;> simp [takesCommands, Phase.queue?, Loop.queue?]
  | idle | failed | poisoned => simp [takesCommands, Phase.queue?]

/-- Whether the loop has died, and the queue with it. -/
def hasDied (s : Scheduler) : Bool :=
  match s.phase with
  | .running .dead | .stopping .dead | .failed => true
  | _ => false

theorem hasDied_iff :
    s.hasDied = true ↔ s.phase = .running .dead ∨ s.phase = .stopping .dead ∨ s.phase = .failed := by
  obtain ⟨tuning, phase, pending⟩ := s
  cases phase with
  | running loop | stopping loop => cases loop <;> simp [hasDied]
  | idle | failed | poisoned => simp [hasDied]

/-- Nobody will handle commands if the loop has died or the lock is poisoned. -/
theorem takesCommands_eq_false_iff :
    s.takesCommands = false ↔ s.hasDied = true ∨ s.isPoisoned = true := by
  obtain ⟨tuning, phase, pending⟩ := s
  cases phase with
  | running loop | stopping loop => cases loop <;> simp [takesCommands, hasDied, isPoisoned]
  | idle | failed | poisoned => simp [takesCommands, hasDied, isPoisoned]

/-- Unless the loop has died or the lock is poisoned, someone will handle commands. -/
theorem takesCommands_of_sound (hdied : s.hasDied = false) (hpoisoned : s.isPoisoned = false) :
    s.takesCommands = true := by
  refine Bool.of_not_eq_false fun hlost => ?_
  rw [takesCommands_eq_false_iff, hdied, hpoisoned] at hlost
  rcases hlost with h | h <;> cases h

/-- Whoever will handle commands can be sent some. -/
theorem channelOpen_of_takesCommands (h : s.takesCommands = true) : s.channelOpen = true := by
  obtain ⟨tuning, phase, pending⟩ := s
  cases phase with
  | poisoned => cases h
  | idle | running | stopping | failed => exact h

/-- No move brings a queue back. -/
theorem Move.takesCommands (h : Move s deed t) (ht : t.takesCommands = true) :
    s.takesCommands = true := by
  rw [takesCommands_iff] at ht ⊢
  cases h with
  | drain now h => rcases h with h | h <;> exact ⟨_, by rw [h]; rfl⟩
  | send => exact ht
  | start h | startUp now h | startUpToStop now h | obey now h | fire h => exact ⟨_, by rw [h]; rfl⟩
  | signalStop h =>
    rw [h]
    exact ht
  | poison | die | fail => exact absurd ht nofun

theorem Trace.takesCommands (h : Trace s deeds t) (ht : t.takesCommands = true) :
    s.takesCommands = true := by
  induction h with
  | nil => exact ht
  | cons head _ ih => exact head.takesCommands (ih ht)

/-- No move changes how the scheduler is set up. -/
theorem Move.tuning_eq (h : Move s deed t) : t.tuning = s.tuning := by cases h <;> rfl

theorem Trace.tuning_eq (h : Trace s deeds t) : t.tuning = s.tuning := by
  induction h with
  | nil => rfl
  | cons head _ ih => exact ih.trans head.tuning_eq

/-! ## What tasks do -/

/-- Tasks that run at an instant take the scheduler from one state to another. They fire what is
in the log. -/
def Tasks (now limit : Instant) (s : Scheduler) (log : List Firing) (t : Scheduler) : Prop :=
  ∃ deeds, Trace s deeds t ∧ (∀ deed ∈ deeds, deed.ByTasks now limit) ∧
    deeds.filterMap Deed.fired? = log

theorem Tasks.nil (s : Scheduler) : Tasks now limit s [] s := ⟨[], .nil s, by simp, rfl⟩

theorem Tasks.append (h : Tasks now limit s log t) (h' : Tasks now limit t log' u) :
    Tasks now limit s (log ++ log') u := by
  obtain ⟨deeds, htrace, hdeeds, rfl⟩ := h
  obtain ⟨others, htrace', hothers, rfl⟩ := h'
  refine ⟨deeds ++ others, htrace.append htrace', fun deed hdeed => ?_, List.filterMap_append⟩
  rcases List.mem_append.mp hdeed with hdeed | hdeed
  · exact hdeeds deed hdeed
  · exact hothers deed hdeed

/-- What tasks do up to a limit they do up to a later one. -/
theorem Tasks.mono {later : Instant} (h : Tasks now limit s log t) (hle : limit ≤ later) :
    Tasks now later s log t := by
  obtain ⟨deeds, htrace, hdeeds, hlog⟩ := h
  exact ⟨deeds, htrace, fun deed hdeed => (hdeeds deed hdeed).mono hle, hlog⟩

theorem Move.tasks (h : Move s deed t) (hdeed : deed.ByTasks now limit) :
    Tasks now limit s deed.fired?.toList t := by
  refine ⟨[deed], h.trace, by simpa using hdeed, ?_⟩
  cases hfired : deed.fired? <;> simp [hfired]

/-- A running loop may die. -/
theorem tasks_die {loop : Loop} (h : s.phase = .running loop) :
    Tasks now limit s [] (s.resume none) :=
  (Move.die h).tasks trivial

/-- A running loop starts up, unless it has. -/
theorem tasks_startUp {loop : Loop} (h : s.phase = .running loop)
    (hq : s.queueAfterStartUp? now loop = some q) :
    Tasks now limit s [] { s with phase := .running (.waiting q) } := by
  cases loop with
  | fresh r =>
    obtain rfl := Queue.attend?_eq_some hq
    exact (Move.startUp now h (Queue.seconds_nonneg_of_attend hq)).tasks rfl
  | waiting r =>
    obtain rfl := Option.some.inj hq
    rw [← h]
    exact .nil s
  | dead => cases hq

/-- A waiting loop without commands resumes as it was. -/
theorem resume_eq_self (h : s.phase = .running (.waiting q)) (hpending : s.pending = []) :
    s.resume (some q) = s := by
  cases s
  simp_all [resume, enter]

/-- A waiting loop handles all commands, or it dies on the way. -/
theorem tasks_obeyAll {commands : List Command} (h : s.phase = .running (.waiting q))
    (hpending : s.pending = commands) :
    Tasks now limit s [] (s.resume (q.obeyAll? s.tuning now commands)) := by
  induction commands generalizing s q with
  | nil =>
    rw [Queue.obeyAll?, List.foldlM_nil, Option.pure_def, resume_eq_self h hpending]
    exact .nil s
  | cons command rest ih =>
    rw [Queue.obeyAll?, List.foldlM_cons]
    cases hattend : (q.obey s.tuning now command).attend? s.tuning now with
    | none => exact tasks_die h
    | some r =>
      have hmove := Move.obey now h hpending (Queue.seconds_nonneg_of_attend hattend)
      obtain rfl := Queue.attend?_eq_some hattend
      exact (hmove.tasks rfl).append (ih rfl rfl)

/-- A loop with nothing to handle fires what is due at an instant, whatever the clock shows. -/
theorem trace_fireAt {tuning : Tuning} {due : Instant} (htuning : s.tuning = tuning)
    (h : s.phase = .running (.waiting q)) (hpending : s.pending = []) (clock : Instant) :
    Trace s
      ((q.fireAt tuning.zone tuning.horizon due).2.map fun id => Deed.fired ⟨id, due, clock⟩)
      (s.resume (some (q.fireAt tuning.zone tuning.horizon due).1)) := by
  fun_induction Queue.fireAt tuning.zone tuning.horizon due q generalizing s with
  | case1 q hnone =>
    rw [resume_eq_self h hpending]
    exact .nil s
  | case2 q e rest htake after fired heq ih =>
    subst htuning
    rw [heq] at ih
    exact .cons (.fire h hpending htake) (ih rfl rfl hpending)

/-- A loop with nothing to handle fires what is due at an instant. -/
theorem tasks_fireAt {tuning : Tuning} {due clock : Instant} (htuning : s.tuning = tuning)
    (h : s.phase = .running (.waiting q)) (hpending : s.pending = []) (hdue : due ≤ clock)
    (hclock : clock ≤ limit) :
    Tasks now limit s ((q.fireAt tuning.zone tuning.horizon due).2.map fun id => ⟨id, due, clock⟩)
      (s.resume (some (q.fireAt tuning.zone tuning.horizon due).1)) := by
  refine ⟨_, trace_fireAt htuning h hpending clock, fun deed hdeed => ?_, ?_⟩
  · obtain ⟨id, -, rfl⟩ := List.mem_map.mp hdeed
    exact ⟨hdue, hclock⟩
  · rw [List.filterMap_map]
    exact congrFun List.filterMap_eq_map' _

/-- A loop with nothing to handle fires what is due up to a limit. -/
theorem tasks_fireUpTo {tuning : Tuning} {clockAt : Instant → Instant} (htuning : s.tuning = tuning)
    (h : s.phase = .running (.waiting q)) (hpending : s.pending = [])
    (hclock : ∀ due, due ≤ limit → due ≤ clockAt due ∧ clockAt due ≤ limit) :
    Tasks now limit s (q.fireUpTo tuning limit clockAt).2
      (s.resume (q.fireUpTo tuning limit clockAt).1) := by
  fun_induction Queue.fireUpTo tuning limit clockAt q generalizing s with
  | case1 q hnone =>
    rw [resume_eq_self h hpending]
    exact .nil s
  | case2 q due hpeek hle after fired =>
    obtain ⟨hdue, hlimit⟩ := hclock due hle
    have hfire := @tasks_fireAt s q now limit tuning due (clockAt due) htuning h hpending hdue hlimit
    rw [← List.append_nil fired]
    exact hfire.append (tasks_die rfl)
  | case3 q due hpeek hle after fired kept hattend rest =>
    rename_i ih
    obtain ⟨hdue, hlimit⟩ := hclock due hle
    have hfire := @tasks_fireAt s q now limit tuning due (clockAt due) htuning h hpending hdue hlimit
    exact hfire.append (ih htuning rfl rfl)
  | case4 q due hpeek hle =>
    rw [resume_eq_self h hpending]
    exact .nil s

/-! ## Settling -/

/-- To be woken makes a loop look at the clock once more, after all other commands. -/
theorem settle_eq (s : Scheduler) (now : Instant) :
    s.settle now =
      match s.phase with
      | .running loop =>
        let ready := do
          let q ← s.queueAfterStartUp? now loop
          let q ← q.obeyAll? s.tuning now s.pending
          q.attend? s.tuning now
        match ready with
        | none => (s.resume none, [])
        | some q =>
          let (left, fired) := q.fireUpTo s.tuning now fun _ => now
          (s.resume left, fired)
      | _ => (s, []) := by
  obtain ⟨tuning, phase, pending⟩ := s
  cases phase with
  | idle | stopping | failed | poisoned => rfl
  | running loop =>
    let s : Scheduler := ⟨tuning, .running loop, pending⟩
    have hawake : s.wake.isWaiting = false := by
      cases loop <;> simp [s, wake, isWaiting]
    have hobey (q : Queue) : q.obeyAll? tuning now (pending ++ [.list]) =
        (q.obeyAll? tuning now pending).bind fun q => q.attend? tuning now := by
      simp [Queue.obeyAll?, Queue.obey]
    have hready : (s.wake.queueAfterStartUp? now loop).bind
          (fun q => q.obeyAll? tuning now (pending ++ [.list])) =
        (s.queueAfterStartUp? now loop).bind fun q =>
          (q.obeyAll? tuning now pending).bind fun q => q.attend? tuning now := by
      simp only [hobey]
      rfl
    have hresume (left : Option Queue) : s.wake.resume left = s.resume left := by
      cases left <;> rfl
    change s.wake.run now = _
    unfold run
    rw [hawake]
    change (match (s.wake.queueAfterStartUp? now loop).bind
      (fun q => q.obeyAll? tuning now (pending ++ [.list])) with
      | none => (s.wake.resume none, [])
      | some q => _) = _
    rw [hready]
    simp only [hresume]
    rfl

/-- A running loop has started up and handled all commands, and waits for something later. -/
def Settled (now : Instant) (s : Scheduler) : Prop :=
  match s.phase with
  | .running (.fresh _) => False
  | .running (.waiting q) => s.pending = [] ∧ q.QuietUpTo now
  | _ => True

theorem Settled.of_waiting (h : s.Settled now) (hphase : s.phase = .running (.waiting q)) :
    s.pending = [] ∧ q.QuietUpTo now := by
  rw [Settled, hphase] at h
  exact h

theorem settled_of_not_running (h : ∀ loop, s.phase ≠ .running loop) : s.Settled now := by
  unfold Settled
  split
  next hphase => exact absurd hphase (h _)
  next hphase => exact absurd hphase (h _)
  next => trivial

/-- A loop that resumes after firing up to a limit has settled there. -/
theorem settled_resume_fireUpTo {tuning : Tuning} {clockAt : Instant → Instant} :
    (s.resume (q.fireUpTo tuning limit clockAt).1).Settled limit := by
  cases hleft : (q.fireUpTo tuning limit clockAt).1 with
  | none => trivial
  | some r => exact ⟨rfl, Queue.quietUpTo_of_fireUpTo hleft⟩

/-- A loop that is told to settle settles. -/
theorem settled_settle (s : Scheduler) (now : Instant) : (s.settle now).1.Settled now := by
  rw [settle_eq]
  split
  · simp only
    split
    · trivial
    · exact settled_resume_fireUpTo
  next hphase => exact settled_of_not_running hphase

/-- Up to its wait, a running loop starts up and handles all commands. -/
theorem tasks_obeyed {loop : Loop} (h : s.phase = .running loop)
    (hq : (s.queueAfterStartUp? now loop).bind (fun q => q.obeyAll? s.tuning now s.pending) =
      some r) :
    Tasks now limit s [] (s.resume (some r)) := by
  obtain ⟨q, hstart, hobey⟩ := Option.bind_eq_some_iff.mp hq
  have htail := @tasks_obeyAll { s with phase := .running (.waiting q) } q now limit s.pending rfl rfl
  rw [hobey] at htail
  exact (tasks_startUp h hstart).append htail

/-- A loop settles by tasks that run at that instant. -/
theorem tasks_settle (s : Scheduler) (now : Instant) :
    Tasks now now s (s.settle now).2 (s.settle now).1 := by
  rw [settle_eq]
  split
  next loop hphase =>
    simp only
    split
    next => exact tasks_die hphase
    next q hready =>
      simp only [Option.bind_eq_bind, Option.bind_eq_some_iff] at hready
      obtain ⟨q₁, hstart, q₂, hobey, hattend⟩ := hready
      obtain rfl := Queue.attend?_eq_some hattend
      have hobeyed := @tasks_obeyed s q now now loop hphase
        (Option.bind_eq_some_iff.mpr ⟨q₁, hstart, hobey⟩)
      refine hobeyed.append (tasks_fireUpTo rfl rfl rfl fun due hle => ⟨hle, Instant.le_refl now⟩)
  next => exact .nil s

/-- A waiting loop without commands fires what is due, if it can wait once more. -/
theorem settle_of_waiting (hphase : s.phase = .running (.waiting q)) (hpending : s.pending = [])
    (now : Instant) :
    s.settle now =
      match q.attend? s.tuning now with
      | none => (s.resume none, [])
      | some _ =>
        (s.resume (q.fireUpTo s.tuning now fun _ => now).1,
          (q.fireUpTo s.tuning now fun _ => now).2) := by
  rw [settle_eq]
  rw [hphase]
  simp only [queueAfterStartUp?, hpending, Queue.obeyAll?, List.foldlM_nil, Option.pure_def,
    Option.bind_eq_bind, Option.bind_some]
  cases hattend : q.attend? s.tuning now with
  | none => rfl
  | some r =>
    obtain rfl := Queue.attend?_eq_some hattend
    rfl

/-- A loop that has settled does nothing but die, whatever the time is taken to be. -/
theorem tasks_settle_of_settled {other : Instant} (h : s.Settled now) :
    Tasks other limit s (s.settle now).2 (s.settle now).1 := by
  rw [settle_eq]
  split
  next loop hphase =>
    simp only
    split
    next => exact tasks_die hphase
    next q hready =>
      cases loop with
      | fresh r =>
        rw [Settled, hphase] at h
        exact h.elim
      | dead => cases hready
      | waiting r =>
        obtain ⟨hpending, hquiet⟩ := h.of_waiting hphase
        simp only [queueAfterStartUp?, hpending, Queue.obeyAll?, List.foldlM_nil, Option.pure_def,
          Option.bind_eq_bind, Option.bind_some] at hready
        obtain rfl := Queue.attend?_eq_some hready
        rw [hquiet.fireUpTo_eq, resume_eq_self hphase hpending]
        exact .nil s
  next => exact .nil s

theorem tuning_settle (s : Scheduler) (now : Instant) : (s.settle now).1.tuning = s.tuning := by
  obtain ⟨deeds, htrace, -⟩ := s.tasks_settle now
  exact htrace.tuning_eq

/-- Time goes by in a loop that has nothing to handle, so there is nothing to do at any other time. -/
theorem tasks_passTime (other : Instant) (h : s.Settled now) (later : Instant) :
    Tasks other later s (s.passTime later).2 (s.passTime later).1 := by
  unfold passTime
  split
  next q hphase =>
    exact tasks_fireUpTo rfl hphase (h.of_waiting hphase).1 fun due hle => ⟨Instant.le_refl due, hle⟩
  next => exact .nil s

theorem settled_passTime (h : s.Settled now) (later : Instant) :
    (s.passTime later).1.Settled later := by
  unfold passTime
  split
  next => exact settled_resume_fireUpTo
  next hphase =>
    unfold Settled at h ⊢
    split
    next heq =>
      rw [heq] at h
      exact h
    next heq => exact absurd heq (hphase _)
    next => trivial

/-! ## Stopping and listing -/

/-- A scheduler becomes idle unless it has to add an entry before 1970. -/
theorem goIdle_eq (s : Scheduler) (channelOpen : Bool) (now : Instant) (q : Queue) :
    s.goIdle channelOpen now q =
      if s.pending.any Command.isAdd = true ∧ now.seconds < 0 then s.enter (.poisoned channelOpen)
      else s.enter (.idle (q.drain s.tuning now s.pending)) := by
  unfold goIdle
  rw [Queue.drain?_eq]
  by_cases h : s.pending.any Command.isAdd = true ∧ now.seconds < 0
  · rw [if_pos h, if_pos h]
  · rw [if_neg h, if_neg h]

/-- A scheduler either becomes idle and has handled all commands, or breaks down over them. -/
theorem goIdle_cases (s : Scheduler) (channelOpen : Bool) (now : Instant) (q : Queue) :
    s.goIdle channelOpen now q = s.enter (.idle (q.drain s.tuning now s.pending)) ∨
      now.seconds < 0 ∧ s.pending.any Command.isAdd = true ∧
        s.goIdle channelOpen now q = s.enter (.poisoned channelOpen) := by
  rw [goIdle_eq]
  split
  next hbreaks => exact .inr ⟨hbreaks.2, hbreaks.1, rfl⟩
  next => exact .inl rfl

theorem goIdle_phase_ne (s : Scheduler) (channelOpen : Bool) (now : Instant) (q : Queue)
    (loop : Loop) : (s.goIdle channelOpen now q).phase ≠ .running loop := by
  rcases s.goIdle_cases channelOpen now q with h | ⟨-, -, h⟩ <;> rw [h] <;> nofun

theorem pending_goIdle (s : Scheduler) (channelOpen : Bool) (now : Instant) (q : Queue) :
    (s.goIdle channelOpen now q).pending = [] := by
  rcases s.goIdle_cases channelOpen now q with h | ⟨-, -, h⟩ <;> rw [h] <;> rfl

theorem exists_add_of_any (h : s.pending.any Command.isAdd = true) : ∃ e, .add e ∈ s.pending := by
  obtain ⟨command, hmem, hadd⟩ := List.any_eq_true.mp h
  cases command with
  | add e => exact ⟨e, hmem⟩
  | remove | list => cases hadd

/-- A scheduler that has the queue handles what is waiting, or breaks down over it. -/
theorem tasks_goIdle (h : s.phase = .idle q ∨ s.phase = .stopping (.waiting q))
    (channelOpen : Bool) : Tasks now limit s [] (s.goIdle channelOpen now q) := by
  rcases s.goIdle_cases channelOpen now q with hidle | ⟨hnow, hadd, hbroken⟩
  · rw [hidle]
    exact (Move.drain now h).tasks rfl
  · rw [hbroken]
    exact (Move.poison now channelOpen h hnow (exists_add_of_any hadd)).tasks rfl

/-- A signalled stop is completed by tasks. -/
theorem tasks_finishStop (s : Scheduler) (now : Instant) :
    Tasks now limit s [] (s.finishStop now) := by
  unfold finishStop
  split
  next loop hphase =>
    split
    next q hq =>
      cases loop with
      | fresh r =>
        have hstart := Move.startUpToStop now hphase (Queue.seconds_nonneg_of_attend hq)
        obtain rfl := Queue.attend?_eq_some hq
        exact (hstart.tasks rfl).append (tasks_goIdle (.inr rfl) false)
      | waiting r =>
        obtain rfl := Option.some.inj hq
        exact tasks_goIdle (.inr hphase) false
      | dead => cases hq
    next => exact (Move.fail hphase).tasks trivial
  next => exact .nil s

/-- Running all tasks. -/
theorem tasks_runTasks (s : Scheduler) (now : Instant) :
    Tasks now now s (s.runTasks now).2 (s.runTasks now).1 :=
  (tasks_finishStop s now).append (tasks_settle _ now)

/-- A stop that is waited for is a stop that is signalled and then completed. -/
theorem stop_fst (s : Scheduler) (now : Instant) :
    (s.stop true now).1 = s.signalStop.finishStop now := by
  simp only [stop, if_true]
  split <;> rfl

/-- An idle scheduler handles what is waiting before it lists its entries. -/
theorem entries_fst_of_idle (h : s.phase = .idle q) (now : Instant) :
    (s.entries now).1 = s.goIdle true now q := by
  simp only [entries, h]
  split <;> rfl

/-- A scheduler that is stopping completes that before it lists its entries. -/
theorem entries_fst_of_stopping (h : s.isStopping = true) (hloop : s.phase ≠ .stopping .dead)
    (now : Instant) : (s.entries now).1 = s.finishStop now := by
  obtain ⟨tuning, phase, pending⟩ := s
  cases phase with
  | idle | running | failed | poisoned => cases h
  | stopping loop =>
    cases loop with
    | dead => exact absurd rfl hloop
    | fresh | waiting =>
      simp only [entries]
      split <;> rfl

/-- A running loop that has handled all commands and the request for its entries looks at the clock. -/
theorem tasks_answered {loop : Loop} (h : s.phase = .running loop)
    (hq : (s.queueAfterStartUp? now loop).bind (fun q => q.obeyAll? s.tuning now s.pending) =
      some r) :
    Tasks now limit s [] (s.resume (r.attend? s.tuning now)) := by
  cases hattend : r.attend? s.tuning now with
  | none => exact tasks_die h
  | some q =>
    obtain rfl := Queue.attend?_eq_some hattend
    exact tasks_obeyed h hq

/-- The entries are listed after tasks have run. -/
theorem tasks_entries (s : Scheduler) (now : Instant) :
    Tasks now limit s [] (s.entries now).1 := by
  unfold entries
  split
  next q hphase =>
    simp only
    split <;> exact tasks_goIdle (.inl hphase) true
  next => exact .nil s
  next => exact .nil s
  next loop _ hphase =>
    split
    next r hr => exact tasks_answered hphase hr
    next => exact tasks_die hphase
  next =>
    simp only
    split
    next => exact tasks_finishStop s now
    next => exact tasks_finishStop s now
  next => exact .nil s
  next => exact .nil s

/-- What is listed is in the queue when tasks have handled all commands. The loop may die of the look at
the clock that it takes after the answer. -/
theorem exists_tasks_of_listed {l : List Entry} (h : (s.entries now).2 = .ok l) :
    ∃ t q, Tasks now limit s [] t ∧ t.phase.queue? = some q ∧ t.pending = [] ∧ q.fireOrder = l := by
  unfold entries at h
  split at h
  next q hphase =>
    have htasks := @tasks_goIdle s q now limit (.inl hphase) true
    simp only at h
    split at h
    next r hdone =>
      exact ⟨_, r, htasks, by rw [hdone]; rfl, s.pending_goIdle true now q, Except.ok.inj h⟩
    next => cases h
  next => cases h
  next => cases h
  next loop _ hphase =>
    split at h
    next r hr => exact ⟨_, r, tasks_obeyed hphase hr, rfl, rfl, Except.ok.inj h⟩
    next => cases h
  next loop _ hphase =>
    have htasks := @tasks_finishStop limit s now
    simp only at h
    split at h
    next r hdone =>
      refine ⟨_, r, htasks, by rw [hdone]; rfl, ?_, Except.ok.inj h⟩
      unfold finishStop at hdone ⊢
      rw [hphase] at hdone ⊢
      simp only at hdone ⊢
      split
      · exact s.pending_goIdle false now _
      · rfl
    next => cases h
  next => cases h
  next => cases h

/-! ## Handling commands -/

theorem pending_resume (s : Scheduler) (left : Option Queue) : (s.resume left).pending = [] := by
  unfold resume
  split <;> rfl

/-- A loop that is told to settle handles all commands, if it is running. -/
theorem pending_settle (s : Scheduler) (now : Instant) :
    (s.settle now).1.pending = [] ∨ (s.settle now).1 = s := by
  rw [settle_eq]
  split
  · simp only
    split
    · exact .inl rfl
    · exact .inl (pending_resume _ _)
  · exact .inr rfl

theorem finishStop_of_not_stopping (h : s.isStopping = false) (now : Instant) :
    s.finishStop now = s := by
  obtain ⟨tuning, phase, pending⟩ := s
  cases phase with
  | stopping loop => cases h
  | idle | running | failed | poisoned => rfl

/-- No stop leaves a running loop behind. -/
theorem finishStop_eq_self {loop : Loop} {now : Instant}
    (h : (s.finishStop now).phase = .running loop) : s.finishStop now = s := by
  unfold finishStop at h ⊢
  split
  next hphase =>
    rw [hphase] at h
    simp only at h
    split at h
    next q _ => exact absurd h (s.goIdle_phase_ne false now q loop)
    next => cases h
  next => rfl

theorem signalStop_phase_ne (s : Scheduler) (loop : Loop) : s.signalStop.phase ≠ .running loop := by
  unfold signalStop
  split
  · nofun
  next h => exact h loop

/-- A loop that waits afterwards has waited with the same queue before. -/
def Unattended (s t : Scheduler) : Prop :=
  ∀ q, t.phase = .running (.waiting q) → s.phase = .running (.waiting q)

/-- Running all tasks handles all commands, if there is a running loop. -/
theorem pending_runTasks (s : Scheduler) (now : Instant) :
    (s.runTasks now).1.pending = [] ∨ Unattended s (s.runTasks now).1 := by
  rcases pending_settle (s.finishStop now) now with h | h
  · exact .inl h
  · refine .inr fun q hq => ?_
    rw [runTasks, h] at hq
    rwa [← finishStop_eq_self hq]

end Scheduler

end Cron
