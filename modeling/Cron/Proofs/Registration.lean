import Cron.Proofs.Breakdown
import Cron.Proofs.FireOrder

/-!
# Registrations

An entry is registered once its `add` has succeeded, until a `remove` names it. A command may wait
for long, and it may be the loop that handles it, the end of the loop, or the idle scheduler; in the
meantime the queue may change hands many times. What is registered does not depend on any of this:
it is what the queue holds, changed by the commands that are waiting (`Scheduler.registered?`). No
move changes it but for its order, except that a command is sent or the queue is lost.

On the outside, what is registered can be read off the calls and their replies
(`Session.registered`), and the entries that are listed are those that are registered.

Headlines:
* `Trace.registered`: moves only register and remove what is sent;
* `mem_registered_iff`: what is registered was added and not removed since;
* `listing_perm_registered`: whatever happened before, the entries that are listed are those
  registered, each once if no name was used twice.
-/

namespace Cron

/-- What an entry is registered as. -/
structure Registration where
  id : EntryId
  /-- The text of its schedule. -/
  text : String
deriving DecidableEq

def Entry.registration (e : Entry) : Registration := ⟨e.id, e.schedule.text⟩

/-- The registrations after a command. -/
def Command.record (l : List Registration) : Command → List Registration
  | .add e => l ++ [e.registration]
  | .remove id => l.filter fun r => r.id ≠ id
  | .list => l

theorem Command.record_perm {l l' : List Registration} (h : l.Perm l') (command : Command) :
    (command.record l).Perm (command.record l') := by
  cases command with
  | add e => exact h.append_right _
  | remove id => exact h.filter _
  | list => exact h

theorem Command.foldl_record_perm {l l' : List Registration} (h : l.Perm l')
    (commands : List Command) :
    (commands.foldl Command.record l).Perm (commands.foldl Command.record l') := by
  induction commands generalizing l l' with
  | nil => exact h
  | cons command rest ih => exact ih (record_perm h command)

namespace Queue

variable {q rest : Queue} {tuning : Tuning} {now due : Instant} {e : Entry}

/-- What the entries of a queue are registered as. -/
def registrations (q : Queue) : List Registration := q.entries.map Entry.registration

theorem registrations_reschedule (z : Zone) (horizon : Int) (since : Instant) (q : Queue) :
    (q.reschedule z horizon since).registrations = q.registrations := by
  unfold registrations reschedule
  rw [List.map_map]
  rfl

theorem registrations_obey (q : Queue) (command : Command) :
    (q.obey tuning now command).registrations = command.record q.registrations := by
  cases command with
  | add e =>
    unfold registrations obey push
    rw [List.map_append]
    rfl
  | remove id =>
    simp only [registrations, obey, erase, Command.record]
    rw [List.filter_map]
    rfl
  | list => rfl

theorem registrations_drain (q : Queue) (commands : List Command) :
    (q.drain tuning now commands).registrations =
      commands.foldl Command.record q.registrations := by
  unfold drain
  induction commands generalizing q with
  | nil => rfl
  | cons command commands ih => rw [List.foldl_cons, List.foldl_cons, ih, registrations_obey]

/-- An entry that fires is put in again at the end. -/
theorem registrations_fire_perm {z : Zone} {horizon : Int}
    (h : q.takeDue? due = some (e, rest)) :
    (rest.push (e.fire z horizon due)).registrations.Perm q.registrations := by
  obtain ⟨-, -, before, behind, hentries, hrest, -⟩ := of_takeDue h
  have hfire : (e.fire z horizon due).registration = e.registration := rfl
  unfold registrations push
  rw [hentries, hrest, List.map_append, List.map_append, List.map_append, List.map_cons,
    List.map_cons, List.map_nil, hfire]
  exact (List.perm_append_singleton _ _).trans List.perm_middle.symm

end Queue

namespace Scheduler

variable {s t : Scheduler} {deed : Deed} {deeds : List Deed} {l : List Registration}

/-- What is registered once all commands have been handled. -/
def registered? (s : Scheduler) : Option (List Registration) :=
  s.phase.queue?.map fun q => s.pending.foldl Command.record q.registrations

theorem registered?_eq_some_iff :
    s.registered? = some l ↔
      ∃ q, s.phase.queue? = some q ∧ s.pending.foldl Command.record q.registrations = l :=
  Option.map_eq_some_iff

/-- A move registers and removes what is sent, and nothing else. -/
theorem Move.registered (h : Move s deed t) (ht : t.registered? = some l) :
    ∃ before, s.registered? = some before ∧
      l.Perm (deed.sent?.toList.foldl Command.record before) := by
  simp only [registered?_eq_some_iff] at ht ⊢
  obtain ⟨q, hq, rfl⟩ := ht
  cases h with
  | send command htakes =>
    refine ⟨_, ⟨q, hq, rfl⟩, ?_⟩
    rw [List.foldl_append]
    exact .refl _
  | start h =>
    cases hq
    exact ⟨_, ⟨q, by rw [h]; rfl, rfl⟩, .refl _⟩
  | signalStop h => exact ⟨_, ⟨q, by rw [h]; exact hq, rfl⟩, .refl _⟩
  | startUp now h =>
    cases hq
    rw [Queue.registrations_reschedule]
    exact ⟨_, ⟨_, by rw [h]; rfl, rfl⟩, .refl _⟩
  | startUpToStop now h =>
    cases hq
    rw [Queue.registrations_reschedule]
    exact ⟨_, ⟨_, by rw [h]; rfl, rfl⟩, .refl _⟩
  | obey now h hpending =>
    cases hq
    rw [Queue.registrations_obey, hpending]
    exact ⟨_, ⟨_, by rw [h]; rfl, rfl⟩, .refl _⟩
  | fire h hpending htake =>
    cases hq
    refine ⟨_, ⟨_, by rw [h]; rfl, rfl⟩, ?_⟩
    exact Command.foldl_record_perm (Queue.registrations_fire_perm htake) _
  | drain now h =>
    cases hq
    rename_i q
    have hheld : s.phase.queue? = some q := by
      rcases h with h | h
      · rw [h]
        rfl
      · rw [h]
        rfl
    rw [Queue.registrations_drain]
    exact ⟨_, ⟨q, hheld, rfl⟩, .refl _⟩
  | poison | die | fail => cases hq

/-- Moves register and remove what is sent, and nothing else. -/
theorem Trace.registered (h : Trace s deeds t) (ht : t.registered? = some l) :
    ∃ before, s.registered? = some before ∧
      l.Perm ((deeds.filterMap Deed.sent?).foldl Command.record before) := by
  induction h generalizing l with
  | nil s => exact ⟨l, ht, .refl l⟩
  | @cons s t u deed deeds head tail ih =>
    obtain ⟨middle, hmiddle, hperm⟩ := ih ht
    obtain ⟨before, hbefore, hperm'⟩ := head.registered hmiddle
    refine ⟨before, hbefore, hperm.trans ?_⟩
    rw [filterMap_cons_eq_append, List.foldl_append]
    exact Command.foldl_record_perm hperm' _

end Scheduler

/-! ## Listing -/

namespace Scheduler

/-- If the loop is alive after entries have been listed, no command is waiting any more, and the
whole queue is listed. -/
theorem entries_spec (s : Scheduler) (now : Instant)
    (h : (s.entries now).1.takesCommands = true) :
    ∃ q : Queue, (s.entries now).1.registered? = some q.registrations ∧
      (s.entries now).2 = .ok q.fireOrder := by
  unfold entries at h ⊢
  split at h
  next q _ =>
    rcases s.goIdle_cases true now q with hidle | ⟨-, -, hbroken⟩
    · exact ⟨_, by rw [hidle]; rfl, by rw [hidle]; rfl⟩
    · rw [hbroken] at h
      cases h
  next hphase =>
    rw [takesCommands, hphase] at h
    cases h
  next hphase =>
    rw [takesCommands, hphase] at h
    cases h
  next =>
    split at h
    next q hq =>
      cases hattend : q.attend? s.tuning now with
      | some r =>
        obtain rfl := Queue.attend?_eq_some hattend
        exact ⟨r, rfl, rfl⟩
      | none =>
        simp only [hattend] at h
        cases h
    next => cases h
  next loop _ hphase =>
    unfold finishStop at h ⊢
    rw [hphase] at h ⊢
    simp only at h ⊢
    cases hq : s.queueAfterStartUp? now loop with
    | some q =>
      rw [hq] at h
      simp only at h ⊢
      rcases s.goIdle_cases false now q with hidle | ⟨-, -, hbroken⟩
      · exact ⟨_, by rw [hidle]; rfl, by rw [hidle]; rfl⟩
      · rw [hbroken] at h
        cases h
    | none =>
      rw [hq] at h
      cases h
  next hphase =>
    rw [takesCommands, hphase] at h
    cases h
  next hphase =>
    rw [takesCommands, hphase] at h
    cases h

end Scheduler

/-! ## Calls and their replies -/

/-- The text of a schedule is the pattern, trimmed. -/
theorem Schedule.text_of_compile {pattern : String} {schedule : Schedule}
    (h : compile pattern = .ok schedule) : schedule.text = String.ofList (Text.trim pattern.toList) := by
  simp only [compile, bind, Except.bind] at h
  split at h
  · cases h
  · split at h
    · cases h
    · cases h
      rfl

namespace Session

variable {session : Session} {x : Step} {steps : List Step} {l l' : List Registration}
  {r : Registration} {history : List (Call × Except SchedulerError Reply)}

/-- The registrations after a call and its reply. -/
def noted (l : List Registration) : Call × Except SchedulerError Reply → List Registration
  | (.add id pattern, .ok _) => l ++ [⟨id, String.ofList (Text.trim pattern.toList)⟩]
  | (.remove id, _) => l.filter fun r => r.id ≠ id
  | _ => l

/-- What is registered after some calls, in the order in which it was added. -/
def registered (history : List (Call × Except SchedulerError Reply)) : List Registration :=
  history.foldl noted []

theorem noted_perm (h : l.Perm l') (event : Call × Except SchedulerError Reply) :
    (noted l event).Perm (noted l' event) := by
  unfold noted
  split
  · exact h.append_right _
  · exact h.filter _
  · exact h

theorem foldl_noted_perm (h : l.Perm l') (history : List (Call × Except SchedulerError Reply)) :
    (history.foldl noted l).Perm (history.foldl noted l') := by
  induction history generalizing l l' with
  | nil => exact h
  | cons event rest ih => exact ih (noted_perm h event)

theorem mem_noted_iff {event : Call × Except SchedulerError Reply} :
    r ∈ noted l event ↔
      (r ∈ l ∧ ∀ reply, event ≠ (.remove r.id, reply)) ∨
        ∃ pattern reply, event = (.add r.id pattern, .ok reply) ∧
          r.text = String.ofList (Text.trim pattern.toList) := by
  unfold noted
  split
  next id pattern reply =>
    simp only [List.mem_append, List.mem_singleton]
    constructor
    · rintro (hr | rfl)
      · exact .inl ⟨hr, nofun⟩
      · exact .inr ⟨pattern, reply, rfl, rfl⟩
    · rintro (⟨hr, -⟩ | ⟨pattern', reply', heq, htext⟩)
      · exact .inl hr
      · cases heq
        exact .inr (by rw [← htext])
  next id reply =>
    simp only [List.mem_filter, decide_eq_true_eq]
    constructor
    · rintro ⟨hr, hne⟩
      refine .inl ⟨hr, fun reply' heq => ?_⟩
      cases heq
      exact hne rfl
    · rintro (⟨hr, hne⟩ | ⟨pattern, reply', heq, -⟩)
      · exact ⟨hr, fun heq => hne reply (by rw [heq])⟩
      · cases heq
  next hadd hremove =>
    constructor
    · intro hr
      refine .inl ⟨hr, fun reply heq => ?_⟩
      exact hremove _ _ heq
    · rintro (⟨hr, -⟩ | ⟨pattern, reply, heq, -⟩)
      · exact hr
      · exact absurd heq (hadd _ _ _)

/-- What is registered was registered before or has been added, and has not been removed since. -/
theorem mem_foldl_noted_iff :
    r ∈ history.foldl noted l ↔
      (r ∈ l ∧ ∀ reply, (.remove r.id, reply) ∉ history) ∨
        ∃ before pattern reply after,
          history = before ++ (.add r.id pattern, .ok reply) :: after ∧
          r.text = String.ofList (Text.trim pattern.toList) ∧
          ∀ reply, (.remove r.id, reply) ∉ after := by
  induction history generalizing l with
  | nil =>
    simp only [List.foldl_nil, List.not_mem_nil, not_false_eq_true, implies_true, and_true]
    constructor
    · exact .inl
    · rintro (h | ⟨before, pattern, reply, after, heq, -⟩)
      · exact h
      · exact absurd heq.symm (by simp)
  | cons event rest ih =>
    rw [List.foldl_cons, ih, mem_noted_iff]
    constructor
    · rintro (⟨⟨hr, hne⟩ | ⟨pattern, reply, rfl, htext⟩, hrest⟩ |
        ⟨before, pattern, reply, after, rfl, htext, hafter⟩)
      · refine .inl ⟨hr, fun reply hmem => ?_⟩
        rcases List.mem_cons.mp hmem with heq | hmem
        · exact hne reply heq.symm
        · exact hrest reply hmem
      · exact .inr ⟨[], pattern, reply, rest, rfl, htext, hrest⟩
      · exact .inr ⟨event :: before, pattern, reply, after, rfl, htext, hafter⟩
    · rintro (⟨hr, hne⟩ | ⟨before, pattern, reply, after, heq, htext, hafter⟩)
      · refine .inl ⟨.inl ⟨hr, fun reply heq => hne reply ?_⟩, fun reply hmem => hne reply ?_⟩
        · rw [heq]
          exact List.mem_cons_self
        · exact List.mem_cons_of_mem _ hmem
      · cases before with
        | nil =>
          obtain ⟨rfl, rfl⟩ := List.cons.inj heq
          exact .inl ⟨.inr ⟨pattern, reply, rfl, htext⟩, hafter⟩
        | cons first before =>
          obtain ⟨rfl, rfl⟩ := List.cons.inj heq
          exact .inr ⟨before, pattern, reply, after, rfl, htext, hafter⟩

/-- What is registered has been added, and has not been removed since. -/
theorem mem_registered_iff :
    r ∈ registered history ↔
      ∃ before pattern reply after,
        history = before ++ (.add r.id pattern, .ok reply) :: after ∧
        r.text = String.ofList (Text.trim pattern.toList) ∧
        ∀ reply, (.remove r.id, reply) ∉ after := by
  rw [registered, mem_foldl_noted_iff]
  simp only [List.not_mem_nil, false_and, false_or]

/-- If no name is given out twice, none is registered twice. -/
theorem nodup_foldl_noted (h : (l.map Registration.id ++ addedIds history).Nodup) :
    ((history.foldl noted l).map Registration.id).Nodup := by
  induction history generalizing l with
  | nil => simpa [addedIds] using h
  | cons event rest ih =>
    rw [List.foldl_cons]
    refine ih ?_
    unfold noted
    split
    next id pattern reply =>
      rw [List.map_append, List.append_assoc]
      exact h
    next id reply =>
      refine List.Nodup.sublist ?_ h
      exact (List.filter_sublist.map _).append (.refl _)
    next hadd hremove =>
      have hskip : addedIds (event :: rest) = addedIds rest := by
        unfold addedIds
        rw [List.filterMap_cons_none]
        unfold addedId?
        split
        next => exact absurd rfl (hadd _ _ _)
        next => rfl
      rwa [hskip] at h

/-! ## Runs -/

theorem reply_take (session : Session) (x : Step) :
    (session.take x).reply = (session.perform x.call).reply := by
  rcases session.take_cases x with htake | ⟨-, htake⟩ <;> rw [htake]

/-- What a call has sent is what its reply says. -/
theorem foldl_commands_take {before : List Registration}
    (hbefore : session.scheduler.registered? = some before) (x : Step) :
    (x.call.commands (session.take x).reply).foldl Command.record before =
      noted before (x.call, (session.take x).reply) := by
  rw [reply_take]
  have hopen : session.scheduler.channelOpen = true := by
    obtain ⟨q, hq, -⟩ := Scheduler.registered?_eq_some_iff.mp hbefore
    exact Scheduler.channelOpen_of_takesCommands (Scheduler.takesCommands_iff.mpr ⟨q, hq⟩)
  cases x.call with
  | add id pattern =>
    simp only [perform]
    cases hcompile : Schedule.compile pattern with
    | error e =>
      rw [Scheduler.add_eq_error _ hcompile]
      rfl
    | ok schedule =>
      rw [Scheduler.add_eq_send _ hcompile, Scheduler.send, if_pos hopen]
      simp only [attempt, Call.commands, hcompile, noted, ← Schedule.text_of_compile hcompile]
      rfl
  | remove id =>
    simp only [perform, Scheduler.remove, Scheduler.send, hopen, if_true]
    rfl
  | _ => rfl

/-- A step changes what is registered as its call and its reply say. -/
theorem registered_take (h : (session.take x).session.scheduler.registered? = some l) :
    ∃ before, session.scheduler.registered? = some before ∧
      l.Perm (noted before (x.call, (session.take x).reply)) := by
  obtain ⟨deeds, hcourse⟩ := session.exists_course x
  obtain ⟨before, hbefore, hperm⟩ := hcourse.trace.registered h
  rw [hcourse.sent_eq, foldl_commands_take hbefore x] at hperm
  exact ⟨before, hbefore, hperm⟩

/-- A run changes what is registered as its calls and their replies say. -/
theorem registered_after (h : (session.after steps).scheduler.registered? = some l) :
    ∃ before, session.scheduler.registered? = some before ∧
      l.Perm ((session.history steps).foldl noted before) := by
  induction steps generalizing session with
  | nil => exact ⟨l, h, .refl l⟩
  | cons x rest ih =>
    obtain ⟨middle, hmiddle, hperm⟩ := ih h
    obtain ⟨before, hbefore, hperm'⟩ := registered_take hmiddle
    exact ⟨before, hbefore, hperm.trans (foldl_noted_perm hperm' _)⟩

/-- **What is listed is what is registered.** Whatever calls went before, and whoever handled them:
unless the loop died, or one of the calls broke down, the entries are listed, they are those that have
been added and not removed since, and each is listed once if no name was given out twice. -/
theorem listing_perm_registered (tuning : Tuning) (clock : Instant) (steps : List Step)
    (settles : Bool) :
    let start := new tuning clock
    let session := start.after steps
    let history := start.history steps
    (session.perform .entries).session.scheduler.hasDied = false →
    start.Unbroken (steps ++ [⟨.entries, settles⟩]) →
      ∃ entries, (session.take ⟨.entries, settles⟩).reply = .ok (.listing entries) ∧
        (entries.map Entry.registration).Perm (registered history) ∧
        (∀ r, r ∈ entries.map Entry.registration ↔
          ∃ before pattern reply after,
            history = before ++ (.add r.id pattern, .ok reply) :: after ∧
            r.text = String.ofList (Text.trim pattern.toList) ∧
            ∀ reply, (.remove r.id, reply) ∉ after) ∧
        ((addedIds history).Nodup → (entries.map Entry.id).Nodup) := by
  intro start session history hdied hsound
  have halive : (session.perform .entries).session.scheduler.takesCommands = true := by
    obtain ⟨hsteps, hlisting⟩ := unbroken_append.mp hsound
    have hpoisoned := (unbroken_iff rfl).mp hsteps
    refine Scheduler.takesCommands_of_sound hdied (Bool.eq_false_iff.mpr fun hbroken => ?_)
    rw [isPoisoned_perform_iff, hpoisoned] at hbroken
    exact (unbroken_cons.mp hlisting).1 (hbroken.resolve_left Bool.false_ne_true)
  obtain ⟨q, hq, hreply⟩ := Scheduler.entries_spec session.scheduler session.clock halive
  have hentries : (session.take ⟨.entries, false⟩).session.scheduler.registered? =
      some q.registrations := hq
  obtain ⟨before, hbefore, hperm⟩ := registered_take hentries
  obtain ⟨first, hstart, hperm'⟩ := registered_after hbefore
  obtain rfl : [] = first := Option.some.inj hstart
  have hlisted : (q.fireOrder.map Entry.registration).Perm (registered history) :=
    (q.fireOrder_perm.map _).trans (hperm.trans hperm')
  refine ⟨q.fireOrder, ?_, hlisted, fun r => ?_, fun hnodup => ?_⟩
  · rw [reply_take]
    simp only [perform, hreply]
    rfl
  · rw [hlisted.mem_iff]
    exact mem_registered_iff
  · have hids : ((registered history).map Registration.id).Nodup := nodup_foldl_noted hnodup
    have := ((hlisted.map Registration.id).nodup_iff).mpr hids
    rwa [List.map_map] at this

/-- The loop is started and signalled to end before it has run once, and it is only the listing that
lets it end. What was sent before, in between and afterwards is handled then, in that order. -/
theorem listing_perm_registered_while_stopping :
    let start := new { zone := .utc, horizon := 5, idleSeconds := 86400 } (Instant.ofSeconds 0)
    let steps : List Step :=
      [⟨.add ⟨"a"⟩ "0 0 0 * * *", false⟩, ⟨.start true, false⟩, ⟨.add ⟨"b"⟩ "  */5 * * * * * ", false⟩,
        ⟨.stopWithoutWaiting, true⟩, ⟨.remove ⟨"a"⟩, true⟩]
    let session := start.after steps
    (session.perform .entries).session.scheduler.hasDied = false ∧
      start.Unbroken (steps ++ [⟨.entries, true⟩]) ∧
      ∃ entries, (session.take ⟨.entries, true⟩).reply = .ok (.listing entries) ∧
        entries.map Entry.registration = [⟨⟨"b"⟩, "*/5 * * * * *"⟩] := by
  intro start steps session
  have hdied : (session.perform .entries).session.scheduler.hasDied = false := by
    decide +kernel
  have hsound : start.Unbroken (steps ++ [⟨.entries, true⟩]) :=
    (unbroken_iff rfl).mpr (by decide +kernel)
  have hregistered : registered (start.history steps) = [⟨⟨"b"⟩, "*/5 * * * * *"⟩] := by
    decide +kernel
  obtain ⟨entries, hreply, hperm, -⟩ := listing_perm_registered
    { zone := .utc, horizon := 5, idleSeconds := 86400 } (Instant.ofSeconds 0) steps true hdied hsound
  refine ⟨hdied, hsound, entries, hreply, ?_⟩
  exact List.perm_singleton.mp (hregistered ▸ hperm)

/-- A second before 1970 an idle scheduler breaks down over an entry that has been added, instead of
listing it. No loop has died, and the entry cannot be listed at a later time either. -/
theorem no_listing_before_1970 :
    let start := new { zone := .utc, horizon := 5, idleSeconds := 86400 } (Instant.ofSeconds 0)
    let steps : List Step :=
      [⟨.add ⟨"a"⟩ "* * * * * *", true⟩, ⟨.setClock (Instant.ofSeconds (-1)), true⟩]
    let later := steps ++ [⟨.entries, true⟩, ⟨.setClock (Instant.ofSeconds 0), true⟩]
    (registered (start.history steps) = [⟨⟨"a"⟩, "* * * * * *"⟩] ∧
      ((start.after steps).perform .entries).session.scheduler.hasDied = false ∧
      ((start.after steps).perform .entries).reply.isOk = false) ∧
    registered (start.history later) = [⟨⟨"a"⟩, "* * * * * *"⟩] ∧
      ((start.after later).perform .entries).session.scheduler.hasDied = false ∧
      ((start.after later).perform .entries).reply.isOk = false := by
  decide +kernel

end Session

end Cron
