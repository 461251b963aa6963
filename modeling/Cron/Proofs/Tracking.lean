import Cron.Proofs.Moves
import Cron.Proofs.OccurrenceSequence

/-!
# Following an entry

Once a running loop has looked for the next occurrence of an entry, it fires the entry at one
occurrence after the other, each looked for from the one before. Neither the clock nor what happens
to other entries plays a part in that, as long as the entry is not removed and no stop is signalled.

This file follows one entry through the moves of a scheduler. `Scheduler.Tracks` is the invariant: a
loop waits with one entry of a name, and what has fired for it and what it is due at next are the
first occurrences after the instant at which it was scheduled. A name is used once, so no second
entry of that name turns up (`Scheduler.copies`).

Headlines:
* `Tracks.of_move`: what one move makes of an entry that is tracked;
* `Trace.tracks_of_scheduled`: an entry that is put before a loop is tracked from then on;
* `Trace.tracks_of_kept`: an entry that nobody removes stays tracked.
-/

namespace Cron

/-- Whether a command adds an entry of a name. -/
def Command.adds (id : EntryId) : Command → Bool
  | .add e => e.id = id
  | .remove _ | .list => false

/-- Whether a command adds or removes an entry of a name. -/
def Command.concerns (id : EntryId) : Command → Bool
  | .add e => e.id = id
  | .remove other => other = id
  | .list => false

namespace Queue

variable {q rest : Queue} {tuning : Tuning} {now due : Instant} {id : EntryId} {e f : Entry}

/-- The entries of a name. -/
def entriesOf (q : Queue) (id : EntryId) : List Entry := q.entries.filter fun e => e.id = id

theorem entriesOf_obey_add_self (h : e.id = id) :
    (q.obey tuning now (.add e)).entriesOf id =
      q.entriesOf id ++ [e.scheduledAfter tuning.zone tuning.horizon now] := by
  simp [entriesOf, obey, push, h]

theorem entriesOf_push_of_ne (h : e.id ≠ id) : (q.push e).entriesOf id = q.entriesOf id := by
  simp [entriesOf, push, h]

theorem entriesOf_erase_self (q : Queue) (id : EntryId) : (q.erase id).entriesOf id = [] := by
  unfold entriesOf erase
  rw [List.filter_filter, List.filter_eq_nil_iff]
  intro e _ h
  simp at h

theorem entriesOf_erase_of_ne {other : EntryId} (h : other ≠ id) :
    (q.erase other).entriesOf id = q.entriesOf id := by
  unfold entriesOf erase
  rw [List.filter_filter]
  refine List.filter_congr fun e _ => ?_
  by_cases he : e.id = id
  · simp [he, h.symm]
  · simp [he]

theorem entriesOf_reschedule (z : Zone) (horizon : Int) (since : Instant) (q : Queue) :
    (q.reschedule z horizon since).entriesOf id =
      (q.entriesOf id).map (Entry.scheduledAfter z horizon since) := by
  unfold entriesOf reschedule
  rw [List.filter_map]
  rfl

/-- A command that does not concern a name leaves its entries alone. -/
theorem entriesOf_obey_of_not_concerns {command : Command} (h : command.concerns id = false) :
    (q.obey tuning now command).entriesOf id = q.entriesOf id := by
  cases command with
  | add e => exact entriesOf_push_of_ne (of_decide_eq_false h)
  | remove other => exact entriesOf_erase_of_ne (of_decide_eq_false h)
  | list => rfl

/-- What is in the queue after a command was there before, or was put in and scheduled. -/
theorem mem_obey {command : Command} (h : e ∈ (q.obey tuning now command).entries) :
    e ∈ q.entries ∨
      ∃ f, command = .add f ∧ e = f.scheduledAfter tuning.zone tuning.horizon now := by
  cases command with
  | add f =>
    rcases List.mem_append.mp h with hmem | hmem
    · exact .inl hmem
    · exact .inr ⟨f, rfl, List.mem_singleton.mp hmem⟩
  | remove other => exact .inl (List.mem_filter.mp h).1
  | list => exact .inl h

theorem mem_drain {commands : List Command} (h : e ∈ (q.drain tuning now commands).entries) :
    e ∈ q.entries ∨
      ∃ f, .add f ∈ commands ∧ e = f.scheduledAfter tuning.zone tuning.horizon now := by
  induction commands generalizing q with
  | nil => exact .inl h
  | cons command rest ih =>
    rcases ih h with hmem | ⟨f, hf, rfl⟩
    · rcases mem_obey hmem with hmem | ⟨f, rfl, rfl⟩
      · exact .inl hmem
      · exact .inr ⟨f, List.mem_cons_self, rfl⟩
    · exact .inr ⟨f, List.mem_cons_of_mem command hf, rfl⟩

/-- What is in the queue after an entry fired was there before, or is that entry. -/
theorem mem_fire {z : Zone} {horizon : Int} (h : q.takeDue? due = some (e, rest))
    (hf : f ∈ (rest.push (e.fire z horizon due)).entries) :
    f ∈ q.entries ∨ f = e.fire z horizon due := by
  obtain ⟨-, -, before, behind, hentries, hrest, -⟩ := of_takeDue h
  rcases List.mem_append.mp hf with hf | hf
  · rw [hrest] at hf
    rw [hentries]
    rcases List.mem_append.mp hf with hf | hf
    · exact .inl (List.mem_append_left _ hf)
    · exact .inl (List.mem_append_right _ (List.mem_cons_of_mem e hf))
  · exact .inr (List.mem_singleton.mp hf)

/-- A command adds at most one entry. -/
theorem length_entriesOf_obey_le (command : Command) :
    ((q.obey tuning now command).entriesOf id).length ≤
      (q.entriesOf id).length + [command].countP (Command.adds id) := by
  cases command with
  | add e =>
    by_cases h : e.id = id
    · rw [entriesOf_obey_add_self h]
      simp [Command.adds, h]
    · have hnot : (Command.add e).concerns id = false := decide_eq_false h
      rw [entriesOf_obey_of_not_concerns hnot]
      omega
  | remove other =>
    by_cases h : other = id
    · subst h
      rw [obey, entriesOf_erase_self]
      exact Nat.zero_le _
    · have hnot : (Command.remove other).concerns id = false := decide_eq_false h
      rw [entriesOf_obey_of_not_concerns hnot]
      omega
  | list => exact Nat.le_add_right _ _

theorem length_entriesOf_drain_le (commands : List Command) :
    ((q.drain tuning now commands).entriesOf id).length ≤
      (q.entriesOf id).length + commands.countP (Command.adds id) := by
  induction commands generalizing q with
  | nil => exact Nat.le_refl _
  | cons command rest ih =>
    have hhead := @length_entriesOf_obey_le q tuning now id command
    have hrest := @ih (q.obey tuning now command)
    rw [← List.singleton_append, List.countP_append]
    change ((Queue.drain tuning now rest _).entriesOf id).length ≤ _
    omega

theorem length_entriesOf_fire {z : Zone} {horizon : Int} (h : q.takeDue? due = some (e, rest)) :
    ((rest.push (e.fire z horizon due)).entriesOf id).length = (q.entriesOf id).length := by
  obtain ⟨-, -, before, behind, hentries, hrest, -⟩ := of_takeDue h
  by_cases hid : e.id = id
  · simp [entriesOf, push, hentries, hrest, hid]
  · simp [entriesOf, push, hentries, hrest, hid]

/-- When an entry of another name fires, the entries of a name are left alone. -/
theorem entriesOf_fire_of_ne {z : Zone} {horizon : Int} (h : q.takeDue? due = some (e, rest))
    (hne : e.id ≠ id) : (rest.push (e.fire z horizon due)).entriesOf id = q.entriesOf id := by
  obtain ⟨-, -, before, behind, hentries, hrest, -⟩ := of_takeDue h
  rw [entriesOf_push_of_ne (by exact hne)]
  simp [entriesOf, hentries, hrest, hne]

/-- When the only entry of a name fires, it becomes the entry that has fired. -/
theorem entriesOf_fire_self {z : Zone} {horizon : Int} (h : q.takeDue? due = some (e, rest))
    (hid : e.id = id) (hsole : q.entriesOf id = [f]) :
    e = f ∧ f.next = some due ∧
      (rest.push (e.fire z horizon due)).entriesOf id = [e.fire z horizon due] := by
  obtain ⟨-, hnext, before, behind, hentries, hrest, -⟩ := of_takeDue h
  have hfilter : before.filter (fun e => e.id = id) ++ e :: behind.filter (fun e => e.id = id) =
      [f] := by
    rw [← hsole, entriesOf, hentries, List.filter_append, List.filter_cons_of_pos (by simp [hid])]
  obtain ⟨hbefore, heq⟩ | ⟨-, heq⟩ := List.append_eq_singleton_iff.mp hfilter
  · obtain ⟨rfl, hbehind⟩ := List.cons.inj heq
    refine ⟨rfl, hnext, ?_⟩
    simp [entriesOf, push, hrest, hbefore, hbehind, hid]
  · cases heq

end Queue

/-- The instants at which an entry of a name was due when it fired. -/
def duesOf (id : EntryId) (fired : List Firing) : List Instant :=
  (fired.filter fun firing => firing.id = id).map Firing.due

theorem duesOf_append (id : EntryId) (fired fired' : List Firing) :
    duesOf id (fired ++ fired') = duesOf id fired ++ duesOf id fired' := by
  unfold duesOf
  rw [List.filter_append, List.map_append]

/-- What a deed fires for an entry. -/
def Deed.duesOf (id : EntryId) (deed : Deed) : List Instant := Cron.duesOf id deed.fired?.toList

theorem duesOf_cons (id : EntryId) (deed : Deed) (deeds : List Deed) :
    duesOf id ((deed :: deeds).filterMap Deed.fired?) =
      deed.duesOf id ++ duesOf id (deeds.filterMap Deed.fired?) := by
  rw [filterMap_cons_eq_append, duesOf_append]
  rfl

/-- The loop loses an entry when it removes it, or dies. -/
def Deed.loses (id : EntryId) : Deed → Prop
  | .obeyed _ command => command = .remove id
  | .died => True
  | _ => False

namespace Scheduler

variable {s t u : Scheduler} {q : Queue} {deed : Deed} {deeds : List Deed} {id : EntryId}
  {schedule : Schedule} {since : Instant} {dues : List Instant} {e : Entry}

/-- How many entries of a name there are, in the queue or about to be put in. -/
def copies (s : Scheduler) (id : EntryId) : Nat :=
  (s.phase.queue?.map fun q => (q.entriesOf id).length).getD 0 + s.pending.countP (Command.adds id)

theorem copies_of_queue (h : s.phase.queue? = some q) :
    s.copies id = (q.entriesOf id).length + s.pending.countP (Command.adds id) := by
  unfold copies
  rw [h]
  rfl

/-- The entries that a running loop waits with. -/
def waiting (s : Scheduler) : List Entry :=
  match s.phase with
  | .running (.waiting q) => q.entries
  | _ => []

/-- A loop waits with one entry of a name. It has fired at the first occurrences of a schedule after
an instant, and is due at what is found next. -/
structure Tracks (id : EntryId) (schedule : Schedule) (since : Instant) (dues : List Instant)
    (s : Scheduler) (q : Queue) (e : Entry) : Prop where
  phase_eq : s.phase = .running (.waiting q)
  entriesOf_eq : q.entriesOf id = [e]
  schedule_eq : e.schedule = schedule
  traversed : schedule.Traversed s.tuning.zone s.tuning.horizon since dues e.next
  since_nonneg : 0 ≤ since.seconds

/-- Only what is sent makes for more entries of a name. -/
theorem Move.copies_le (h : Move s deed t) :
    t.copies id ≤ s.copies id + deed.sent?.toList.countP (Command.adds id) := by
  cases h with
  | send command htakes =>
    simp only [copies, List.countP_append, Deed.sent?, Option.toList_some]
    omega
  | start h | signalStop h =>
    unfold copies
    rw [h]
    exact Nat.le_refl _
  | startUp now h | startUpToStop now h =>
    rw [copies_of_queue rfl, copies_of_queue (by rw [h]; rfl), Queue.entriesOf_reschedule,
      List.length_map]
    exact Nat.le_refl _
  | @obey q command rest now h hpending =>
    have := @Queue.length_entriesOf_obey_le q s.tuning now id command
    rw [copies_of_queue rfl, copies_of_queue (by rw [h]; rfl), hpending, ← List.singleton_append,
      List.countP_append]
    dsimp only
    omega
  | fire h hpending htake =>
    rw [copies_of_queue rfl, copies_of_queue (by rw [h]; rfl), Queue.length_entriesOf_fire htake]
    exact Nat.le_refl _
  | @drain q now h =>
    have := @Queue.length_entriesOf_drain_le q s.tuning now id s.pending
    have hheld : s.phase.queue? = some q := by
      rcases h with h | h <;> rw [h] <;> rfl
    rw [copies_of_queue rfl, copies_of_queue hheld, enter, List.countP_nil]
    omega
  | poison | die | fail => exact Nat.zero_le _

theorem Trace.copies_le (h : Trace s deeds t) :
    t.copies id ≤ s.copies id + (deeds.filterMap Deed.sent?).countP (Command.adds id) := by
  induction h with
  | nil => exact Nat.le_add_right _ _
  | @cons s t u deed deeds head tail ih =>
    have := @Move.copies_le _ _ _ id head
    rw [filterMap_cons_eq_append, List.countP_append]
    omega

/-! ## Following an entry -/

/-- An entry of a name that a loop waits with is one of its copies. -/
theorem copies_pos_of_mem_waiting (h : e ∈ s.waiting) : 0 < s.copies e.id := by
  unfold waiting at h
  split at h
  next q hphase =>
    have hmem : e ∈ q.entriesOf e.id := List.mem_filter.mpr ⟨h, decide_eq_true rfl⟩
    have := List.length_pos_of_mem hmem
    rw [copies_of_queue (by rw [hphase]; rfl)]
    omega
  next => cases h

/-- What a move makes of an entry that is tracked. -/
theorem Tracks.of_move (h : s.Tracks id schedule since dues q e) (hmove : Move s deed t)
    (hstop : deed ≠ .stopSignalled)
    (hnew : ∀ now f, deed = .obeyed now (.add f) → f.id ≠ id) :
    (∃ r f, t.Tracks id schedule since (dues ++ deed.duesOf id) r f) ∨ deed.loses id := by
  obtain ⟨hphase, hentries, rfl, htraversed, hsince⟩ := h
  have hdeed : deed.fired? = none → deed.duesOf id = [] := fun hnone => by
    rw [Deed.duesOf, hnone]
    rfl
  cases hmove with
  | send command htakes =>
    rw [hdeed rfl, List.append_nil]
    exact .inl ⟨q, e, hphase, hentries, rfl, htraversed, hsince⟩
  | start h =>
    rw [hphase] at h
    cases h
  | signalStop h => exact absurd rfl hstop
  | startUp now h =>
    rw [hphase] at h
    cases h
  | startUpToStop now h =>
    rw [hphase] at h
    cases h
  | @obey _ command rest now h hpending =>
    rw [hphase] at h
    cases h
    by_cases hremove : command = .remove id
    · exact .inr hremove
    · have hnot : command.concerns id = false := by
        cases command with
        | add f => exact decide_eq_false (hnew now f rfl)
        | remove other => exact decide_eq_false fun heq => hremove (by rw [heq])
        | list => rfl
      rw [hdeed rfl, List.append_nil]
      refine .inl ⟨_, e, rfl, ?_, rfl, htraversed, hsince⟩
      rw [Queue.entriesOf_obey_of_not_concerns hnot, hentries]
  | @fire _ rest f due clock h hpending htake =>
    rw [hphase] at h
    cases h
    by_cases hid : f.id = id
    · obtain ⟨rfl, hnext, hfired⟩ := Queue.entriesOf_fire_self htake hid hentries
      have hdues : Deed.duesOf id (.fired ⟨f.id, due, clock⟩) = [due] := by
        simp [Deed.duesOf, duesOf, Deed.fired?, hid]
      rw [hdues]
      rw [hnext] at htraversed
      exact .inl ⟨_, _, rfl, hfired, rfl, htraversed.snoc, hsince⟩
    · have hdues : Deed.duesOf id (.fired ⟨f.id, due, clock⟩) = [] := by
        simp [Deed.duesOf, duesOf, Deed.fired?, hid]
      rw [hdues, List.append_nil]
      refine .inl ⟨_, e, rfl, ?_, rfl, htraversed, hsince⟩
      rw [Queue.entriesOf_fire_of_ne htake hid, hentries]
  | drain now h | poison now _ h =>
    rw [hphase] at h
    rcases h with h | h <;> cases h
  | die h => exact .inr trivial
  | fail h => exact .inr trivial

/-- No loop waits with an entry of a name. -/
def Free (id : EntryId) (s : Scheduler) : Prop := ∀ f ∈ s.waiting, f.id ≠ id

instance (id : EntryId) (s : Scheduler) : Decidable (s.Free id) :=
  inferInstanceAs (Decidable (∀ f ∈ s.waiting, f.id ≠ id))

theorem free_iff_of_waiting (h : s.phase = .running (.waiting q)) :
    s.Free id ↔ q.entriesOf id = [] := by
  unfold Free waiting Queue.entriesOf
  rw [h, List.filter_eq_nil_iff]
  simp only [decide_eq_true_eq]

theorem free_of_not_waiting (h : ∀ q, s.phase ≠ .running (.waiting q)) : s.Free id := by
  unfold Free waiting
  split
  next hphase => exact absurd hphase (h _)
  next => nofun

/-- If a loop waits with at most one entry of a name, and that was just scheduled, it is tracked. -/
theorem free_or_tracks (h : s.phase = .running (.waiting q)) (hcopies : s.copies id ≤ 1)
    (hsince : 0 ≤ since.seconds) (hnew : ∀ e ∈ q.entriesOf id,
      e.next = e.schedule.firstAfter? s.tuning.zone s.tuning.horizon since) :
    s.Free id ∨ ∃ r e, s.Tracks id e.schedule since [] r e := by
  have hlength : (q.entriesOf id).length ≤ 1 := by
    rw [copies_of_queue (by rw [h]; rfl)] at hcopies
    omega
  cases hentries : q.entriesOf id with
  | nil => exact .inl ((free_iff_of_waiting h).mpr hentries)
  | cons e others =>
    rw [hentries] at hlength hnew
    obtain rfl : others = [] := List.eq_nil_of_length_eq_zero (by simpa using hlength)
    exact .inr ⟨q, e, h, hentries, rfl, hnew e List.mem_cons_self, hsince⟩

/-- A move that schedules an entry makes it tracked from that instant on. -/
theorem Move.free_or_tracks {now limit : Instant} (h : Move s deed t) (hfree : s.Free id)
    (htimely : deed.isAsked = true ∨ deed.ByTasks now limit) (hcopies : t.copies id ≤ 1) :
    deed.duesOf id = [] ∧ (t.Free id ∨ ∃ q e, t.Tracks id e.schedule now [] q e) := by
  cases h with
  | send command htakes => exact ⟨rfl, .inl hfree⟩
  | start h => exact ⟨rfl, .inl (free_of_not_waiting nofun)⟩
  | signalStop h => exact ⟨rfl, .inl (free_of_not_waiting nofun)⟩
  | @startUp q other h hnow =>
    obtain rfl : other = now := htimely.resolve_left nofun
    refine ⟨rfl, Scheduler.free_or_tracks rfl hcopies hnow fun e he => ?_⟩
    rw [Queue.entriesOf_reschedule] at he
    obtain ⟨f, -, rfl⟩ := List.mem_map.mp he
    rfl
  | startUpToStop now h => exact ⟨rfl, .inl (free_of_not_waiting nofun)⟩
  | @obey q command rest other h hpending hnow =>
    obtain rfl : other = now := htimely.resolve_left nofun
    refine ⟨rfl, Scheduler.free_or_tracks rfl hcopies hnow fun e he => ?_⟩
    obtain ⟨hmem, hid⟩ := List.mem_filter.mp he
    rcases Queue.mem_obey hmem with hmem | ⟨f, -, rfl⟩
    · have hold : e ∈ q.entriesOf id := List.mem_filter.mpr ⟨hmem, hid⟩
      rw [(free_iff_of_waiting h).mp hfree] at hold
      cases hold
    · rfl
  | @fire q rest e due clock h hpending htake =>
    have hnone := (free_iff_of_waiting h).mp hfree
    have hne : e.id ≠ id := by
      obtain ⟨-, -, before, behind, hentries, -⟩ := Queue.of_takeDue htake
      unfold Queue.entriesOf at hnone
      rw [hentries] at hnone
      simpa using List.filter_eq_nil_iff.mp hnone e (by simp)
    refine ⟨by simp [Deed.duesOf, duesOf, Deed.fired?, hne], .inl ?_⟩
    rw [free_iff_of_waiting rfl, Queue.entriesOf_fire_of_ne htake hne, hnone]
  | drain | poison | die | fail => exact ⟨rfl, .inl (free_of_not_waiting nofun)⟩

/-- An entry that is tracked is a copy already. -/
theorem Tracks.copies_eq (h : s.Tracks id schedule since dues q e) :
    s.copies id = 1 + s.pending.countP (Command.adds id) := by
  rw [copies_of_queue (by rw [h.phase_eq]; rfl), h.entriesOf_eq]
  rfl

/-- A command that is handled was waiting. -/
theorem Move.mem_pending {now : Instant} {command : Command} (h : Move s (.obeyed now command) t) :
    command ∈ s.pending := by
  cases h with
  | obey now h hpending =>
    rw [hpending]
    exact List.mem_cons_self

/-- A command that is waiting was waiting before, or is sent. -/
theorem Move.mem_pending_or_sent {command : Command} (h : Move s deed t)
    (hmem : command ∈ t.pending) : command ∈ s.pending ∨ deed.sent? = some command := by
  cases h with
  | send other htakes =>
    rcases List.mem_append.mp hmem with hmem | hmem
    · exact .inl hmem
    · exact .inr (congrArg some (List.mem_singleton.mp hmem).symm)
  | obey now h hpending =>
    rw [hpending]
    exact .inl (List.mem_cons_of_mem _ hmem)
  | drain | poison | die | fail => cases hmem
  | _ => exact .inl hmem

/-- A loop that stops tracking an entry leaves no copy of it. -/
theorem Tracks.copies_eq_zero (h : s.Tracks id schedule since dues q e) (hmove : Move s deed t)
    (hcopies : s.copies id ≤ 1) (hloses : deed.loses id) : t.copies id = 0 := by
  rw [h.copies_eq] at hcopies
  cases hmove with
  | obey now hphase hpending =>
    obtain rfl : _ = Command.remove id := hloses
    rw [hpending, List.countP_cons] at hcopies
    rw [copies_of_queue rfl, Queue.obey, Queue.entriesOf_erase_self, List.length_nil]
    dsimp only
    omega
  | die | fail => rfl
  | _ => cases hloses

/-- An entry that is tracked stays so, unless the loop ends up without it. -/
theorem Trace.tracks_of_tracks (htrace : Trace s deeds t)
    (h : s.Tracks id schedule since dues q e) (hstop : .stopSignalled ∉ deeds)
    (honce : s.copies id + (deeds.filterMap Deed.sent?).countP (Command.adds id) ≤ 1)
    (hheld : ¬ t.Free id) :
    ∃ r f, t.Tracks id schedule since
      (dues ++ duesOf id (deeds.filterMap Deed.fired?)) r f := by
  induction htrace generalizing q e dues with
  | nil s => exact ⟨q, e, (List.append_nil dues).symm ▸ h⟩
  | @cons s t u deed deeds head tail ih =>
    have hcopies := @Move.copies_le _ _ _ id head
    have hone := h.copies_eq
    rw [filterMap_cons_eq_append, List.countP_append] at honce
    have hnew : ∀ now f, deed = .obeyed now (.add f) → f.id ≠ id := by
      rintro now f rfl hid
      have hadds : Command.adds id (.add f) = true := decide_eq_true hid
      have := List.countP_pos_iff.mpr ⟨_, head.mem_pending, hadds⟩
      omega
    rcases h.of_move head (fun heq => hstop (heq ▸ List.mem_cons_self)) hnew with
      ⟨r, f, hnext⟩ | hloses
    · rw [duesOf_cons, ← List.append_assoc]
      exact ih hnext (fun hmem => hstop (List.mem_cons_of_mem _ hmem)) (by omega) hheld
    · have hzero := h.copies_eq_zero head (by omega) hloses
      have htail := @Trace.copies_le _ _ _ id tail
      refine absurd (fun f hf hid => ?_) hheld
      have := copies_pos_of_mem_waiting hf
      rw [hid] at this
      omega

/-- An entry that a trace puts before a loop is tracked from the instant at which it is scheduled. -/
theorem Trace.tracks_of_scheduled {now limit : Instant} (htrace : Trace s deeds t)
    (hfree : s.Free id) (hstop : .stopSignalled ∉ deeds)
    (honce : s.copies id + (deeds.filterMap Deed.sent?).countP (Command.adds id) ≤ 1)
    (htimely : ∀ deed ∈ deeds, deed.isAsked = true ∨ deed.ByTasks now limit)
    (hheld : ¬ t.Free id) :
    ∃ q e, t.Tracks id e.schedule now (duesOf id (deeds.filterMap Deed.fired?)) q e := by
  induction htrace with
  | nil s => exact absurd hfree hheld
  | @cons s t u deed deeds head tail ih =>
    have hcopies := @Move.copies_le _ _ _ id head
    rw [filterMap_cons_eq_append, List.countP_append] at honce
    obtain ⟨hnone, hnext⟩ :=
      head.free_or_tracks hfree (htimely deed List.mem_cons_self) (by omega)
    have hstop' : .stopSignalled ∉ deeds := fun hmem => hstop (List.mem_cons_of_mem _ hmem)
    rw [duesOf_cons, hnone, List.nil_append]
    rcases hnext with hnext | ⟨q, e, hnext⟩
    · exact ih hnext hstop' (by omega) (fun d hd => htimely d (List.mem_cons_of_mem _ hd)) hheld
    · obtain ⟨r, f, hlast⟩ := tail.tracks_of_tracks hnext hstop' (by omega) hheld
      exact ⟨r, f, hlast.schedule_eq.symm ▸ hlast⟩

/-- An entry that is tracked stays so if nobody removes it and the loop does not die. -/
theorem Trace.tracks_of_kept (htrace : Trace s deeds t)
    (h : s.Tracks id schedule since dues q e) (hstop : .stopSignalled ∉ deeds)
    (hpending : ∀ command ∈ s.pending, command.concerns id = false)
    (hsent : ∀ command ∈ deeds.filterMap Deed.sent?, command.concerns id = false)
    (halive : t.takesCommands = true) :
    (∃ r f, t.Tracks id schedule since
      (dues ++ duesOf id (deeds.filterMap Deed.fired?)) r f) ∧
      ∀ command ∈ t.pending, command.concerns id = false := by
  induction htrace generalizing q e dues with
  | nil s => exact ⟨⟨q, e, (List.append_nil dues).symm ▸ h⟩, hpending⟩
  | @cons s t u deed deeds head tail ih =>
    rw [filterMap_cons_eq_append] at hsent
    have hnew : ∀ now f, deed = .obeyed now (.add f) → f.id ≠ id := by
      rintro now f rfl
      exact of_decide_eq_false (hpending _ head.mem_pending)
    rcases h.of_move head (fun heq => hstop (heq ▸ List.mem_cons_self)) hnew with
      ⟨r, f, hnext⟩ | hloses
    · rw [duesOf_cons, ← List.append_assoc]
      refine ih hnext (fun hmem => hstop (List.mem_cons_of_mem _ hmem)) ?_
        (fun command hmem => hsent command (List.mem_append_right _ hmem)) halive
      intro command hmem
      rcases head.mem_pending_or_sent hmem with hmem | hsend
      · exact hpending command hmem
      · exact hsent command (List.mem_append_left _ (by simp [hsend]))
    · have hhead := tail.takesCommands halive
      cases deed with
      | obeyed now command =>
        obtain rfl : command = .remove id := hloses
        have := hpending _ head.mem_pending
        simp [Command.concerns] at this
      | died =>
        rw [takesCommands_iff] at hhead
        cases head with
        | die | fail => exact absurd hhead nofun
      | _ => cases hloses

end Scheduler

end Cron
