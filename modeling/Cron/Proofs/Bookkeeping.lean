import Cron.Proofs.Dispatch

/-!
# What entries say of themselves

An entry says when it fires next and when it fired last. As long as the clock does not go back, this
stays in order through any run (`Entry.Kept`): both are occurrences, the last one is not in the
future, and the next one comes after it.

The order is at risk when a loop starts up, because that looks for the next occurrence after the
time on the clock and not after the last one. So the entries of a loop that has not started up yet
must have fired by the time at which the step began, and not only by the time at which it ends
(`Phase.asOf`). They have, because it takes a call to start a loop, and a step performs its call
before any task fires.

Headlines:
* `Move.kept`, `Move.journal`: what a single move keeps;
* `exists_stages`: every state that a step goes through has its entries in order, and what fires there
  is an entry that says so;
* `kept_and_dues_increase`: so they are in every run, each entry fires when it says it will, and it
  fires later each time, however often the loop is started.
-/

namespace Cron

namespace Entry

variable {z : Zone} {horizon : Int} {now clock later due : Instant} {e : Entry}

/-- What an entry says of itself is in order at a time on the clock. -/
structure Kept (z : Zone) (clock : Instant) (e : Entry) : Prop where
  next_occurs : ∀ t, e.next = some t → t.nanos = 0 ∧ e.schedule.occursAt z t = true
  prev_occurs : ∀ t, e.prev = some t → t.nanos = 0 ∧ e.schedule.occursAt z t = true
  prev_le : ∀ t, e.prev = some t → t ≤ clock
  prev_lt_next : ∀ t u, e.prev = some t → e.next = some u → t < u

theorem Kept.mono (h : e.Kept z clock) (hle : clock ≤ later) : e.Kept z later :=
  { h with prev_le := fun t ht => Instant.le_trans (h.prev_le t ht) hle }

theorem occurs_next_scheduledAfter {t : Instant} (h : (e.scheduledAfter z horizon now).next = some t) :
    t.nanos = 0 ∧ e.schedule.occursAt z t = true := by
  obtain ⟨w, hshows, -⟩ := Schedule.shows_of_firstAfter h
  exact ⟨hshows.whole, Schedule.occursAt_of_firstAfter h⟩

/-- Scheduling an entry anew keeps it in order, as long as it has not fired later than that. -/
theorem Kept.scheduledAfter (h : e.Kept z now) : (e.scheduledAfter z horizon now).Kept z now where
  next_occurs _ := occurs_next_scheduledAfter
  prev_occurs := h.prev_occurs
  prev_le := h.prev_le
  prev_lt_next t _ ht hnext := Instant.lt_of_le_of_lt (h.prev_le t ht) (Schedule.lt_of_firstAfter hnext)

/-- An entry that has never fired is in order once it is scheduled. -/
theorem kept_scheduledAfter (h : e.prev = none) (clock : Instant) :
    (e.scheduledAfter z horizon now).Kept z clock := by
  have hnone : ∀ t, (e.scheduledAfter z horizon now).prev ≠ some t := fun t ht => by
    cases h.symm.trans ht
  exact ⟨fun _ => occurs_next_scheduledAfter, fun t ht => absurd ht (hnone t),
    fun t ht => absurd ht (hnone t), fun t _ ht => absurd ht (hnone t)⟩

/-- An entry that fires when it says it will is in order afterwards. -/
theorem Kept.fire (h : e.Kept z clock) (hnext : e.next = some due) (hdue : due ≤ clock) :
    (e.fire z horizon due).Kept z clock where
  next_occurs _ := occurs_next_scheduledAfter
  prev_occurs t ht := by
    cases ht
    exact h.next_occurs due hnext
  prev_le t ht := by
    cases ht
    exact hdue
  prev_lt_next t _ ht hlater := by
    cases ht
    exact lt_next_fire hlater

end Entry

/-- The time by which the entries of a queue have fired, between a time at which tasks run and the
limit up to which they fire. -/
def Phase.asOf (now limit : Instant) : Phase → Instant
  | .running (.fresh _) | .stopping (.fresh _) => now
  | _ => limit

theorem Phase.asOf_self (now : Instant) (phase : Phase) : phase.asOf now now = now := by
  unfold asOf
  split <;> rfl

theorem Phase.asOf_le {now limit : Instant} (h : now ≤ limit) (phase : Phase) :
    phase.asOf now limit ≤ limit := by
  unfold asOf
  split
  · exact h
  · exact h
  · exact Instant.le_refl limit

theorem Phase.le_asOf {now limit : Instant} (h : now ≤ limit) (phase : Phase) :
    now ≤ phase.asOf now limit := by
  unfold asOf
  split
  · exact Instant.le_refl now
  · exact Instant.le_refl now
  · exact h

/-- A deed that keeps entries in order: tasks do it, or it is asked for before the limit gets any
later than the time at which tasks run. What is sent has never fired. -/
structure Deed.Orderly (now limit : Instant) (deed : Deed) : Prop where
  timely : deed.isAsked = true ∧ now = limit ∨ deed.ByTasks now limit
  sent_new : ∀ e, deed.sent? = some (.add e) → e.prev = none

namespace Scheduler

variable {s t : Scheduler} {q : Queue} {deed : Deed} {deeds : List Deed} {now limit : Instant}
  {id : EntryId} {dues : List Instant} {left : Nat}

/-- All entries are in order, between a time at which tasks run and the limit up to which they
fire. -/
structure Kept (now limit : Instant) (s : Scheduler) : Prop where
  entries : ∀ q, s.phase.queue? = some q → ∀ e ∈ q.entries,
    e.Kept s.tuning.zone (s.phase.asOf now limit)
  /-- What is about to be put in has never fired. -/
  pending : ∀ e, .add e ∈ s.pending → e.prev = none

theorem Kept.mono (h : s.Kept now now) (hle : now ≤ limit) : s.Kept now limit := by
  refine ⟨fun q hq e he => (h.entries q hq e he).mono ?_, h.pending⟩
  rw [Phase.asOf_self]
  exact Phase.le_asOf hle _

/-- Once the limit has come, the entries are in order at that time. -/
theorem Kept.at_limit (h : s.Kept now limit) (hle : now ≤ limit) : s.Kept limit limit := by
  refine ⟨fun q hq e he => (h.entries q hq e he).mono ?_, h.pending⟩
  rw [Phase.asOf_self]
  exact Phase.asOf_le hle _

/-- An orderly move keeps all entries in order. -/
theorem Move.kept (h : Move s deed t) (hs : s.Kept now limit) (hle : now ≤ limit)
    (hdeed : deed.Orderly now limit) : t.Kept now limit := by
  have htimely := hdeed.timely
  refine ⟨?_, fun e he => ?_⟩
  · cases h with
    | send command htakes => exact hs.entries
    | @start q h =>
      obtain ⟨-, rfl⟩ : _ ∧ now = limit := htimely.resolve_right nofun
      have hentries := hs.entries q (by rw [h]; rfl)
      rw [h] at hentries
      rintro _ ⟨⟩
      exact hentries
    | @signalStop loop h =>
      obtain ⟨-, rfl⟩ : _ ∧ now = limit := htimely.resolve_right nofun
      have hentries := fun q hq => hs.entries q (by rw [h]; exact hq)
      rw [Phase.asOf_self] at hentries
      intro q hq
      rw [Phase.asOf_self]
      exact hentries q hq
    | @startUp q other h hnow | @startUpToStop q other h hnow =>
      obtain rfl : other = now := htimely.resolve_left nofun
      have hentries := hs.entries q (by rw [h]; rfl)
      rw [h] at hentries
      rintro _ ⟨⟩ e he
      obtain ⟨f, hf, rfl⟩ := List.mem_map.mp he
      exact (hentries f hf).scheduledAfter.mono hle
    | @obey q command rest other h hpending hnow =>
      have hentries := hs.entries q (by rw [h]; rfl)
      rw [h] at hentries
      rintro _ ⟨⟩ e he
      rcases Queue.mem_obey he with he | ⟨f, rfl, rfl⟩
      · exact hentries e he
      · exact Entry.kept_scheduledAfter (hs.pending f (hpending ▸ List.mem_cons_self)) _
    | @fire q rest e due clock h hpending htake =>
      obtain ⟨hdue, hclock⟩ : due ≤ clock ∧ clock ≤ limit := htimely.resolve_left nofun
      have hentries := hs.entries q (by rw [h]; rfl)
      rw [h] at hentries
      rintro _ ⟨⟩ f hf
      rcases Queue.mem_fire htake hf with hf | rfl
      · exact hentries f hf
      · obtain ⟨-, hnext, before, behind, hq, -⟩ := Queue.of_takeDue htake
        have hmem : e ∈ q.entries := by
          rw [hq]
          exact List.mem_append_right _ List.mem_cons_self
        exact (hentries e hmem).fire hnext (Instant.le_trans hdue hclock)
    | @drain q other h =>
      have hentries := hs.entries q (by rcases h with h | h <;> rw [h] <;> rfl)
      rintro _ ⟨⟩ e he
      rcases Queue.mem_drain he with he | ⟨f, hf, rfl⟩
      · exact (hentries e he).mono (Phase.asOf_le hle _)
      · exact Entry.kept_scheduledAfter (hs.pending f hf) _
    | poison | die | fail => nofun
  · rcases h.mem_pending_or_sent he with he | he
    · exact hs.pending e he
    · exact hdeed.sent_new e he

theorem Trace.kept (h : Trace s deeds t) (hs : s.Kept now limit) (hle : now ≤ limit)
    (hdeeds : ∀ deed ∈ deeds, deed.Orderly now limit) : t.Kept now limit := by
  induction h with
  | nil => exact hs
  | @cons s t u deed deeds head tail ih =>
    refine ih (head.kept hs hle (hdeeds deed List.mem_cons_self)) fun d hd => ?_
    exact hdeeds d (List.mem_cons_of_mem deed hd)

/-! ## What has fired -/

/-- An entry has fired later each time, and not after what it says. Its name is used once; `left`
counts how often it is still going to be sent. -/
structure Journal (id : EntryId) (dues : List Instant) (left : Nat) (s : Scheduler) : Prop where
  pairwise : dues.Pairwise (· < ·)
  behind : ∀ q, s.phase.queue? = some q → ∀ e ∈ q.entriesOf id, ∀ t ∈ dues,
    ∃ p, e.prev = some p ∧ t ≤ p
  once : s.copies id + left ≤ 1
  /-- Once it has fired it cannot be put in again. -/
  used : dues ≠ [] → s.pending.countP (Command.adds id) + left = 0

theorem Journal.countP_le (h : s.Journal id dues left) (hq : s.phase.queue? = some q) :
    (q.entriesOf id).length + s.pending.countP (Command.adds id) + left ≤ 1 := by
  have := h.once
  rwa [copies_of_queue hq] at this

theorem Journal.of_le {fewer : Nat} (h : s.Journal id dues left) (hle : fewer ≤ left) :
    s.Journal id dues fewer := by
  refine ⟨h.pairwise, h.behind, ?_, fun hne => ?_⟩
  · have := h.once
    omega
  · have := h.used hne
    omega

/-- While an entry is still waiting to be put in, it has not fired. -/
theorem Journal.dues_eq_nil (h : s.Journal id dues left) {e : Entry} (he : .add e ∈ s.pending)
    (hid : e.id = id) : dues = [] := by
  refine Decidable.byContradiction fun hne => ?_
  have hadds : Command.adds id (.add e) = true := decide_eq_true hid
  have hpos := List.countP_pos_iff.mpr ⟨_, he, hadds⟩
  have := h.used hne
  omega

/-- Only what is sent is going to be put in. -/
theorem Move.countP_pending_le (h : Move s deed t) :
    t.pending.countP (Command.adds id) ≤
      s.pending.countP (Command.adds id) + deed.sent?.toList.countP (Command.adds id) := by
  cases h with
  | send command htakes =>
    rw [List.countP_append]
    exact Nat.le_refl _
  | obey now h hpending =>
    rw [hpending, List.countP_cons]
    exact Nat.le_trans (Nat.le_add_right _ _) (Nat.le_add_right _ _)
  | drain | poison | die | fail => exact Nat.zero_le _
  | _ => exact Nat.le_add_right _ _

/-- A move in which an entry does not fire leaves it as it is, or puts it in. -/
theorem Move.origin (h : Move s deed t) (hfired : deed.duesOf id = []) {r : Queue}
    (hr : t.phase.queue? = some r) {e : Entry} (he : e ∈ r.entriesOf id) :
    (∃ q, s.phase.queue? = some q ∧ ∃ f ∈ q.entriesOf id, f.prev = e.prev) ∨
      ∃ f, .add f ∈ s.pending ∧ f.id = id := by
  obtain ⟨hmem, hid⟩ := List.mem_filter.mp he
  cases h with
  | send command htakes => exact .inl ⟨r, hr, e, he, rfl⟩
  | start h | signalStop h => exact .inl ⟨r, by rw [h]; exact hr, e, he, rfl⟩
  | startUp now h | startUpToStop now h =>
    cases hr
    rw [Queue.entriesOf_reschedule] at he
    obtain ⟨f, hf, rfl⟩ := List.mem_map.mp he
    exact .inl ⟨_, by rw [h]; rfl, f, hf, rfl⟩
  | obey now h hpending =>
    cases hr
    rcases Queue.mem_obey hmem with hmem | ⟨f, rfl, rfl⟩
    · exact .inl ⟨_, by rw [h]; rfl, e, List.mem_filter.mpr ⟨hmem, hid⟩, rfl⟩
    · exact .inr ⟨f, hpending ▸ List.mem_cons_self, of_decide_eq_true hid⟩
  | @fire q rest g due clock h hpending htake =>
    cases hr
    have hne : g.id ≠ id := fun heq => by
      simp [Deed.duesOf, duesOf, Deed.fired?, heq] at hfired
    rw [Queue.entriesOf_fire_of_ne htake hne] at he
    exact .inl ⟨q, by rw [h]; rfl, e, he, rfl⟩
  | drain now h =>
    cases hr
    rcases Queue.mem_drain hmem with hmem | ⟨f, hf, rfl⟩
    · refine .inl ⟨_, ?_, e, List.mem_filter.mpr ⟨hmem, hid⟩, rfl⟩
      rcases h with h | h <;> rw [h] <;> rfl
    · exact .inr ⟨f, hf, of_decide_eq_true hid⟩
  | poison | die | fail => cases hr

/-- A move that fires an entry fires it when it says it will. -/
theorem Move.entry_of_fired {firing : Firing} (h : Move s (.fired firing) t) :
    ∃ q rest e, s.phase = .running (.waiting q) ∧ e ∈ q.entries ∧ e.id = firing.id ∧
      e.next = some firing.due ∧ q.takeDue? firing.due = some (e, rest) ∧
      t.phase = .running (.waiting (rest.push (e.fire s.tuning.zone s.tuning.horizon firing.due))) := by
  cases h with
  | @fire q rest e due clock h hpending htake =>
    obtain ⟨-, hnext, before, behind, hq, -⟩ := Queue.of_takeDue htake
    refine ⟨q, rest, e, h, ?_, rfl, hnext, htake, rfl⟩
    rw [hq]
    exact List.mem_append_right _ List.mem_cons_self

theorem exists_fired_of_duesOf_ne_nil (h : deed.duesOf id ≠ []) :
    ∃ firing, deed = .fired firing ∧ firing.id = id ∧ deed.duesOf id = [firing.due] := by
  cases deed with
  | fired firing =>
    by_cases hid : firing.id = id
    · exact ⟨firing, rfl, hid, by simp [Deed.duesOf, duesOf, Deed.fired?, hid]⟩
    · simp [Deed.duesOf, duesOf, Deed.fired?, hid] at h
  | _ => exact absurd rfl h

/-- An entry that is there is the only one of its name, and there will be no other. -/
theorem Journal.sole (h : s.Journal id dues left) (hq : s.phase.queue? = some q) {e : Entry}
    (he : e ∈ q.entriesOf id) :
    q.entriesOf id = [e] ∧ s.pending.countP (Command.adds id) + left = 0 := by
  have hlength := List.length_pos_of_mem he
  have hcount := h.countP_le hq
  refine ⟨?_, by omega⟩
  obtain ⟨f, hf⟩ := List.length_eq_one_iff.mp (show (q.entriesOf id).length = 1 by omega)
  rw [hf] at he ⊢
  rw [List.mem_singleton.mp he]

/-- An entry is due later than it has ever been before. -/
theorem Journal.lt_due (h : s.Journal id dues left) (hs : s.Kept now limit)
    (hq : s.phase.queue? = some q) {e : Entry} (he : e ∈ q.entriesOf id) {due : Instant}
    (hnext : e.next = some due) : ∀ t ∈ dues, t < due := by
  intro t ht
  obtain ⟨p, hprev, hle⟩ := h.behind q hq e he t ht
  have hlt := (hs.entries q hq e (List.mem_filter.mp he).1).prev_lt_next p due hprev hnext
  exact Instant.lt_of_le_of_lt hle hlt

/-- A move makes an entry fire later than before, if at all. -/
theorem Move.journal (h : Move s deed t) (hs : s.Kept now limit)
    (hj : s.Journal id dues (deed.sent?.toList.countP (Command.adds id) + left)) :
    t.Journal id (dues ++ deed.duesOf id) left := by
  have hcopies := @Move.copies_le _ _ _ id h
  have hpending := @Move.countP_pending_le _ _ _ id h
  have honce : t.copies id + left ≤ 1 := by
    have := hj.once
    omega
  by_cases hfired : deed.duesOf id = []
  · rw [hfired, List.append_nil]
    refine ⟨hj.pairwise, fun r hr e he u hu => ?_, honce, fun hne => ?_⟩
    · rcases h.origin hfired hr he with ⟨q, hq, f, hf, hprev⟩ | ⟨f, hf, hid⟩
      · rw [← hprev]
        exact hj.behind q hq f hf u hu
      · rw [hj.dues_eq_nil hf hid] at hu
        cases hu
    · have := hj.used hne
      omega
  · obtain ⟨firing, rfl, hid, hdues⟩ := exists_fired_of_duesOf_ne_nil hfired
    obtain ⟨q, rest, e, hphase, hmem, heid, hnext, htake, hphase'⟩ := h.entry_of_fired
    have hq : s.phase.queue? = some q := by
      rw [hphase]
      rfl
    have he : e ∈ q.entriesOf id := List.mem_filter.mpr ⟨hmem, decide_eq_true (heid.trans hid)⟩
    obtain ⟨hsole, hnone⟩ := hj.sole hq he
    have hlt := hj.lt_due hs hq he hnext
    obtain ⟨-, -, hfire⟩ := @Queue.entriesOf_fire_self _ _ _ _ _ _ s.tuning.zone s.tuning.horizon
      htake (heid.trans hid) hsole
    rw [hdues]
    refine ⟨?_, fun r hr f hf u hu => ?_, honce, fun _ => by omega⟩
    · refine List.pairwise_append.mpr ⟨hj.pairwise, List.pairwise_singleton _ _, ?_⟩
      intro u hu v hv
      rw [List.mem_singleton.mp hv]
      exact hlt u hu
    · rw [hphase'] at hr
      cases hr
      rw [hfire, List.mem_singleton] at hf
      refine ⟨firing.due, by rw [hf]; rfl, ?_⟩
      rcases List.mem_append.mp hu with hu | hu
      · exact Instant.le_of_lt (hlt u hu)
      · rw [List.mem_singleton.mp hu]
        exact Instant.le_refl _

theorem Trace.journal (h : Trace s deeds t) (hs : s.Kept now limit) (hle : now ≤ limit)
    (hdeeds : ∀ deed ∈ deeds, deed.Orderly now limit)
    (hj : s.Journal id dues ((deeds.filterMap Deed.sent?).countP (Command.adds id) + left)) :
    t.Journal id (dues ++ duesOf id (deeds.filterMap Deed.fired?)) left := by
  induction h generalizing dues with
  | nil =>
    rw [List.filterMap_nil, List.countP_nil, Nat.zero_add] at hj
    exact (List.append_nil dues).symm ▸ hj
  | @cons s t u deed deeds head tail ih =>
    rw [filterMap_cons_eq_append, List.countP_append, Nat.add_assoc] at hj
    rw [duesOf_cons, ← List.append_assoc]
    refine ih (head.kept hs hle (hdeeds deed List.mem_cons_self))
      (fun d hd => hdeeds d (List.mem_cons_of_mem deed hd)) (head.journal hs hj)

end Scheduler

/-! ## Runs -/

namespace Session

open Scheduler (Trace Move)

variable {session : Session} {x : Step} {steps : List Step} {id : EntryId} {dues : List Instant}
  {left : Nat} {asked tasks : List Deed}

/-- All entries are in order at the time on the clock. -/
def Kept (session : Session) : Prop := session.scheduler.Kept session.clock session.clock

theorem Kept.entries (h : session.Kept) {q : Queue} (hq : session.scheduler.phase.queue? = some q) :
    ∀ e ∈ q.entries, e.Kept session.scheduler.tuning.zone session.clock := by
  have hentries := Scheduler.Kept.entries h q hq
  rwa [Phase.asOf_self] at hentries

theorem kept_new (tuning : Tuning) (clock : Instant) : (new tuning clock).Kept := by
  refine ⟨?_, nofun⟩
  rintro _ ⟨⟩
  nofun

/-- A call sends entries that have never fired. -/
theorem prev_eq_none_of_mem_commands {call : Call} {reply : Except SchedulerError Reply} {e : Entry}
    (h : .add e ∈ call.commands reply) : e.prev = none := by
  unfold Call.commands at h
  split at h
  · split at h
    · cases List.mem_singleton.mp h
      rfl
    · cases h
  · cases List.mem_singleton.mp h
  · cases h

/-- What a step is asked for is orderly at the time before it, and what tasks do up to the time
after it. -/
theorem Course.orderly (h : session.Course x (asked ++ tasks))
    (hasked : ∀ deed ∈ asked, deed.isAsked = true)
    (htasks : ∀ deed ∈ tasks, deed.ByTasks session.clock (session.take x).session.clock) :
    (∀ deed ∈ asked, deed.Orderly session.clock session.clock) ∧
      ∀ deed ∈ tasks, deed.Orderly session.clock (session.take x).session.clock := by
  have hsent : ∀ deed ∈ asked ++ tasks, ∀ e, deed.sent? = some (.add e) → e.prev = none := by
    intro deed hdeed e he
    have hmem : .add e ∈ x.call.commands (session.take x).reply := by
      rw [← h.sent_eq]
      exact List.mem_filterMap.mpr ⟨deed, hdeed, he⟩
    exact prev_eq_none_of_mem_commands hmem
  constructor
  · intro deed hdeed
    exact ⟨.inl ⟨hasked deed hdeed, rfl⟩, hsent deed (List.mem_append_left _ hdeed)⟩
  · intro deed hdeed
    exact ⟨.inr (htasks deed hdeed), hsent deed (List.mem_append_right _ hdeed)⟩

/-- Every state that a step goes through has its entries in order. -/
theorem Course.kept {earlier later : List Deed} {s : Scheduler}
    (h : session.Course x (asked ++ tasks)) (hasked : ∀ deed ∈ asked, deed.isAsked = true)
    (htasks : ∀ deed ∈ tasks, deed.ByTasks session.clock (session.take x).session.clock)
    (hkept : session.Kept) (hclock : session.clock ≤ (session.take x).session.clock)
    (hsplit : asked ++ tasks = earlier ++ later) (hs : Trace session.scheduler earlier s) :
    s.Kept session.clock (session.take x).session.clock := by
  obtain ⟨horderly, horderly'⟩ := h.orderly hasked htasks
  have hle := Instant.le_refl session.clock
  rcases List.append_eq_append_iff.mp hsplit with ⟨done, rfl, rfl⟩ | ⟨todo, rfl, rfl⟩
  · obtain ⟨t, hfirst, hsecond⟩ := hs.split
    exact hsecond.kept ((hfirst.kept hkept hle horderly).mono hclock) hclock fun deed hdeed =>
      horderly' deed (List.mem_append_left _ hdeed)
  · exact (hs.kept hkept hle fun deed hdeed =>
      horderly deed (List.mem_append_left _ hdeed)).mono hclock

/-- A state that a step goes through, with what has happened before and what happens after it. -/
structure Stage (session : Session) (x : Step) (earlier later : List Deed) (s : Scheduler) :
    Prop where
  reached : Trace session.scheduler earlier s
  leads : Trace s later (session.take x).session.scheduler
  /-- All entries are in order. -/
  kept : ∀ q, s.phase.queue? = some q → ∀ e ∈ q.entries,
    e.Kept session.scheduler.tuning.zone (session.take x).session.clock
  /-- What fires next is an entry that says so, and not before it is due. -/
  fires : ∀ firing rest, later = .fired firing :: rest →
    firing.due ≤ firing.clock ∧ firing.clock ≤ (session.take x).session.clock ∧
      ∃ e ∈ s.waiting, e.id = firing.id ∧ e.next = some firing.due

theorem exists_stages (hkept : session.Kept)
    (hclock : session.clock ≤ (session.take x).session.clock) :
    ∃ deeds, session.Course x deeds ∧
      ∀ earlier later, deeds = earlier ++ later → ∃ s, session.Stage x earlier later s := by
  obtain ⟨asked, tasks, hcourse, hasked, htasks⟩ := session.exists_course_in_parts x
  refine ⟨asked ++ tasks, hcourse, fun earlier later hsplit => ?_⟩
  obtain ⟨s, hreached, hleads⟩ := Trace.split (hsplit ▸ hcourse.trace)
  have hs := hcourse.kept hasked htasks hkept hclock hsplit hreached
  refine ⟨s, hreached, hleads, fun q hq e he => ?_, fun firing rest hlater => ?_⟩
  · rw [← hreached.tuning_eq]
    exact (hs.entries q hq e he).mono (Phase.asOf_le hclock _)
  · subst hlater
    have hmem : .fired firing ∈ asked ++ tasks := by
      rw [hsplit]
      exact List.mem_append_right _ List.mem_cons_self
    obtain ⟨hdue, hlimit⟩ := (hcourse.timely _ hmem).resolve_left nofun
    cases hleads with
    | cons head tail =>
      obtain ⟨q, -, e, hphase, he, hid, hnext, -⟩ := head.entry_of_fired
      refine ⟨hdue, hlimit, e, ?_, hid, hnext⟩
      unfold Scheduler.waiting
      rw [hphase]
      exact he

theorem Kept.take (h : session.Kept) (hclock : session.clock ≤ (session.take x).session.clock) :
    (session.take x).session.Kept := by
  obtain ⟨asked, tasks, hcourse, hasked, htasks⟩ := session.exists_course_in_parts x
  have hlast := hcourse.kept hasked htasks h hclock (List.append_nil _).symm hcourse.trace
  exact hlast.at_limit hclock

/-- A step makes an entry fire later than before, if at all. -/
theorem journal_take (hkept : session.Kept)
    (hclock : session.clock ≤ (session.take x).session.clock)
    (hj : session.scheduler.Journal id dues ((addedIds (session.history [x])).count id + left)) :
    (session.take x).session.scheduler.Journal id (dues ++ duesOf id (session.take x).fired) left := by
  obtain ⟨asked, tasks, hcourse, hasked, htasks⟩ := session.exists_course_in_parts x
  obtain ⟨horderly, horderly'⟩ := hcourse.orderly hasked htasks
  have hle := Instant.le_refl session.clock
  have hsent : ((asked ++ tasks).filterMap Deed.sent?).countP (Command.adds id) ≤
      (addedIds (session.history [x])).count id := by
    rw [hcourse.sent_eq, history, addedIds, filterMap_cons_eq_append, List.count_append]
    exact Nat.le_trans (x.call.countP_commands_le _ id) (Nat.le_add_right _ _)
  rw [List.filterMap_append, List.countP_append] at hsent
  obtain ⟨s, hfirst, hsecond⟩ := hcourse.trace.split
  have hbefore : session.scheduler.Journal id dues
      ((asked.filterMap Deed.sent?).countP (Command.adds id) +
        ((tasks.filterMap Deed.sent?).countP (Command.adds id) + left)) := hj.of_le (by omega)
  have hmiddle := hfirst.journal hkept hle horderly hbefore
  have hafter := hsecond.journal ((hfirst.kept hkept hle horderly).mono hclock) hclock horderly'
    hmiddle
  rwa [List.append_assoc, ← duesOf_append, ← List.filterMap_append, hcourse.fired_eq] at hafter

/-- The clock does not go back. -/
def ClockForward (session : Session) : List Step → Prop
  | [] => True
  | x :: rest =>
    session.clock ≤ (session.take x).session.clock ∧ (session.take x).session.ClockForward rest

instance decidableClockForward (session : Session) :
    (steps : List Step) → Decidable (session.ClockForward steps)
  | [] => isTrue trivial
  | x :: rest =>
    have := (session.take x).session.decidableClockForward rest
    inferInstanceAs (Decidable (_ ∧ _))

theorem kept_after (h : session.Kept) (hclock : session.ClockForward steps) :
    (session.after steps).Kept := by
  induction steps generalizing session with
  | nil => exact h
  | cons x rest ih => exact ih (h.take hclock.1) hclock.2

theorem ClockForward.clock_le (h : session.ClockForward steps) :
    session.clock ≤ (session.after steps).clock := by
  induction steps generalizing session with
  | nil => exact Instant.le_refl _
  | cons x rest ih => exact Instant.le_trans h.1 (ih h.2)

theorem clockForward_append {others : List Step} :
    session.ClockForward (steps ++ others) ↔
      session.ClockForward steps ∧ (session.after steps).ClockForward others := by
  induction steps generalizing session with
  | nil => exact ⟨fun h => ⟨trivial, h⟩, fun h => h.2⟩
  | cons x rest ih =>
    rw [List.cons_append, ClockForward, ClockForward, ih, and_assoc, after_cons]

theorem journal_after (hkept : session.Kept) (hclock : session.ClockForward steps)
    (hj : session.scheduler.Journal id dues ((addedIds (session.history steps)).count id + left)) :
    (session.after steps).scheduler.Journal id (dues ++ duesOf id (session.firings steps)) left := by
  induction steps generalizing session dues with
  | nil =>
    have hj' := hj.of_le (Nat.le_add_left left _)
    exact (List.append_nil dues).symm ▸ hj'
  | cons x rest ih =>
    rw [← List.singleton_append, addedIds_history_append, List.count_append, Nat.add_assoc] at hj
    have hrest := ih (hkept.take hclock.1) hclock.2 (journal_take hkept hclock.1 hj)
    rwa [List.append_assoc, ← duesOf_append] at hrest

/-- **Entries stay in order.** As long as the clock does not go back, what an entry says of itself is
in order in every state of a run, it fires when it says it will and not before that time, and if its
name is used once, it fires later each time, however often the scheduler is stopped and started. -/
theorem kept_and_dues_increase (tuning : Tuning) (clock : Instant) (steps : List Step)
    (h : (new tuning clock).ClockForward steps) :
    let start := new tuning clock
    (∀ q, (start.after steps).scheduler.phase.queue? = some q → ∀ e ∈ q.entries,
      e.Kept tuning.zone (start.after steps).clock) ∧
    (∀ before x rest, steps = before ++ x :: rest →
      ∃ deeds, (start.after before).Course x deeds ∧ ∀ earlier later, deeds = earlier ++ later →
        ∃ s, (start.after before).Stage x earlier later s) ∧
    ∀ id, (addedIds (start.history steps)).count id ≤ 1 →
      (duesOf id (start.firings steps)).Pairwise (· < ·) := by
  intro start
  have hstart := kept_new tuning clock
  refine ⟨fun q hq e he => ?_, ?_, fun id honce => ?_⟩
  · have hkept := (kept_after hstart h).entries hq e he
    rwa [tuning_after] at hkept
  · rintro before x rest rfl
    obtain ⟨hbefore, hx⟩ := clockForward_append.mp h
    exact exists_stages (kept_after hstart hbefore) hx.1
  · have hj : start.scheduler.Journal id [] ((addedIds (start.history steps)).count id + 0) := by
      refine ⟨List.Pairwise.nil, fun q hq e he u hu => ?_, ?_, fun hne => absurd rfl hne⟩
      · cases hu
      · have hnone : start.scheduler.copies id = 0 := rfl
        omega
    exact (journal_after hstart h hj).pairwise

/-- A loop wakes up late, is stopped before it is due again, and is started later. What was due while
nothing ran does not fire. -/
theorem kept_and_dues_increase_across_restart :
    let start := new { zone := .utc, horizon := 5, idleSeconds := 86400 } (Instant.ofSeconds 0)
    let steps : List Step :=
      [⟨.add ⟨"a"⟩ "*/10 * * * * *", true⟩, ⟨.start true, true⟩,
        ⟨.setClock (Instant.ofSeconds 25), true⟩, ⟨.runTasks, true⟩, ⟨.stop true, true⟩,
        ⟨.setClock (Instant.ofSeconds 33), true⟩, ⟨.start true, true⟩, ⟨.advance 10000, true⟩]
    start.ClockForward steps ∧
      (∀ q, (start.after steps).scheduler.phase.queue? = some q → ∀ e ∈ q.entries,
        e.Kept .utc (Instant.ofSeconds 43)) ∧
      duesOf ⟨"a"⟩ (start.firings steps) =
        [Instant.ofSeconds 10, Instant.ofSeconds 20, Instant.ofSeconds 40] ∧
      (duesOf ⟨"a"⟩ (start.firings steps)).Pairwise (· < ·) := by
  intro start steps
  obtain ⟨hforward, hdues, hclock, hsole⟩ :
      start.ClockForward steps ∧
        duesOf ⟨"a"⟩ (start.firings steps) =
          [Instant.ofSeconds 10, Instant.ofSeconds 20, Instant.ofSeconds 40] ∧
        (start.after steps).clock = Instant.ofSeconds 43 ∧
        (addedIds (start.history steps)).count ⟨"a"⟩ ≤ 1 := by
    decide +kernel
  obtain ⟨hkept, -, hincrease⟩ := kept_and_dues_increase
    { zone := .utc, horizon := 5, idleSeconds := 86400 } (Instant.ofSeconds 0) steps hforward
  rw [show new _ _ = start from rfl] at hkept
  rw [hclock] at hkept
  exact ⟨hforward, hkept, hdues, hincrease ⟨"a"⟩ hsole⟩

end Session

end Cron
