import Cron.CommandLine.Program
import Cron.Proofs.Agenda
import Cron.Proofs.Registration
import Cron.Proofs.Survival

/-!
# What the task `run` reports at its start

The patterns that are handed over are registered one after the other, each with a notice. The first
one that does not compile ends the program: nothing has been started by then, so nothing is said
about when the others fire.

If all compile, the loop starts up on an empty queue and then puts in the entries in the order of
the arguments, all at the same instant of the clock. The place of a pattern among the arguments is
therefore the number of its ticket, and the fire order is the order of the forecasts
(`Forecast.Before`), with what never fires behind them (`map_noticeOf`).

Headlines:
* `register_append`: what registering a list of patterns that compile comes to;
* `startUp_of_canWait`: the notices are those of the fire order of the entries;
* `startUp_reports`: what is reported for any list of patterns.
-/

namespace Cron

/-! ## Tickets by place -/

/-- Tickets for a list of entries, numbered from a place on. -/
def Ticket.issue (place : Nat) (es : List Entry) : List Ticket :=
  (es.zipIdx place).map fun (e, place) => ⟨place, e⟩

theorem Ticket.issue_cons (place : Nat) (e : Entry) (es : List Entry) :
    issue place (e :: es) = ⟨place, e⟩ :: issue (place + 1) es := rfl

theorem Ticket.pairwise_issue (place : Nat) (es : List Entry) :
    (issue place es).Pairwise fun t u => t.number < u.number := by
  have hplaces : ((es.zipIdx place).map Prod.snd).Pairwise (· < ·) := by
    rw [List.zipIdx_map_snd]
    exact List.pairwise_lt_range'
  exact List.pairwise_map.mpr (List.pairwise_map.mp hplaces)

theorem Ticket.map_entry_issue (place : Nat) (es : List Entry) :
    (issue place es).map Ticket.entry = es := by
  rw [issue, List.map_map]
  exact List.zipIdx_map_fst place es

/-- The agenda of a list of entries, each under its place in the list. -/
def Agenda.ofEntries (es : List Entry) : Agenda :=
  have hdistinct : (Ticket.issue 0 es).Pairwise fun t u => t.number ≠ u.number :=
    (Ticket.pairwise_issue 0 es).imp Nat.ne_of_lt
  { tickets := Ticket.sorted (Ticket.issue 0 es)
    issued := es.length
    sorted := Ticket.pairwise_sorted hdistinct
    distinct := distinct_of_perm (Ticket.perm_sorted _) hdistinct
    le_issued := fun t ht => by
      obtain ⟨⟨e, place⟩, he, rfl⟩ := List.mem_map.mp ((Ticket.perm_sorted _).mem_iff.mp ht)
      exact Nat.le_of_lt (List.snd_lt_of_mem_zipIdx he) }

theorem Agenda.represents_ofEntries (es : List Entry) : (ofEntries es).Represents ⟨es⟩ :=
  ⟨Ticket.issue 0 es, (Ticket.perm_sorted _).symm, Ticket.pairwise_issue 0 es,
    Ticket.map_entry_issue 0 es⟩

namespace CommandLine

open Scheduler

variable {s : Scheduler} {q : Queue} {tuning : Tuning} {now : Instant}

/-! ## Registering -/

/-- The entries of schedules that are registered from a place on. -/
def newEntries (place : Nat) (schedules : List Schedule) : List Entry :=
  (schedules.zipIdx place).map fun (schedule, place) => Entry.new (entryId place) schedule

theorem newEntries_cons (place : Nat) (schedule : Schedule) (schedules : List Schedule) :
    newEntries place (schedule :: schedules) =
      Entry.new (entryId place) schedule :: newEntries (place + 1) schedules := rfl

/-- The scheduler with further commands waiting. -/
def withPending (s : Scheduler) (commands : List Command) : Scheduler :=
  { s with pending := s.pending ++ commands }

theorem withPending_withPending (s : Scheduler) (commands further : List Command) :
    withPending (withPending s commands) further = withPending s (commands ++ further) := by
  simp only [withPending, List.append_assoc]

theorem add_of_compile {id : EntryId} {pattern : String} {schedule : Schedule}
    (h : Schedule.compile pattern = .ok schedule) (hphase : s.phase = .idle q) :
    s.add id pattern = .ok (withPending s [.add (Entry.new id schedule)]) := by
  have hopen : s.channelOpen = true := by rw [channelOpen, hphase, takesCommands, hphase]
  rw [add, h]
  exact if_pos hopen

theorem add_of_not_compile {id : EntryId} {pattern : String} {e : PatternError}
    (h : Schedule.compile pattern = .error e) : s.add id pattern = .error (.pattern e) := by
  rw [add, h]
  rfl

/-- Patterns that compile are registered in their order, whatever comes behind them. Unless there are
none, their entries have to get names. -/
theorem register_append {before : List String} {schedules : List Schedule}
    (hbefore : before.map Schedule.compile = schedules.map .ok)
    (hnow : 0 ≤ now.seconds ∨ before = []) (rest : List String) (place : Nat)
    (s : Scheduler) (hphase : s.phase = .idle q) :
    let registered := withPending s ((newEntries place schedules).map .add)
    let further := register registered now (place + before.length) rest
    register s now place (before ++ rest) = (before.map .registered ++ further.1, further.2) := by
  induction before generalizing s schedules place with
  | nil =>
    obtain rfl : schedules = [] := List.map_eq_nil_iff.mp hbefore.symm
    simp only [withPending, newEntries, List.zipIdx_nil, List.map_nil, List.append_nil,
      List.nil_append, List.length_nil, Nat.add_zero]
  | cons pattern before ih =>
    obtain ⟨schedule, schedules, rfl, hschedule, hschedules⟩ :=
      List.map_eq_cons_iff.mp hbefore.symm
    have hread : 0 ≤ now.seconds := hnow.resolve_right (by simp)
    -- the phase stays as it is, so the next pattern can be registered as well
    rw [List.cons_append, register, add_of_compile hschedule.symm hphase]
    simp only [if_neg (Int.not_lt.mpr hread)]
    rw [ih hschedules.symm (.inl hread) (place + 1) (withPending s _) hphase,
      withPending_withPending, newEntries_cons]
    simp only [List.map_cons, List.cons_append, List.nil_append, List.length_cons, Nat.add_assoc,
      Nat.add_comm 1]

/-- The first pattern that does not compile ends the registration. -/
theorem register_of_not_compile {pattern : String} {rest : List String} {e : PatternError}
    {place : Nat} (h : Schedule.compile pattern = .error e) :
    register s now place (pattern :: rest) =
      ([], .error (.reported ("cannot register pattern " ++ Text.quoted pattern))) := by
  rw [register, add_of_not_compile h]

/-- Before 1970, the first pattern that compiles ends the registration. -/
theorem register_of_unreadable {pattern : String} {rest : List String} {schedule : Schedule}
    {place : Nat} (h : Schedule.compile pattern = .ok schedule) (hphase : s.phase = .idle q)
    (hnow : now.seconds < 0) : register s now place (pattern :: rest) = ([], .error .brokeDown) := by
  rw [register, add_of_compile h hphase]
  exact if_pos hnow

/-! ## Starting up -/

/-- What the loop makes of the entries of schedules that are registered before it starts up. -/
def firstEntries (tuning : Tuning) (now : Instant) (schedules : List Schedule) : List Entry :=
  (newEntries 0 schedules).map (Entry.scheduledAfter tuning.zone tuning.horizon now)

/-- An empty queue that takes in entries holds them as they came. -/
theorem drain_map_add (tuning : Tuning) (now : Instant) (es : List Entry) (q : Queue) :
    q.drain tuning now (es.map .add) =
      ⟨q.entries ++ es.map (Entry.scheduledAfter tuning.zone tuning.horizon now)⟩ := by
  induction es generalizing q with
  | nil => exact congrArg Queue.mk (List.append_nil _).symm
  | cons e rest ih =>
    rw [List.map_cons, Queue.drain, List.foldl_cons, ← Queue.drain, ih, Queue.obey, Queue.push,
      List.append_assoc]
    rfl

/-- A loop that has just been started answers once it has started up and handled all commands. -/
theorem entries_of_fresh (hphase : s.phase = .running (.fresh q)) (hwait : s.tuning.CanWait now) :
    let after := (q.reschedule s.tuning.zone s.tuning.horizon now).drain s.tuning now s.pending
    s.entries now = (s.resume (some after), .ok after.fireOrder) := by
  have hstart : s.queueAfterStartUp? now (.fresh q) =
      some (q.reschedule s.tuning.zone s.tuning.horizon now) := Queue.attend?_of_canWait _ hwait
  simp only [entries, hphase, hstart, Option.bind_some, Queue.obeyAll?_of_canWait hwait,
    Queue.attend?_of_canWait _ hwait]

/-- The scheduler once its loop has been started, with the entries of all patterns waiting. -/
def started (tuning : Tuning) (schedules : List Schedule) : Scheduler :=
  { tuning, phase := .running (.fresh Queue.empty), pending := (newEntries 0 schedules).map .add }

/-- If all patterns compile and their entries get names, it remains to ask for the entries. -/
theorem startUp_eq_entries {settings : Settings} {zone : Zone} {patterns : List String}
    {schedules : List Schedule} (hpatterns : patterns.map Schedule.compile = schedules.map .ok)
    (hnow : 0 ≤ now.seconds) :
    startUp settings zone now patterns =
      match (started (settings.tuning zone) schedules).entries now with
      | (_, .error e) => (patterns.map .registered, .error (.reported e.message))
      | (s, .ok es) => (patterns.map .registered ++ es.map noticeOf, .ok ⟨s, now⟩) := by
  let registered :=
    withPending (Scheduler.new (settings.tuning zone)) ((newEntries 0 schedules).map .add)
  have hregister : register (Scheduler.new (settings.tuning zone)) now 0 patterns =
      (patterns.map .registered, .ok registered) := by
    have hall := register_append hpatterns (.inl hnow) [] 0 (Scheduler.new (settings.tuning zone)) rfl
    simpa only [register, List.append_nil] using hall
  have hstart : registered.start true = .ok (started (settings.tuning zone) schedules) := rfl
  rcases hentries : (started (settings.tuning zone) schedules).entries now with ⟨after, answer⟩
  cases answer with
  | error e => simp only [startUp, hregister, hstart, hentries]
  | ok es => simp only [startUp, hregister, hstart, hentries]

/-- If all patterns compile and the loop can wait, the notices are those on the entries in fire
order. -/
theorem startUp_of_canWait {settings : Settings} {zone : Zone} {patterns : List String}
    {schedules : List Schedule} (hpatterns : patterns.map Schedule.compile = schedules.map .ok)
    (hwait : (settings.tuning zone).CanWait now) :
    let tuning := settings.tuning zone
    let q : Queue := ⟨firstEntries tuning now schedules⟩
    startUp settings zone now patterns =
      (patterns.map .registered ++ q.fireOrder.map noticeOf,
        .ok ⟨{ tuning, phase := .running (.waiting q), pending := [] }, now⟩) := by
  intro tuning q
  have hentries := entries_of_fresh (s := started tuning schedules) rfl hwait
  have hqueue : (Queue.empty.reschedule tuning.zone tuning.horizon now).drain tuning now
      ((newEntries 0 schedules).map .add) = q :=
    drain_map_add tuning now (newEntries 0 schedules) Queue.empty
  rw [startUp_eq_entries hpatterns hwait.1, hentries, ← hqueue]
  rfl

/-- If the first pattern compiles but the clock cannot be read, the program breaks down at it. -/
theorem startUp_of_unreadable {settings : Settings} {zone : Zone} {pattern : String}
    {rest : List String} {schedule : Schedule} (h : Schedule.compile pattern = .ok schedule)
    (hnow : now.seconds < 0) :
    startUp settings zone now (pattern :: rest) = ([], .error .brokeDown) := by
  rw [startUp, register_of_unreadable h rfl hnow]

/-! ## Forecasts -/

/-- When a pattern that was handed over fires first. -/
structure Forecast where
  /-- The place of the pattern among the arguments. -/
  place : Nat
  /-- The pattern, trimmed. -/
  text : String
  next : Instant
deriving DecidableEq

namespace Forecast

/-- Whether a forecast is for an earlier instant than another one, or for the same instant and a
pattern that was handed over earlier. -/
def Before (a b : Forecast) : Prop := a.next < b.next ∨ (a.next = b.next ∧ a.place < b.place)

instance (a b : Forecast) : Decidable (a.Before b) := inferInstanceAs (Decidable (_ ∨ _))

theorem Before.asymm {a b : Forecast} (h : a.Before b) : ¬ b.Before a := by
  intro h'
  rcases h with h | ⟨hnext, hplace⟩
  · rcases h' with h' | ⟨hnext', -⟩
    · exact Instant.lt_irrefl _ (Instant.lt_trans h h')
    · exact Instant.lt_irrefl _ (hnext' ▸ h)
  · rcases h' with h' | ⟨-, hplace'⟩
    · exact Instant.lt_irrefl _ (hnext ▸ h')
    · exact Nat.lt_asymm hplace hplace'

/-- What is said about a pattern that fires. -/
def notice (f : Forecast) : Notice := .scheduled f.text f.next

end Forecast

/-- The forecasts on schedules from a place on, in the order of the arguments. -/
def forecasts (z : Zone) (horizon : Int) (now : Instant) (place : Nat) (schedules : List Schedule) :
    List Forecast :=
  (schedules.zipIdx place).filterMap fun (schedule, place) =>
    (schedule.firstAfter? z horizon now).map fun next => ⟨place, schedule.text, next⟩

/-- The forecast on an entry that fires. -/
def forecast? (t : Ticket) : Option Forecast :=
  t.entry.next.map fun next => ⟨t.number, t.entry.schedule.text, next⟩

theorem forecast?_eq_some {t : Ticket} {f : Forecast} (h : forecast? t = some f) :
    t.entry.next = some f.next ∧ t.number = f.place := by
  obtain ⟨next, hnext, rfl⟩ := Option.map_eq_some_iff.mp h
  exact ⟨hnext, rfl⟩

theorem Forecast.before_of_before {t u : Ticket} {f g : Forecast} (h : t.Before u)
    (hf : forecast? t = some f) (hg : forecast? u = some g) : f.Before g := by
  obtain ⟨hfnext, hfplace⟩ := forecast?_eq_some hf
  obtain ⟨hgnext, hgplace⟩ := forecast?_eq_some hg
  rw [Ticket.Before, hfnext, hgnext, hfplace, hgplace] at h
  exact h.imp id fun ⟨hnext, hplace⟩ => ⟨Option.some.inj hnext, hplace⟩

/-- The tickets of the entries hold the forecasts on the schedules. -/
theorem filterMap_forecast_issue (tuning : Tuning) (now : Instant) (place : Nat)
    (schedules : List Schedule) :
    (Ticket.issue place ((newEntries place schedules).map
        (Entry.scheduledAfter tuning.zone tuning.horizon now))).filterMap forecast? =
      forecasts tuning.zone tuning.horizon now place schedules := by
  induction schedules generalizing place with
  | nil => rfl
  | cons schedule rest ih =>
    rw [newEntries_cons, List.map_cons, Ticket.issue_cons, forecasts, List.zipIdx_cons]
    rw [List.filterMap_cons, List.filterMap_cons, ih]
    rfl

/-- Behind an entry that never fires, none does. -/
theorem filterMap_forecast_eq_nil {t : Ticket} {l : List Ticket} (ht : t.entry.next = none)
    (hl : ∀ u ∈ l, t.Before u) : l.filterMap forecast? = [] := by
  refine List.filterMap_eq_nil_iff.mpr fun u hu => ?_
  have hbefore := hl u hu
  rw [Ticket.Before, ht] at hbefore
  obtain ⟨hnext, -⟩ := hbefore.resolve_left id
  rw [forecast?, ← hnext]
  rfl

/-- The notices on sorted tickets: first those on what fires, and then those on the rest. -/
theorem map_noticeOf {l : List Ticket} (hl : l.Pairwise Ticket.Before) :
    (l.map Ticket.entry).map noticeOf =
      (l.filterMap forecast?).map Forecast.notice ++
        (Queue.withNext none (l.map Ticket.entry)).map fun e => .neverFires e.schedule.text := by
  induction l with
  | nil => rfl
  | cons t rest ih =>
    obtain ⟨ht, hrest⟩ := List.pairwise_cons.mp hl
    rw [List.map_cons, List.map_cons, ih hrest]
    cases hnext : t.entry.next with
    | some next =>
      have hforecast : forecast? t = some ⟨t.number, t.entry.schedule.text, next⟩ := by
        rw [forecast?, hnext]
        rfl
      have hnotice : noticeOf t.entry = .scheduled t.entry.schedule.text next := by
        rw [noticeOf, hnext]
      rw [List.filterMap_cons_some hforecast, hnotice,
        Queue.withNext_cons_of_ne (by rw [hnext]; nofun)]
      rfl
    | none =>
      have hforecast : forecast? t = none := by
        rw [forecast?, hnext]
        rfl
      have hnotice : noticeOf t.entry = .neverFires t.entry.schedule.text := by
        rw [noticeOf, hnext]
      -- all that is behind such a ticket never fires either, so no forecasts are left
      have hfirst := Queue.withNext_cons_self t.entry (rest.map Ticket.entry)
      rw [hnext] at hfirst
      rw [List.filterMap_cons_none hforecast, hnotice, filterMap_forecast_eq_nil hnext ht, hfirst]
      rfl

/-- The schedules that never fire are those of the entries that never do. -/
theorem withNext_none_firstEntries (tuning : Tuning) (now : Instant) (place : Nat)
    (schedules : List Schedule) :
    (Queue.withNext none ((newEntries place schedules).map
        (Entry.scheduledAfter tuning.zone tuning.horizon now))).map Entry.schedule =
      schedules.filter fun schedule =>
        (schedule.firstAfter? tuning.zone tuning.horizon now).isNone := by
  have hschedules : (newEntries place schedules).map Entry.schedule = schedules := by
    rw [newEntries, List.map_map]
    exact List.zipIdx_map_fst place schedules
  calc _ = ((newEntries place schedules).filter fun e =>
          (e.schedule.firstAfter? tuning.zone tuning.horizon now).isNone).map Entry.schedule := by
        rw [Queue.withNext, List.filter_map, List.map_map]
        refine congrArg (List.map Entry.schedule) (List.filter_congr fun e _ => ?_)
        cases h : e.schedule.firstAfter? tuning.zone tuning.horizon now <;>
          simp [Entry.scheduledAfter, h]
    _ = ((newEntries place schedules).map Entry.schedule).filter fun schedule =>
          (schedule.firstAfter? tuning.zone tuning.horizon now).isNone := by
      rw [List.filter_map]
      rfl
    _ = _ := by rw [hschedules]

/-! ## What is reported -/

/-- The texts of schedules are their patterns, trimmed. -/
theorem texts_of_compile {patterns : List String} {schedules : List Schedule}
    (h : patterns.map Schedule.compile = schedules.map .ok) :
    schedules.map Schedule.text =
      patterns.map fun pattern => String.ofList (Text.trim pattern.toList) := by
  induction patterns generalizing schedules with
  | nil =>
    obtain rfl : schedules = [] := List.map_eq_nil_iff.mp h.symm
    rfl
  | cons pattern rest ih =>
    obtain ⟨schedule, schedules, rfl, hschedule, hschedules⟩ := List.map_eq_cons_iff.mp h.symm
    rw [List.map_cons, List.map_cons, ih hschedules.symm, Schedule.text_of_compile hschedule.symm]

/-- After two hyphens, all arguments of `run` are patterns. -/
theorem parseRun_divided (settingsPath : Option String) (patterns rest : List String)
    (h : patterns ++ rest ≠ []) :
    parseRun settingsPath patterns true rest = .task settingsPath (.run (patterns ++ rest)) := by
  induction rest generalizing patterns with
  | nil =>
    rw [List.append_nil] at h ⊢
    rw [parseRun, if_neg (by simpa using h)]
  | cons pattern rest ih =>
    rw [parseRun, if_pos rfl, ih _ (by simp), List.append_assoc]
    rfl

/-- Any list of patterns can be handed over. -/
theorem plan_run (s : Surroundings) {patterns : List String} (h : patterns ≠ []) :
    plan s ("run" :: "--" :: patterns) =
      .run (settings s none) (zoneFor s (settings s none).clock) patterns := by
  have hparse : parse ("run" :: "--" :: patterns) = .task none (.run patterns) := by
    have hname : shape "run" = .plain := rfl
    have hdivider : shape "--" = .divider := rfl
    have htask : parseTask none "run" ("--" :: patterns) = .task none (.run patterns) := by
      rw [parseTask, if_neg (by decide), if_pos rfl, parseRun, if_neg Bool.false_ne_true, hdivider]
      exact parseRun_divided none [] patterns h
    simp only [parse, parseProgram, hname, htask]
    rfl
  rw [plan, hparse]

/-- **What the task `run` reports at its start.** Any list of patterns but the empty one can be handed
over. If all of them compile and the loop can wait, each is registered with a notice, and then there is
exactly one more notice on each, with the pattern trimmed: first on those that fire within the horizon,
by when they first do so and then by their places among the arguments, and then on those that never
fire, in the order of the arguments. The session goes on from there. If a pattern does not compile,
those before it have been registered, nothing is said about when they fire, and the program ends with
an error that names the first such pattern; for that the clock has to be readable, unless that pattern
is the first of all. -/
theorem startUp_reports (settings : Settings) (zone : Zone) (now : Instant)
    (patterns : List String) :
    (patterns ≠ [] → ∀ s, plan s ("run" :: "--" :: patterns) =
      .run (CommandLine.settings s none) (zoneFor s (CommandLine.settings s none).clock) patterns) ∧
    (∀ schedules : List Schedule, patterns.map Schedule.compile = schedules.map .ok →
      (settings.tuning zone).CanWait now →
      let horizon := max settings.searchYears 1
      let never := schedules.filter fun schedule => (schedule.firstAfter? zone horizon now).isNone
      schedules.map Schedule.text =
        patterns.map (fun pattern => String.ofList (Text.trim pattern.toList)) ∧
      ∃ due : List Forecast, ∃ session,
        due.Perm (forecasts zone horizon now 0 schedules) ∧ due.Pairwise Forecast.Before ∧
        startUp settings zone now patterns =
          (patterns.map .registered ++ due.map Forecast.notice ++
            never.map fun schedule => .neverFires schedule.text, .ok session) ∧
        session.scheduler.isRunning = true ∧ session.clock = now) ∧
    ∀ before bad rest e, ∀ schedules : List Schedule, patterns = before ++ bad :: rest →
      before.map Schedule.compile = schedules.map .ok → Schedule.compile bad = .error e →
      0 ≤ now.seconds ∨ before = [] →
      startUp settings zone now patterns = (before.map .registered,
        .error (.reported ("cannot register pattern " ++ Text.quoted bad))) := by
  refine ⟨fun h s => plan_run s h, fun schedules hpatterns hwait => ?_, ?_⟩
  · intro horizon never
    let tuning := settings.tuning zone
    let es := firstEntries tuning now schedules
    let a := Agenda.ofEntries es
    let session : Session := ⟨{ tuning, phase := .running (.waiting ⟨es⟩), pending := [] }, now⟩
    have hfireOrder : (⟨es⟩ : Queue).fireOrder = a.entries :=
      (Agenda.represents_ofEntries es).fireOrder_eq
    have hforecasts : (Ticket.issue 0 es).filterMap forecast? = forecasts zone horizon now 0 schedules :=
      filterMap_forecast_issue tuning now 0 schedules
    have hnever : (Queue.withNext none a.entries).map Entry.schedule = never := by
      rw [← hfireOrder, Queue.withNext_fireOrder]
      exact withNext_none_firstEntries tuning now 0 schedules
    refine ⟨texts_of_compile hpatterns, a.tickets.filterMap forecast?, session, ?_, ?_, ?_, rfl, rfl⟩
    · rw [← hforecasts]
      exact (Ticket.perm_sorted _).filterMap forecast?
    · exact List.pairwise_filterMap.mpr
        (a.sorted.imp fun h f hf g hg => Forecast.before_of_before h hf hg)
    -- sorting left what never fires in the order of the arguments (hnever)
    · rw [startUp_of_canWait hpatterns hwait, hfireOrder, Agenda.entries, map_noticeOf a.sorted,
        ← hnever, List.map_map, List.append_assoc]
      rfl
  · rintro before bad rest e schedules rfl hbefore hbad hnow
    rw [startUp, register_append hbefore hnow (bad :: rest) 0 (Scheduler.new _) rfl,
      register_of_not_compile hbad, List.append_nil]

/-- Two patterns are due at once, one fires in a year, and one never. With a text that is no pattern
among them, the program ends there. -/
theorem startUp_reports_in_order :
    let now := Instant.ofSeconds 0
    let patterns := ["0 0 0 1 1 *", " * * * * * * ", "* * * 30 2 *", "* * * * * *"]
    let surroundings : Surroundings :=
      { file := fun _ => none, directory := "/", environment := [], zone := .utc, now }
    plan surroundings ("run" :: "--" :: patterns) = .run Settings.default .utc patterns ∧
    (∃ session, startUp Settings.default .utc now patterns =
      ([.registered "0 0 0 1 1 *", .registered " * * * * * * ", .registered "* * * 30 2 *",
        .registered "* * * * * *", .scheduled "* * * * * *" (Instant.ofSeconds 1),
        .scheduled "* * * * * *" (Instant.ofSeconds 1),
        .scheduled "0 0 0 1 1 *" (Instant.ofSeconds 31536000), .neverFires "* * * 30 2 *"],
        .ok session)) ∧
    startUp Settings.default .utc now ["* * * * * *", "every hour", "* * *"] =
      ([.registered "* * * * * *"], .error (.reported "cannot register pattern \"every hour\"")) := by
  intro now patterns surroundings
  let compiled := fun l : List String => l.filterMap fun text => (Schedule.compile text).toOption
  obtain ⟨hplan, hall, -⟩ := startUp_reports Settings.default .utc now patterns
  obtain ⟨-, due, session, hperm, horder, hstart, -⟩ :=
    hall (compiled patterns) rfl ⟨by decide, by decide⟩
  have hdue : due = [⟨1, "* * * * * *", Instant.ofSeconds 1⟩, ⟨3, "* * * * * *", Instant.ofSeconds 1⟩,
      ⟨0, "0 0 0 1 1 *", Instant.ofSeconds 31536000⟩] := by
    refine List.Perm.eq_of_pairwise (fun f g _ _ hfg hgf => (Forecast.Before.asymm hfg hgf).elim)
      horder (by decide) (hperm.trans ?_)
    decide +kernel
  have hsettings : settings surroundings none = Settings.default := by decide +kernel
  refine ⟨?_, ⟨session, ?_⟩, ?_⟩
  · rw [hplan (by decide) surroundings, hsettings]
    rfl
  · rw [hstart, hdue, Prod.mk.injEq]
    exact ⟨by decide +kernel, rfl⟩
  · obtain ⟨-, -, hfirst⟩ :=
      startUp_reports Settings.default .utc now ["* * * * * *", "every hour", "* * *"]
    exact hfirst ["* * * * * *"] "every hour" ["* * *"] (.badShape "every hour")
      (compiled ["* * * * * *"]) rfl rfl rfl (.inl (by decide))

/-- At a clock that shows a time before 1970 the program breaks down as soon as a pattern compiles,
although that pattern fires within a second: it is not reported as registered, when it fires is never
said, and a later text that is no pattern is not named. -/
theorem no_report_before_1970 :
    let now := Instant.ofSeconds (-1)
    (Schedule.compile "* * * * * *").toOption.map (·.firstAfter? .utc 5 now) =
        some (some (Instant.ofSeconds 0)) ∧
      (Schedule.compile "every hour").isOk = false ∧
      Instant.firstSecond ≤ now.seconds ∧
      now.seconds + (Settings.default.tuning .utc).idleSeconds ≤ Instant.lastSecond ∧
      startUp Settings.default .utc now ["* * * * * *"] = ([], .error .brokeDown) ∧
      startUp Settings.default .utc now ["* * * * * *", "every hour"] = ([], .error .brokeDown) := by
  intro now
  obtain ⟨schedule, hcompile⟩ : ∃ schedule, Schedule.compile "* * * * * *" = .ok schedule :=
    ⟨_, rfl⟩
  have hnow : now.seconds < 0 := by decide
  exact ⟨by decide +kernel, by decide +kernel, by decide, by decide,
    startUp_of_unreadable hcompile hnow, startUp_of_unreadable hcompile hnow⟩

end CommandLine

end Cron
