import Cron.Proofs.Dispatch
import Cron.Proofs.Recurrence

/-!
# Entries that do not fire again

If nothing is found after an occurrence, the loop keeps the entry without a next occurrence. Such an
entry is parked: however long the loop goes on, it does not look for a next occurrence again, and
the entry does not fire any more.

Where the offset is constant, all that occurs after the last time at which the entry was due lies
beyond the search from there. So the entry misses nothing within the horizon, and nothing at all if
its schedule recurs within the horizon. Otherwise it may miss occurrences that lie further ahead.

Headlines:
* `Held.stays_parked`: a parked entry stays parked;
* `never_within_horizon`: what never means, for a search and for an entry.
-/

namespace Cron

namespace Scheduler

/-- A loop waits with an entry and with no other one of its name. -/
def WaitsWith (s : Scheduler) (f : Entry) : Prop :=
  ∃ q, s.phase = .running (.waiting q) ∧ q.entriesOf f.id = [f]

variable {s : Scheduler} {id : EntryId} {schedule : Schedule} {since : Instant} {dues : List Instant}
  {q : Queue} {f : Entry}

theorem Tracks.waitsWith (h : s.Tracks id schedule since dues q f) : f.id = id ∧ s.WaitsWith f := by
  have hmem : f ∈ q.entriesOf id := h.entriesOf_eq ▸ List.mem_cons_self
  obtain rfl := of_decide_eq_true (List.mem_filter.mp hmem).2
  exact ⟨rfl, q, h.phase_eq, h.entriesOf_eq⟩

end Scheduler

namespace Session

open Schedule (Beyond)

variable {start : Session} {before rest more : List Step} {x : Step} {e f : Entry}

theorem Held.of_append (h : Held start before x (rest ++ more) e) : Held start before x rest e := by
  have hsteps : before ++ x :: (rest ++ more) = (before ++ x :: rest) ++ more := by
    rw [List.append_assoc, List.cons_append]
  have honce := h.once
  have halive := h.alive
  rw [hsteps, addedIds_history_append, List.count_append] at honce
  rw [← List.cons_append, after_append] at halive
  exact ⟨by omega, h.free, h.scheduled, fun y hy => h.kept y (List.mem_append_left more hy),
    takesCommands_after halive⟩

/-- **A parked entry stays parked.** -/
theorem Held.stays_parked (h : Held start before x (rest ++ more) e)
    (hnew : start.scheduler.copies e.id = 0)
    (hwaits : ((start.after before).after (x :: rest)).scheduler.WaitsWith f) (hid : f.id = e.id)
    (hnone : f.next = none) :
    duesOf e.id (((start.after before).after (x :: rest)).firings more) = [] ∧
      ∃ g : Entry, g.id = e.id ∧ g.next = none ∧
        ((start.after before).after (x :: rest ++ more)).scheduler.WaitsWith g := by
  obtain ⟨q, f', hfirst⟩ := h.of_append.tracks hnew
  obtain ⟨r, g, hlast⟩ := h.tracks hnew
  obtain ⟨q', hphase, hentries⟩ := hwaits
  -- the entry that the loop waits with is the one that was followed
  obtain rfl : q = q' := by
    have := hfirst.phase_eq.symm.trans hphase
    cases this
    rfl
  obtain rfl : f' = f := by
    rw [hid, hfirst.entriesOf_eq] at hentries
    exact (List.cons.inj hentries).1
  have htuning : ((start.after before).after (x :: (rest ++ more))).scheduler.tuning =
      ((start.after before).after (x :: rest)).scheduler.tuning := by
    simp only [tuning_after]
  have htraversed := hfirst.traversed
  have htraversed' := hlast.traversed
  rw [htuning, ← List.cons_append, firings_append, duesOf_append] at htraversed'
  rw [hnone] at htraversed
  obtain ⟨hmore, hnext⟩ := htraversed.append_eq_nil htraversed'
  obtain ⟨hgid, hg⟩ := hlast.waitsWith
  exact ⟨hmore, g, hgid, hnext, hg⟩

/-- What a loop waits with is found after the last time at which the entry was due. -/
theorem Held.next_eq (h : Held start before x rest e) (hnew : start.scheduler.copies e.id = 0) :
    let dues := duesOf e.id ((start.after before).firings (x :: rest))
    let last := dues.getLastD (start.after before).clock
    ∃ f : Entry, f.id = e.id ∧ ((start.after before).after (x :: rest)).scheduler.WaitsWith f ∧
      f.next = e.schedule.firstAfter? start.scheduler.tuning.zone start.scheduler.tuning.horizon last ∧
      Instant.firstSecond ≤ last.seconds := by
  intro dues last
  obtain ⟨q, f, htracks⟩ := h.tracks hnew
  obtain ⟨hid, hwaits⟩ := htracks.waitsWith
  have htraversed := htracks.traversed
  simp only [tuning_after] at htraversed
  have hlast := Instant.seconds_le_of_le htraversed.le_getLastD
  have hfirst : Instant.firstSecond ≤ 0 := by decide
  exact ⟨f, hid, hwaits, htraversed.next_eq,
    Int.le_trans hfirst (Int.le_trans htracks.since_nonneg hlast)⟩

/-- **What never means.** Where the offset is constant, a search finds nothing exactly if all that
occurs later lies beyond it, and then later searches find only what lies beyond it. If the schedule
recurs within the horizon, it finds nothing exactly if nothing occurs later. Every schedule recurs
within forty years, and one for which the day of the week does not matter within one, unless it only
allows dates that some years do not have.

An entry that is held without a next occurrence does not fire again as long as it is held. All that
occurs after the last time at which it was due, or after it was scheduled, lies beyond the search from
there, and nothing occurs then if its schedule recurs within the horizon. -/
theorem never_within_horizon :
    (∀ (s : Schedule) (z : Zone) (offset horizon : Int) (since : Instant), z.HasOffset offset →
      Instant.firstSecond ≤ since.seconds →
        (s.firstAfter? z horizon since = none ↔
          ∀ t, s.Occurs z t → since < t → Beyond z horizon since t) ∧
        (s.firstAfter? z horizon since = none → ∀ later t, since ≤ later →
          s.firstAfter? z horizon later = some t → Beyond z horizon since t) ∧
        ∀ n, s.RecursWithin n → n ≤ horizon →
          (s.firstAfter? z horizon since = none ↔ ∀ t, s.Occurs z t → ¬ since < t) ∧
          (s.firstAfter? z horizon since = none → ∀ later, since ≤ later →
            s.firstAfter? z horizon later = none)) ∧
    (∀ s : Schedule, s.RecursWithin 40 ∧ (s.Yearly → s.RecursWithin 1)) ∧
    ∀ (tuning : Tuning) (clock : Instant) (before : List Step) (x : Step) (rest more : List Step)
      (e : Entry), Held (new tuning clock) before x (rest ++ more) e →
        let session := (new tuning clock).after before
        let dues := duesOf e.id (session.firings (x :: rest))
        let last := dues.getLastD session.clock
        ∃ f : Entry, f.id = e.id ∧ (session.after (x :: rest)).scheduler.WaitsWith f ∧
          (f.next = none →
            duesOf e.id ((session.after (x :: rest)).firings more) = [] ∧
            (∃ g : Entry, g.id = e.id ∧ g.next = none ∧
              (session.after (x :: rest ++ more)).scheduler.WaitsWith g) ∧
            ∀ offset, tuning.zone.HasOffset offset →
              (∀ t, e.schedule.Occurs tuning.zone t → last < t →
                Beyond tuning.zone tuning.horizon last t) ∧
              ∀ n, e.schedule.RecursWithin n → n ≤ tuning.horizon →
                ∀ t, e.schedule.Occurs tuning.zone t → ¬ last < t) := by
  refine ⟨fun s z offset horizon since hz hcal => ⟨Schedule.firstAfter_eq_none_iff_beyond hz hcal,
    fun hnone later t => Schedule.beyond_of_firstAfter_later hz hcal hnone, fun n hrecurs hn =>
      ⟨Schedule.firstAfter_eq_none_iff_of_recursWithin hrecurs hn hz hcal, fun hnone later =>
        Schedule.firstAfter_eq_none_of_later hrecurs hn hz hcal hnone⟩⟩,
    fun s => ⟨s.recursWithin_forty, Schedule.Yearly.recursWithin_one⟩, ?_⟩
  intro tuning clock before x rest more e hheld session dues last
  obtain ⟨f, hid, hwaits, hnext, hcal⟩ := hheld.of_append.next_eq rfl
  refine ⟨f, hid, hwaits, fun hnone => ?_⟩
  obtain ⟨hmore, hparked⟩ := hheld.stays_parked rfl hwaits hid hnone
  have hnever : e.schedule.firstAfter? tuning.zone tuning.horizon last = none :=
    hnext.symm.trans hnone
  refine ⟨hmore, hparked, fun offset hz => ⟨?_, fun n hrecurs hn => ?_⟩⟩
  · exact (Schedule.firstAfter_eq_none_iff_beyond hz hcal).mp hnever
  · exact (Schedule.firstAfter_eq_none_iff_of_recursWithin hrecurs hn hz hcal).mp hnever

/-- The schedule of the leap days. -/
def leapDays : Schedule := (Schedule.compile "0 0 0 29 2 ?").toOption.getD Schedule.everySecond

/-- An entry for the leap days is parked at the one of 2096. It misses nothing up to the end of 2101, and
it does not fire again up to March 2104. A search that looks forty years ahead finds no 30 February, so
there is none at all. -/
theorem never_within_horizon_of_february :
    let tuning : Tuning := { zone := .utc, horizon := 5, idleSeconds := 86400 }
    let start := new tuning (Instant.ofSeconds 3981311999)
    let before : List Step := [⟨.add ⟨"a"⟩ "0 0 0 29 2 ?", false⟩]
    let x : Step := ⟨.start true, true⟩
    let rest : List Step := [⟨.advance 1000, false⟩]
    let more : List Step := [⟨.setClock (Instant.ofSeconds 4233772800), false⟩, ⟨.runTasks, false⟩]
    let e : Entry :=
      { id := ⟨"a"⟩, schedule := leapDays, next := some (Instant.ofSeconds 3981312000), prev := none }
    let session := (start.after before).after (x :: rest)
    Held start before x (rest ++ more) e ∧
      duesOf ⟨"a"⟩ (session.firings more) = [] ∧
      (∀ t, leapDays.Occurs .utc t → Instant.ofSeconds 3981312000 < t →
        2101 < (Zone.utc.wallTime t).date.year) ∧
      ∀ t, ((Schedule.compile "0 0 0 30 2 ?").toOption.getD Schedule.everySecond).Occurs .utc t →
        ¬ Instant.ofSeconds 0 < t := by
  intro tuning start before x rest more e session
  -- the run is evaluated once for all that is read off it
  obtain ⟨hheld, hwaiting, hlast⟩ :
      Held start before x (rest ++ more) e ∧
        (∀ g ∈ session.scheduler.waiting, g.next = none) ∧
        (duesOf e.id ((start.after before).firings (x :: rest))).getLastD
          (start.after before).clock = Instant.ofSeconds 3981312000 := by
    decide +kernel
  obtain ⟨hsearch, hforty, hentry⟩ := never_within_horizon
  obtain ⟨f, hid, ⟨q, hphase, hsole⟩, hparked⟩ := hentry tuning _ before x rest more e hheld
  have hnone : f.next = none := by
    refine hwaiting f ?_
    have hmem : f ∈ q.entriesOf f.id := hsole ▸ List.mem_singleton_self f
    rw [Scheduler.waiting, hphase]
    exact (List.mem_filter.mp hmem).1
  obtain ⟨hmore, -, hmissed⟩ := hparked hnone
  rw [hlast] at hmissed
  refine ⟨hheld, hmore, fun t ht hlt => ?_, ?_⟩
  · exact ((hmissed 0 Zone.hasOffset_utc).1 t ht hlt).limit_lt
  · obtain ⟨-, -, hrecurs⟩ :=
      hsearch ((Schedule.compile "0 0 0 30 2 ?").toOption.getD Schedule.everySecond) .utc 0 40
        (Instant.ofSeconds 0) Zone.hasOffset_utc (by decide)
    exact (hrecurs 40 (hforty _).1 (Int.le_refl 40)).1.mp (by decide +kernel)

/-- Nothing is found after the leap day of 2096, though there is one in 2104, which is found from 2100 on.
An entry that fires in 2096 is parked, and it is still parked behind the leap day of 2104. -/
theorem never_before_leap_day :
    let leapDay := Instant.ofSeconds 4233686400
    let start := new { zone := .utc, horizon := 5, idleSeconds := 86400 } (Instant.ofSeconds 3981311999)
    let steps : List Step :=
      [⟨.add ⟨"a"⟩ "0 0 0 29 2 ?", false⟩, ⟨.start true, true⟩, ⟨.advance 1000, false⟩,
        ⟨.setClock (Instant.ofSeconds 4233772800), false⟩, ⟨.runTasks, false⟩]
    leapDays.next? .utc (Instant.ofSeconds 3981312000) = none ∧
      Instant.ofSeconds 3981312000 < leapDay ∧ leapDays.occursAt .utc leapDay = true ∧
      leapDays.next? .utc (Instant.ofSeconds 4102444800) = some leapDay ∧
      leapDay < (start.after steps).clock ∧
      (start.firings steps).map Firing.due = [Instant.ofSeconds 3981312000] ∧
      (start.after steps).scheduler.waiting =
        [{ id := ⟨"a"⟩, schedule := leapDays, next := none
           prev := some (Instant.ofSeconds 3981312000) }] := by
  decide +kernel

end Session

end Cron
