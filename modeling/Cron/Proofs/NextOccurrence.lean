import Cron.Proofs.SearchExact
import Cron.Proofs.ZoneMapping
import Cron.Schedule.Occurrence

/-!
# The first occurrence after an instant

Two searches work together: one on the wall clock, and around it one that passes over the times
that the zone does not show late enough. Both go forward only, so what the outer search finds is
the first time that it may come to and that the zone places late enough.

Where the offset is constant, a time that is not placed lies behind the end of the calendar, and so
do all later ones. So the first occurrence shows the first candidate (`Schedule.Candidate`), and
there is none exactly if there is no candidate.

Where the offset changes, wall times and instants need not be in the same order. Among the times up
to the last year that the zone places late enough (`Schedule.Attainable`), the first one is found.

Headlines:
* `firstAfter_exact_of_hasOffset`: the search is exact where the offset is constant;
* `firstAfter_least_attainable`: in every zone what is found is later and an occurrence, and the
  first attainable time is found.
-/

namespace Cron

open WallTime (newYear)

/-- What a wall time shows in a field is within the range of the field. -/
theorem WallTime.value_bounds (t : WallTime) (field : Field) :
    field.min ≤ t.value field ∧ t.value field ≤ field.max := by
  have := t.second_lt
  have := t.minute_lt
  have := t.hour_lt
  have := t.date.one_le_month
  have := t.date.month_le
  have := t.date.one_le_day
  have := t.date.day_le
  have : daysInMonth t.date.year t.date.month ≤ 31 := by
    unfold daysInMonth
    split <;> (try split) <;> omega
  have : t.date.dayOfWeek ≤ 6 := by
    unfold Date.dayOfWeek
    omega
  cases field <;> simp only [WallTime.value, Field.min, Field.max] <;> omega

namespace Schedule

variable {s : Schedule} {z : Zone} {offset horizon limit : Int} {since t : Instant}
  {start u v w : WallTime}

/-- A schedule that allows a time is satisfiable. -/
theorem isSatisfiable_of_allows (h : s.Allows w) : s.isSatisfiable = true :=
  isSatisfiable_iff.mpr fun field => ⟨w.value field, h field, w.value_bounds field⟩

/-- The schedule that allows every time. -/
def everySecond : Schedule := { text := "* * * * * *", allowed := calendarValues }

theorem allows_everySecond (w : WallTime) : everySecond.Allows w :=
  fun field => mem_calendarValues.mpr (w.value_bounds field)

/-- The outer search by its steps. -/
theorem firstFrom?_eq (s : Schedule) (z : Zone) (since : Instant) (limit : Int) (start : WallTime) :
    s.firstFrom? z since limit start =
      (s.search limit start).bind fun found =>
        ((z.locate found).after? since).or
          (if found.nextSecond.date.year ≤ lastYear then
            s.firstFrom? z since limit found.nextSecond
          else none) := by
  conv =>
    lhs
    unfold firstFrom?
  split
  next hnone => rw [hnone, Option.bind_none]
  next found hfound =>
    rw [hfound, Option.bind_some]
    cases (z.locate found).after? since <;> rfl

/-- What is found after an instant is found from the following second on. -/
theorem firstAfter?_eq_some_iff :
    s.firstAfter? z horizon since = some t ↔
      let start := (z.wallTime since).nextSecond
      (s.isSatisfiable = true ∧ start.date.year ≤ lastYear) ∧
        s.firstFrom? z since (yearLimit start.date.year horizon) start = some t := by
  simp only [firstAfter?, Option.ite_none_right_eq_some]

/-- What is found is shown at a time that is allowed. -/
theorem shows_of_firstFrom (h : s.firstFrom? z since limit start = some t) :
    ∃ w, z.Shows t w ∧ s.Allows w := by
  fun_induction firstFrom? s z since limit start with
  | case1 => cases h
  | case2 start found hfound u hafter =>
    cases h
    exact ⟨found, Zone.shows_of_after?_locate hafter,
      accepts_iff_allows.mp (accepts_of_search hfound)⟩
  | case3 _ _ _ _ _ ih => exact ih h
  | case4 => cases h

theorem shows_of_firstAfter (h : s.firstAfter? z horizon since = some t) :
    ∃ w, z.Shows t w ∧ s.Allows w :=
  shows_of_firstFrom (firstAfter?_eq_some_iff.mp h).2

/-- What is found is an occurrence. -/
theorem occursAt_of_firstAfter (h : s.firstAfter? z horizon since = some t) :
    s.occursAt z t = true := by
  obtain ⟨w, hshows, hallows⟩ := shows_of_firstAfter h
  rw [occursAt, hshows.wallTime_eq]
  exact accepts_iff_allows.mpr hallows

/-! ## Constant offsets -/

/-- A time that may be found where the offset is constant: the search may come to it, and its
instant lies in the calendar. -/
structure Candidate (s : Schedule) (z : Zone) (limit : Int) (start w : WallTime) : Prop
    extends s.Eligible limit start w where
  shown : ∃ t, z.Shows t w

/-- Behind the end of the calendar nothing is found. -/
theorem firstFrom?_eq_none_of_lastSecond_lt (hz : z.HasOffset offset)
    (h : Instant.lastSecond < start.seconds - offset) :
    s.firstFrom? z since limit start = none := by
  fun_induction firstFrom? s z since limit start with
  | case1 => rfl
  | case2 start found hfound t hafter =>
    obtain ⟨hshows, -⟩ := hz.after?_locate_eq_some_iff.mp hafter
    have hseconds := hz.seconds_eq hshows
    have hlast := hshows.le_lastSecond
    have hle := le_of_search hfound
    omega
  | case3 start found hfound hafter hyear ih =>
    have hle := le_of_search hfound
    refine ih ?_
    rw [WallTime.seconds_nextSecond]
    omega
  | case4 => rfl

/-- From a time in the calendar and later than the given instant, the first candidate is found. -/
theorem firstFrom?_spec (hz : z.HasOffset offset) (hyear : start.date.year ≤ lastYear)
    (hlater : since.seconds + offset < start.seconds) (hcal : Instant.firstSecond ≤ since.seconds) :
    (∀ t, s.firstFrom? z since limit start = some t →
      ∃ w, Candidate s z limit start w ∧
        (∀ v, Candidate s z limit start v → w.seconds ≤ v.seconds) ∧ z.Shows t w) ∧
    (s.firstFrom? z since limit start = none → ∀ w, ¬ Candidate s z limit start w) := by
  unfold firstFrom?
  split
  next hnone =>
    refine ⟨fun t ht => ?_, fun _ w hw => ?_⟩
    · cases ht
    · exact (search_eq_none_iff hyear).mp hnone w hw.toEligible
  next found hfound =>
    obtain ⟨heligible, hleast⟩ := (search_eq_some_iff hyear).mp hfound
    have hle := heligible.start_le
    split
    next t hafter =>
      obtain ⟨hshows, hlt⟩ := hz.after?_locate_eq_some_iff.mp hafter
      refine ⟨fun u hu => ?_, fun hu => ?_⟩
      · cases hu
        exact ⟨found, ⟨heligible, _, hshows⟩, fun v hv => hleast v hv.toEligible, hshows⟩
      · cases hu
    next hafter =>
      -- whatever shows the time is later than the given instant, so nothing shows it
      have hunshown : ¬ ∃ t, z.Shows t found := by
        rintro ⟨t, hshows⟩
        have hseconds := hz.seconds_eq hshows
        have hlt : since < t := Instant.lt_def.mpr (.inl (by omega))
        rw [hz.after?_locate_eq_some_iff.mpr ⟨hshows, hlt⟩] at hafter
        cases hafter
      have hpast : Instant.lastSecond < found.seconds - offset := by
        rw [hz.exists_shows_iff] at hunshown
        omega
      have hnever : (if _hn : found.nextSecond.date.year ≤ lastYear then
          s.firstFrom? z since limit found.nextSecond else none) = none := by
        split
        · refine firstFrom?_eq_none_of_lastSecond_lt hz ?_
          rw [WallTime.seconds_nextSecond]
          omega
        · rfl
      rw [hnever]
      refine ⟨fun t ht => ?_, fun _ w hw => ?_⟩
      · cases ht
      · have hfw := hleast w hw.toEligible
        have hw' := hz.exists_shows_iff.mp hw.shown
        omega

/-- After an instant, the first candidate is found. -/
theorem firstAfter?_spec (hz : z.HasOffset offset) (hcal : Instant.firstSecond ≤ since.seconds)
    (s : Schedule) (horizon : Int) :
    let start := (z.wallTime since).nextSecond
    let limit := yearLimit start.date.year horizon
    (∀ t, s.firstAfter? z horizon since = some t →
      ∃ w, Candidate s z limit start w ∧
        (∀ v, Candidate s z limit start v → w.seconds ≤ v.seconds) ∧ z.Shows t w) ∧
    (s.firstAfter? z horizon since = none → ∀ w, ¬ Candidate s z limit start w) := by
  intro start limit
  have hlater : since.seconds + offset < start.seconds := by
    rw [WallTime.seconds_nextSecond, hz.seconds_wallTime]
    omega
  unfold firstAfter?
  simp only
  split
  next h => exact firstFrom?_spec hz h.2 hlater hcal
  next h =>
    refine ⟨nofun, fun _ w hw => h ⟨isSatisfiable_of_allows hw.allows, ?_⟩⟩
    exact Int.le_trans (WallTime.year_le_of_seconds_le hw.start_le) hw.year_le

/-- **The search is exact where the offset is constant.** What is found after an instant shows the
first candidate, and nothing is found exactly if there is no candidate. So nothing is found if the
second after the instant is behind the end of the calendar, or if some field allows no value of its
range. -/
theorem firstAfter_exact_of_hasOffset (hz : z.HasOffset offset)
    (hcal : Instant.firstSecond ≤ since.seconds) (s : Schedule) (horizon : Int) :
    let start := (z.wallTime since).nextSecond
    let limit := yearLimit start.date.year horizon
    (∀ t, s.firstAfter? z horizon since = some t ↔
      ∃ w, Candidate s z limit start w ∧
        (∀ v, Candidate s z limit start v → w.seconds ≤ v.seconds) ∧ z.Shows t w) ∧
    (s.firstAfter? z horizon since = none ↔ ∀ w, ¬ Candidate s z limit start w) ∧
    (lastYear < start.date.year → s.firstAfter? z horizon since = none) ∧
    (s.isSatisfiable = false → s.firstAfter? z horizon since = none) := by
  intro start limit
  have hspec := firstAfter?_spec hz hcal s horizon
  refine ⟨fun t => ⟨hspec.1 t, ?_⟩, ⟨hspec.2, fun hnone => ?_⟩, fun hyear => ?_, fun hunsat => ?_⟩
  · rintro ⟨w, hw, hleast, hshows⟩
    cases h : s.firstAfter? z horizon since with
    | none => exact absurd hw (hspec.2 h w)
    | some u =>
      obtain ⟨v, hv, hleast', hshows'⟩ := hspec.1 u h
      have h1 := hleast v hv
      have h2 := hleast' w hw
      have ht := hz.seconds_eq hshows
      have hu := hz.seconds_eq hshows'
      exact congrArg some (Instant.eq_of_seconds_eq hshows'.whole hshows.whole (by omega))
  · cases h : s.firstAfter? z horizon since with
    | none => rfl
    | some u =>
      obtain ⟨w, hw, -⟩ := hspec.1 u h
      exact absurd hw (hnone w)
  · exact if_neg fun h => Int.not_lt.mpr h.2 hyear
  · exact if_neg fun h => Bool.false_ne_true (hunsat.symm.trans h.1)

/-- Half a second into the leap second at the end of 2016, an hour east of UTC: with a horizon of
minus one year, the search may only come to its start. -/
theorem firstAfter_exact_at_leap_second :
    (Zone.fixed 3600).HasOffset 3600 ∧ Instant.firstSecond ≤ 1483228799 ∧
      everySecond.firstAfter? (.fixed 3600) (-1) ⟨1483228799, 1500000000, by decide⟩ =
        some (Instant.ofSeconds 1483228800) := by
  have hz := Zone.hasOffset_fixed 3600
  have hcal : Instant.firstSecond ≤ 1483228799 := by decide
  refine ⟨hz, hcal, ?_⟩
  have hexact := @firstAfter_exact_of_hasOffset (.fixed 3600) 3600
    ⟨1483228799, 1500000000, by decide⟩ hz hcal everySecond (-1)
  have hshows : (Zone.fixed 3600).Shows (Instant.ofSeconds 1483228800)
      ((Zone.fixed 3600).wallTime ⟨1483228799, 1500000000, by decide⟩).nextSecond :=
    ⟨rfl, by decide, by decide, by decide +kernel⟩
  refine (hexact.1 _).mpr ⟨_, ⟨⟨Int.le_refl _, ?_, ?_, .inr (.inr rfl)⟩, _, hshows⟩, ?_, hshows⟩
  · decide +kernel
  · exact allows_everySecond _
  · exact fun v hv => hv.start_le

/-! ## Zones with changes -/

/-- A time up to the last year that is allowed and that the zone places later than an instant. -/
structure Attainable (s : Schedule) (z : Zone) (since : Instant) (limit : Int)
    (start w : WallTime) : Prop where
  start_le : start.seconds ≤ w.seconds
  year_le : w.date.year ≤ lastYear
  allows : s.Allows w
  year_le_limit : w.date.year ≤ limit
  kept : ∃ first last, z.Keeps w first last ∧ (since < first ∨ since < last)

theorem Attainable.eligible (h : s.Attainable z since limit start w) : s.Eligible limit start w :=
  ⟨h.start_le, h.year_le, h.allows, .inl h.year_le_limit⟩

/-- A time that the zone does not place late enough is not attainable. -/
theorem Attainable.seconds_ne (hw : s.Attainable z since limit start w)
    (h : (z.locate v).after? since = none) : v.seconds ≠ w.seconds := by
  intro heq
  obtain ⟨first, last, hkeeps, hlater⟩ := hw.kept
  rw [← WallTime.ext_seconds heq] at hkeeps
  rw [Zone.after?_locate_eq_some_iff.mpr ⟨first, last, hkeeps, hlater, rfl⟩] at h
  cases h

/-- The outer search passes over what is not attainable, and finds the first attainable time. -/
theorem firstFrom?_of_attainable (hyear : start.date.year ≤ lastYear)
    (hw : s.Attainable z since limit start w) :
    ∃ v first last, s.Attainable z since limit start v ∧
      (∀ u, s.Attainable z since limit start u → v.seconds ≤ u.seconds) ∧
      z.Keeps v first last ∧
      s.firstFrom? z since limit start = some (if since < first then first else last) := by
  fun_induction firstFrom? s z since limit start with
  | case1 start hnone => exact absurd hw.eligible ((search_eq_none_iff hyear).mp hnone w)
  | case2 start found hfound t hafter =>
    obtain ⟨heligible, hleast⟩ := (search_eq_some_iff hyear).mp hfound
    obtain ⟨first, last, hkeeps, hlater, rfl⟩ := Zone.after?_locate_eq_some_iff.mp hafter
    have hlimit : found.date.year ≤ limit :=
      Int.le_trans (WallTime.year_le_of_seconds_le (hleast w hw.eligible)) hw.year_le_limit
    exact ⟨found, first, last,
      ⟨heligible.start_le, heligible.year_le, heligible.allows, hlimit, first, last, hkeeps, hlater⟩,
      fun u hu => hleast u hu.eligible, hkeeps, rfl⟩
  | case3 start found hfound hafter hnext ih =>
    obtain ⟨heligible, hleast⟩ := (search_eq_some_iff hyear).mp hfound
    -- the time that was found is not attainable, so the attainable ones come later
    have hiff : ∀ u, s.Attainable z since limit start u ↔
        s.Attainable z since limit found.nextSecond u := by
      intro u
      constructor
      · intro hu
        have hle := hleast u hu.eligible
        have hne := hu.seconds_ne hafter
        refine ⟨?_, hu.year_le, hu.allows, hu.year_le_limit, hu.kept⟩
        rw [WallTime.seconds_nextSecond]
        omega
      · intro hu
        have hle := hu.start_le
        rw [WallTime.seconds_nextSecond] at hle
        have := heligible.start_le
        exact ⟨by omega, hu.year_le, hu.allows, hu.year_le_limit, hu.kept⟩
    obtain ⟨v, first, last, hv, hvleast, hkeeps, heq⟩ := ih hnext ((hiff w).mp hw)
    exact ⟨v, first, last, (hiff v).mpr hv, fun u hu => hvleast u ((hiff u).mp hu), hkeeps, heq⟩
  | case4 start found hfound hafter hnext =>
    obtain ⟨heligible, hleast⟩ := (search_eq_some_iff hyear).mp hfound
    have hle := hleast w hw.eligible
    have hne := hw.seconds_ne hafter
    have hnextle : found.nextSecond.seconds ≤ w.seconds := by
      rw [WallTime.seconds_nextSecond]
      omega
    exact absurd (Int.le_trans (WallTime.year_le_of_seconds_le hnextle) hw.year_le) hnext

/-- **The search in every zone.** What is found after an instant is later and an occurrence. If
some time is attainable, then the first one is found: at the first instant kept for it if that is
later than the given one, else at the last. -/
theorem firstAfter_least_attainable (s : Schedule) (z : Zone) (horizon : Int) (since : Instant) :
    let start := (z.wallTime since).nextSecond
    let limit := yearLimit start.date.year horizon
    (∀ t, s.firstAfter? z horizon since = some t → since < t ∧ s.occursAt z t = true) ∧
    ((∃ w, s.Attainable z since limit start w) →
      ∃ w first last, s.Attainable z since limit start w ∧
        (∀ v, s.Attainable z since limit start v → w.seconds ≤ v.seconds) ∧
        z.Keeps w first last ∧
        s.firstAfter? z horizon since = some (if since < first then first else last)) := by
  intro start limit
  refine ⟨fun t h => ⟨lt_of_firstAfter h, occursAt_of_firstAfter h⟩, ?_⟩
  rintro ⟨w, hw⟩
  have hyear : start.date.year ≤ lastYear :=
    Int.le_trans (WallTime.year_le_of_seconds_le hw.start_le) hw.year_le
  have hfirst : s.firstAfter? z horizon since = s.firstFrom? z since limit start :=
    if_pos ⟨isSatisfiable_of_allows hw.allows, hyear⟩
  rw [hfirst]
  exact firstFrom?_of_attainable hyear hw

/-- A clock is set back from two to one o'clock at 06:00 UTC. After twenty past one, when it shows
that for the second time, the next second counts at the later of its two instants. -/
theorem firstAfter_least_attainable_in_repeated_hour :
    let z := Zone.shifting (-14400) [(1667714400, -18000)]
    let since := Instant.ofSeconds 1667715600
    let start := (z.wallTime since).nextSecond
    everySecond.Attainable z since (yearLimit start.date.year 5) start start ∧
      everySecond.firstAfter? z 5 since = some (Instant.ofSeconds 1667715601) := by
  intro z since start
  have hkeeps : z.Keeps start (Instant.ofSeconds 1667712001) (Instant.ofSeconds 1667715601) :=
    Zone.keeps_iff.mpr ⟨1667712001, 1667715601, by decide +kernel, by decide +kernel, rfl, rfl⟩
  have hstart : everySecond.Attainable z since (yearLimit start.date.year 5) start start :=
    ⟨Int.le_refl _, by decide +kernel, allows_everySecond _, by decide +kernel, _, _, hkeeps,
      .inr (by decide)⟩
  refine ⟨hstart, ?_⟩
  obtain ⟨w, first, last, hw, hleast, hkeeps', heq⟩ :=
    (firstAfter_least_attainable everySecond z 5 since).2 ⟨start, hstart⟩
  obtain rfl : w = start :=
    WallTime.ext_seconds (Int.le_antisymm (hleast start hstart) hw.start_le)
  obtain ⟨rfl, rfl⟩ := hkeeps.unique hkeeps'
  rw [heq, if_neg (by decide)]

end Schedule

end Cron
