import Cron.Proofs.OccurrenceSequence

/-!
# How soon a schedule recurs

A search that gives up after some years says never without having looked at all times. Whether
something was left out depends on how soon a schedule recurs, that is, how long after a year it may
take until a time is allowed again (`Schedule.RecursWithin`).

Two years are alike if both have a leap day or neither has, and if they begin on the same day of the
week (`LikeYears`). A date is on the same day of the week in like years, so a schedule that allows a
time allows the same one in all like years. The years repeat themselves after 400 years, which are a
whole number of weeks, and among these each year has a like one within the forty years after it. So
every schedule recurs within forty years. If the day of the week does not matter and some date is
allowed that each year has, it recurs within one.

Headlines:
* `exists_likeYear_within`: a like year is among any forty years that follow each other;
* `recursWithin_forty`, `Yearly.recursWithin_one`: how soon schedules recur;
* `firstAfter_eq_none_iff_beyond`: where the offset is constant, never means that all that occurs later
  lies beyond the search (`Beyond`);
* `firstAfter_eq_none_iff_of_recursWithin`: if the schedule recurs within the horizon, it means that
  nothing occurs later.
-/

namespace Cron

/-! ## Like years -/

/-- Two years have the same calendar. -/
structure LikeYears (a b : Int) : Prop where
  leap : isLeapYear a = isLeapYear b
  /-- They begin on the same day of the week. -/
  begins : daysBeforeYear a % 7 = daysBeforeYear b % 7

section LikeYears

variable {a b c : Int}

instance : Decidable (LikeYears a b) :=
  decidable_of_iff (isLeapYear a = isLeapYear b ∧ daysBeforeYear a % 7 = daysBeforeYear b % 7)
    ⟨fun h => ⟨h.1, h.2⟩, fun h => ⟨h.leap, h.begins⟩⟩

theorem LikeYears.symm (h : LikeYears a b) : LikeYears b a := ⟨h.leap.symm, h.begins.symm⟩

theorem LikeYears.trans (h : LikeYears a b) (h' : LikeYears b c) : LikeYears a c :=
  ⟨h.leap.trans h'.leap, h.begins.trans h'.begins⟩

/-- There are 146097 days in 400 years. -/
theorem daysBeforeYear_add_mul (year n : Int) :
    daysBeforeYear (year + 400 * n) = daysBeforeYear year + 146097 * n := by
  have h4 : (year + 400 * n + 3) / 4 = (year + 3) / 4 + 100 * n := by omega
  have h100 : (year + 400 * n + 99) / 100 = (year + 99) / 100 + 4 * n := by omega
  have h400 : (year + 400 * n + 399) / 400 = (year + 399) / 400 + n := by omega
  unfold daysBeforeYear
  omega

/-- The years repeat themselves after 400 years. -/
theorem likeYears_add_mul (year n : Int) : LikeYears year (year + 400 * n) := by
  constructor
  · rw [Bool.eq_iff_iff, isLeapYear_iff, isLeapYear_iff]
    omega
  · rw [daysBeforeYear_add_mul]
    omega

/-- In the first 400 years, some year that is six, 28 or forty years later is alike. -/
theorem exists_likeYear_of_lt : ∀ n < 400, ∃ k ∈ [6, 28, 40], LikeYears (n : Nat) ((n : Nat) + k) := by
  decide +kernel

/-- A like year comes within forty years. -/
theorem exists_likeYear_next (year : Int) : ∃ b, year < b ∧ b ≤ year + 40 ∧ LikeYears year b := by
  obtain ⟨k, hk, hlike⟩ := exists_likeYear_of_lt (year % 400).toNat (by omega)
  have hyear := likeYears_add_mul (year % 400) (year / 400)
  have hnext := likeYears_add_mul (year % 400 + k) (year / 400)
  rw [Int.toNat_of_nonneg (by omega)] at hlike
  rw [Int.emod_add_mul_ediv] at hyear
  simp only [List.mem_cons, List.not_mem_nil, or_false] at hk
  exact ⟨_, by omega, by omega, hyear.symm.trans (hlike.trans hnext)⟩

/-- From a like year that does not lie behind the base, go on to the next one until one does. -/
theorem exists_likeYear_from {year base early : Int} (n : Nat) (hle : early ≤ base)
    (hlt : base < early + n) (hlike : LikeYears year early) :
    ∃ b, base < b ∧ b ≤ base + 40 ∧ LikeYears year b := by
  induction n generalizing early with
  | zero => omega
  | succ n ih =>
    obtain ⟨next, hnext, hnext', hlike'⟩ := exists_likeYear_next early
    by_cases hbase : next ≤ base
    · exact ih hbase (by omega) (hlike.trans hlike')
    · exact ⟨next, by omega, by omega, hlike.trans hlike'⟩

/-- A like year is among the forty years behind any year. -/
theorem exists_likeYear_within (year base : Int) : ∃ b, base < b ∧ b ≤ base + 40 ∧ LikeYears year b :=
  exists_likeYear_from 400 (by omega) (by omega) (likeYears_add_mul year ((base - year) / 400))

theorem LikeYears.daysInMonth_eq (h : LikeYears a b) (month : Nat) :
    daysInMonth a month = daysInMonth b month := by
  unfold daysInMonth
  rw [h.leap]

theorem LikeYears.daysBeforeMonth_eq (h : LikeYears a b) (month : Nat) :
    daysBeforeMonth a month = daysBeforeMonth b month := by
  unfold daysBeforeMonth
  rw [h.leap]

end LikeYears

/-- The date in a like year. -/
def Date.inYear (d : Date) {year : Int} (h : LikeYears d.year year) : Date :=
  ⟨year, d.month, d.day, d.one_le_month, d.month_le, d.one_le_day, h.daysInMonth_eq d.month ▸ d.day_le⟩

/-- In a like year a date is on the same day of the week. -/
theorem Date.dayOfWeek_inYear (d : Date) {year : Int} (h : LikeYears d.year year) :
    (d.inYear h).dayOfWeek = d.dayOfWeek := by
  have hbegins := h.begins
  have hmonths := h.daysBeforeMonth_eq d.month
  unfold dayOfWeek
  simp only [number, inYear]
  omega

/-- The same time on the same date of a like year. -/
def WallTime.inYear (w : WallTime) {year : Int} (h : LikeYears w.date.year year) : WallTime :=
  { w with date := w.date.inYear h }

/-- In a like year all fields are the same. -/
theorem WallTime.value_inYear (w : WallTime) {year : Int} (h : LikeYears w.date.year year) (field : Field) :
    (w.inYear h).value field = w.value field := by
  cases field with
  | dayOfWeek => exact w.date.dayOfWeek_inYear h
  | _ => rfl

namespace Schedule

open WallTime (newYear)

variable {s : Schedule} {z : Zone} {offset horizon n : Int} {since t : Instant} {w : WallTime}

/-! ## Recurrence -/

/-- If a schedule allows some time, then it allows one in the `n` years behind any year. -/
def RecursWithin (s : Schedule) (n : Int) : Prop :=
  ∀ w, s.Allows w → ∀ year, ∃ v, s.Allows v ∧ year < v.date.year ∧ v.date.year ≤ year + n

theorem Allows.inYear (h : s.Allows w) {year : Int} (hlike : LikeYears w.date.year year) :
    s.Allows (w.inYear hlike) := fun field => w.value_inYear hlike field ▸ h field

/-- **Every schedule recurs within forty years.** -/
theorem recursWithin_forty (s : Schedule) : s.RecursWithin 40 := by
  intro w hw year
  obtain ⟨b, hlt, hle, hlike⟩ := exists_likeYear_within w.date.year year
  exact ⟨w.inYear hlike, hw.inYear hlike, hlt, hle⟩

/-- Every day of the week is allowed, and some date that each year has. -/
structure Yearly (s : Schedule) : Prop where
  weekdays : ∀ v ≤ 6, v ∈ s.allowed.dayOfWeek
  dates : ∃ month ∈ s.allowed.month, ∃ day ∈ s.allowed.dayOfMonth,
    1 ≤ month ∧ month ≤ 12 ∧ 1 ≤ day ∧ ∀ year, day ≤ daysInMonth year month

/-- **Whatever is allowed on a date that each year has, on any day of the week, recurs each year.** -/
theorem Yearly.recursWithin_one (h : s.Yearly) : s.RecursWithin 1 := by
  intro w hw year
  obtain ⟨month, hmonth, day, hday, h1, h2, h3, h4⟩ := h.dates
  let date : Date := ⟨year + 1, month, day, h1, h2, h3, h4 (year + 1)⟩
  refine ⟨{ w with date }, fun field => ?_, Int.lt_succ year, Int.le_refl _⟩
  cases field with
  | dayOfMonth => exact hday
  | month => exact hmonth
  | dayOfWeek => exact h.weekdays _ (WallTime.value_bounds { w with date } .dayOfWeek).2
  | second => exact hw .second
  | minute => exact hw .minute
  | hour => exact hw .hour

/-! ## Never -/

/-- An instant lies beyond what a search after another one may come to: behind the last year, and it is
neither the new year behind that nor the second with which the search starts. -/
structure Beyond (z : Zone) (horizon : Int) (since t : Instant) : Prop where
  limit_lt : yearLimit (z.wallTime since).nextSecond.date.year horizon < (z.wallTime t).date.year
  ne_newYear :
    z.wallTime t ≠ newYear (yearLimit (z.wallTime since).nextSecond.date.year horizon + 1)
  ne_start : z.wallTime t ≠ (z.wallTime since).nextSecond

/-- Whatever does not lie beyond the search is within reach or one of the two times beside that. -/
theorem within_of_not_beyond (h : ¬ Beyond z horizon since t) :
    Reaches z horizon since t ∨
      z.wallTime t = newYear (yearLimit (z.wallTime since).nextSecond.date.year horizon + 1) ∨
      z.wallTime t = (z.wallTime since).nextSecond := by
  refine Classical.byContradiction fun hwithin => ?_
  rw [not_or, not_or] at hwithin
  exact h ⟨Int.not_le.mp hwithin.1, hwithin.2.1, hwithin.2.2⟩

/-- What is found does not lie beyond the search. -/
theorem not_beyond_of_firstAfter (hz : z.HasOffset offset) (hcal : Instant.firstSecond ≤ since.seconds)
    (h : s.firstAfter? z horizon since = some t) : ¬ Beyond z horizon since t := by
  obtain ⟨w, hw, -, hshows⟩ := (firstAfter?_spec hz hcal s horizon).1 t h
  obtain rfl := hshows.wallTime_eq
  rintro ⟨hlimit, hnewYear, hstart⟩
  rcases hw.within with hle | heq | heq
  · exact Int.not_lt.mpr hle hlimit
  · exact hnewYear heq
  · exact hstart heq

/-- **Never means that all that occurs later lies beyond the search.** -/
theorem firstAfter_eq_none_iff_beyond (hz : z.HasOffset offset)
    (hcal : Instant.firstSecond ≤ since.seconds) :
    s.firstAfter? z horizon since = none ↔
      ∀ t, s.Occurs z t → since < t → Beyond z horizon since t := by
  constructor
  · intro hnone t ht hsince
    refine Classical.byContradiction fun hbeyond => ?_
    have hcandidate := candidate_of_occurs hz hsince ht (within_of_not_beyond hbeyond)
    exact (firstAfter?_spec hz hcal s horizon).2 hnone _ hcandidate
  · intro h
    cases hfound : s.firstAfter? z horizon since with
    | none => rfl
    | some t =>
      obtain ⟨ht, -⟩ := occurs_of_firstAfter hz hcal hfound
      exact absurd (h t ht (lt_of_firstAfter hfound)) (not_beyond_of_firstAfter hz hcal hfound)

/-- After never, a later search finds only what lies beyond the earlier one. -/
theorem beyond_of_firstAfter_later {later : Instant} (hz : z.HasOffset offset)
    (hcal : Instant.firstSecond ≤ since.seconds) (hnone : s.firstAfter? z horizon since = none)
    (hle : since ≤ later) (h : s.firstAfter? z horizon later = some t) : Beyond z horizon since t := by
  obtain ⟨ht, -⟩ := occurs_of_firstAfter hz (Int.le_trans hcal (Instant.seconds_le_of_le hle)) h
  have hsince := Instant.lt_of_le_of_lt hle (lt_of_firstAfter h)
  exact (firstAfter_eq_none_iff_beyond hz hcal).mp hnone t ht hsince

/-- If something occurs beyond the search, then a schedule that recurs within the horizon has an earlier
occurrence that does not lie beyond it. -/
theorem RecursWithin.exists_occurs (h : s.RecursWithin n) (hn : n ≤ horizon) (hz : z.HasOffset offset)
    (hcal : Instant.firstSecond ≤ since.seconds) (ht : s.Occurs z t)
    (hbeyond : Beyond z horizon since t) :
    ∃ u, since < u ∧ s.Occurs z u ∧ ¬ Beyond z horizon since u := by
  have hlimit := hbeyond.limit_lt
  have htyear := ht.year_le
  obtain ⟨v, hv, hlt, hle⟩ :=
    h _ (accepts_iff_allows.mp ht.occursAt) (z.wallTime since).nextSecond.date.year
  have hvlimit : v.date.year ≤ yearLimit (z.wallTime since).nextSecond.date.year horizon := by
    unfold yearLimit lastYear at *
    omega
  -- the recurrence lies in a year behind the start and in front of the year of the later occurrence
  have hstart : (z.wallTime since).nextSecond.seconds < v.seconds := by
    refine Int.not_le.mp fun hge => ?_
    have := WallTime.year_le_of_seconds_le hge
    omega
  have hend : v.seconds < (z.wallTime t).seconds := by
    refine Int.not_le.mp fun hge => ?_
    have := WallTime.year_le_of_seconds_le hge
    omega
  rw [WallTime.seconds_nextSecond, hz.seconds_wallTime] at hstart
  rw [hz.seconds_wallTime] at hend
  have htlast := ht.shows.le_lastSecond
  obtain ⟨u, hu⟩ := (hz.exists_shows_iff (w := v)).mpr ⟨by omega, by omega⟩
  have hseconds := hz.seconds_eq hu
  obtain rfl := hu.wallTime_eq
  refine ⟨u, Instant.lt_def.mpr (.inl (by omega)), ⟨hu, by omega, accepts_iff_allows.mpr hv⟩, ?_⟩
  exact fun hbeyond' => Int.not_lt.mpr hvlimit hbeyond'.limit_lt

/-- **If the schedule recurs within the horizon, never means that nothing occurs later.** -/
theorem firstAfter_eq_none_iff_of_recursWithin (h : s.RecursWithin n) (hn : n ≤ horizon)
    (hz : z.HasOffset offset) (hcal : Instant.firstSecond ≤ since.seconds) :
    s.firstAfter? z horizon since = none ↔ ∀ t, s.Occurs z t → ¬ since < t := by
  rw [firstAfter_eq_none_iff_beyond hz hcal]
  constructor
  · intro hbeyond t ht hsince
    obtain ⟨u, hu, hoccurs, hnot⟩ := h.exists_occurs hn hz hcal ht (hbeyond t ht hsince)
    exact hnot (hbeyond u hoccurs hu)
  · exact fun hnone t ht hsince => absurd hsince (hnone t ht)

/-- If the schedule recurs within the horizon, nothing is found after never. -/
theorem firstAfter_eq_none_of_later {later : Instant} (hrecurs : s.RecursWithin n) (hn : n ≤ horizon)
    (hz : z.HasOffset offset) (hcal : Instant.firstSecond ≤ since.seconds)
    (hnone : s.firstAfter? z horizon since = none) (hle : since ≤ later) :
    s.firstAfter? z horizon later = none := by
  have hcal' := Int.le_trans hcal (Instant.seconds_le_of_le hle)
  rw [firstAfter_eq_none_iff_of_recursWithin hrecurs hn hz hcal] at hnone
  rw [firstAfter_eq_none_iff_of_recursWithin hrecurs hn hz hcal']
  exact fun t ht hlt => hnone t ht (Instant.lt_of_le_of_lt hle hlt)

/-- Forty years are needed: 29 February was a Thursday in 1872, and then not until 1912. -/
theorem exists_not_recursWithin : ∃ s : Schedule, ¬ s.RecursWithin 39 := by
  let s : Schedule :=
    { text := "0 0 0 29 2 4"
      allowed :=
        { second := .ofList [0], minute := .ofList [0], hour := .ofList [0], dayOfMonth := .ofList [29]
          month := .ofList [2], dayOfWeek := .ofList [4] } }
  refine ⟨s, fun h => ?_⟩
  have hz := Zone.hasOffset_utc
  have hnone : s.firstAfter? .utc 39 (Instant.ofSeconds (-3087504000)) = none := by decide +kernel
  have hlate : s.Occurs .utc (Instant.ofSeconds (-1825286400)) :=
    ⟨⟨rfl, by decide, by decide, rfl⟩, by decide +kernel, by decide +kernel⟩
  have hnever := (firstAfter_eq_none_iff_of_recursWithin h (Int.le_refl 39) hz (by decide)).mp hnone
  exact hnever _ hlate (by decide)

end Schedule

end Cron
