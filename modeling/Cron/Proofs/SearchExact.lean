import Cron.Proofs.CalendarOrder
import Cron.Schedule.Search

/-!
# The search is exact

`Schedule.Allows` says field by field that a schedule allows what a wall time shows, and
`Schedule.Eligible` which times a search may come to: allowed times from its start on, up to its
last year, with two times beside these that it looks at without regard to the last year, its own
start and the new year behind the last year.

A step of the search goes to the start of the next unit of a field that is not allowed. All times
before that are in the same unit, so none of them is allowed, and the eligible times stay the same
(`eligible_iff_of_advance?`). Hence the search finds the first eligible time.

Headlines:
* `accepts_iff_allows`: the test of the search is the field by field one;
* `search_eq_some_iff`: what the search finds is the first eligible time;
* `search_eq_none_iff`: it finds nothing exactly if no time is eligible.
-/

namespace Cron

/-- What a wall time shows in a field. -/
def WallTime.value (t : WallTime) : Field → Nat
  | .second => t.second
  | .minute => t.minute
  | .hour => t.hour
  | .dayOfMonth => t.date.day
  | .month => t.date.month
  | .dayOfWeek => t.date.dayOfWeek

namespace Schedule

open WallTime (newYear)

variable {s : Schedule} {limit : Int} {t u w found : WallTime}

/-- Every field of the schedule allows what the wall time shows. -/
def Allows (s : Schedule) (t : WallTime) : Prop := ∀ field, t.value field ∈ s.allowed.get field

theorem accepts_iff_allows : s.accepts t = true ↔ s.Allows t := by
  simp only [accepts, acceptsDate, Bool.and_eq_true, ← ValueSet.mem_def]
  constructor
  · rintro ⟨⟨⟨⟨hmonth, hday, hweekday⟩, hhour⟩, hminute⟩, hsecond⟩ field
    cases field <;> assumption
  · intro h
    exact ⟨⟨⟨⟨h .month, h .dayOfMonth, h .dayOfWeek⟩, h .hour⟩, h .minute⟩, h .second⟩

/-! ## A step of the search -/

/-- The search by its steps. -/
theorem search_eq (s : Schedule) (limit : Int) (t : WallTime) :
    s.search limit t =
      if limit < t.date.year then if s.accepts t then some t else none
      else
        match s.advance? t with
        | none => some t
        | some u => if u.date.year ≤ lastYear then s.search limit u else none := by
  conv =>
    lhs
    unfold search
  split
  · rfl
  · split
    next hnone => rw [hnone]
    next u hu =>
      rw [hu]
      rfl

/-- No time before the start of the next unit is accepted. -/
theorem accepts_eq_false_of_advance? (h : s.advance? t = some u) (hle : t.seconds ≤ w.seconds)
    (hlt : w.seconds < u.seconds) : s.accepts w = false := by
  unfold advance? at h
  split at h
  next hmonth =>
    cases h
    obtain ⟨-, hm⟩ := WallTime.month_eq_of_lt_nextMonth hle hlt
    simp_all [accepts]
  split at h
  next hdate =>
    cases h
    have hd := WallTime.date_eq_of_lt_nextDay hle hlt
    simp_all [accepts]
  split at h
  next hhour =>
    cases h
    obtain ⟨hd, hh⟩ := WallTime.hour_eq_of_lt_nextHour hle hlt
    simp_all [accepts]
  split at h
  next hminute =>
    cases h
    obtain ⟨hd, hh, hm⟩ := WallTime.minute_eq_of_lt_nextMinute hle hlt
    simp_all [accepts]
  split at h
  next hsecond =>
    cases h
    obtain rfl := WallTime.eq_of_lt_nextSecond hle hlt
    simp_all [accepts]
  · cases h

/-- A step does not go past the next new year. -/
theorem seconds_le_newYear_of_advance? (h : s.advance? t = some u) :
    u.seconds ≤ (newYear (t.date.year + 1)).seconds := by
  have hmonth := t.seconds_nextMonth_le_newYear
  have hday := t.seconds_nextDay_le_nextMonth
  have hhour := t.seconds_nextHour
  have hminute := t.seconds_nextMinute
  have hsecond := t.seconds_nextSecond
  have hbounds := t.seconds_bounds
  have := t.hour_lt
  have := t.minute_lt
  have := t.second_lt
  rw [WallTime.seconds_nextDay] at hday
  unfold advance? at h
  split at h
  · cases h
    exact hmonth
  split at h
  · cases h
    rw [WallTime.seconds_nextDay]
    omega
  split at h
  · cases h
    omega
  split at h
  · cases h
    omega
  split at h
  · cases h
    omega
  · cases h

/-! ## What the search may come to -/

/-- A time that a search from `start` with `limit` as its last year may come to. -/
structure Eligible (s : Schedule) (limit : Int) (start w : WallTime) : Prop where
  start_le : start.seconds ≤ w.seconds
  year_le : w.date.year ≤ lastYear
  allows : s.Allows w
  within : w.date.year ≤ limit ∨ w = newYear (limit + 1) ∨ w = start

/-- Past its last year the search may only come to its start. -/
theorem eligible_iff_of_limit_lt (h : limit < t.date.year) (ht : t.date.year ≤ lastYear) :
    Eligible s limit t w ↔ w = t ∧ s.Allows t := by
  constructor
  · rintro ⟨hle, -, hallows, hwithin⟩
    have hyear := WallTime.year_le_of_seconds_le hle
    have hwt : w = t := by
      rcases hwithin with hw | hw | hw
      · omega
      · have := (@WallTime.seconds_newYear_le_iff t (limit + 1)).mpr h
        rw [← hw] at this
        exact WallTime.ext_seconds (by omega)
      · exact hw
    exact ⟨hwt, hwt ▸ hallows⟩
  · rintro ⟨rfl, hallows⟩
    exact ⟨Int.le_refl _, ht, hallows, .inr (.inr rfl)⟩

/-- A step of the search keeps what it may come to. -/
theorem eligible_iff_of_advance? (h : s.advance? t = some u) (ht : t.date.year ≤ limit) :
    Eligible s limit t w ↔ Eligible s limit u w := by
  have htu := seconds_lt_of_advance? h
  constructor
  · rintro ⟨hle, hyear, hallows, hwithin⟩
    have huw : u.seconds ≤ w.seconds := by
      refine Int.not_lt.mp fun hlt => ?_
      have := accepts_eq_false_of_advance? h hle hlt
      rw [← accepts_iff_allows, this] at hallows
      cases hallows
    refine ⟨huw, hyear, hallows, ?_⟩
    rcases hwithin with hw | hw | rfl
    · exact .inl hw
    · exact .inr (.inl hw)
    · omega
  · rintro ⟨hle, hyear, hallows, hwithin⟩
    refine ⟨by omega, hyear, hallows, ?_⟩
    rcases hwithin with hw | hw | rfl
    · exact .inl hw
    · exact .inr (.inl hw)
    · -- past the last year, the step has come to the new year behind it
      by_cases hlimit : w.date.year ≤ limit
      · exact .inl hlimit
      · have hnew := seconds_le_newYear_of_advance? h
        have hmono := (@WallTime.seconds_newYear_le_iff (newYear (limit + 1)) (t.date.year + 1)).mpr
          (by simp only [newYear, WallTime.midnight, Date.newYear]; omega)
        exact .inr (.inl (WallTime.eq_newYear_of_year_lt (by omega) (by omega)))

theorem not_eligible_of_lastYear_lt (h : lastYear < t.date.year) : ¬ Eligible s limit t w :=
  fun hw => by
    have := WallTime.year_le_of_seconds_le hw.start_le
    have := hw.year_le
    omega

/-! ## The whole search -/

/-- The search finds the first eligible time, or there is none. -/
theorem search_spec (ht : t.date.year ≤ lastYear) :
    (∀ found, s.search limit t = some found →
      Eligible s limit t found ∧ ∀ w, Eligible s limit t w → found.seconds ≤ w.seconds) ∧
    (s.search limit t = none → ∀ w, ¬ Eligible s limit t w) := by
  fun_induction search s limit t with
  | case1 t hlimit hacc =>
    have hiff := fun w => @eligible_iff_of_limit_lt s limit t w hlimit ht
    refine ⟨fun found hfound => ?_, fun hfound => ?_⟩
    · cases hfound
      exact ⟨(hiff t).mpr ⟨rfl, accepts_iff_allows.mp hacc⟩, fun w hw => hw.start_le⟩
    · cases hfound
  | case2 t hlimit hacc =>
    refine ⟨fun found hfound => ?_, fun _ w hw => hacc ?_⟩
    · cases hfound
    · exact accepts_iff_allows.mpr ((eligible_iff_of_limit_lt hlimit ht).mp hw).2
  | case3 t hlimit hnone =>
    refine ⟨fun found hfound => ?_, fun hfound => ?_⟩
    · cases hfound
      have hallows := accepts_iff_allows.mp (advance?_eq_none_iff.mp hnone)
      exact ⟨⟨Int.le_refl _, ht, hallows, .inr (.inr rfl)⟩, fun w hw => hw.start_le⟩
    · cases hfound
  | case4 t hlimit u hu hyear ih =>
    have hiff := fun w => @eligible_iff_of_advance? s limit t u w hu (by omega)
    obtain ⟨hsome, hnone⟩ := ih hyear
    refine ⟨fun found hfound => ?_, fun h w hw => hnone h w ((hiff w).mp hw)⟩
    obtain ⟨hfound', hleast⟩ := hsome found hfound
    exact ⟨(hiff found).mpr hfound', fun w hw => hleast w ((hiff w).mp hw)⟩
  | case5 t hlimit u hu hyear =>
    refine ⟨fun found hfound => ?_, fun _ w hw => ?_⟩
    · cases hfound
    · have hiff := @eligible_iff_of_advance? s limit t u w hu (by omega)
      exact not_eligible_of_lastYear_lt (by omega) (hiff.mp hw)

/-- **What the search finds is the first eligible time.** -/
theorem search_eq_some_iff (ht : t.date.year ≤ lastYear) :
    s.search limit t = some found ↔
      Eligible s limit t found ∧ ∀ w, Eligible s limit t w → found.seconds ≤ w.seconds := by
  obtain ⟨hsome, hnone⟩ := @search_spec s limit t ht
  refine ⟨hsome found, fun ⟨hfound, hleast⟩ => ?_⟩
  cases h : s.search limit t with
  | none => exact absurd hfound (hnone h found)
  | some other =>
    obtain ⟨hother, hleast'⟩ := hsome other h
    have := hleast other hother
    have := hleast' found hfound
    exact congrArg some (WallTime.ext_seconds (by omega))

/-- **The search finds nothing exactly if no time is eligible.** -/
theorem search_eq_none_iff (ht : t.date.year ≤ lastYear) :
    s.search limit t = none ↔ ∀ w, ¬ Eligible s limit t w := by
  obtain ⟨hsome, hnone⟩ := @search_spec s limit t ht
  refine ⟨hnone, fun h => ?_⟩
  cases hs : s.search limit t with
  | none => rfl
  | some found => exact absurd (hsome found hs).1 (h found)

end Schedule

end Cron
