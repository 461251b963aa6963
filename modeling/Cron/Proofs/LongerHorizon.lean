import Cron.Proofs.OccurrenceSequence

/-!
# Looking further ahead

Two searches that differ in their horizon only are cut off in different years. What the nearer one
may come to, the further one may come to as well; the new year behind the last year, which the
nearer one looks at without regard to that year, is an ordinary time for the further one. Up to what
the nearer one finds, the two may come to the same times. So they find the same, unless the nearer
one finds nothing.

This holds of the search on the wall clock and of the outer search, which passes over the same times
in both: whether a time counts depends on the zone and the given instant only.

Headlines:
* `search_of_limit_le`, `firstFrom?_of_limit_le`: what is found stays found with a later last year;
* `firstAfter_of_horizon_le`: what is found stays found with a longer horizon;
* `occurrences_prefix`: with a longer horizon the list of occurrences goes on, if it changes at all;
* `firstAfter_horizon`: a longer horizon can only turn never into an occurrence.
-/

namespace Cron.Schedule

variable {s : Schedule} {z : Zone} {since t : Instant} {start w found : WallTime}
  {limit later near far : Int}

/-- Whatever a search may come to, it may come to with a later last year. -/
theorem Eligible.of_limit_le (h : s.Eligible limit start w) (hle : limit ≤ later) :
    s.Eligible later start w := by
  refine ⟨h.start_le, h.year_le, h.allows, ?_⟩
  rcases h.within with hyear | rfl | rfl
  · exact .inl (Int.le_trans hyear hle)
  · -- the new year behind the last year is within a later one, or behind the same one
    by_cases heq : limit = later
    · exact .inr (.inl (heq ▸ rfl))
    · refine .inl ?_
      change limit + 1 ≤ later
      omega
  · exact .inr (.inr rfl)

/-- What the search finds, it finds with a later last year. -/
theorem search_of_limit_le (hyear : start.date.year ≤ lastYear) (hle : limit ≤ later)
    (h : s.search limit start = some found) : s.search later start = some found := by
  obtain ⟨hfound, hleast⟩ := (search_eq_some_iff hyear).mp h
  refine (search_eq_some_iff hyear).mpr ⟨hfound.of_limit_le hle, fun w hw => ?_⟩
  rcases Int.le_total found.seconds w.seconds with hfw | hwf
  · exact hfw
  · exact hleast w (hfound.of_le hw.start_le hwf hw.allows)

/-- What the outer search finds, it finds with a later last year. -/
theorem firstFrom?_of_limit_le (hyear : start.date.year ≤ lastYear) (hle : limit ≤ later)
    (h : s.firstFrom? z since limit start = some t) :
    s.firstFrom? z since later start = some t := by
  fun_induction firstFrom? s z since limit start with
  | case1 => cases h
  | case2 start found hfound u hafter =>
    rw [firstFrom?_eq, search_of_limit_le hyear hle hfound, Option.bind_some, hafter, Option.some_or]
    exact h
  | case3 start found hfound hafter hnext ih =>
    rw [firstFrom?_eq, search_of_limit_le hyear hle hfound, Option.bind_some, hafter, Option.none_or,
      if_pos hnext]
    exact ih hnext h
  | case4 => cases h

theorem yearLimit_mono_horizon (year : Int) (h : near ≤ far) :
    yearLimit year near ≤ yearLimit year far := by
  unfold yearLimit
  omega

/-- What is found after an instant is found with a longer horizon. -/
theorem firstAfter_of_horizon_le (hle : near ≤ far) (h : s.firstAfter? z near since = some t) :
    s.firstAfter? z far since = some t := by
  obtain ⟨hstart, hfound⟩ := firstAfter?_eq_some_iff.mp h
  exact firstAfter?_eq_some_iff.mpr
    ⟨hstart, firstFrom?_of_limit_le hstart.2 (yearLimit_mono_horizon _ hle) hfound⟩

/-- With a longer horizon the list of occurrences begins in the same way. -/
theorem occurrences_prefix (s : Schedule) (z : Zone) (n : Nat) (since : Instant) (hle : near ≤ far) :
    s.occurrences z near n since <+: s.occurrences z far n since := by
  induction n generalizing since with
  | zero => exact List.prefix_rfl
  | succ n ih =>
    cases hfound : s.firstAfter? z near since with
    | none => simp [occurrences, hfound]
    | some t =>
      simp only [occurrences, hfound, firstAfter_of_horizon_le hle hfound]
      exact (List.prefix_cons_inj t).mpr (ih t)

/-- **A longer horizon changes nothing that is found.** It can only turn never into an occurrence. -/
theorem firstAfter_horizon (s : Schedule) (z : Zone) (since : Instant) (hle : near ≤ far) :
    (∀ t, s.firstAfter? z near since = some t → s.firstAfter? z far since = some t) ∧
      (s.firstAfter? z far since ≠ s.firstAfter? z near since →
        s.firstAfter? z near since = none ∧ ∃ t, s.firstAfter? z far since = some t) := by
  refine ⟨fun t => firstAfter_of_horizon_le hle, fun hne => ?_⟩
  cases hnear : s.firstAfter? z near since with
  | none =>
    rw [hnear] at hne
    exact ⟨rfl, Option.ne_none_iff_exists'.mp hne⟩
  | some t =>
    rw [hnear, firstAfter_of_horizon_le hle hnear] at hne
    exact absurd rfl hne

/-- A clock skips the first two seconds of a year. A search from that new year on whose last year is
the year before passes over the seconds that are skipped, one by one, and finds the third second. The
longest horizon there is, which would end behind the greatest number of 32 bits, finds no other. -/
theorem firstAfter_horizon_over_skipped_new_year :
    let z := Zone.shifting 0 [(1672531200, 2)]
    let since := Instant.ofSeconds 1672531199
    (-1 : Int) ≤ 2147483647 ∧
      everySecond.firstAfter? z (-1) since = some (Instant.ofSeconds 1672531200) ∧
      everySecond.firstAfter? z 2147483647 since = some (Instant.ofSeconds 1672531200) := by
  intro z since
  have hle : (-1 : Int) ≤ 2147483647 := by decide
  have hnear : everySecond.firstAfter? z (-1) since = some (Instant.ofSeconds 1672531200) := by
    decide +kernel
  exact ⟨hle, hnear, (firstAfter_horizon everySecond z since hle).1 _ hnear⟩

end Cron.Schedule
