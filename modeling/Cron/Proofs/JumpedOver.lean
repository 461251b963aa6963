import Cron.Proofs.OccurrenceSequence

/-!
# What a search jumps over

The search goes along the wall clock, so it finds the occurrence with the earliest wall time behind
the given instant. Where the clock is set back, the time line does not follow the wall clock, and
the search may jump over an occurrence that comes earlier: one in a repeated hour, if the given
instant lies in that hour before the clock is set back.

Whatever is jumped over shows a wall time that is not behind the given instant, or not in front of
what is found. If the clock is not set back in between (`Zone.NotSetBack`), there is no such
occurrence. So there the first one is found, and what is found after a later instant is not earlier.

Headlines:
* `firstFrom?_passes`: what the search passes over, the zone does not place late enough;
* `wallTime_of_jumped_over`: what an occurrence shows that is jumped over;
* `firstAfter_earliest`: the search jumps over nothing as long as the clock is not set back.
-/

namespace Cron

namespace Zone

variable {z : Zone} {a b : Int} {t u : Instant} {w : WallTime}

/-- Wherever the wall clock shows a time, it does so in the calendar. -/
def ShownInCalendar (z : Zone) (w : WallTime) : Prop :=
  ∀ second, second + z.offsetAt second = w.seconds →
    Instant.firstSecond ≤ second ∧ second ≤ Instant.lastSecond

/-- The zone keeps a time that is shown in the calendar only. -/
theorem ShownInCalendar.exists_keeps (h : z.ShownInCalendar (z.wallTime u)) :
    ∃ first last, z.Keeps (z.wallTime u) first last := by
  have hmem : u.seconds ∈ z.secondsShowing (z.wallTime u) :=
    mem_secondsShowing_iff.mpr (wallTime_eq_iff.mp rfl)
  have hbounds : ∀ second ∈ z.secondsShowing (z.wallTime u),
      Instant.ofSeconds? second = some (Instant.ofSeconds second) := fun second hsecond =>
    Instant.ofSeconds?_eq_some_iff.mpr ⟨rfl, rfl, h second (mem_secondsShowing_iff.mp hsecond)⟩
  obtain ⟨first, hfirst⟩ := Option.ne_none_iff_exists'.mp
    (mt List.min?_eq_none_iff.mp (List.ne_nil_of_mem hmem))
  obtain ⟨last, hlast⟩ := Option.ne_none_iff_exists'.mp
    (mt List.max?_eq_none_iff.mp (List.ne_nil_of_mem hmem))
  exact ⟨_, _, keeps_iff.mpr ⟨first, last, hfirst, hlast,
    hbounds first (List.min?_mem hfirst), hbounds last (List.max?_mem hlast)⟩⟩

/-- The wall clock is not set back between two seconds. -/
def NotSetBack (z : Zone) (a b : Int) : Prop :=
  ∀ m n, a ≤ m → m ≤ n → n ≤ b → z.offsetAt m ≤ z.offsetAt n

/-- As long as it is not set back, the wall clock goes forward. -/
theorem NotSetBack.wallTime_lt (h : z.NotSetBack a b) (ha : a ≤ t.seconds)
    (hlt : t.seconds < u.seconds) (hb : u.seconds ≤ b) :
    (z.wallTime t).seconds < (z.wallTime u).seconds := by
  have := h t.seconds u.seconds ha (Int.le_of_lt hlt) hb
  rw [wallTime, wallTime, WallTime.seconds_ofSeconds, WallTime.seconds_ofSeconds]
  omega

end Zone

namespace Schedule

variable {s : Schedule} {z : Zone} {limit horizon : Int} {since t u : Instant} {start v w : WallTime}

/-- What is found is kept by the zone, and the allowed times that the search passes over on the way are
not placed late enough. -/
theorem firstFrom?_passes (hyear : start.date.year ≤ lastYear)
    (h : s.firstFrom? z since limit start = some t) :
    (∃ first last, z.Keeps (z.wallTime t) first last) ∧
      ∀ v, s.Allows v → start.seconds ≤ v.seconds → v.seconds < (z.wallTime t).seconds →
        (z.locate v).after? since = none := by
  fun_induction firstFrom? s z since limit start with
  | case1 => cases h
  | case2 start found hfound t' hafter =>
    cases h
    obtain ⟨heligible, hleast⟩ := (search_eq_some_iff hyear).mp hfound
    obtain ⟨first, last, hkeeps, -⟩ := Zone.after?_locate_eq_some_iff.mp hafter
    rw [(Zone.shows_of_after?_locate hafter).wallTime_eq]
    refine ⟨⟨first, last, hkeeps⟩, fun v hv hstart hlt => ?_⟩
    have hle := hleast v (heligible.of_le hstart (Int.le_of_lt hlt) hv)
    omega
  | case3 start found hfound hafter hnext ih =>
    obtain ⟨heligible, hleast⟩ := (search_eq_some_iff hyear).mp hfound
    obtain ⟨hkeeps, hpasses⟩ := ih hnext h
    refine ⟨hkeeps, fun v hv hstart hlt => ?_⟩
    rcases Int.lt_trichotomy v.seconds found.seconds with hvf | heq | hfv
    · have hle := hleast v (heligible.of_le hstart (Int.le_of_lt hvf) hv)
      omega
    · exact WallTime.ext_seconds heq ▸ hafter
    · refine hpasses v hv ?_ hlt
      rw [WallTime.seconds_nextSecond]
      exact hfv
  | case4 => cases h

theorem firstAfter_passes (h : s.firstAfter? z horizon since = some t) :
    (∃ first last, z.Keeps (z.wallTime t) first last) ∧
      ∀ v, s.Allows v → (z.wallTime since).seconds < v.seconds →
        v.seconds < (z.wallTime t).seconds → (z.locate v).after? since = none := by
  obtain ⟨⟨-, hyear⟩, hfound⟩ := firstAfter?_eq_some_iff.mp h
  obtain ⟨hkeeps, hpasses⟩ := firstFrom?_passes hyear hfound
  refine ⟨hkeeps, fun v hv hlt => hpasses v hv ?_⟩
  rw [WallTime.seconds_nextSecond]
  exact hlt

/-- An occurrence that is jumped over shows a time that is not behind the given instant, or not in front
of what is found. -/
theorem wallTime_of_jumped_over (h : s.firstAfter? z horizon since = some t) (hsince : since < u)
    (hwhole : u.nanos = 0) (hoccurs : s.occursAt z u = true)
    (hkept : ∃ first last, z.Keeps (z.wallTime u) first last) :
    (z.wallTime u).seconds ≤ (z.wallTime since).seconds ∨
      (z.wallTime t).seconds ≤ (z.wallTime u).seconds := by
  rcases Int.lt_or_le (z.wallTime since).seconds (z.wallTime u).seconds with hbehind | hle
  · rcases Int.lt_or_le (z.wallTime u).seconds (z.wallTime t).seconds with hfront | hle
    · -- the last instant that shows this time is late enough, so the search does not pass over it
      obtain ⟨first, last, hkeeps⟩ := hkept
      have hlast := hkeeps.le_last u.seconds (Zone.wallTime_eq_iff.mp rfl)
      have hlater := Instant.seconds_lt_of_lt hwhole hsince
      have hlt : since < last := Instant.lt_def.mpr (.inl (Int.lt_of_lt_of_le hlater hlast))
      have hnone := (firstAfter_passes h).2 _ (accepts_iff_allows.mp hoccurs) hbehind hfront
      rw [Zone.after?_locate_eq_some_iff.mpr ⟨first, last, hkeeps, .inr hlt, rfl⟩] at hnone
      cases hnone
    · exact .inr hle
  · exact .inl hle

/-- Between the given instant and what is found, nothing occurs if the clock is not set back. -/
theorem not_occursAt_of_notSetBack (h : s.firstAfter? z horizon since = some t)
    (hz : z.NotSetBack since.seconds t.seconds) (hsince : since < u) (hut : u < t)
    (hwhole : u.nanos = 0) (hkept : ∃ first last, z.Keeps (z.wallTime u) first last) :
    s.occursAt z u = false := by
  obtain ⟨w, hshows, -⟩ := shows_of_firstAfter h
  have hlater := Instant.seconds_lt_of_lt hwhole hsince
  have hearlier := Instant.seconds_lt_of_lt hshows.whole hut
  have hbehind := hz.wallTime_lt (Int.le_refl _) hlater (Int.le_of_lt hearlier)
  have hfront := hz.wallTime_lt (Int.le_of_lt hlater) hearlier (Int.le_refl _)
  refine Bool.eq_false_iff.mpr fun hoccurs => ?_
  have := wallTime_of_jumped_over h hsince hwhole hoccurs hkept
  omega

/-- What is found after a later instant is not earlier if the clock is not set back. -/
theorem le_of_firstAfter_later {later t' : Instant} (h : s.firstAfter? z horizon since = some t)
    (hz : z.NotSetBack since.seconds t.seconds) (hle : since ≤ later)
    (h' : s.firstAfter? z horizon later = some t') : t ≤ t' := by
  intro hlt
  obtain ⟨w, hshows, -⟩ := shows_of_firstAfter h'
  have hoccurs := occursAt_of_firstAfter h'
  have hsince := Instant.lt_of_le_of_lt hle (lt_of_firstAfter h')
  rw [not_occursAt_of_notSetBack h hz hsince hlt hshows.whole (firstAfter_passes h').1] at hoccurs
  cases hoccurs

/-- **The search jumps over nothing as long as the clock is not set back.** In every zone, what is found
is later and an occurrence, and whatever is jumped over shows a time that is not behind the given
instant, or not in front of what is found. If the clock is not set back between the given instant and
what is found, then nothing occurs in between, and what is found after a later instant is not earlier. -/
theorem firstAfter_earliest (s : Schedule) (z : Zone) (horizon : Int) (since t : Instant)
    (h : s.firstAfter? z horizon since = some t) :
    (since < t ∧ s.occursAt z t = true) ∧
    (∀ u, since < u → u < t → u.nanos = 0 → z.ShownInCalendar (z.wallTime u) →
      s.occursAt z u = true →
        (z.wallTime u).seconds ≤ (z.wallTime since).seconds ∨
          (z.wallTime t).seconds ≤ (z.wallTime u).seconds) ∧
    (z.NotSetBack since.seconds t.seconds →
      (∀ u, since < u → u < t → u.nanos = 0 → z.ShownInCalendar (z.wallTime u) →
        s.occursAt z u = false) ∧
      ∀ later t', since ≤ later → s.firstAfter? z horizon later = some t' → t ≤ t') := by
  refine ⟨⟨lt_of_firstAfter h, occursAt_of_firstAfter h⟩, fun u hsince _ hwhole hshown hoccurs => ?_,
    fun hz => ⟨fun u hsince hut hwhole hshown => ?_, fun later t' => le_of_firstAfter_later h hz⟩⟩
  · exact wallTime_of_jumped_over h hsince hwhole hoccurs hshown.exists_keeps
  · exact not_occursAt_of_notSetBack h hz hsince hut hwhole hshown.exists_keeps

/-- An hour ahead of UTC, a clock is set forward by another hour at 01:00 UTC, and set back half a year
later. From half past one on the clock, three o'clock is found, which is shown half an hour later.
Nothing occurs in between, and later searches find it or what comes later. -/
theorem firstAfter_earliest_over_gap :
    let z := Zone.shifting 3600 [(1648342800, 7200), (1667091600, 3600)]
    let s := (compile "0 0,30 * * * ?").toOption.getD everySecond
    let since := Instant.ofSeconds 1648341000
    let t := Instant.ofSeconds 1648342800
    s.next? z since = some t ∧ z.NotSetBack since.seconds t.seconds ∧
      (∀ u, since < u → u < t → u.nanos = 0 → z.ShownInCalendar (z.wallTime u) →
        s.occursAt z u = false) ∧
      ∀ later t', since ≤ later → s.next? z later = some t' → t ≤ t' := by
  intro z s since t
  have hfound : s.next? z since = some t := by decide +kernel
  have hz : z.NotSetBack since.seconds t.seconds := by
    intro m n hm hmn hn
    simp only [z, since, t, Instant.ofSeconds, Zone.offsetAt, List.foldl_cons, List.foldl_nil] at *
    split <;> split <;> (try split) <;> omega
  exact ⟨hfound, hz, (firstAfter_earliest s z defaultHorizon since t hfound).2.2 hz⟩

/-- At 06:00 UTC a clock is set back from two to one o'clock. From a minute before on, the search for a
full minute jumps over the whole repeated hour, though an occurrence comes a minute later. From there
on, an earlier one is found than from the earlier instant on. -/
theorem jumps_over_repeated_hour :
    let z := Zone.shifting (-14400) [(1667714400, -18000)]
    let s := (compile "0 * * * * *").toOption.getD everySecond
    let since := Instant.ofSeconds 1667714340
    let u := Instant.ofSeconds 1667714400
    s.next? z since = some (Instant.ofSeconds 1667718000) ∧ since < u ∧
      u < Instant.ofSeconds 1667718000 ∧ s.occursAt z u = true ∧
      s.next? z u = some (Instant.ofSeconds 1667714460) ∧
      Instant.ofSeconds 1667714460 < Instant.ofSeconds 1667718000 := by
  decide +kernel

end Schedule

end Cron
