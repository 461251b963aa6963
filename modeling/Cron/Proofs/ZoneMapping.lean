import Cron.Calendar.Zone
import Cron.Proofs.CalendarOrder

/-!
# Where wall times lie on the time line

`Zone.Shows` says that a wall clock shows a time at a whole second of the calendar, `Zone.Keeps`
which two instants a zone keeps for a time: the first and the last second at which it is shown. The
zone tries each of its offsets, and no other second can show the time, so `Zone.locate` finds
exactly these two. A clock does not stop at the ends of the calendar; a time whose first or last
second lies outside is not kept.

A zone has a constant offset if its clock is always equally far ahead of UTC (`Zone.HasOffset`).
There a time is shown at one second only.

Headlines:
* `mem_secondsShowing_iff`: the seconds that are tried hold all those at which a time is shown;
* `locate_spec`: the location of a time says which instants the zone keeps for it;
* `after?_locate_eq_some_iff`: the earlier of the kept instants counts if it is late enough, else
  the later one;
* `HasOffset.after?_locate_eq_some_iff`: the same where the offset is constant.
-/

namespace Cron

namespace Instant

variable {n : Int} {t u : Instant}

theorem ofSeconds?_eq_some_iff :
    ofSeconds? n = some t ↔
      t.nanos = 0 ∧ t.seconds = n ∧ firstSecond ≤ t.seconds ∧ t.seconds ≤ lastSecond := by
  unfold ofSeconds?
  split
  next h =>
    rw [Option.some.injEq]
    constructor
    · rintro rfl
      exact ⟨rfl, rfl, h⟩
    · rintro ⟨hnanos, hsec, -⟩
      apply ext_ticks
      simp [ticks, ofSeconds, hnanos, hsec]
  next h =>
    constructor
    · intro h'
      cases h'
    · rintro ⟨-, rfl, h'⟩
      exact absurd h' h

/-- Whole seconds are equal if their numbers are. -/
theorem eq_of_seconds_eq (ht : t.nanos = 0) (hu : u.nanos = 0) (h : t.seconds = u.seconds) : t = u :=
  ext_ticks (by simp [ticks, ht, hu, h])

end Instant

namespace Zone

variable {z : Zone} {t u first last since : Instant} {w : WallTime} {offset : Int}

/-- The wall clock shows a time at an instant, which is a whole second of the calendar. -/
structure Shows (z : Zone) (t : Instant) (w : WallTime) : Prop where
  whole : t.nanos = 0
  firstSecond_le : Instant.firstSecond ≤ t.seconds
  le_lastSecond : t.seconds ≤ Instant.lastSecond
  wallTime_eq : z.wallTime t = w

/-- The zone keeps two instants for a time: the first and the last second at which its wall clock
shows it. -/
structure Keeps (z : Zone) (w : WallTime) (first last : Instant) : Prop where
  first_shows : z.Shows first w
  last_shows : z.Shows last w
  first_le : ∀ second, second + z.offsetAt second = w.seconds → first.seconds ≤ second
  le_last : ∀ second, second + z.offsetAt second = w.seconds → second ≤ last.seconds

theorem wallTime_eq_iff : z.wallTime t = w ↔ t.seconds + z.offsetAt t.seconds = w.seconds := by
  constructor
  · rintro rfl
    exact (WallTime.seconds_ofSeconds _).symm
  · intro h
    rw [wallTime, h, WallTime.ofSeconds_seconds]

/-- No other second than those tried shows a time. -/
theorem mem_secondsShowing_iff {second : Int} :
    second ∈ z.secondsShowing w ↔ second + z.offsetAt second = w.seconds := by
  rw [mem_secondsShowing]
  refine ⟨And.right, fun h => ⟨?_, h⟩⟩
  have hoffset : w.seconds - second = z.offsetAt second := by omega
  rw [hoffset]
  exact z.offsetAt_mem_offsets second

/-! ## Locations -/

/-- The zone keeps the instants of the first and the last second that it finds. -/
theorem keeps_iff :
    z.Keeps w first last ↔
      ∃ a b, (z.secondsShowing w).min? = some a ∧ (z.secondsShowing w).max? = some b ∧
        Instant.ofSeconds? a = some first ∧ Instant.ofSeconds? b = some last := by
  simp only [List.min?_eq_some_iff, List.max?_eq_some_iff, mem_secondsShowing_iff,
    Instant.ofSeconds?_eq_some_iff]
  constructor
  · rintro ⟨hf, hl, hle, hge⟩
    exact ⟨first.seconds, last.seconds, ⟨wallTime_eq_iff.mp hf.wallTime_eq, hle⟩,
      ⟨wallTime_eq_iff.mp hl.wallTime_eq, hge⟩, ⟨hf.whole, rfl, hf.firstSecond_le, hf.le_lastSecond⟩,
      ⟨hl.whole, rfl, hl.firstSecond_le, hl.le_lastSecond⟩⟩
  · rintro ⟨a, b, ⟨ha, hle⟩, ⟨hb, hge⟩, ⟨hf, rfl, hf1, hf2⟩, ⟨hl, rfl, hl1, hl2⟩⟩
    exact ⟨⟨hf, hf1, hf2, wallTime_eq_iff.mpr ha⟩, ⟨hl, hl1, hl2, wallTime_eq_iff.mpr hb⟩, hle, hge⟩

/-- What the zone keeps for a time is determined by the time. -/
theorem Keeps.unique (h : z.Keeps w first last) (h' : z.Keeps w t u) : t = first ∧ u = last := by
  have hfirst := wallTime_eq_iff.mp h.first_shows.wallTime_eq
  have hlast := wallTime_eq_iff.mp h.last_shows.wallTime_eq
  have ht := wallTime_eq_iff.mp h'.first_shows.wallTime_eq
  have hu := wallTime_eq_iff.mp h'.last_shows.wallTime_eq
  have h1 := h.first_le _ ht
  have h2 := h'.first_le _ hfirst
  have h3 := h.le_last _ hu
  have h4 := h'.le_last _ hlast
  exact ⟨Instant.eq_of_seconds_eq h'.first_shows.whole h.first_shows.whole (by omega),
    Instant.eq_of_seconds_eq h'.last_shows.whole h.last_shows.whole (by omega)⟩

/-- The location of a time says which instants the zone keeps for it. -/
theorem locate_spec (z : Zone) (w : WallTime) :
    (z.locate w = .skipped ∧ ∀ first last, ¬ z.Keeps w first last) ∨
      ∃ first last, z.Keeps w first last ∧
        z.locate w = if first = last then .once first else .repeated first last := by
  unfold locate
  split
  next a b ha hb =>
    split
    next t u ht hu =>
      exact .inr ⟨t, u, keeps_iff.mpr ⟨a, b, ha, hb, ht, hu⟩, rfl⟩
    next hnot =>
      refine .inl ⟨rfl, fun first last h => ?_⟩
      obtain ⟨a', b', ha', hb', ht, hu⟩ := keeps_iff.mp h
      obtain rfl := Option.some.inj (ha.symm.trans ha')
      obtain rfl := Option.some.inj (hb.symm.trans hb')
      exact hnot first last ht hu
  next hnot =>
    refine .inl ⟨rfl, fun first last h => ?_⟩
    obtain ⟨a, b, ha, hb, -⟩ := keeps_iff.mp h
    exact hnot a b ha hb

/-- The earlier of the kept instants counts if it is late enough, else the later one. -/
theorem after?_locate_eq_some_iff :
    (z.locate w).after? since = some t ↔
      ∃ first last, z.Keeps w first last ∧ (since < first ∨ since < last) ∧
        t = if since < first then first else last := by
  rcases locate_spec z w with ⟨hloc, hnone⟩ | ⟨first, last, hkeeps, hloc⟩
  · rw [hloc]
    refine ⟨nofun, ?_⟩
    rintro ⟨first, last, h, -⟩
    exact absurd h (hnone first last)
  · have hexists : (∃ f l, z.Keeps w f l ∧ (since < f ∨ since < l) ∧ t = if since < f then f else l) ↔
        (since < first ∨ since < last) ∧ t = if since < first then first else last := by
      constructor
      · rintro ⟨f, l, h, hrest⟩
        obtain ⟨rfl, rfl⟩ := hkeeps.unique h
        exact hrest
      · exact fun h => ⟨first, last, hkeeps, h⟩
    rw [hexists, hloc]
    by_cases heq : first = last
    · subst heq
      by_cases hlt : since < first <;> simp [Location.after?, hlt, eq_comm]
    · by_cases hlt : since < first
      · simp [Location.after?, heq, hlt, eq_comm]
      · by_cases hlt' : since < last <;> simp [Location.after?, heq, hlt, hlt', eq_comm]

/-- What counts after an instant shows the time. -/
theorem shows_of_after?_locate (h : (z.locate w).after? since = some t) : z.Shows t w := by
  obtain ⟨first, last, hkeeps, -, rfl⟩ := after?_locate_eq_some_iff.mp h
  split
  · exact hkeeps.first_shows
  · exact hkeeps.last_shows

/-! ## Constant offsets -/

/-- The wall clock is always the same number of seconds ahead of UTC. -/
def HasOffset (z : Zone) (offset : Int) : Prop := ∀ second, z.offsetAt second = offset

theorem hasOffset_utc : utc.HasOffset 0 := fun _ => rfl

theorem hasOffset_fixed (offset : Int) : (fixed offset).HasOffset offset := fun _ => rfl

theorem HasOffset.seconds_wallTime (hz : z.HasOffset offset) (t : Instant) :
    (z.wallTime t).seconds = t.seconds + offset := by
  rw [wallTime, WallTime.seconds_ofSeconds, hz]

theorem HasOffset.seconds_eq (hz : z.HasOffset offset) (h : z.Shows t w) :
    w.seconds = t.seconds + offset := by
  rw [← h.wallTime_eq, hz.seconds_wallTime]

/-- With a constant offset a time is shown if its second lies in the calendar. -/
theorem HasOffset.exists_shows_iff (hz : z.HasOffset offset) :
    (∃ t, z.Shows t w) ↔
      Instant.firstSecond ≤ w.seconds - offset ∧ w.seconds - offset ≤ Instant.lastSecond := by
  constructor
  · rintro ⟨t, h⟩
    have hw := hz.seconds_eq h
    have hfirst := h.firstSecond_le
    have hlast := h.le_lastSecond
    omega
  · rintro ⟨hfirst, hlast⟩
    refine ⟨Instant.ofSeconds (w.seconds - offset), rfl, hfirst, hlast, wallTime_eq_iff.mpr ?_⟩
    rw [hz]
    exact Int.sub_add_cancel _ _

/-- A constant offset keeps the one instant that shows a time. -/
theorem HasOffset.keeps_iff (hz : z.HasOffset offset) :
    z.Keeps w first last ↔ z.Shows first w ∧ last = first := by
  constructor
  · intro h
    have hf := hz.seconds_eq h.first_shows
    have hl := hz.seconds_eq h.last_shows
    exact ⟨h.first_shows, Instant.eq_of_seconds_eq h.last_shows.whole h.first_shows.whole (by omega)⟩
  · rintro ⟨h, rfl⟩
    have hw := hz.seconds_eq h
    refine ⟨h, h, fun second hs => ?_, fun second hs => ?_⟩ <;>
      · rw [hz] at hs
        omega

theorem HasOffset.after?_locate_eq_some_iff (hz : z.HasOffset offset) :
    (z.locate w).after? since = some t ↔ z.Shows t w ∧ since < t := by
  rw [Zone.after?_locate_eq_some_iff]
  simp only [hz.keeps_iff]
  constructor
  · rintro ⟨first, last, ⟨h, rfl⟩, hlt, rfl⟩
    simp only [or_self] at hlt
    simp only [ite_self]
    exact ⟨h, hlt⟩
  · rintro ⟨h, hlt⟩
    exact ⟨t, t, ⟨h, rfl⟩, .inl hlt, by simp⟩

end Zone

end Cron
