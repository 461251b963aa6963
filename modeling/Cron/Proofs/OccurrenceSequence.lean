import Cron.Proofs.NextOccurrence

/-!
# One occurrence after the other

`Schedule.Traversed` says that a list holds the first occurrences after an instant, each found after
the one before it, and what is found after the last one. If that is later than a limit and the list
is not, then the list is all of `Schedule.occurrences` up to the limit.

Where the offset is constant, no occurrence of the calendar (`Schedule.Occurs`) lies between two
that are found one after the other. An occurrence may lie too far ahead to be found, so all of them
are found only if each is within reach of the one before (`Schedule.Reaches`).

Headlines:
* `Traversed.filter_occurrences`: the list is cut out of every longer list of occurrences;
* `Traversed.mem_iff`: where the offset is constant and each occurrence is within reach of the one
  before, the list holds all of them;
* `eachReached_of_reaches`: that is so if the end of the span is within reach of its start;
* `firstAfter_of_between`: where the offset is constant, what is found stays the same as long as it lies
  ahead.
-/

namespace Cron

namespace Schedule

open WallTime (newYear)

variable {s : Schedule} {z : Zone} {offset horizon : Int} {since t u limit : Instant}
  {dues : List Instant} {next : Option Instant} {n : Nat}

/-- The list holds the first occurrences after an instant, and this is found next. -/
def Traversed (s : Schedule) (z : Zone) (horizon : Int) (since : Instant) :
    List Instant → Option Instant → Prop
  | [], next => next = s.firstAfter? z horizon since
  | t :: rest, next => s.firstAfter? z horizon since = some t ∧ s.Traversed z horizon t rest next

/-- What is found next may be put at the end. -/
theorem Traversed.snoc (h : s.Traversed z horizon since dues (some t)) :
    s.Traversed z horizon since (dues ++ [t]) (s.firstAfter? z horizon t) := by
  induction dues generalizing since with
  | nil => exact ⟨h.symm, rfl⟩
  | cons u rest ih => exact ⟨h.1, ih h.2⟩

theorem Traversed.lt_of_mem (h : s.Traversed z horizon since dues next) (ht : t ∈ dues) :
    since < t := by
  induction dues generalizing since with
  | nil => cases ht
  | cons u rest ih =>
    have hu := lt_of_firstAfter h.1
    rcases List.mem_cons.mp ht with rfl | ht
    · exact hu
    · exact Instant.lt_trans hu (ih h.2 ht)

/-- Each is later than those before it. -/
theorem Traversed.pairwise (h : s.Traversed z horizon since dues next) :
    dues.Pairwise (· < ·) := by
  induction dues generalizing since with
  | nil => exact .nil
  | cons u rest ih => exact .cons (fun t ht => h.2.lt_of_mem ht) (ih h.2)

/-- What is found next is found after the last one. -/
theorem Traversed.next_eq (h : s.Traversed z horizon since dues next) :
    next = s.firstAfter? z horizon (dues.getLastD since) := by
  induction dues generalizing since with
  | nil => exact h
  | cons u rest ih =>
    rw [List.getLastD_cons]
    exact ih h.2

theorem Traversed.le_getLastD (h : s.Traversed z horizon since dues next) :
    since ≤ dues.getLastD since := by
  induction dues generalizing since with
  | nil => exact Instant.le_refl since
  | cons u rest ih =>
    rw [List.getLastD_cons]
    exact Instant.le_trans (Instant.le_of_lt (lt_of_firstAfter h.1)) (ih h.2)

/-- A list behind whose last one nothing is found does not go on. -/
theorem Traversed.append_eq_nil {more : List Instant} (h : s.Traversed z horizon since dues none)
    (h' : s.Traversed z horizon since (dues ++ more) next) : more = [] ∧ next = none := by
  induction dues generalizing since with
  | nil =>
    cases more with
    | nil => exact ⟨rfl, h'.trans h.symm⟩
    | cons u rest => cases h.trans h'.1
  | cons u rest ih => exact ih h.2 h'.2

theorem lt_of_mem_occurrences (h : t ∈ s.occurrences z horizon n since) : since < t := by
  induction n generalizing since with
  | zero => cases h
  | succ n ih =>
    unfold occurrences at h
    split at h
    next u hu =>
      have hlt := lt_of_firstAfter hu
      rcases List.mem_cons.mp h with rfl | h
      · exact hlt
      · exact Instant.lt_trans hlt (ih h)
    next => cases h

/-- A list that goes up to a limit is cut out of every longer list of occurrences. -/
theorem Traversed.filter_occurrences (h : s.Traversed z horizon since dues next)
    (hdues : ∀ t ∈ dues, t ≤ limit) (hnext : ∀ t, next = some t → limit < t) (n : Nat) :
    (s.occurrences z horizon n since).filter (fun t => decide (t ≤ limit)) = dues.take n := by
  induction dues generalizing since n with
  | nil =>
    rw [List.take_nil, List.filter_eq_nil_iff]
    intro t ht hle
    cases n with
    | zero => cases ht
    | succ n =>
      unfold occurrences at ht
      split at ht
      next u hu =>
        have hu' := hnext u (h.trans hu)
        have hlt : limit < t := by
          rcases List.mem_cons.mp ht with rfl | ht
          · exact hu'
          · exact Instant.lt_trans hu' (lt_of_mem_occurrences ht)
        exact Instant.not_le_of_lt hlt (of_decide_eq_true hle)
      next => cases ht
  | cons u rest ih =>
    cases n with
    | zero => rfl
    | succ n =>
      have hu := hdues u List.mem_cons_self
      have hrest := ih h.2 (fun t ht => hdues t (List.mem_cons_of_mem u ht)) n
      simp only [occurrences, h.1, List.filter_cons, hu, decide_true, if_true, List.take_succ_cons,
        hrest]

/-! ## Constant offsets -/

/-- A whole second of the calendar whose time on the wall clock is in the calendar and allowed. -/
structure Occurs (s : Schedule) (z : Zone) (t : Instant) : Prop where
  shows : z.Shows t (z.wallTime t)
  year_le : (z.wallTime t).date.year ≤ lastYear
  occursAt : s.occursAt z t = true

/-- An instant is not too far ahead to be found after another one. -/
def Reaches (z : Zone) (horizon : Int) (since t : Instant) : Prop :=
  (z.wallTime t).date.year ≤ yearLimit (z.wallTime since).nextSecond.date.year horizon

/-- Every occurrence in a span is within reach of the one before it, or of the start. -/
def EachReached (s : Schedule) (z : Zone) (horizon : Int) (start limit : Instant) : Prop :=
  ∀ since t, (since = start ∨ (start < since ∧ s.Occurs z since)) → since < t → t ≤ limit →
    s.Occurs z t → (∀ u, since < u → u < t → ¬ s.Occurs z u) → Reaches z horizon since t

theorem yearLimit_mono {a b : Int} (h : a ≤ b) : yearLimit a horizon ≤ yearLimit b horizon := by
  unfold yearLimit
  omega

/-- If the end of a span is within reach of its start, then so is everything in between. -/
theorem eachReached_of_reaches (hz : z.HasOffset offset) (h : Reaches z horizon since limit) :
    EachReached s z horizon since limit := by
  intro u t hu _ ht _ _
  have hsince : since ≤ u := by
    rcases hu with rfl | ⟨hlt, -⟩
    · exact Instant.le_refl u
    · exact Instant.le_of_lt hlt
  have hstart : (z.wallTime since).nextSecond.date.year ≤ (z.wallTime u).nextSecond.date.year := by
    have := Instant.seconds_le_of_le hsince
    refine WallTime.year_le_of_seconds_le ?_
    rw [WallTime.seconds_nextSecond, WallTime.seconds_nextSecond, hz.seconds_wallTime,
      hz.seconds_wallTime]
    omega
  have hend : (z.wallTime t).date.year ≤ (z.wallTime limit).date.year := by
    have := Instant.seconds_le_of_le ht
    refine WallTime.year_le_of_seconds_le ?_
    rw [hz.seconds_wallTime, hz.seconds_wallTime]
    omega
  exact Int.le_trans hend (Int.le_trans h (yearLimit_mono hstart))

/-- Whatever lets the search come to a time lets it come to an earlier one. -/
theorem Eligible.of_le {limit : Int} {start v w : WallTime} (hw : s.Eligible limit start w)
    (hstart : start.seconds ≤ v.seconds) (hle : v.seconds ≤ w.seconds) (hv : s.Allows v) :
    s.Eligible limit start v := by
  have hyear := WallTime.year_le_of_seconds_le hle
  refine ⟨hstart, Int.le_trans hyear hw.year_le, hv, ?_⟩
  rcases hw.within with hlimit | rfl | rfl
  · exact .inl (Int.le_trans hyear hlimit)
  · by_cases hlimit : v.date.year ≤ limit
    · exact .inl hlimit
    · exact .inr (.inl (WallTime.eq_newYear_of_year_lt hle (Int.not_le.mp hlimit)))
  · exact .inr (.inr (WallTime.ext_seconds (Int.le_antisymm hle hstart)))

/-- The search may come to an occurrence that is within reach, and to one at the new year behind its last
year or in the second with which it starts. -/
theorem candidate_of_occurs (hz : z.HasOffset offset) (hsince : since < t) (ht : s.Occurs z t)
    (hwithin : Reaches z horizon since t ∨
      z.wallTime t = newYear (yearLimit (z.wallTime since).nextSecond.date.year horizon + 1) ∨
      z.wallTime t = (z.wallTime since).nextSecond) :
    let start := (z.wallTime since).nextSecond
    Candidate s z (yearLimit start.date.year horizon) start (z.wallTime t) := by
  have hlt := Instant.seconds_lt_of_lt ht.shows.whole hsince
  refine ⟨⟨?_, ht.year_le, accepts_iff_allows.mp ht.occursAt, hwithin⟩, t, ht.shows⟩
  rw [WallTime.seconds_nextSecond, hz.seconds_wallTime, hz.seconds_wallTime]
  omega

/-- What is found occurs, and nothing occurs before it. -/
theorem occurs_of_firstAfter (hz : z.HasOffset offset) (hcal : Instant.firstSecond ≤ since.seconds)
    (h : s.firstAfter? z horizon since = some t) :
    s.Occurs z t ∧ ∀ u, since < u → u < t → ¬ s.Occurs z u := by
  obtain ⟨w, hw, hleast, hshows⟩ := (firstAfter?_spec hz hcal s horizon).1 t h
  have hwt := hshows.wallTime_eq
  refine ⟨⟨hwt ▸ hshows, hwt ▸ hw.year_le, occursAt_of_firstAfter h⟩, fun u hsince hut hu => ?_⟩
  have hsince' := Instant.seconds_lt_of_lt hu.shows.whole hsince
  have hut' : (z.wallTime u).seconds < w.seconds := by
    have := Instant.seconds_lt_of_lt hshows.whole hut
    rw [← hwt, hz.seconds_wallTime, hz.seconds_wallTime]
    omega
  have hstart : (z.wallTime since).nextSecond.seconds ≤ (z.wallTime u).seconds := by
    rw [WallTime.seconds_nextSecond, hz.seconds_wallTime, hz.seconds_wallTime]
    omega
  have heligible := hw.toEligible.of_le hstart (Int.le_of_lt hut') (accepts_iff_allows.mp hu.occursAt)
  have := hleast _ ⟨heligible, u, hu.shows⟩
  omega

/-- If nothing is found, nothing within reach occurs. -/
theorem not_reaches_of_firstAfter (hz : z.HasOffset offset)
    (hcal : Instant.firstSecond ≤ since.seconds) (h : s.firstAfter? z horizon since = none)
    (hsince : since < t) (ht : s.Occurs z t) : ¬ Reaches z horizon since t :=
  fun hreach =>
    (firstAfter?_spec hz hcal s horizon).2 h _ (candidate_of_occurs hz hsince ht (.inl hreach))

/-- If something occurs after an instant, something occurs first. -/
theorem exists_first_occurs {t : Instant} (hsince : since < t) (ht : s.Occurs z t) :
    ∃ first, since < first ∧ first ≤ t ∧ s.Occurs z first ∧
      ∀ u, since < u → u < first → ¬ s.Occurs z u := by
  by_cases hbetween : ∃ u, since < u ∧ u < t ∧ s.Occurs z u
  · obtain ⟨u, hu, hut, hoccurs⟩ := hbetween
    obtain ⟨first, hfirst, hle, hrest⟩ := exists_first_occurs hu hoccurs
    exact ⟨first, hfirst, Instant.le_trans hle (Instant.le_of_lt hut), hrest⟩
  · exact ⟨t, hsince, Instant.lt_irrefl t, ht, fun u hu hut hoccurs => hbetween ⟨u, hu, hut, hoccurs⟩⟩
termination_by (t.ticks - since.ticks).toNat
decreasing_by
  rw [Instant.lt_iff_ticks_lt] at hsince hut
  omega

/-- Where each occurrence is within reach of the one before, a list that goes up to a limit holds
all of them. -/
theorem Traversed.mem_iff (hz : z.HasOffset offset) (hcal : Instant.firstSecond ≤ since.seconds)
    (hreach : EachReached s z horizon since limit) (h : s.Traversed z horizon since dues next)
    (hdues : ∀ t ∈ dues, t ≤ limit) (hnext : ∀ t, next = some t → limit < t) :
    t ∈ dues ↔ s.Occurs z t ∧ since < t ∧ t ≤ limit := by
  induction dues generalizing since with
  | nil =>
    refine ⟨nofun, fun ⟨ht, hsince, hle⟩ => ?_⟩
    obtain ⟨first, hfirst, hfle, hoccurs, hnone⟩ := exists_first_occurs hsince ht
    cases hfound : s.firstAfter? z horizon since with
    | none =>
      refine absurd ?_ (not_reaches_of_firstAfter hz hcal hfound hfirst hoccurs)
      exact hreach since first (.inl rfl) hfirst (Instant.le_trans hfle hle) hoccurs hnone
    | some u =>
      have hlt := hnext u (h.trans hfound)
      have hearly := (occurs_of_firstAfter hz hcal hfound).2
      exact absurd ht (hearly t hsince (Instant.lt_of_le_of_lt hle hlt))
  | cons u rest ih =>
    obtain ⟨hoccurs, hearly⟩ := occurs_of_firstAfter hz hcal h.1
    have hsince := lt_of_firstAfter h.1
    have hu := hdues u List.mem_cons_self
    have hrest := ih hoccurs.shows.firstSecond_le ?_ h.2
      fun t ht => hdues t (List.mem_cons_of_mem u ht)
    · rw [List.mem_cons, hrest]
      constructor
      · rintro (rfl | ⟨ht, hut, hle⟩)
        · exact ⟨hoccurs, hsince, hu⟩
        · exact ⟨ht, Instant.lt_trans hsince hut, hle⟩
      · rintro ⟨ht, hst, hle⟩
        rcases Instant.lt_trichotomy t u with hlt | rfl | hlt
        · exact absurd ht (hearly t hst hlt)
        · exact .inl rfl
        · exact .inr ⟨ht, hlt, hle⟩
    · rintro p v (rfl | ⟨hp, hpo⟩)
      · exact hreach p v (.inr ⟨hsince, hoccurs⟩)
      · exact hreach p v (.inr ⟨Instant.lt_trans hsince hp, hpo⟩)

end Schedule

end Cron
