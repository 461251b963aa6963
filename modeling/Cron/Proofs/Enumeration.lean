import Cron.CommandLine.Program
import Cron.Proofs.OccurrenceSequence

/-!
# Enumerating the occurrences

Two programs visit the occurrences of a schedule one after the other: a walk, which hands them out
step by step and stays where it is once there is no further one, and the task `next`, which writes a
given number of them as lines. Both look for each occurrence from the one before (`Schedule.nth?`).

Where the offset is constant, nothing is left out on the way (`Schedule.Enumerates`), and the walk
ends only if nothing occurs in the five calendar years after the second behind the last occurrence.

The task `next` reserves room for all its lines before it looks for the first, so it does not get
anywhere if the count is too large for that, however few lines there are to be written.

Headlines:
* `getElem?_occurrences`: what is listed, place by place;
* `Walk.steps_walk`: a walk lists the same and then nothing more;
* `enumerates_occurrences`, `lt_year_of_firstAfter`: what the list holds, and why it ends;
* `walk_and_lines_enumerate`: all of this for the walk and for the lines.
-/

namespace Cron

namespace Schedule

variable {s : Schedule} {z : Zone} {offset horizon : Int} {since t u : Instant} {dues : List Instant}
  {next : Option Instant}

/-- What is come to by looking for the next occurrence a number of times. -/
def nth? (s : Schedule) (z : Zone) (horizon : Int) (since : Instant) : Nat → Option Instant
  | 0 => some since
  | k + 1 => (s.nth? z horizon since k).bind (s.firstAfter? z horizon)

/-- The first of several searches may be done apart. -/
theorem nth?_succ (s : Schedule) (z : Zone) (horizon : Int) (since : Instant) (k : Nat) :
    s.nth? z horizon since (k + 1) =
      (s.firstAfter? z horizon since).bind fun t => s.nth? z horizon t k := by
  induction k with
  | zero => exact (Option.bind_fun_some _).symm
  | succ k ih =>
    rw [nth?, ih, Option.bind_assoc]
    rfl

theorem occurrences_of_none (h : s.firstAfter? z horizon since = none) (n : Nat) :
    s.occurrences z horizon n since = [] := by
  cases n with
  | zero => rfl
  | succ n => rw [occurrences, h]

theorem occurrences_of_some (h : s.firstAfter? z horizon since = some t) (n : Nat) :
    s.occurrences z horizon (n + 1) since = t :: s.occurrences z horizon n t := by
  rw [occurrences, h]

/-- Each place of the list holds what as many searches come to. -/
theorem getElem?_occurrences (s : Schedule) (z : Zone) (horizon : Int) (n : Nat) (since : Instant)
    (k : Nat) :
    (s.occurrences z horizon n since)[k]? =
      if k < n then s.nth? z horizon since (k + 1) else none := by
  induction n generalizing since k with
  | zero => rfl
  | succ n ih =>
    rw [nth?_succ]
    cases hfound : s.firstAfter? z horizon since with
    | none =>
      rw [occurrences_of_none hfound, List.getElem?_nil, Option.bind_none, ite_self]
    | some t =>
      rw [occurrences_of_some hfound, Option.bind_some]
      cases k with
      | zero => rfl
      | succ k =>
        rw [List.getElem?_cons_succ, ih]
        simp only [Nat.add_lt_add_iff_right]

/-- A shorter list is the start of a longer one. -/
theorem occurrences_eq_take (s : Schedule) (z : Zone) (horizon : Int) (since : Instant) {n m : Nat}
    (h : n ≤ m) : s.occurrences z horizon n since = (s.occurrences z horizon m since).take n := by
  refine List.ext_getElem? fun k => ?_
  rw [List.getElem?_take, getElem?_occurrences, getElem?_occurrences]
  by_cases hk : k < n
  · rw [if_pos hk, if_pos hk, if_pos (Nat.lt_of_lt_of_le hk h)]
  · rw [if_neg hk, if_neg hk]

/-- The list is traversed up to its last member. -/
theorem traversed_occurrences (s : Schedule) (z : Zone) (horizon : Int) (n : Nat) (since : Instant) :
    s.Traversed z horizon since (s.occurrences z horizon n since)
      (s.firstAfter? z horizon ((s.occurrences z horizon n since).getLastD since)) := by
  induction n generalizing since with
  | zero => rfl
  | succ n ih =>
    cases hfound : s.firstAfter? z horizon since with
    | none =>
      rw [occurrences_of_none hfound]
      rfl
    | some t =>
      rw [occurrences_of_some hfound, List.getLastD_cons]
      exact ⟨hfound, ih t⟩

/-- A list that falls short of its count ends where nothing further is found. -/
theorem firstAfter_eq_none_of_length_lt {n : Nat}
    (h : (s.occurrences z horizon n since).length < n) :
    s.firstAfter? z horizon ((s.occurrences z horizon n since).getLastD since) = none := by
  induction n generalizing since with
  | zero => exact absurd h (Nat.not_lt_zero _)
  | succ n ih =>
    cases hfound : s.firstAfter? z horizon since with
    | none =>
      rw [occurrences_of_none hfound]
      exact hfound
    | some t =>
      rw [occurrences_of_some hfound] at h ⊢
      rw [List.getLastD_cons]
      exact ih (Nat.lt_of_succ_lt_succ h)

/-! ## Walking -/

namespace Walk

/-- A walk that has ended stays ended. -/
theorem steps_of_ended {w : Walk} (h : w.cursor = none) (n : Nat) :
    w.steps n = List.replicate n none := by
  induction n generalizing w with
  | zero => rfl
  | succ n ih =>
    have hfound : w.cursor.bind (w.schedule.firstAfter? w.zone w.horizon) = none := by
      rw [h, Option.bind_none]
    rw [steps, List.replicate_succ]
    exact congr (congrArg List.cons hfound) (ih hfound)

/-- A walk visits what is listed, and then ends. -/
theorem steps_of_cursor {w : Walk} (h : w.cursor = some since) (n : Nat) :
    let visited := w.schedule.occurrences w.zone w.horizon n since
    w.steps n = visited.map some ++ List.replicate (n - visited.length) none := by
  intro visited
  induction n generalizing w since with
  | zero => rfl
  | succ n ih =>
    have hstep : w.step.1 = w.schedule.firstAfter? w.zone w.horizon since := by
      rw [step, h, Option.bind_some]
    have hcursor : w.step.2.cursor = w.step.1 := rfl
    cases hfound : w.schedule.firstAfter? w.zone w.horizon since with
    | none =>
      rw [hfound] at hstep
      simp only [visited, occurrences_of_none hfound, steps, hstep,
        steps_of_ended (hcursor.trans hstep)]
      rfl
    | some t =>
      rw [hfound] at hstep
      have hrest := @ih t w.step.2 (hcursor.trans hstep)
      simp only [visited, occurrences_of_some hfound, steps, hstep, hrest, List.length_cons,
        Nat.add_sub_add_right]
      rfl

theorem steps_walk (s : Schedule) (z : Zone) (since : Instant) (n : Nat) :
    let visited := s.occurrences z defaultHorizon n since
    (s.walk z since).steps n = visited.map some ++ List.replicate (n - visited.length) none :=
  steps_of_cursor rfl n

/-- What a walk visits is what is listed. -/
theorem filterMap_steps_walk (s : Schedule) (z : Zone) (since : Instant) (n : Nat) :
    ((s.walk z since).steps n).filterMap id = s.occurrences z defaultHorizon n since := by
  rw [steps_walk, List.filterMap_append, List.filterMap_replicate_of_none rfl, List.append_nil,
    List.filterMap_map, Function.id_comp, List.filterMap_some]

end Walk

/-! ## Constant offsets -/

/-- A list holds the occurrences after an instant up to its last member, each once and in order. -/
structure Enumerates (s : Schedule) (z : Zone) (since : Instant) (l : List Instant) : Prop where
  increasing : (since :: l).Pairwise (· < ·)
  occurs : ∀ t ∈ l, s.Occurs z t
  /-- Nothing occurs before the first member, or between two that follow one another. -/
  complete : ∀ u ∈ l, ∀ t, s.Occurs z t → since < t → t ≤ u → t ∈ l

theorem Traversed.enumerates (hz : z.HasOffset offset) (hcal : Instant.firstSecond ≤ since.seconds)
    (h : s.Traversed z horizon since dues next) : s.Enumerates z since dues := by
  induction dues generalizing since with
  | nil => exact ⟨List.pairwise_singleton _ _, nofun, nofun⟩
  | cons v rest ih =>
    obtain ⟨hoccurs, hnone⟩ := occurs_of_firstAfter hz hcal h.1
    obtain ⟨hincreasing, hrest, hcomplete⟩ := ih hoccurs.shows.firstSecond_le h.2
    refine ⟨List.pairwise_cons.mpr ⟨fun t ht => h.lt_of_mem ht, hincreasing⟩,
      List.forall_mem_cons.mpr ⟨hoccurs, hrest⟩, fun u hu t ht hsince hle => ?_⟩
    rcases Instant.lt_trichotomy t v with hlt | rfl | hlt
    · exact absurd ht (hnone t hsince hlt)
    · exact List.mem_cons_self
    · refine List.mem_cons_of_mem v ?_
      rcases List.mem_cons.mp hu with rfl | hu
      · exact absurd hlt hle
      · exact hcomplete u hu t ht hlt hle

theorem enumerates_occurrences (hz : z.HasOffset offset)
    (hcal : Instant.firstSecond ≤ since.seconds) (s : Schedule) (horizon : Int) (n : Nat) :
    s.Enumerates z since (s.occurrences z horizon n since) :=
  (traversed_occurrences s z horizon n since).enumerates hz hcal

theorem Enumerates.firstSecond_le_getLastD (h : s.Enumerates z since dues)
    (hcal : Instant.firstSecond ≤ since.seconds) :
    Instant.firstSecond ≤ (dues.getLastD since).seconds := by
  cases hlast : dues.getLast? with
  | none =>
    rw [List.getLastD_eq_getLast?, hlast]
    exact hcal
  | some t =>
    rw [List.getLastD_eq_getLast?, hlast]
    exact (h.occurs t (List.mem_of_getLast? hlast)).shows.firstSecond_le

/-- Nothing occurs in the years of a search that finds nothing. -/
theorem lt_year_of_firstAfter (hz : z.HasOffset offset) (hcal : Instant.firstSecond ≤ since.seconds)
    (h : s.next? z since = none) (ht : s.Occurs z t) (hsince : since < t) :
    (z.wallTime since).nextSecond.date.year + defaultHorizon < (z.wallTime t).date.year := by
  have hfar := not_reaches_of_firstAfter hz hcal h hsince ht
  have hyear := ht.year_le
  unfold Reaches yearLimit at hfar
  unfold lastYear at hyear
  omega

end Schedule

namespace CommandLine

open Schedule

theorem nextLines?_of_le {n : Nat} (h : n ≤ maxLines) (s : Schedule) (z : Zone) (horizon : Int)
    (since : Instant) :
    nextLines? s z horizon n since = some ((s.occurrences z horizon n since).map (internetText z)) :=
  if_neg (Nat.not_lt_of_le h)

/-- **A walk and the lines of the task `next` enumerate the occurrences.** Where the offset is
constant, a walk visits every occurrence once and in order; it ends only if nothing occurs in the
five calendar years after the second behind the last one visited, and stays ended. In every zone, for
every horizon and for every count for which there is room, the lines are the results of the iterated
search, a longer list goes on where a shorter one ends, and with the horizon of a walk they are what
it visits. -/
theorem walk_and_lines_enumerate (s : Schedule) (z : Zone) (since : Instant) :
    (∀ offset n, z.HasOffset offset → Instant.firstSecond ≤ since.seconds →
      let steps := (s.walk z since).steps n
      let visited := steps.filterMap id
      let last := visited.getLastD since
      s.Enumerates z since visited ∧
      steps = visited.map some ++ List.replicate (n - visited.length) none ∧
      (visited.length < n → ∀ t, s.Occurs z t → last < t →
        (z.wallTime last).nextSecond.date.year + 5 < (z.wallTime t).date.year)) ∧
    ∀ horizon n, n ≤ maxLines → ∃ lines, nextLines? s z horizon n since = some lines ∧
      (∀ k, lines[k]? =
        if k < n then (s.nth? z horizon since (k + 1)).map (internetText z) else none) ∧
      (∀ m, n ≤ m → m ≤ maxLines →
        ∃ further, nextLines? s z horizon m since = some (lines ++ further)) ∧
      (horizon = 5 → lines = (((s.walk z since).steps n).filterMap id).map (internetText z)) := by
  constructor
  · intro offset n hz hcal steps visited last
    have hvisited : visited = s.occurrences z defaultHorizon n since :=
      Walk.filterMap_steps_walk s z since n
    have henumerates : s.Enumerates z since visited :=
      hvisited ▸ enumerates_occurrences hz hcal s defaultHorizon n
    refine ⟨henumerates, ?_, fun hshort t ht hlast => ?_⟩
    · rw [hvisited]
      exact Walk.steps_walk s z since n
    · have hnone : s.next? z last = none := by
        simp only [last, hvisited] at hshort ⊢
        exact firstAfter_eq_none_of_length_lt hshort
      exact lt_year_of_firstAfter hz (henumerates.firstSecond_le_getLastD hcal) hnone ht hlast
  · intro horizon n hn
    refine ⟨_, nextLines?_of_le hn s z horizon since, fun k => ?_, fun m hm hroom => ?_, ?_⟩
    · rw [List.getElem?_map, getElem?_occurrences]
      by_cases hk : k < n
      · rw [if_pos hk, if_pos hk]
      · rw [if_neg hk, if_neg hk]
        rfl
    · refine ⟨((s.occurrences z horizon m since).drop n).map (internetText z), ?_⟩
      rw [nextLines?_of_le hroom, ← List.map_append, occurrences_eq_take s z horizon since hm,
        List.take_append_drop]
    · rintro rfl
      rw [Walk.filterMap_steps_walk]
      rfl

/-- The first second of a day of February, whichever day of the week that is. -/
def midnightOfFebruary (day : Nat) : Schedule :=
  { text := "0 0 0 " ++ String.ofList (Text.decimal day) ++ " 2 ?"
    allowed :=
      { second := .ofList [0], minute := .ofList [0], hour := .ofList [0], dayOfMonth := .ofList [day]
        month := .ofList [2], dayOfWeek := calendarValues.dayOfWeek } }

/-- There is no leap day in the year 2100. A walk ends at the leap day before it, and stays there,
though there are leap days again later on. -/
theorem walk_and_lines_enumerate_to_last_leap_day :
    let s := midnightOfFebruary 29
    let z := Zone.fixed (-34200)
    let since := Instant.ofSeconds 3944678400
    let leapDay := Instant.ofSeconds 3981346200
    z.HasOffset (-34200) ∧ Instant.firstSecond ≤ since.seconds ∧ 3 ≤ maxLines ∧
      (s.walk z since).steps 3 = [some leapDay, none, none] ∧
      (∀ t, s.Occurs z t → leapDay < t → 2101 < (z.wallTime t).date.year) ∧
      nextLines? s z 5 3 since = some ["2096-02-29T00:00:00-09:30"] := by
  intro s z since leapDay
  have hz : z.HasOffset (-34200) := Zone.hasOffset_fixed _
  have hcal : Instant.firstSecond ≤ since.seconds := by decide
  have hroom : 3 ≤ maxLines := by decide
  have hvisited : ((s.walk z since).steps 3).filterMap id = [leapDay] := by decide +kernel
  obtain ⟨hwalk, hlines⟩ := walk_and_lines_enumerate s z since
  obtain ⟨-, hsteps, hfar⟩ := hwalk _ 3 hz hcal
  obtain ⟨lines, hnext, -, -, heq⟩ := hlines 5 3 hroom
  rw [hvisited] at hsteps hfar
  refine ⟨hz, hcal, hroom, hsteps, fun t ht hlt => hfar (by decide) t ht hlt, ?_⟩
  rw [hnext, heq rfl, hvisited]
  decide +kernel

/-- The greatest count that can be given leaves no room, even if there is no line to be written. -/
theorem no_room_for_greatest_count :
    let s := midnightOfFebruary 30
    let since := Instant.ofSeconds 0
    s.occurrences .utc 5 maxCount since = [] ∧ nextLines? s .utc 5 maxCount since = none := by
  intro s since
  have hnone : s.firstAfter? .utc 5 since = none := by decide +kernel
  exact ⟨occurrences_of_none hnone maxCount, if_pos (by decide)⟩

end CommandLine

end Cron
