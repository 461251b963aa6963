import Cron.Proofs.NextOccurrence
import Cron.Schedule.Carry

/-!
# The search by carrying

The search by carrying keeps one thing true wherever it comes to (`Carry.Sound`): once parts of a
time have been cut off, the time is at the start of the coarsest unit that is not allowed. So to
count this unit on is to go to the start of the next one, which is what `Schedule.search` does, and
to cut again would change nothing.

It holds because a unit that is counted on ends at its start, and a coarser one that changes with it
does so by a carry, which leaves it at its start as well (`next_eq_or_startOf_eq`).

Each count goes forward and each other step goes on to a finer unit, so the search ends. Nothing but
the end of the calendar is needed for that: also a schedule that allows no time at all, searched
without a last year, comes to an end.

Headlines:
* `Carry.ended_or_goes`: all that a step can do;
* `exists_carry_eq_ended`: the search by carrying ends with what `search` finds;
* `carrying_ends`: the way it takes, and that asking first whether a schedule is satisfiable makes no
  difference.
-/

namespace Cron

variable {s : Schedule} {limit : Int} {t u w start : WallTime} {unit finer coarser : TimeUnit}
  {cut : Bool} {c c' : Carry}

/-! ## Starts of units -/

namespace WallTime

/-- The start of the next unit. -/
def next (t : WallTime) : TimeUnit → WallTime
  | .month => t.nextMonth
  | .day => t.nextDay
  | .hour => t.nextHour
  | .minute => t.nextMinute
  | .second => t.nextSecond

/-- All finer parts of the time are at their least values. -/
def IsStart (t : WallTime) (unit : TimeUnit) : Prop :=
  ∀ finer, finer.rank < unit.rank → t.part finer = finer.least

theorem IsStart.mono (h : t.IsStart unit) (hle : finer.rank ≤ unit.rank) : t.IsStart finer :=
  fun finest hlt => h finest (Nat.lt_of_lt_of_le hlt hle)

theorem IsStart.startOf_eq (h : t.IsStart unit) : t.startOf unit = t := by
  obtain ⟨⟨year, month, day⟩, hour, minute, second⟩ := t
  cases unit with
  | month =>
    obtain rfl : day = 1 := h .day (by decide)
    obtain rfl : hour = 0 := h .hour (by decide)
    obtain rfl : minute = 0 := h .minute (by decide)
    obtain rfl : second = 0 := h .second (by decide)
    rfl
  | day =>
    obtain rfl : hour = 0 := h .hour (by decide)
    obtain rfl : minute = 0 := h .minute (by decide)
    obtain rfl : second = 0 := h .second (by decide)
    rfl
  | hour =>
    obtain rfl : minute = 0 := h .minute (by decide)
    obtain rfl : second = 0 := h .second (by decide)
    rfl
  | minute =>
    obtain rfl : second = 0 := h .second (by decide)
    rfl
  | second => rfl

theorem isStart_nextMonth (t : WallTime) : t.nextMonth.IsStart .month := by
  intro finer hlt
  cases finer with
  | month => exact absurd hlt (by decide)
  | day =>
    simp only [part, nextMonth, midnight, Date.nextMonth]
    split <;> rfl
  | hour => rfl
  | minute => rfl
  | second => rfl

theorem isStart_nextDay (t : WallTime) : t.nextDay.IsStart .day := by
  intro finer hlt
  cases finer with
  | month => exact absurd hlt (by decide)
  | day => exact absurd hlt (by decide)
  | hour => rfl
  | minute => rfl
  | second => rfl

theorem isStart_nextHour (t : WallTime) : t.nextHour.IsStart .hour := by
  unfold nextHour
  split
  · intro finer hlt
    cases finer with
    | minute => rfl
    | second => rfl
    | _ => exact absurd hlt (by decide)
  · exact t.isStart_nextDay.mono (by decide)

theorem isStart_nextMinute (t : WallTime) : t.nextMinute.IsStart .minute := by
  unfold nextMinute
  split
  · intro finer hlt
    cases finer with
    | second => rfl
    | _ => exact absurd hlt (by decide)
  · exact t.isStart_nextHour.mono (by decide)

theorem isStart_next (t : WallTime) (unit : TimeUnit) : (t.next unit).IsStart unit := by
  cases unit with
  | month => exact t.isStart_nextMonth
  | day => exact t.isStart_nextDay
  | hour => exact t.isStart_nextHour
  | minute => exact t.isStart_nextMinute
  | second => exact fun finer hlt => absurd hlt (Nat.not_lt_zero _)

theorem seconds_lt_next (t : WallTime) (unit : TimeUnit) : t.seconds < (t.next unit).seconds := by
  cases unit with
  | month => exact t.seconds_lt_nextMonth
  | day => exact t.seconds_lt_nextDay
  | hour => exact t.seconds_lt_nextHour
  | minute => exact t.seconds_lt_nextMinute
  | second => exact t.seconds_lt_nextSecond

/-- Units lie within coarser ones. -/
theorem seconds_next_le (h : finer.rank < unit.rank) :
    (t.next finer).seconds ≤ (t.next unit).seconds := by
  have hmonth := t.seconds_nextDay_le_nextMonth
  have hday := t.seconds_nextDay
  have hhour := t.seconds_nextHour
  have hminute := t.seconds_nextMinute
  have hsecond : t.nextSecond.seconds =
      t.date.number * 86400 + t.hour * 3600 + t.minute * 60 + t.second + 1 := t.seconds_nextSecond
  have := t.hour_lt
  have := t.minute_lt
  have := t.second_lt
  cases finer <;> cases unit <;> simp only [TimeUnit.rank, next] at h ⊢ <;> omega

/-- What lies before the start of the next unit lies in the same unit. -/
theorem startOf_eq_of_lt_next (hle : t.seconds ≤ w.seconds) (hlt : w.seconds < (t.next unit).seconds) :
    w.startOf unit = t.startOf unit := by
  cases unit with
  | month =>
    obtain ⟨hy, hm⟩ := month_eq_of_lt_nextMonth hle hlt
    simp only [startOf, hy, hm]
  | day => simp only [startOf, date_eq_of_lt_nextDay hle hlt]
  | hour =>
    obtain ⟨hd, hh⟩ := hour_eq_of_lt_nextHour hle hlt
    simp only [startOf, hd, hh]
  | minute =>
    obtain ⟨hd, hh, hm⟩ := minute_eq_of_lt_nextMinute hle hlt
    simp only [startOf, hd, hh, hm]
  | second => exact eq_of_lt_nextSecond hle hlt

/-- A coarser unit stays the same, or it is carried on to its next start. -/
theorem next_eq_or_startOf_eq (h : unit.rank < coarser.rank) :
    t.next unit = t.next coarser ∨ (t.next unit).startOf coarser = t.startOf coarser := by
  rcases Int.lt_or_eq_of_le (@seconds_next_le t coarser unit h) with hlt | heq
  · exact .inr (startOf_eq_of_lt_next (Int.le_of_lt (t.seconds_lt_next unit)) hlt)
  · exact .inl (ext_seconds heq)

/-- While a unit does not come round to its least value, the coarser ones stay the same. -/
theorem startOf_next_eq (h : unit.rank < coarser.rank) (hpart : (t.next unit).part unit ≠ unit.least) :
    (t.next unit).startOf coarser = t.startOf coarser := by
  rcases @next_eq_or_startOf_eq t unit coarser h with heq | hsame
  · exact absurd (heq ▸ t.isStart_next coarser unit h) hpart
  · exact hsame

theorem year_startOf (t : WallTime) (unit : TimeUnit) : (t.startOf unit).date.year = t.date.year := by
  cases unit <;> rfl

theorem year_next_eq (hpart : (t.next unit).part unit ≠ unit.least) :
    (t.next unit).date.year = t.date.year := by
  by_cases hmonth : unit = .month
  · subst hmonth
    simp only [next, part, nextMonth, midnight, Date.nextMonth] at hpart ⊢
    split
    next => rfl
    next h =>
      rw [dif_neg h] at hpart
      exact absurd rfl hpart
  · have hlt : unit.rank < TimeUnit.month.rank := by
      cases unit <;> first | exact absurd rfl hmonth | decide
    rw [← year_startOf _ .month, startOf_next_eq hlt hpart, year_startOf]

/-- To cut off the finer parts and count on is to go to the start of the next unit. -/
theorem countOn_startOf (t : WallTime) (unit : TimeUnit) :
    (t.startOf unit).countOn unit = t.next unit := by
  cases unit with
  | month =>
    have hday : ∀ d : Date, (Date.followingMonth
        ⟨d.year, d.month, 1, d.one_le_month, d.month_le, Nat.le_refl _, one_le_daysInMonth _ _⟩) =
          d.nextMonth := fun d => by
      simp only [Date.followingMonth, Date.nextMonth]
      split <;> simp [Nat.min_eq_left (one_le_daysInMonth _ _)]
    simp only [countOn, startOf, midnight, next, nextMonth, hday]
  | day =>
    have hstart : (t.startOf .day).seconds = t.date.number * 86400 := by
      simp [startOf, midnight, seconds]
    apply ext_seconds
    rw [countOn, seconds_ofSeconds, hstart, next, seconds_nextDay]
  | hour =>
    have hstart : (t.startOf .hour).seconds = t.date.number * 86400 + t.hour * 3600 := by
      simp [startOf, midnight, seconds]
    apply ext_seconds
    rw [countOn, seconds_ofSeconds, hstart, next, seconds_nextHour]
  | minute =>
    have hstart : (t.startOf .minute).seconds =
        t.date.number * 86400 + t.hour * 3600 + t.minute * 60 := by
      simp [startOf, midnight, seconds]
    apply ext_seconds
    rw [countOn, seconds_ofSeconds, hstart, next, seconds_nextMinute]
  | second =>
    apply ext_seconds
    rw [countOn, seconds_ofSeconds, startOf, next, seconds_nextSecond]

end WallTime

namespace Schedule

/-! ## The coarsest unit that is not allowed -/

theorem allowsPart_startOf (s : Schedule) (unit : TimeUnit) (t : WallTime) :
    s.allowsPart unit (t.startOf unit) = s.allowsPart unit t := by
  cases unit <;> rfl

/-- Whether the time shows what is allowed in all units that are coarser than a given one. -/
def AllowsAbove (s : Schedule) (unit : TimeUnit) (t : WallTime) : Prop :=
  ∀ coarser, unit.rank < coarser.rank → s.allowsPart coarser t = true

/-- The time is at the start of the coarsest unit that is not allowed, if there is one. -/
def Aligned (s : Schedule) (t : WallTime) : Prop :=
  ∀ unit, s.AllowsAbove unit t → s.allowsPart unit t = false → t.IsStart unit

/-- `advance?` goes on from the coarsest unit that is not allowed. -/
theorem advance?_eq_some_next (habove : s.AllowsAbove unit t) (hno : s.allowsPart unit t = false) :
    s.advance? t = some (t.next unit) := by
  unfold advance?
  cases unit with
  | month => simp_all [allowsPart, WallTime.next]
  | day =>
    have hmonth := habove .month (by decide)
    simp_all [allowsPart, WallTime.next]
  | hour =>
    have hmonth := habove .month (by decide)
    have hday := habove .day (by decide)
    simp_all [allowsPart, WallTime.next]
  | minute =>
    have hmonth := habove .month (by decide)
    have hday := habove .day (by decide)
    have hhour := habove .hour (by decide)
    simp_all [allowsPart, WallTime.next]
  | second =>
    have hmonth := habove .month (by decide)
    have hday := habove .day (by decide)
    have hhour := habove .hour (by decide)
    have hminute := habove .minute (by decide)
    simp_all [allowsPart, WallTime.next]

theorem accepts_of_allowsPart (habove : s.AllowsAbove .second t)
    (hallows : s.allowsPart .second t = true) : s.accepts t = true := by
  have hmonth := habove .month (by decide)
  have hday := habove .day (by decide)
  have hhour := habove .hour (by decide)
  have hminute := habove .minute (by decide)
  simp_all [allowsPart, accepts]

/-- A search goes on with the next unit if the coarsest one that is not allowed has a next one. -/
theorem search_of_not_allowed (hyear : t.date.year ≤ limit) (habove : s.AllowsAbove unit t)
    (hno : s.allowsPart unit t = false) :
    s.search limit t =
      if (t.next unit).date.year ≤ lastYear then s.search limit (t.next unit) else none := by
  rw [search_eq, if_neg (Int.not_lt.mpr hyear), advance?_eq_some_next habove hno]

/-- A search finds its start if that is accepted. -/
theorem search_of_accepts (h : s.accepts t = true) : s.search limit t = some t := by
  rw [search_eq, if_pos h, advance?_eq_none_iff.mpr h, ite_self]

/-- What has been counted on is at its start, and so is all that was carried on with it. -/
theorem aligned_next (habove : s.AllowsAbove unit t) : s.Aligned (t.next unit) := by
  intro coarser _ hno
  rcases Nat.lt_or_ge unit.rank coarser.rank with hlt | hge
  · rcases @WallTime.next_eq_or_startOf_eq t unit coarser hlt with heq | hsame
    · exact heq ▸ t.isStart_next coarser
    · have hallows := habove coarser hlt
      rw [← allowsPart_startOf, ← hsame, allowsPart_startOf, hno] at hallows
      cases hallows
  · exact (t.isStart_next unit).mono hge

/-- While a unit does not come round, the coarser ones stay allowed. -/
theorem AllowsAbove.next (habove : s.AllowsAbove unit t)
    (hpart : (t.next unit).part unit ≠ unit.least) : s.AllowsAbove unit (t.next unit) := by
  intro coarser hlt
  rw [← allowsPart_startOf, WallTime.startOf_next_eq hlt hpart, allowsPart_startOf]
  exact habove coarser hlt

theorem AllowsAbove.narrow (habove : s.AllowsAbove unit t) (hallows : s.allowsPart unit t = true)
    (hfiner : unit.finer? = some finer) : s.AllowsAbove finer t := by
  intro coarser hlt
  rcases Nat.lt_or_ge unit.rank coarser.rank with hunit | hge
  · exact habove coarser hunit
  · -- no unit lies between a unit and the coarsest finer one
    have heq : coarser = unit := by
      cases unit <;> cases hfiner <;> cases coarser <;> simp_all [TimeUnit.rank]
    exact heq ▸ hallows

end Schedule

/-! ## Steps -/

namespace Carry

/-- What is true wherever the search by carrying comes to. -/
def Sound (s : Schedule) (limit : Int) : Carry → Prop
  | anew t cut => cut = true → s.Aligned t
  | looking unit t cut =>
    t.date.year ≤ limit ∧ s.AllowsAbove unit t ∧ (cut = true → s.Aligned t)
  | ended _ => True

/-- What a step can do. A unit that is not allowed is counted on to the start of the next one. -/
inductive Goes (s : Schedule) (limit : Int) : Carry → Carry → Prop
  | close {t : WallTime} {cut : Bool} (hyear : limit < t.date.year) :
      Goes s limit (anew t cut) (ended (if s.accepts t then some t else none))
  | enter {t : WallTime} {cut : Bool} (hyear : t.date.year ≤ limit) :
      Goes s limit (anew t cut) (looking .month t cut)
  | narrow {unit finer : TimeUnit} {t : WallTime} {cut : Bool}
      (hallows : s.allowsPart unit t = true) (hfiner : unit.finer? = some finer) :
      Goes s limit (looking unit t cut) (looking finer t cut)
  | find {t : WallTime} {cut : Bool} (hallows : s.allowsPart .second t = true) :
      Goes s limit (looking .second t cut) (ended (some t))
  | leave {unit : TimeUnit} {t : WallTime} {cut : Bool} (hno : s.allowsPart unit t = false)
      (hyear : lastYear < (t.next unit).date.year) :
      Goes s limit (looking unit t cut) (ended none)
  | wrap {unit : TimeUnit} {t : WallTime} {cut : Bool} (hno : s.allowsPart unit t = false)
      (hyear : (t.next unit).date.year ≤ lastYear) (hpart : (t.next unit).part unit = unit.least) :
      Goes s limit (looking unit t cut) (anew (t.next unit) true)
  | count {unit : TimeUnit} {t : WallTime} {cut : Bool} (hno : s.allowsPart unit t = false)
      (hyear : (t.next unit).date.year ≤ lastYear) (hpart : (t.next unit).part unit ≠ unit.least) :
      Goes s limit (looking unit t cut) (looking unit (t.next unit) true)

/-- To count on is to go to the start of the next unit, whether finer parts are cut off or not. -/
theorem Sound.counted_eq (hc : (looking unit t cut).Sound s limit)
    (hno : s.allowsPart unit t = false) : t.counted unit cut = t.next unit := by
  obtain ⟨-, habove, haligned⟩ := hc
  have hstart : (if cut then t else t.startOf unit) = t.startOf unit := by
    cases cut with
    | true => exact (haligned rfl unit habove hno).startOf_eq.symm
    | false => rfl
  rw [WallTime.counted, hstart, WallTime.countOn_startOf]

/-- All that a step can do, unless the search has ended. -/
theorem ended_or_goes (hc : c.Sound s limit) :
    (∃ found, c = ended found) ∨ Goes s limit c (s.carryStep limit c) := by
  cases c with
  | anew t cut =>
    refine .inr ?_
    simp only [Schedule.carryStep]
    split
    next hyear => exact .close hyear
    next hyear => exact .enter (Int.not_lt.mp hyear)
  | looking unit t cut =>
    refine .inr ?_
    simp only [Schedule.carryStep]
    split
    next hallows =>
      cases hfiner : unit.finer? with
      | some finer => exact .narrow hallows hfiner
      | none =>
        obtain rfl : unit = .second := by cases unit <;> first | rfl | cases hfiner
        exact .find hallows
    next hallows =>
      have hno := Bool.eq_false_iff.mpr hallows
      simp only [hc.counted_eq hno]
      split
      next hend => exact .leave hno hend
      next hend =>
        split
        next hpart => exact .wrap hno (Int.not_lt.mp hend) hpart
        next hpart => exact .count hno (Int.not_lt.mp hend) hpart
  | ended found => exact .inl ⟨found, rfl⟩

theorem Goes.sound (h : Goes s limit c c') (hc : c.Sound s limit) : c'.Sound s limit := by
  cases h with
  | close => trivial
  | enter hyear =>
    refine ⟨hyear, fun coarser hlt => ?_, hc⟩
    cases coarser <;> exact absurd hlt (by decide)
  | narrow hallows hfiner =>
    obtain ⟨hyear, habove, haligned⟩ := hc
    exact ⟨hyear, habove.narrow hallows hfiner, haligned⟩
  | find => trivial
  | leave => trivial
  | wrap => exact fun _ => Schedule.aligned_next hc.2.1
  | count _ _ hpart =>
    obtain ⟨hyear, habove, -⟩ := hc
    exact ⟨Int.le_trans (Int.le_of_eq (WallTime.year_next_eq hpart)) hyear, habove.next hpart,
      fun _ => Schedule.aligned_next habove⟩

/-- What `search` finds from here. -/
def answer (s : Schedule) (limit : Int) : Carry → Option WallTime
  | anew t _ => s.search limit t
  | looking _ t _ => s.search limit t
  | ended found => found

/-- A step does not change what is found. -/
theorem Goes.answer_eq (h : Goes s limit c c') (hc : c.Sound s limit) :
    c'.answer s limit = c.answer s limit := by
  cases h with
  | close hyear => rw [answer, answer, Schedule.search_eq, if_pos hyear]
  | enter => rfl
  | narrow => rfl
  | find hallows =>
    obtain ⟨hyear, habove, -⟩ := hc
    exact (Schedule.search_of_accepts (Schedule.accepts_of_allowsPart habove hallows)).symm
  | leave hno hend =>
    obtain ⟨hyear, habove, -⟩ := hc
    rw [answer, answer, Schedule.search_of_not_allowed hyear habove hno,
      if_neg (Int.not_le.mpr hend)]
  | wrap hno hnext =>
    obtain ⟨hyear, habove, -⟩ := hc
    rw [answer, answer, Schedule.search_of_not_allowed hyear habove hno, if_pos hnext]
  | count hno hnext =>
    obtain ⟨hyear, habove, -⟩ := hc
    rw [answer, answer, Schedule.search_of_not_allowed hyear habove hno, if_pos hnext]

/-- What the search has left: seconds up to the end of the calendar, and units to look at. -/
def rest : Carry → Nat
  | anew t _ => 6 * (WallTime.endSeconds - t.seconds).toNat + 6
  | looking unit t _ => 6 * (WallTime.endSeconds - t.seconds).toNat + unit.rank + 1
  | ended _ => 0

/-- Every step takes something away. Counting a unit on takes seconds, and there are fewer units than
the six that a second stands for. -/
theorem Goes.rest_lt (h : Goes s limit c c') : c'.rest < c.rest := by
  have hrank : ∀ unit : TimeUnit, unit.rank ≤ 4 := fun unit => by cases unit <;> decide
  have hnext : ∀ {t : WallTime} {unit : TimeUnit}, (t.next unit).date.year ≤ lastYear →
      (WallTime.endSeconds - (t.next unit).seconds).toNat <
        (WallTime.endSeconds - t.seconds).toNat := fun {t unit} hyear => by
    have := t.seconds_lt_next unit
    have := WallTime.seconds_lt_endSeconds hyear
    omega
  cases h with
  | close => exact Nat.succ_pos _
  | enter => simp only [rest, TimeUnit.rank]; omega
  | @narrow unit finer _ _ _ hfiner =>
    have hlt : finer.rank < unit.rank := by cases unit <;> cases hfiner <;> decide
    simp only [rest]
    omega
  | find => exact Nat.succ_pos _
  | leave => exact Nat.succ_pos _
  | @wrap unit t _ _ hyear _ =>
    have := hnext hyear
    simp only [rest]
    omega
  | @count unit t _ _ hyear _ =>
    have := hnext hyear
    have := hrank unit
    simp only [rest]
    omega

/-- Whether a search that began anew at `t` has gone forward since then. -/
def Later (t : WallTime) : Carry → Prop
  | anew u _ => t.seconds < u.seconds
  | looking _ u _ => t.seconds ≤ u.seconds
  | ended _ => True

theorem Goes.later (h : Goes s limit c c') (hc : c.Later t) : c'.Later t := by
  cases h with
  | close => trivial
  | enter => exact Int.le_of_lt hc
  | narrow => exact hc
  | find => trivial
  | leave => trivial
  | wrap => exact Int.lt_of_le_of_lt hc (WallTime.seconds_lt_next _ _)
  | count => exact Int.le_of_lt (Int.lt_of_le_of_lt hc (WallTime.seconds_lt_next _ _))

theorem Goes.later_of_anew (h : Goes s limit (anew t cut) c') : c'.Later t := by
  cases h with
  | close => trivial
  | enter => exact Int.le_refl _

/-- The search begins anew only where a unit has come round. That unit and all finer ones are at their
least values then. -/
theorem Goes.of_anew (h : Goes s limit c (anew u cut)) :
    ∃ unit t cut, c = looking unit t cut ∧
      ∀ finer, finer.rank ≤ unit.rank → u.part finer = finer.least := by
  cases h with
  | @wrap unit t cut _ _ hpart =>
    refine ⟨unit, t, cut, rfl, fun finer hle => ?_⟩
    rcases Nat.lt_or_eq_of_le hle with hlt | heq
    · exact t.isStart_next unit finer hlt
    · obtain rfl : finer = unit := by cases finer <;> cases unit <;> first | rfl | cases heq
      exact hpart

end Carry

/-! ## The whole search -/

namespace Schedule

theorem sound_carry (s : Schedule) (limit : Int) (start : WallTime) (n : Nat) :
    (s.carry limit start n).Sound s limit := by
  induction n with
  | zero => exact nofun
  | succ n ih =>
    rcases Carry.ended_or_goes ih with ⟨found, hfound⟩ | hgoes
    · rw [carry, hfound]
      trivial
    · exact hgoes.sound ih

/-- From any state to the next one, unless the search has ended. -/
theorem ended_or_goes_carry (s : Schedule) (limit : Int) (start : WallTime) (n : Nat) :
    (∃ found, s.carry limit start n = .ended found) ∨
      Carry.Goes s limit (s.carry limit start n) (s.carry limit start (n + 1)) :=
  Carry.ended_or_goes (s.sound_carry limit start n)

/-- From any state on, the search by carrying ends with what `search` finds from there. -/
theorem exists_carry_eq_ended_answer (s : Schedule) (limit : Int) (start : WallTime) (n : Nat) :
    ∃ m, s.carry limit start m = .ended ((s.carry limit start n).answer s limit) := by
  induction hrest : (s.carry limit start n).rest using Nat.strongRecOn generalizing n with
  | ind rest ih =>
    rcases s.ended_or_goes_carry limit start n with ⟨found, hfound⟩ | hgoes
    · exact ⟨n, by rw [hfound]; rfl⟩
    · obtain ⟨m, hm⟩ := ih _ (hrest ▸ hgoes.rest_lt) (n + 1) rfl
      rw [hgoes.answer_eq (s.sound_carry limit start n)] at hm
      exact ⟨m, hm⟩

/-- The search by carrying ends with what `search` finds. -/
theorem exists_carry_eq_ended (s : Schedule) (limit : Int) (start : WallTime) :
    ∃ n, s.carry limit start n = .ended (s.search limit start) :=
  s.exists_carry_eq_ended_answer limit start 0

/-- After the search has begun anew it has gone forward. -/
theorem later_carry {m n : Nat} (hm : s.carry limit start m = .anew t cut) (hlt : m < n) :
    (s.carry limit start n).Later t := by
  induction n with
  | zero => exact absurd hlt (Nat.not_lt_zero m)
  | succ n ih =>
    rcases s.ended_or_goes_carry limit start n with ⟨found, hfound⟩ | hgoes
    · rw [carry, hfound]
      trivial
    · rcases Nat.lt_succ_iff_lt_or_eq.mp hlt with hbefore | rfl
      · exact hgoes.later (ih hbefore)
      · rw [hm] at hgoes
        exact hgoes.later_of_anew

/-! ## Schedules that allow no time -/

theorem accepts_eq_false_of_not_satisfiable (h : s.isSatisfiable = false) (w : WallTime) :
    s.accepts w = false := by
  refine Bool.eq_false_iff.mpr fun hacc => ?_
  rw [isSatisfiable_of_allows (accepts_iff_allows.mp hacc)] at h
  cases h

theorem search_eq_none_of_not_satisfiable (h : s.isSatisfiable = false) (limit : Int)
    (start : WallTime) : s.search limit start = none := by
  refine Option.eq_none_iff_forall_ne_some.mpr fun found hfound => ?_
  have hacc := accepts_of_search hfound
  rw [accepts_eq_false_of_not_satisfiable h] at hacc
  cases hacc

/-- **The search by carrying ends, and goes forward on its way.** It ends with what `search` finds,
for any schedule, any last year and any start. Whenever a unit is counted on, the time after that is
later than the one before finer parts were cut off. Whenever the search begins anew, it is later than
each time it has begun before, and it comes from a unit that has come round: this unit and all finer
ones are at their least values. If the schedule is not satisfiable then nothing is found and no instant
is an occurrence, so the first occurrence is the same whether one asks for that first or not. -/
theorem carrying_ends (s : Schedule) :
    (∀ limit start,
      (∃ n, s.carry limit start n = .ended (s.search limit start)) ∧
        (∀ n unit t cut, s.carry limit start n = .looking unit t cut →
          s.allowsPart unit t = false → t.seconds < (t.counted unit cut).seconds) ∧
        (∀ m n t u cut cut', m < n → s.carry limit start m = .anew t cut →
          s.carry limit start n = .anew u cut' → t.seconds < u.seconds) ∧
        ∀ n u cut', s.carry limit start (n + 1) = .anew u cut' →
          ∃ unit t cut, s.carry limit start n = .looking unit t cut ∧
            ∀ finer, finer.rank ≤ unit.rank → u.part finer = finer.least) ∧
      (s.isSatisfiable = false →
        (∀ limit start, s.search limit start = none) ∧ ∀ z t, s.occursAt z t = false) ∧
      ∀ z horizon since,
        let start := (z.wallTime since).nextSecond
        s.firstAfter? z horizon since =
          if start.date.year ≤ lastYear then
            s.firstFrom? z since (yearLimit start.date.year horizon) start
          else none := by
  refine ⟨fun limit start => ⟨s.exists_carry_eq_ended limit start, ?_, ?_, ?_⟩, fun h => ?_, ?_⟩
  · intro n unit t cut hn hno
    have hsound := s.sound_carry limit start n
    rw [hn] at hsound
    rw [hsound.counted_eq hno]
    exact t.seconds_lt_next unit
  · intro m n t u cut cut' hlt hm hn
    have hlater := later_carry hm hlt
    rw [hn] at hlater
    exact hlater
  · intro n u cut' hnext
    rcases s.ended_or_goes_carry limit start n with ⟨found, hfound⟩ | hgoes
    · rw [carry, hfound] at hnext
      cases hnext
    · rw [hnext] at hgoes
      exact hgoes.of_anew
  · exact ⟨search_eq_none_of_not_satisfiable h,
      fun z t => accepts_eq_false_of_not_satisfiable h (z.wallTime t)⟩
  · intro z horizon since start
    cases hsatisfiable : s.isSatisfiable with
    | true => simp only [firstAfter?, hsatisfiable, true_and]; rfl
    | false =>
      have hnone : s.firstFrom? z since (yearLimit start.date.year horizon) start = none := by
        rw [firstFrom?_eq, search_eq_none_of_not_satisfiable hsatisfiable, Option.bind_none]
      rw [hnone, ite_self, firstAfter?, hsatisfiable]
      exact if_neg fun h => Bool.false_ne_true h.1

/-- The schedule that allows no minute, and every value in the other fields. -/
def noMinute : Schedule :=
  { text := "* 60 * * * *"
    allowed := { calendarValues with minute := ValueSet.ofList [60] } }

/-- Half a minute after 23:58 on the last day of a year no minute is allowed. The seconds are cut off, a
minute is counted, and with the next one the minutes come round, and all coarser units as well. -/
theorem carrying_ends_in_new_year :
    ∃ start minute newYear : WallTime,
      start.seconds = 1356998310 ∧ minute.seconds = 1356998340 ∧ newYear.seconds = 1356998400 ∧
        noMinute.carry 2012 start 0 = .anew start false ∧
        noMinute.carry 2012 start 4 = .looking .minute start false ∧
        start.counted .minute false = minute ∧ start.seconds < minute.seconds ∧
        noMinute.carry 2012 start 5 = .looking .minute minute true ∧
        noMinute.carry 2012 start 6 = .anew newYear true ∧ start.seconds < newYear.seconds ∧
        newYear.part .minute = 0 ∧ newYear.part .second = 0 ∧
        noMinute.isSatisfiable = false ∧ noMinute.search 2012 start = none ∧
        ∃ n, noMinute.carry 2012 start n = .ended none := by
  let start := WallTime.ofSeconds 1356998310
  let minute := WallTime.ofSeconds 1356998340
  let newYear := WallTime.ofSeconds 1356998400
  have hanew : noMinute.carry 2012 start 0 = .anew start false := rfl
  have hlooking : noMinute.carry 2012 start 4 = .looking .minute start false := by decide +kernel
  have hminute : noMinute.carry 2012 start 5 = .looking .minute minute true := by decide +kernel
  have hwrapped : noMinute.carry 2012 start 6 = .anew newYear true := by decide +kernel
  have hcounted : start.counted .minute false = minute := by decide +kernel
  have hsatisfiable : noMinute.isSatisfiable = false := by decide +kernel
  obtain ⟨hcarry, hnever, -⟩ := carrying_ends noMinute
  obtain ⟨hends, hforward, hlater, hround⟩ := hcarry 2012 start
  have hnone := (hnever hsatisfiable).1 2012 start
  have hcount := hforward 4 .minute start false hlooking (by decide +kernel)
  have hrestart := hlater 0 6 start newYear false true (by decide) hanew hwrapped
  obtain ⟨unit, t, cut, hunit, hleast⟩ := hround 5 newYear true hwrapped
  cases hminute.symm.trans hunit
  rw [hcounted] at hcount
  rw [hnone] at hends
  exact ⟨start, minute, newYear, WallTime.seconds_ofSeconds _, WallTime.seconds_ofSeconds _,
    WallTime.seconds_ofSeconds _, hanew, hlooking, hcounted, hcount, hminute, hwrapped, hrestart,
    hleast .minute (by decide), hleast .second (by decide), hsatisfiable, hnone, hends⟩

end Schedule

end Cron
