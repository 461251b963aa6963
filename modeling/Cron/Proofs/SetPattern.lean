import Cron.Proofs.FieldExpansion
import Cron.Proofs.NextOccurrence
import Cron.Proofs.PatternGrammar

/-!
# Writing a pattern for given sets

For any six sets that are not empty there is a pattern that allows just these values: it lists the
members of each set, ascending and with commas between them (`Pattern.ofSets`). An empty set has no
such list, so it cannot be written in this way.

A list of numerals is neither a star nor a question mark, and each of its items denotes one number.
So each field is read as the set that it was written for, values outside the range of the field
included. Two schedules with the same sets accept the same times, so they find the same occurrences.

A schedule keeps its pattern without the blanks at its ends, and compiling that gives the schedule
back.

Headlines:
* `Field.read_written`: what is written for a set is read as the set;
* `compile_ofSets`: what is written for six sets compiles to a schedule with these sets;
* `compile_text`: the text of a schedule compiles to the schedule;
* `firstAfter_of_allowed_eq`: what is found depends on the sets only;
* `compile_round_trip`: all of this.
-/

namespace Cron

/-- What stands in a list of words with separators between them is a separator or stands in a word. -/
theorem Text.eq_or_mem_of_mem_intercalate {sep c : Char} {ws : List (List Char)}
    (h : c ∈ [sep].intercalate ws) : c = sep ∨ ∃ w ∈ ws, c ∈ w := by
  induction ws with
  | nil => simp [List.intercalate] at h
  | cons w others ih =>
    cases others with
    | nil => exact .inr ⟨w, List.mem_singleton_self w, by simpa [List.intercalate] using h⟩
    | cons u more =>
      rw [List.intercalate_cons_cons, List.mem_append, List.mem_append] at h
      rcases h with (hw | hsep) | hmore
      · exact .inr ⟨w, List.mem_cons_self, hw⟩
      · exact .inl (List.mem_singleton.mp hsep)
      · exact (ih hmore).imp id fun ⟨v, hv, hc⟩ => ⟨v, List.mem_cons_of_mem w hv, hc⟩

/-! ## Fields -/

namespace ValueSet

variable {set : ValueSet} {v : Nat} {c : Char}

/-- The members of a set as numerals, ascending, with commas between them. -/
def written (set : ValueSet) : List Char := [','].intercalate (set.toList.map Text.decimal)

theorem isDigit_of_mem_decimal (h : c ∈ Text.decimal v) : c.isDigit = true :=
  Nat.isDigit_of_mem_toDigits (by decide) (by decide) h

theorem map_decimal_ne_nil (h : ∃ v, v ∈ set) : set.toList.map Text.decimal ≠ [] := by
  obtain ⟨v, hv⟩ := h
  exact List.ne_nil_of_mem (List.mem_map_of_mem (mem_toList.mpr hv))

/-- Between the commas are the numerals of the members. -/
theorem splitOn_written (h : ∃ v, v ∈ set) :
    set.written.splitOn ',' = set.toList.map Text.decimal := by
  refine List.splitOn_intercalate ',' (fun numeral hnumeral => ?_) (map_decimal_ne_nil h)
  obtain ⟨v, -, rfl⟩ := List.mem_map.mp hnumeral
  exact fun hcomma => absurd (isDigit_of_mem_decimal hcomma) (by decide)

/-- A list of numerals holds digits and commas. -/
theorem isDigit_of_mem_written (h : c ∈ set.written) : c = ',' ∨ c.isDigit = true := by
  rcases Text.eq_or_mem_of_mem_intercalate h with hcomma | ⟨numeral, hnumeral, hc⟩
  · exact .inl hcomma
  · obtain ⟨v, -, rfl⟩ := List.mem_map.mp hnumeral
    exact .inr (isDigit_of_mem_decimal hc)

theorem written_ne_nil (h : ∃ v, v ∈ set) : set.written ≠ [] := by
  intro hnil
  obtain ⟨v, hv⟩ := h
  have hmem : Text.decimal v ∈ set.written.splitOn ',' := by
    rw [splitOn_written ⟨v, hv⟩]
    exact List.mem_map_of_mem (mem_toList.mpr hv)
  rw [hnil] at hmem
  exact Nat.toDigits_ne_nil (List.mem_singleton.mp hmem)

end ValueSet

namespace Field

variable {field : Field} {set : ValueSet} {v : Nat}

/-- A numeral denotes its number and nothing else. -/
theorem denotes_decimal_iff {lo hi n : Nat} (hv : v ≤ largestNumeral) :
    field.Denotes (Text.decimal v) lo hi n ↔ lo = v ∧ hi = v ∧ n = 1 := by
  have hself : field.Denotes (Text.decimal v) v v 1 :=
    .plain (.single (.numeral (Text.numeral?_eq_some_iff.mp (Text.numeral?_decimal v)) hv))
  constructor
  · exact fun h => h.unique hself
  · rintro ⟨rfl, rfl, rfl⟩
    exact hself

/-- Every field allows the digits and the comma. -/
theorem allows_of_mem_written (field : Field) {c : Char} (h : c ∈ set.written) :
    field.allows c = true := by
  have hsign : isSign c = true := by
    rcases ValueSet.isDigit_of_mem_written h with rfl | hdigit
    · decide
    · simp [isSign, hdigit]
  cases field <;> simp [allows, hsign]

/-- A list of numerals is neither a star nor a question mark. -/
theorem isOpen_written (field : Field) (set : ValueSet) :
    field.isOpen (String.ofList set.written) = false := by
  have hne : ∀ c, c ≠ ',' → c.isDigit = false → set.written ≠ [c] := fun c hcomma hdigit heq => by
    rcases @ValueSet.isDigit_of_mem_written set c (by simp [heq]) with h | h
    · exact hcomma h
    · rw [hdigit] at h
      cases h
  rw [Bool.eq_false_iff, ne_eq, isOpen_iff, String.toList_ofList]
  rintro (h | ⟨-, h⟩)
  · exact hne '*' (by decide) (by decide) h
  · exact hne '?' (by decide) (by decide) h

/-- **What is written for a set is read as the set.** -/
theorem read_written (field : Field) (h : ∃ v, v ∈ set) :
    field.read (String.ofList set.written) = .ok set := by
  have hlargest : ∀ v ∈ set, v ≤ largestNumeral := fun v hv =>
    Nat.le_trans (Nat.le_of_lt (ValueSet.lt_capacity_of_mem hv)) (by decide)
  have hparts : (String.ofList set.written).toList.splitOn ',' = set.toList.map Text.decimal := by
    rw [String.toList_ofList, ValueSet.splitOn_written h]
  have hall : field.AllDenote (String.ofList set.written) := by
    intro part hpart
    rw [hparts] at hpart
    obtain ⟨v, hv, rfl⟩ := List.mem_map.mp hpart
    have hv' := hlargest v (ValueSet.mem_toList.mp hv)
    exact ⟨v, v, 1, (denotes_decimal_iff hv').mpr ⟨rfl, rfl, rfl⟩⟩
  have hsome : ∀ v, field.SomeDenotes (String.ofList set.written) v ↔ v ∈ set := by
    intro v
    simp only [SomeDenotes, hparts, List.mem_map, ValueSet.mem_toList]
    constructor
    · rintro ⟨_, ⟨u, hu, rfl⟩, lo, hi, n, hdenotes, hlo, hhi, -⟩
      obtain ⟨rfl, rfl, rfl⟩ := (denotes_decimal_iff (hlargest u hu)).mp hdenotes
      exact Nat.le_antisymm hhi hlo ▸ hu
    · intro hv
      exact ⟨_, ⟨v, hv, rfl⟩, v, v, 1, (denotes_decimal_iff (hlargest v hv)).mpr ⟨rfl, rfl, rfl⟩,
        Nat.le_refl v, Nat.le_refl v, Nat.one_dvd _⟩
  obtain ⟨result, hresult⟩ := exists_read_iff_denote.mpr (.inr hall)
  have hsame : result = set := ValueSet.ext fun v => by
    rw [mem_read_iff hresult, hsome, isOpen_written]
    simp only [Bool.false_eq_true, false_and, false_or]
    exact ⟨And.right, fun hv => ⟨ValueSet.lt_capacity_of_mem hv, hv⟩⟩
  rw [hresult, hsame]

end Field

/-! ## Patterns -/

/-- Words with single spaces between them are spaced. -/
theorem Text.spaced_intercalate {ws : List (List Char)} (hne : ws ≠ []) (h : ∀ w ∈ ws, IsWord w) :
    Spaced ws ([' '].intercalate ws) := by
  induction ws with
  | nil => exact absurd rfl hne
  | cons w others ih =>
    obtain ⟨hw, hothers⟩ := List.forall_mem_cons.mp h
    cases others with
    | nil => simpa [List.intercalate] using Spaced.word hw
    | cons u more =>
      rw [List.intercalate_cons_cons]
      have hblank : ∀ c ∈ [' '], isBlank c = true := List.forall_mem_singleton.mpr rfl
      exact .cons hw (List.cons_ne_nil _ _) hblank (ih (List.cons_ne_nil u more) hothers)

/-- Trimming a second time changes nothing. -/
theorem Text.Spaced.trim_eq_self {ws : List (List Char)} {t : List Char} (h : Spaced ws t) :
    trim t = t := by
  have htrim : trim ([] ++ t ++ []) = t := h.trim_eq nofun nofun
  rwa [List.nil_append, List.append_nil] at htrim

namespace PerField

variable {α β ε : Type} {f : Field → α → Except ε β} {p : PerField α} {r : PerField β}

theorem traverse_eq_ok (h : ∀ field, f field (p.get field) = .ok (r.get field)) :
    p.traverse f = .ok r := by
  have hsecond := h .second
  have hminute := h .minute
  have hhour := h .hour
  have hdayOfMonth := h .dayOfMonth
  have hmonth := h .month
  have hdayOfWeek := h .dayOfWeek
  simp only [get] at hsecond hminute hhour hdayOfMonth hmonth hdayOfWeek
  simp only [traverse, hsecond, hminute, hhour, hdayOfMonth, hmonth, hdayOfWeek]
  rfl

end PerField

namespace Pattern

variable {sets : PerField ValueSet}

/-- The pattern that lists the members of six sets. -/
def ofSets (sets : PerField ValueSet) : String :=
  String.ofList ([' '].intercalate (sets.toList.map ValueSet.written))

theorem spaced_ofSets (h : ∀ field, ∃ v, v ∈ sets.get field) :
    Text.Spaced (sets.toList.map ValueSet.written) (ofSets sets).toList := by
  have hword : ∀ field, Text.IsWord (sets.get field).written := fun field =>
    isWord_of_allows (ValueSet.written_ne_nil (h field))
      fun c hc => Field.allows_of_mem_written field hc
  rw [ofSets, String.toList_ofList]
  refine Text.spaced_intercalate (List.cons_ne_nil _ _) ?_
  simp only [PerField.toList, List.map_cons, List.map_nil, List.forall_mem_cons]
  exact ⟨hword .second, hword .minute, hword .hour, hword .dayOfMonth, hword .month,
    hword .dayOfWeek, fun _ hw => absurd hw List.not_mem_nil⟩

/-- What is written for six sets has the shape of a pattern. -/
theorem shape_ofSets (h : ∀ field, ∃ v, v ∈ sets.get field) :
    Shape (ofSets sets) (PerField.ofFun fun field => (sets.get field).written) := by
  have hspaced := spaced_ofSets h
  refine ⟨?_, fun field c hc => ?_⟩
  · rw [hspaced.trim_eq_self]
    exact hspaced
  · rw [PerField.get_ofFun] at hc
    exact Field.allows_of_mem_written field hc

end Pattern

namespace Schedule

open Pattern

variable {s r : Schedule} {z : Zone} {sets : PerField ValueSet} {pattern : String} {limit : Int}
  {since : Instant} {start t : WallTime}

/-- **What is written for six sets compiles to a schedule with these sets.** -/
theorem compile_ofSets (h : ∀ field, ∃ v, v ∈ sets.get field) :
    compile (ofSets sets) = .ok { text := ofSets sets, allowed := sets } := by
  rw [compile_of_shape (shape_ofSets h)]
  refine bind_eq_ok_iff.mpr ⟨sets, PerField.traverse_eq_ok fun field => ?_, ?_⟩
  · rw [PerField.get_ofFun, PerField.get_ofFun, readField, Field.read_written field (h field)]
    rfl
  · rw [(spaced_ofSets h).trim_eq_self, String.ofList_toList]
    rfl

/-- **The text of a schedule compiles to the schedule.** -/
theorem compile_text (h : compile pattern = .ok s) : compile s.text = .ok s := by
  by_cases hshape : ∃ texts, Shape pattern texts
  · obtain ⟨texts, hshape⟩ := hshape
    rw [compile_of_shape hshape] at h
    obtain ⟨allowed, hallowed, hs⟩ := bind_eq_ok_iff.mp h
    cases hs
    have htrim : Text.trim (String.ofList (Text.trim pattern.toList)).toList =
        Text.trim pattern.toList := by
      rw [String.toList_ofList, hshape.spaced.trim_eq_self]
    have htext : Shape (String.ofList (Text.trim pattern.toList)) texts :=
      ⟨htrim.symm ▸ hshape.spaced, hshape.allowed⟩
    rw [compile_of_shape htext]
    exact bind_eq_ok_iff.mpr ⟨allowed, hallowed, by rw [htrim]; rfl⟩
  · rw [compile_of_not_shape fun texts htexts => hshape ⟨texts, htexts⟩] at h
    cases h

/-! ## Schedules with the same sets -/

theorem accepts_of_allowed_eq (h : r.allowed = s.allowed) (t : WallTime) :
    r.accepts t = s.accepts t := by
  simp only [accepts, acceptsDate, h]

theorem advance?_of_allowed_eq (h : r.allowed = s.allowed) (t : WallTime) :
    r.advance? t = s.advance? t := by
  unfold advance? acceptsDate
  rw [h]

theorem search_of_allowed_eq (h : r.allowed = s.allowed) (limit : Int) (t : WallTime) :
    r.search limit t = s.search limit t := by
  fun_induction search s limit t with
  | case1 t hlimit haccepts | case2 t hlimit haccepts =>
    rw [search_eq, accepts_of_allowed_eq h]
    simp [hlimit, haccepts]
  | case3 t hlimit hnone =>
    rw [search_eq, advance?_of_allowed_eq h]
    simp [hlimit, hnone]
  | case4 t hlimit u hu hyear ih =>
    rw [search_eq, advance?_of_allowed_eq h]
    simp [hlimit, hu, hyear, ih]
  | case5 t hlimit u hu hyear =>
    rw [search_eq, advance?_of_allowed_eq h]
    simp [hlimit, hu, hyear]

theorem firstFrom?_of_allowed_eq (h : r.allowed = s.allowed) (start : WallTime) :
    r.firstFrom? z since limit start = s.firstFrom? z since limit start := by
  fun_induction firstFrom? s z since limit start with
  | case1 start hnone =>
    rw [firstFrom?_eq, search_of_allowed_eq h, hnone, Option.bind_none]
  | case2 start found hfound t hafter =>
    rw [firstFrom?_eq, search_of_allowed_eq h, hfound, Option.bind_some, hafter, Option.some_or]
  | case3 start found hfound hafter hnext ih =>
    rw [firstFrom?_eq, search_of_allowed_eq h, hfound, Option.bind_some, hafter, Option.none_or,
      if_pos hnext, ih]
  | case4 start found hfound hafter hnext =>
    rw [firstFrom?_eq, search_of_allowed_eq h, hfound, Option.bind_some, hafter, Option.none_or,
      if_neg hnext]

/-- **What is found depends on the sets only.** -/
theorem firstAfter_of_allowed_eq (h : r.allowed = s.allowed) (z : Zone) (horizon : Int)
    (since : Instant) : r.firstAfter? z horizon since = s.firstAfter? z horizon since := by
  unfold firstAfter? isSatisfiable
  simp only [h, firstFrom?_of_allowed_eq h]

/-! ## Compiling again -/

/-- Whatever numbers below the capacity are chosen for the fields, there are sets of just these. -/
theorem exists_sets_of_lt_capacity {chosen : Field → Nat → Prop}
    (h : ∀ field v, chosen field v → v < ValueSet.capacity) :
    ∃ sets : PerField ValueSet, ∀ field v, v ∈ sets.get field ↔ chosen field v := by
  classical
  refine ⟨PerField.ofFun fun field =>
    .ofList ((List.range ValueSet.capacity).filter fun v => decide (chosen field v)), fun field v => ?_⟩
  rw [PerField.get_ofFun]
  simp only [ValueSet.mem_ofList, List.mem_filter, List.mem_range, decide_eq_true_eq]
  exact ⟨fun hv => hv.1.2, fun hv => ⟨⟨h field v hv, hv⟩, h field v hv⟩⟩

/-- **Compiling can be undone.** The text of a schedule compiles to the schedule. If none of its sets
is empty, then the pattern that lists their members compiles to the same sets, so to a schedule that
accepts and finds the same in every zone. Conversely, whatever numbers below 64 are chosen, at least
one for each field, the pattern that lists them compiles to just these. -/
theorem compile_round_trip :
    (∀ pattern s, compile pattern = .ok s →
      compile s.text = .ok s ∧
      ((∀ field, ∃ v, v ∈ s.allowed.get field) →
        ∃ r, compile (ofSets s.allowed) = .ok r ∧ r.allowed = s.allowed ∧
          (∀ z t, r.occursAt z t = s.occursAt z t) ∧
          ∀ z horizon since, r.firstAfter? z horizon since = s.firstAfter? z horizon since)) ∧
    ∀ chosen : Field → Nat → Prop, (∀ field, ∃ v, chosen field v) →
      (∀ field v, chosen field v → v < 64) →
      ∃ sets : PerField ValueSet, (∀ field v, v ∈ sets.get field ↔ chosen field v) ∧
        ∃ r, compile (ofSets sets) = .ok r ∧ r.allowed = sets := by
  refine ⟨fun pattern s h => ⟨compile_text h, fun hne => ?_⟩, fun chosen hne hlt => ?_⟩
  · have hsame : (⟨ofSets s.allowed, s.allowed⟩ : Schedule).allowed = s.allowed := rfl
    exact ⟨_, compile_ofSets hne, hsame, fun z t => accepts_of_allowed_eq hsame (z.wallTime t),
      fun z horizon since => firstAfter_of_allowed_eq hsame z horizon since⟩
  · obtain ⟨sets, hsets⟩ := exists_sets_of_lt_capacity hlt
    refine ⟨sets, hsets, _, compile_ofSets fun field => ?_, rfl⟩
    exact (hne field).imp fun v hv => (hsets field v).mpr hv

/-- A pattern with blanks around it, names, steps, days that are out of order, and a number that is no
day of the week. The weekdays are listed with that number. It may be chosen for all fields. -/
theorem compile_round_trip_with_names :
    let s : Schedule :=
      { text := "0 20-35/15  1/12 29,2 Feb Sat,63"
        allowed :=
          { second := .ofList [0], minute := .ofList [20, 35], hour := .ofList [1, 13]
            dayOfMonth := .ofList [2, 29], month := .ofList [2], dayOfWeek := .ofList [6, 63] } }
    compile " 0 20-35/15  1/12 29,2 Feb Sat,63 " = .ok s ∧ compile s.text = .ok s ∧
      (∃ r, compile "0 20,35 1,13 2,29 2 6,63" = .ok r ∧
        ∀ z horizon since, r.firstAfter? z horizon since = s.firstAfter? z horizon since) ∧
      ∃ sets : PerField ValueSet, (∀ field v, v ∈ sets.get field ↔ v = 63) ∧
        ∃ r, compile (ofSets sets) = .ok r ∧ r.allowed = sets := by
  intro s
  have hs : compile " 0 20-35/15  1/12 29,2 Feb Sat,63 " = .ok s := by
    have hoption : (compile " 0 20-35/15  1/12 29,2 Feb Sat,63 ").toOption = some s := by
      decide +kernel
    revert hoption
    cases compile " 0 20-35/15  1/12 29,2 Feb Sat,63 " <;> simp [Except.toOption]
  have hne : ∀ field, ∃ v, v ∈ s.allowed.get field := fun field => by
    cases field
    · exact ⟨0, by decide⟩
    · exact ⟨20, by decide⟩
    · exact ⟨1, by decide⟩
    · exact ⟨2, by decide⟩
    · exact ⟨2, by decide⟩
    · exact ⟨6, by decide⟩
  have hwritten : ofSets s.allowed = "0 20,35 1,13 2,29 2 6,63" := by decide +kernel
  obtain ⟨hsets, hchosen⟩ := compile_round_trip
  obtain ⟨htext, hagain⟩ := hsets _ s hs
  obtain ⟨r, hr, -, -, hfinds⟩ := hagain hne
  refine ⟨hs, htext, ⟨r, hwritten ▸ hr, hfinds⟩, hchosen (fun _ v => v = 63) (fun _ => ⟨63, rfl⟩) ?_⟩
  rintro - v rfl
  decide

end Schedule

end Cron
