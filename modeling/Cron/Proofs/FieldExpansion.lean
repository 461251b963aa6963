import Cron.Proofs.FieldGrammar

/-!
# What a field denotes

An item of a field denotes the numbers between two ends that are a multiple of its step away from
the low end (`Field.Denotes`). The set of a field holds what its items denote, as far as a set can
hold it. A star alone, or a question mark in a day field, stands for all values of the field.

Ends and steps are any numbers of 32 bits. The numbers of an item are found by adding its step over
and over, which ends at the capacity of a set. It also ends where the sum has more than 32 bits, and
loses nothing by that (`Item.values_eq_filter`).

A field is read here on its own, so a step may have a plus sign in front.

Headlines:
* `readItem_eq_ok_iff_denotes`: what an item is read as is what it denotes;
* `read_denotes`: what is read from a field, and how its items are expanded.
-/

namespace Cron

variable {field : Field} {text part range step : List Char} {lo hi n v : Nat} {item : Item}

/-! ## Expansion -/

namespace Item

/-- Numbers are found in ascending order. -/
theorem pairwise_stepping (m : Nat) (hm : 0 < m) (top i : Nat) :
    (stepping m hm top i).Pairwise (· < ·) ∧ ∀ v ∈ stepping m hm top i, i ≤ v := by
  fun_induction stepping m hm top i with
  | case1 i hi hsum ih =>
    obtain ⟨hrest, hle⟩ := ih
    have hlt : ∀ v ∈ stepping m hm top (i + m), i < v := fun v hv =>
      Nat.lt_of_lt_of_le (Nat.lt_add_of_pos_right hm) (hle v hv)
    exact ⟨List.pairwise_cons.mpr ⟨hlt, hrest⟩,
      List.forall_mem_cons.mpr ⟨Nat.le_refl i, fun v hv => Nat.le_of_lt (hlt v hv)⟩⟩
  | case2 i hi hsum =>
    exact ⟨List.pairwise_singleton _ i, List.forall_mem_singleton.mpr (Nat.le_refl i)⟩
  | case3 i hi => exact ⟨.nil, List.forall_mem_nil _⟩

/-- An item is expanded to all the numbers below the capacity that it denotes, each once and in
order. -/
theorem values_eq_filter (item : Item) :
    item.values = (List.range ValueSet.capacity).filter fun v =>
      decide (item.lo ≤ v ∧ v ≤ item.hi ∧ item.step ∣ v - item.lo) := by
  have hvalues : item.values.Pairwise (· < ·) := (pairwise_stepping _ _ _ _).1
  have hrange : (List.range ValueSet.capacity).Pairwise (· < ·) := List.pairwise_lt_range
  have hfilter := hrange.filter fun v =>
    decide (item.lo ≤ v ∧ v ≤ item.hi ∧ item.step ∣ v - item.lo)
  have hmem : ∀ v, v ∈ item.values ↔ v ∈ (List.range ValueSet.capacity).filter fun v =>
      decide (item.lo ≤ v ∧ v ≤ item.hi ∧ item.step ∣ v - item.lo) := fun v => by
    rw [mem_values, List.mem_filter, List.mem_range, decide_eq_true_eq, Nat.dvd_iff_mod_eq_zero]
  have hperm := (List.perm_ext_iff_of_nodup (hvalues.imp Nat.ne_of_lt) (hfilter.imp Nat.ne_of_lt)).mpr
    hmem
  exact hperm.eq_of_pairwise (fun a b _ _ hab hba => absurd hab (Nat.not_lt_of_lt hba)) hvalues hfilter

end Item

namespace Field

/-! ## Items -/

theorem IsSignedStep.pos (h : IsSignedStep text n) : 0 < n := by
  cases h with
  | bare h => exact h.pos
  | signed h => exact h.pos

theorem IsSignedStep.le (h : IsSignedStep text n) : n ≤ largestNumeral := by
  cases h with
  | bare h => exact h.le
  | signed h => exact h.le

theorem IsSignedStep.not_mem (h : IsSignedStep text n) {c : Char} (hc : c.isDigit = false)
    (hplus : c ≠ '+') : c ∉ text := by
  cases h with
  | bare h => exact h.not_mem hc
  | signed h => exact List.not_mem_cons_of_ne_of_not_mem hplus (h.not_mem hc)

theorem max_le_largestNumeral (field : Field) : field.max ≤ largestNumeral := by
  cases field <;> decide

/-- The values that names stand for are those of the field. -/
theorem IsName.le_max (h : field.IsName text v) : v ≤ field.max := by
  obtain ⟨i, short, full, hpair, -, rfl⟩ := h
  have hlength : field.min + field.names.length ≤ field.max + 1 := by cases field <;> decide
  obtain ⟨hi, -⟩ := List.getElem?_eq_some_iff.mp hpair
  omega

/-- Values are numbers of 32 bits. -/
theorem IsValue.le (h : field.IsValue text v) : v ≤ largestNumeral := by
  cases h with
  | numeral h hle => exact hle
  | name h => exact Nat.le_trans h.le_max field.max_le_largestNumeral

/-- A text is one value only. -/
theorem IsValue.unique {u : Nat} (h : field.IsValue text u) (h' : field.IsValue text v) : u = v :=
  Except.ok.inj ((readValue_eq_ok_iff.mpr h).symm.trans (readValue_eq_ok_iff.mpr h'))

/-- A name stands for its number, short or full and in any letters. -/
theorem isValue_iff_of_name {i : Nat} {short full : String}
    (hpair : field.names[i]? = some (short, full))
    (hname : lowered text = short ∨ lowered text = full) :
    field.IsValue text v ↔ v = field.min + i := by
  have hvalue : field.IsValue text (field.min + i) := .name ⟨i, short, full, hpair, hname, rfl⟩
  constructor
  · exact fun h => h.unique hvalue
  · rintro rfl
    exact hvalue

theorem IsRange.le {stepped : Bool} (h : field.IsRange stepped text lo hi) :
    lo ≤ largestNumeral ∧ hi ≤ largestNumeral := by
  cases h with
  | star => exact ⟨by cases field <;> decide, field.max_le_largestNumeral⟩
  | single h =>
    refine ⟨h.le, ?_⟩
    split
    · exact field.max_le_largestNumeral
    · exact h.le
  | span hlow hhigh => exact ⟨hlow.le, hhigh.le⟩

/-- What an item denotes is given by numbers of 32 bits, and its step is not zero. -/
theorem Denotes.bounds (h : field.Denotes text lo hi n) :
    lo ≤ largestNumeral ∧ hi ≤ largestNumeral ∧ 0 < n ∧ n ≤ largestNumeral := by
  cases h with
  | plain h => exact ⟨h.le.1, h.le.2, by decide, by decide⟩
  | stepped h hstep => exact ⟨h.le.1, h.le.2, hstep.pos, hstep.le⟩

/-- An item that denotes something is read as that. -/
theorem Denotes.exists_read (h : field.Denotes text lo hi n) :
    ∃ hn, field.readItem text = .ok ⟨lo, hi, n, hn⟩ :=
  ⟨h.bounds.2.2.1, readItem_eq_ok_iff_denotes.mpr h⟩

/-- An item denotes one thing only. -/
theorem Denotes.unique {lo' hi' n' : Nat} (h : field.Denotes text lo hi n)
    (h' : field.Denotes text lo' hi' n') : lo = lo' ∧ hi = hi' ∧ n = n' := by
  obtain ⟨hn, hread⟩ := h.exists_read
  obtain ⟨hn', hread'⟩ := h'.exists_read
  cases hread.symm.trans hread'
  exact ⟨rfl, rfl, rfl⟩

/-- A question mark is part of no item. -/
theorem Denotes.question_not_mem (h : field.Denotes text lo hi n) : '?' ∉ text := by
  have hrange : ∀ {stepped} {range : List Char}, field.IsRange stepped range lo hi → '?' ∉ range :=
    fun h => h.not_mem (by decide) (by decide) (by decide)
  cases h with
  | plain h => exact hrange h
  | stepped h hstep =>
    simp only [List.mem_append, List.mem_cons, not_or]
    exact ⟨hrange h, by decide, hstep.not_mem (by decide) (by decide)⟩

/-- Any two numbers of 32 bits can be the ends of an item, and any number of 32 bits but zero its
step. -/
theorem denotes_decimal (hlo : lo ≤ largestNumeral) (hhi : hi ≤ largestNumeral) (hn : 0 < n)
    (hle : n ≤ largestNumeral) :
    field.Denotes
      ((Text.decimal lo ++ '-' :: Text.decimal hi) ++ '/' :: Text.decimal n) lo hi n := by
  have hnumeral : ∀ m, Text.IsNumeral (Text.decimal m) m := fun m =>
    Text.numeral?_eq_some_iff.mp (Text.numeral?_decimal m)
  have hvalue : ∀ m, m ≤ largestNumeral → field.IsValue (Text.decimal m) m := fun m =>
    .numeral (hnumeral m)
  exact .stepped (.span (hvalue lo hlo) (hvalue hi hhi)) (.bare ⟨hnumeral n, hn, hle⟩)

/-! ## Fields -/

variable {text : String} {set : ValueSet}

theorem isOpen_eq_true_iff :
    field.isOpen text = true ↔ text = "*" ∨ field.allowsQuestionMark = true ∧ text = "?" := by
  rw [isOpen, Bool.or_eq_true, Bool.and_eq_true, beq_iff_eq, beq_iff_eq]

/-- Some part of a text between its commas denotes a number. -/
def SomeDenotes (field : Field) (text : String) (v : Nat) : Prop :=
  ∃ part ∈ text.toList.splitOn ',', ∃ lo hi n, field.Denotes part lo hi n ∧
    lo ≤ v ∧ v ≤ hi ∧ n ∣ v - lo

/-- Each part of a text between its commas denotes something. -/
def AllDenote (field : Field) (text : String) : Prop :=
  ∀ part ∈ text.toList.splitOn ',', ∃ lo hi n, field.Denotes part lo hi n

/-- A star or a question mark alone denotes no number but the values of the field. -/
theorem SomeDenotes.of_open (hopen : field.isOpen text = true) (h : field.SomeDenotes text v) :
    field.min ≤ v ∧ v ≤ field.max := by
  obtain ⟨part, hpart, lo, hi, n, hdenotes, hlo, hhi, -⟩ := h
  rcases isOpen_iff.mp hopen with hstar | ⟨-, hquestion⟩
  · rw [hstar] at hpart
    obtain rfl : part = ['*'] := List.mem_singleton.mp hpart
    obtain ⟨rfl, rfl, -⟩ := hdenotes.unique (.plain .star)
    exact ⟨hlo, hhi⟩
  · rw [hquestion] at hpart
    obtain rfl : part = ['?'] := List.mem_singleton.mp hpart
    exact absurd List.mem_cons_self hdenotes.question_not_mem

/-- A text is read if it is open or if each of its parts denotes something. -/
theorem exists_read_iff_denote :
    (∃ set, field.read text = .ok set) ↔ field.isOpen text = true ∨ field.AllDenote text := by
  cases hopen : field.isOpen text with
  | true => exact ⟨fun _ => .inl rfl, fun _ => ⟨_, if_pos hopen⟩⟩
  | false =>
    have hpart : ∀ part, (∃ item, field.readItem part = .ok item) ↔
        ∃ lo hi n, field.Denotes part lo hi n := fun part => by
      constructor
      · rintro ⟨item, hitem⟩
        exact ⟨_, _, _, readItem_eq_ok_iff_denotes.mp hitem⟩
      · rintro ⟨lo, hi, n, hdenotes⟩
        obtain ⟨hn, hread⟩ := hdenotes.exists_read
        exact ⟨_, hread⟩
    rw [exists_read_iff_of_not_open hopen]
    simp only [hpart, AllDenote, Bool.false_eq_true, false_or]

/-- What is read holds what some part of the text denotes, or the values of the field if the text is
open. -/
theorem mem_read_iff (h : field.read text = .ok set) :
    v ∈ set ↔ v < ValueSet.capacity ∧
      (field.isOpen text = true ∧ field.min ≤ v ∧ v ≤ field.max ∨ field.SomeDenotes text v) := by
  cases hopen : field.isOpen text with
  | true =>
    rw [read, if_pos hopen] at h
    cases h
    constructor
    · intro hv
      exact ⟨ValueSet.lt_capacity_of_mem hv, .inl ⟨rfl, mem_calendarValues.mp hv⟩⟩
    · rintro ⟨-, ⟨-, hv⟩ | hdenotes⟩
      · exact mem_calendarValues.mpr hv
      · exact mem_calendarValues.mpr (hdenotes.of_open hopen)
  | false =>
    rw [read_of_not_open hopen] at h
    obtain ⟨items, hitems, hset⟩ := bind_eq_ok_iff.mp h
    cases hset
    simp only [ValueSet.mem_ofList, List.mem_flatMap, mem_iff_of_mapM_eq_ok hitems,
      readItem_eq_ok_iff_denotes, Item.mem_values, Bool.false_eq_true, false_and, false_or]
    constructor
    · rintro ⟨⟨item, ⟨part, hpart, hdenotes⟩, -, hlo, hhi, hmod⟩, hlt⟩
      exact ⟨hlt, part, hpart, _, _, _, hdenotes, hlo, hhi, Nat.dvd_of_mod_eq_zero hmod⟩
    · rintro ⟨hlt, part, hpart, lo, hi, n, hdenotes, hlo, hhi, hdvd⟩
      exact ⟨⟨⟨lo, hi, n, hdenotes.bounds.2.2.1⟩, ⟨part, hpart, hdenotes⟩, hlt, hlo, hhi,
        Nat.mod_eq_zero_of_dvd hdvd⟩, hlt⟩

/-- **What is read from a field is what its items denote.** A text is read if it is a star, a question
mark in a day field, or a list of items that denote something, and then the set holds the numbers
below 64 that they denote. A name stands for its number, short or full and in any letters. What an
item denotes is given by any numbers of 32 bits with a step other than zero, and adding up its steps
comes to an end with all of these numbers below 64, each once and in order. -/
theorem read_denotes (field : Field) (text : String) :
    (∀ set, field.read text = .ok set ↔
      ((text = "*" ∨ field.allowsQuestionMark = true ∧ text = "?") ∨ field.AllDenote text) ∧
        ∀ v, v ∈ set ↔ v < 64 ∧
          ((text = "*" ∨ field.allowsQuestionMark = true ∧ text = "?") ∧
              field.min ≤ v ∧ v ≤ field.max ∨
            field.SomeDenotes text v)) ∧
      (∀ i short full name, field.names[i]? = some (short, full) →
        lowered name = short ∨ lowered name = full →
          ∀ v, field.IsValue name v ↔ v = field.min + i) ∧
      ∀ part lo hi n, field.Denotes part lo hi n →
        (lo ≤ largestNumeral ∧ hi ≤ largestNumeral ∧ 0 < n ∧ n ≤ largestNumeral) ∧
          ∃ item, field.readItem part = .ok item ∧
            item.values = (List.range 64).filter fun v => decide (lo ≤ v ∧ v ≤ hi ∧ n ∣ v - lo) := by
  rw [← isOpen_eq_true_iff]
  refine ⟨fun set => ⟨fun h => ⟨exists_read_iff_denote.mp ⟨set, h⟩, fun v => mem_read_iff h⟩, ?_⟩,
    fun i short full name hpair hname v => isValue_iff_of_name hpair hname,
    fun part lo hi n hdenotes => ?_⟩
  · rintro ⟨hdenote, hmem⟩
    obtain ⟨result, hresult⟩ := exists_read_iff_denote.mpr hdenote
    have hsame : set = result := ValueSet.ext fun v => (hmem v).trans (mem_read_iff hresult).symm
    rw [hresult, hsame]
  · obtain ⟨hn, hread⟩ := hdenotes.exists_read
    exact ⟨hdenotes.bounds, _, hread, Item.values_eq_filter _⟩

/-- An item that runs up to the greatest number there is denotes the last odd numbers that a set can
hold. -/
theorem read_denotes_far :
    let text := "61-4294967295/2"
    second.Denotes text.toList 61 4294967295 2 ∧
      (∃ set, second.read text = .ok set ∧ ∀ v, v ∈ set ↔ v = 61 ∨ v = 63) ∧
      ∃ item, second.readItem text.toList = .ok item ∧ item.values = [61, 63] := by
  intro text
  have htext : text.toList =
      (Text.decimal 61 ++ '-' :: Text.decimal 4294967295) ++ '/' :: Text.decimal 2 := by decide
  have hfar : second.Denotes text.toList 61 4294967295 2 :=
    htext ▸ denotes_decimal (by decide) (by decide) (by decide) (by decide)
  have hparts : text.toList.splitOn ',' = [text.toList] := by decide
  have hclosed : ¬ (text = "*" ∨ second.allowsQuestionMark = true ∧ text = "?") := by decide
  have hall : second.AllDenote text := fun part hpart => by
    rw [hparts] at hpart
    exact List.mem_singleton.mp hpart ▸ ⟨_, _, _, hfar⟩
  obtain ⟨hsets, -, hitems⟩ := read_denotes second text
  obtain ⟨set, hset⟩ := exists_read_iff_denote.mpr (.inr hall)
  obtain ⟨-, item, hitem, hvalues⟩ := hitems _ _ _ _ hfar
  have hsome : ∀ v, second.SomeDenotes text v ↔ 61 ≤ v ∧ v ≤ 4294967295 ∧ 2 ∣ v - 61 := fun v => by
    rw [SomeDenotes, hparts]
    constructor
    · rintro ⟨part, hpart, lo, hi, n, hdenotes, hv⟩
      rw [List.mem_singleton.mp hpart] at hdenotes
      obtain ⟨rfl, rfl, rfl⟩ := hdenotes.unique hfar
      exact hv
    · exact fun hv => ⟨text.toList, List.mem_cons_self, _, _, _, hfar, hv⟩
  refine ⟨hfar, ⟨set, hset, fun v => ?_⟩, item, hitem, hvalues.trans (by decide)⟩
  rw [((hsets set).mp hset).2 v, hsome, iff_false_intro hclosed, false_and, false_or]
  omega

end Field

end Cron
