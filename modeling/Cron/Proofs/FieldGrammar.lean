import Cron.Field.Expression

/-!
# The language of fields

What the text of a field may be is said here without reading it from left to right: a list of items
with commas between them, an item being a range with `/` and a step behind it or not, and so on
(`Field.IsValue`, `Field.IsRange`, `Field.IsItem`, `Field.IsField`). Beside each of these stands
what is wrong with a text that is none (`Field.BadValue`, `Field.BadRange`, `Field.BadItem`,
`Field.BadField`), which depends on the order in which the parts are judged.

The readers accept a plus sign before a step, so what an item denotes (`Field.Denotes`) is said with
it. The language has none, and no field of a pattern holds one.

Headlines:
* `readItem_eq_ok_iff_denotes`: an item is read as what it denotes;
* `readItem_eq_ok_iff`, `readItem_eq_error_iff`: what an item is read as, and how it is refused;
* `exists_read_eq_ok_iff`, `read_eq_error_iff`: the same for a field.
-/

namespace Cron

section Except

variable {α β ε : Type} {x : Except ε α} {f : α → Except ε β} {g : α → Except ε β} {l : List α}
  {b : β} {e : ε}

theorem bind_eq_ok_iff : (x >>= g) = .ok b ↔ ∃ a, x = .ok a ∧ g a = .ok b := by
  cases x with
  | error e => exact ⟨nofun, fun ⟨_, h, _⟩ => nomatch h⟩
  | ok a => exact ⟨fun h => ⟨a, rfl, h⟩, fun ⟨_, rfl, h⟩ => h⟩

theorem bind_eq_error_iff :
    (x >>= g) = .error e ↔ x = .error e ∨ ∃ a, x = .ok a ∧ g a = .error e := by
  cases x with
  | error e' =>
    constructor
    · rintro ⟨⟩
      exact .inl rfl
    · rintro (⟨⟨⟩⟩ | ⟨_, h, _⟩)
      · rfl
      · cases h
  | ok a =>
    constructor
    · exact fun h => .inr ⟨a, rfl, h⟩
    · rintro (h | ⟨_, ⟨⟩, h⟩)
      · cases h
      · exact h

/-- Trying one after the other succeeds if each try does. -/
theorem exists_mapM_eq_ok_iff : (∃ r, l.mapM f = .ok r) ↔ ∀ a ∈ l, ∃ b, f a = .ok b := by
  induction l with
  | nil => exact ⟨fun _ => nofun, fun _ => ⟨[], rfl⟩⟩
  | cons a rest ih =>
    rw [List.mapM_cons, List.forall_mem_cons, ← ih]
    simp only [bind_eq_ok_iff]
    constructor
    · rintro ⟨_, b, hb, r, hr, -⟩
      exact ⟨⟨b, hb⟩, r, hr⟩
    · rintro ⟨⟨b, hb⟩, r, hr⟩
      exact ⟨b :: r, b, hb, r, hr, rfl⟩

/-- What trying one after the other gives are the results of the tries. -/
theorem mem_iff_of_mapM_eq_ok {r : List β} (h : l.mapM f = .ok r) :
    b ∈ r ↔ ∃ a ∈ l, f a = .ok b := by
  induction l generalizing r with
  | nil =>
    cases h
    exact ⟨nofun, fun ⟨_, ha, _⟩ => nomatch ha⟩
  | cons a rest ih =>
    rw [List.mapM_cons] at h
    obtain ⟨b', hb', hrest⟩ := bind_eq_ok_iff.mp h
    obtain ⟨r', hr', hr⟩ := bind_eq_ok_iff.mp hrest
    cases hr
    rw [List.mem_cons, ih hr']
    constructor
    · rintro (rfl | ⟨a', ha', hf⟩)
      · exact ⟨a, List.mem_cons_self, hb'⟩
      · exact ⟨a', List.mem_cons_of_mem a ha', hf⟩
    · rintro ⟨a', ha', hf⟩
      rcases List.mem_cons.mp ha' with rfl | ha'
      · exact .inl (Except.ok.inj (hf.symm.trans hb'))
      · exact .inr ⟨a', ha', hf⟩

/-- Trying one after the other fails as the first try that fails. -/
theorem mapM_eq_error_iff : l.mapM f = .error e ↔
    ∃ before a behind, l = before ++ a :: behind ∧ (∀ b ∈ before, ∃ r, f b = .ok r) ∧
      f a = .error e := by
  induction l with
  | nil =>
    constructor
    · nofun
    · rintro ⟨before, a, behind, h, -⟩
      exact absurd h.symm (List.append_ne_nil_of_right_ne_nil _ (List.cons_ne_nil a behind))
  | cons a rest ih =>
    rw [List.mapM_cons, bind_eq_error_iff]
    constructor
    · rintro (ha | ⟨b, hb, hrest⟩)
      · exact ⟨[], a, rest, rfl, nofun, ha⟩
      · rcases bind_eq_error_iff.mp hrest with hrest | ⟨r, -, hr⟩
        · obtain ⟨before, c, behind, rfl, hbefore, hc⟩ := ih.mp hrest
          exact ⟨a :: before, c, behind, rfl, List.forall_mem_cons.mpr ⟨⟨b, hb⟩, hbefore⟩, hc⟩
        · cases hr
    · rintro ⟨before, c, behind, hl, hbefore, hc⟩
      cases before with
      | nil =>
        cases hl
        exact .inl hc
      | cons a' before =>
        cases hl
        obtain ⟨⟨b, hb⟩, hbefore⟩ := List.forall_mem_cons.mp hbefore
        exact .inr ⟨b, hb, bind_eq_error_iff.mpr (.inl (ih.mpr ⟨before, c, behind, rfl, hbefore, hc⟩))⟩

end Except

namespace Text

/-- A numeral and its value. -/
structure IsNumeral (text : List Char) (v : Nat) : Prop where
  ne_nil : text ≠ []
  digits : ∀ c ∈ text, c.isDigit = true
  value_eq : Nat.ofDigitChars 10 text 0 = v

variable {text : List Char} {v : Nat}

theorem numeral?_eq_some_iff : numeral? text = some v ↔ IsNumeral text v := by
  constructor
  · intro h
    unfold numeral? at h
    split at h
    next hdigits => exact ⟨hdigits.1, List.all_eq_true.mp hdigits.2, Option.some.inj h⟩
    next => cases h
  · rintro ⟨hne, hdigits, rfl⟩
    exact numeral?_eq_some hne hdigits

theorem numeral?_eq_none_iff : numeral? text = none ↔ ∀ v, ¬ IsNumeral text v := by
  simp only [Option.eq_none_iff_forall_ne_some, ne_eq, numeral?_eq_some_iff]

theorem numeralUpTo?_eq_some_iff {bound : Nat} :
    numeralUpTo? bound text = some v ↔ IsNumeral text v ∧ v ≤ bound := by
  rw [numeralUpTo?, Option.filter_eq_some_iff, numeral?_eq_some_iff, decide_eq_true_eq]

/-- A text holds no separator, or is cut at the first one. -/
theorem not_mem_or_exists_cut (sep : Char) (s : List Char) :
    sep ∉ s ∨ ∃ before after, s = before ++ sep :: after ∧ sep ∉ before := by
  cases h : cut sep s with
  | none => exact .inl (cut_eq_none_iff.mp h)
  | some parts => exact .inr ⟨parts.1, parts.2, cut_eq_some_iff.mp h⟩

end Text

namespace Field

variable {field : Field} {text range step : List Char} {stepped : Bool} {u v : Nat}
  {fault : ItemFault} {item : Item}

/-! ## Values -/

/-- The names of a field, short and full, in the order of their values. -/
def names : Field → List (String × String)
  | month => monthNames
  | dayOfWeek => weekdayNames
  | _ => []

/-- A text is a name that stands for a value. Capitals make no difference. -/
def IsName (field : Field) (text : List Char) (v : Nat) : Prop :=
  ∃ i short full, field.names[i]? = some (short, full) ∧
    (lowered text = short ∨ lowered text = full) ∧ v = field.min + i

/-- A text is a value: a numeral that is not too large, or a name. -/
inductive IsValue (field : Field) : List Char → Nat → Prop
  | numeral {text : List Char} {v : Nat} (h : Text.IsNumeral text v) (hle : v ≤ largestNumeral) :
      IsValue field text v
  | name {text : List Char} {v : Nat} (h : field.IsName text v) : IsValue field text v

/-- What is wrong with a text that is no value. -/
inductive BadValue (field : Field) : List Char → ItemFault → Prop
  | outOfRange {text : List Char} {v : Nat} (h : Text.IsNumeral text v) (hlt : largestNumeral < v) :
      BadValue field text (.valueOutOfRange (String.ofList text))
  | unknown {text : List Char} (hnumeral : ∀ v, ¬ Text.IsNumeral text v)
      (hname : ∀ v, ¬ field.IsName text v) : BadValue field text (.unknownValue (String.ofList text))

/-- No name is used for two values. -/
theorem pairwise_names (field : Field) :
    field.names.Pairwise fun a b => a.1 ≠ b.1 ∧ a.1 ≠ b.2 ∧ a.2 ≠ b.1 ∧ a.2 ≠ b.2 := by
  cases field <;> decide

/-- Whether a name consists of small letters, at least one. -/
def isSmallWord (name : String) : Bool := !name.toList.isEmpty && name.toList.all Char.isLower

theorem isSmallWord_iff {name : String} :
    isSmallWord name = true ↔ name.toList ≠ [] ∧ ∀ c ∈ name.toList, c.isLower = true := by
  rw [isSmallWord, Bool.and_eq_true, Bool.not_eq_true', List.isEmpty_eq_false_iff, List.all_eq_true]

/-- Names consist of small letters. -/
theorem isSmallWord_of_mem_names {short full : String} (h : (short, full) ∈ field.names) :
    isSmallWord short = true ∧ isSmallWord full = true := by
  have hall : (field.names.all fun pair => isSmallWord pair.1 && isSmallWord pair.2) = true := by
    cases field <;> decide
  rw [List.all_eq_true] at hall
  have hpair := hall (short, full) h
  rwa [Bool.and_eq_true] at hpair

theorem valueOfName?_eq (field : Field) (text : List Char) :
    field.valueOfName? text = (indexOfName? field.names (lowered text)).map (field.min + ·) := by
  cases field with
  | month =>
    simp only [valueOfName?, names, min, Nat.add_comm 1]
  | dayOfWeek =>
    simp only [valueOfName?, names, min, Nat.zero_add, Option.map_id']
  | _ => rfl

theorem valueOfName?_eq_some_iff : field.valueOfName? text = some v ↔ field.IsName text v := by
  rw [valueOfName?_eq, Option.map_eq_some_iff]
  simp only [indexOfName?, List.findIdx?_eq_some_iff_getElem, Bool.or_eq_true, beq_iff_eq]
  constructor
  · rintro ⟨i, ⟨hi, hname, -⟩, rfl⟩
    exact ⟨i, _, _, List.getElem?_eq_getElem hi, hname.imp Eq.symm Eq.symm, rfl⟩
  · rintro ⟨i, short, full, hpair, hname, rfl⟩
    obtain ⟨hi, hpair⟩ := List.getElem?_eq_some_iff.mp hpair
    refine ⟨i, ⟨hi, ?_, fun j hj hother => ?_⟩, rfl⟩
    · rw [hpair]
      exact hname.imp Eq.symm Eq.symm
    · have hne := List.pairwise_iff_getElem.mp field.pairwise_names j i (Nat.lt_trans hj hi) hi hj
      rw [hpair] at hne
      rcases hname with rfl | rfl <;> rcases hother with h | h
      · exact hne.1 h
      · exact hne.2.2.1 h
      · exact hne.2.1 h
      · exact hne.2.2.2 h

/-- A letter that is small once its capital is made small is a letter. -/
theorem isAlpha_of_isLower_toLower {c : Char} (h : c.toLower.isLower = true) : c.isAlpha = true := by
  by_cases hupper : 'A'.val ≤ c.val ∧ c.val ≤ 'Z'.val
  · exact Bool.or_eq_true_iff.mpr (.inl (decide_eq_true hupper))
  · have hsame : c.toLower = c := dif_neg hupper
    rw [hsame] at h
    exact Bool.or_eq_true_iff.mpr (.inr h)

theorem isDigit_eq_false_of_isAlpha {c : Char} (h : c.isAlpha = true) : c.isDigit = false := by
  refine Bool.eq_false_iff.mpr fun hdigit => ?_
  have hle : c.val ≤ '9'.val := of_decide_eq_true (Bool.and_eq_true_iff.mp hdigit).2
  have hlt : ∀ {first : UInt32}, first ≤ c.val → first ≤ '9'.val := fun hfirst =>
    UInt32.le_trans hfirst hle
  rcases Bool.or_eq_true_iff.mp h with hupper | hlower
  · exact absurd (hlt (of_decide_eq_true hupper).1) (by decide)
  · exact absurd (hlt (of_decide_eq_true (Bool.and_eq_true_iff.mp hlower).1)) (by decide)

theorem IsName.ne_nil_and_isAlpha (h : field.IsName text v) :
    text ≠ [] ∧ ∀ c ∈ text, c.isAlpha = true := by
  obtain ⟨i, short, full, hpair, hname, -⟩ := h
  obtain ⟨hshort, hfull⟩ := isSmallWord_of_mem_names (List.mem_of_getElem? hpair)
  have hlowered : isSmallWord (lowered text) = true := by
    rcases hname with hname | hname
    · exact hname ▸ hshort
    · exact hname ▸ hfull
  have htext := isSmallWord_iff.mp hlowered
  rw [lowered, String.toList_ofList] at htext
  refine ⟨fun hnil => htext.1 (by rw [hnil]; rfl), fun c hc => ?_⟩
  exact isAlpha_of_isLower_toLower (htext.2 _ (List.mem_map_of_mem hc))

theorem IsName.not_isNumeral (h : field.IsName text u) : ¬ Text.IsNumeral text v := by
  intro hnumeral
  obtain ⟨c, hc⟩ := List.exists_mem_of_ne_nil text hnumeral.ne_nil
  have hnot := isDigit_eq_false_of_isAlpha (h.ne_nil_and_isAlpha.2 c hc)
  rw [hnumeral.digits c hc] at hnot
  cases hnot

/-- Values consist of letters and digits. -/
theorem IsValue.isAlphanum (h : field.IsValue text v) : ∀ c ∈ text, c.isAlphanum = true := by
  intro c hc
  cases h with
  | numeral h hle => exact Bool.or_eq_true_iff.mpr (.inr (h.digits c hc))
  | name h => exact Bool.or_eq_true_iff.mpr (.inl (h.ne_nil_and_isAlpha.2 c hc))

theorem IsValue.not_mem (h : field.IsValue text v) {c : Char} (hc : c.isAlphanum = false) :
    c ∉ text := by
  intro hmem
  rw [h.isAlphanum c hmem] at hc
  cases hc

theorem readValue_eq_ok_iff : field.readValue text = .ok v ↔ field.IsValue text v := by
  unfold readValue
  cases hnumeral : Text.numeral? text with
  | some u =>
    have hu := Text.numeral?_eq_some_iff.mp hnumeral
    dsimp only
    constructor
    · intro h
      split at h
      next hle =>
        cases h
        exact .numeral hu hle
      next => cases h
    · rintro (⟨hv, hle⟩ | hname)
      · obtain rfl : u = v := hu.value_eq.symm.trans hv.value_eq
        exact if_pos hle
      · exact absurd hu hname.not_isNumeral
  | none =>
    have hnone := Text.numeral?_eq_none_iff.mp hnumeral
    dsimp only
    constructor
    · intro h
      split at h
      next w hname =>
        cases h
        exact .name (valueOfName?_eq_some_iff.mp hname)
      next => cases h
    · rintro (⟨hv, -⟩ | hname)
      · exact absurd hv (hnone v)
      · rw [valueOfName?_eq_some_iff.mpr hname]

theorem readValue_eq_error_iff : field.readValue text = .error fault ↔ field.BadValue text fault := by
  unfold readValue
  cases hnumeral : Text.numeral? text with
  | some u =>
    have hu := Text.numeral?_eq_some_iff.mp hnumeral
    dsimp only
    constructor
    · intro h
      split at h
      next => cases h
      next hlt =>
        cases h
        exact .outOfRange hu (Nat.lt_of_not_le hlt)
    · rintro (⟨hv, hlt⟩ | ⟨hnone, -⟩)
      · obtain rfl : u = _ := hu.value_eq.symm.trans hv.value_eq
        exact if_neg (Nat.not_le_of_lt hlt)
      · exact absurd hu (hnone u)
  | none =>
    have hnone := Text.numeral?_eq_none_iff.mp hnumeral
    dsimp only
    constructor
    · intro h
      split at h
      next => cases h
      next hname =>
        cases h
        refine .unknown hnone fun v hv => ?_
        rw [valueOfName?_eq_some_iff.mpr hv] at hname
        cases hname
    · rintro (⟨hv, -⟩ | ⟨-, hname⟩)
      · exact absurd hv (hnone _)
      · cases hvalue : field.valueOfName? text with
        | some w => exact absurd (valueOfName?_eq_some_iff.mp hvalue) (hname w)
        | none => rfl

/-! ## Steps -/

/-- A text is a step: a numeral that is not too large and not zero. -/
structure IsStep (text : List Char) (n : Nat) : Prop where
  numeral : Text.IsNumeral text n
  pos : 0 < n
  le : n ≤ largestNumeral

/-- What is wrong with a text that is no step. -/
inductive BadStep : List Char → ItemFault → Prop
  | notNumber {text : List Char} (h : ∀ n, Text.IsNumeral text n → largestNumeral < n) :
      BadStep text (.stepNotNumber (String.ofList text))
  | zero {text : List Char} (h : Text.IsNumeral text 0) : BadStep text .zeroStep

/-- A step may have a plus sign in front. -/
inductive IsSignedStep : List Char → Nat → Prop
  | bare {text : List Char} {n : Nat} (h : IsStep text n) : IsSignedStep text n
  | signed {text : List Char} {n : Nat} (h : IsStep text n) : IsSignedStep ('+' :: text) n

theorem IsStep.not_mem {n : Nat} (h : IsStep text n) {c : Char} (hc : c.isDigit = false) :
    c ∉ text := by
  intro hmem
  rw [h.numeral.digits c hmem] at hc
  cases hc

/-- Without a plus sign in front, a step is read as a numeral. -/
theorem readStep_eq (h : ∀ rest, text ≠ '+' :: rest) :
    readStep text =
      match Text.numeralUpTo? largestNumeral text with
      | none => .error (.stepNotNumber (String.ofList text))
      | some step => if h : 0 < step then .ok ⟨step, h⟩ else .error .zeroStep := by
  unfold readStep
  split
  next rest => exact absurd rfl (h rest)
  next => rfl

/-- Digits are judged by their value, whatever stands in front of them. -/
theorem digits_eq_ok_iff {n : Nat} {hn : 0 < n} :
    (match Text.numeralUpTo? largestNumeral text with
      | none => (.error fault : Except ItemFault { step : Nat // 0 < step })
      | some step => if h : 0 < step then .ok ⟨step, h⟩ else .error .zeroStep) = .ok ⟨n, hn⟩ ↔
      IsStep text n := by
  constructor
  · intro h
    split at h
    next => cases h
    next step hstep =>
      obtain ⟨hnumeral, hle⟩ := Text.numeralUpTo?_eq_some_iff.mp hstep
      split at h
      next hpos =>
        cases h
        exact ⟨hnumeral, hpos, hle⟩
      next => cases h
  · rintro ⟨hnumeral, hpos, hle⟩
    rw [Text.numeralUpTo?_eq_some_iff.mpr ⟨hnumeral, hle⟩]
    exact dif_pos hpos

theorem readStep_eq_ok_iff {n : Nat} {hn : 0 < n} :
    readStep text = .ok ⟨n, hn⟩ ↔ IsSignedStep text n := by
  by_cases hsign : ∃ rest, text = '+' :: rest
  · obtain ⟨rest, rfl⟩ := hsign
    have hrest : readStep ('+' :: rest) = .ok ⟨n, hn⟩ ↔ IsStep rest n := digits_eq_ok_iff
    rw [hrest]
    constructor
    · exact .signed
    · intro h
      cases h with
      | bare h => exact absurd List.mem_cons_self (h.not_mem (by decide))
      | signed h => exact h
  · rw [readStep_eq fun rest heq => hsign ⟨rest, heq⟩, digits_eq_ok_iff]
    constructor
    · exact .bare
    · intro h
      cases h with
      | bare h => exact h
      | signed h => exact absurd ⟨_, rfl⟩ hsign

/-- Where there is no plus sign, a signed step is a step. -/
theorem isSignedStep_iff (hplus : '+' ∉ text) {n : Nat} : IsSignedStep text n ↔ IsStep text n := by
  constructor
  · intro h
    cases h with
    | bare h => exact h
    | signed h => exact absurd List.mem_cons_self hplus
  · exact .bare

theorem readStep_eq_error_iff (hplus : '+' ∉ text) :
    readStep text = .error fault ↔ BadStep text fault := by
  have hsign : ∀ rest, text ≠ '+' :: rest := by
    rintro rest rfl
    exact hplus List.mem_cons_self
  rw [readStep_eq hsign]
  constructor
  · intro h
    split at h
    next hnone =>
      cases h
      refine .notNumber fun n hn => Nat.lt_of_not_le fun hle => ?_
      rw [Text.numeralUpTo?_eq_some_iff.mpr ⟨hn, hle⟩] at hnone
      cases hnone
    next step hstep =>
      obtain ⟨hnumeral, hle⟩ := Text.numeralUpTo?_eq_some_iff.mp hstep
      split at h
      next => cases h
      next hpos =>
        cases h
        obtain rfl := Nat.eq_zero_of_not_pos hpos
        exact .zero hnumeral
  · rintro (hlarge | hzero)
    · cases hstep : Text.numeralUpTo? largestNumeral text with
      | none => rfl
      | some step =>
        obtain ⟨hnumeral, hle⟩ := Text.numeralUpTo?_eq_some_iff.mp hstep
        exact absurd (hlarge step hnumeral) (Nat.not_lt_of_le hle)
    · rw [Text.numeralUpTo?_eq_some_iff.mpr ⟨hzero, Nat.zero_le _⟩]
      rfl

/-! ## Ranges -/

/-- A text is a range from one value to another: a star, a value, or two values with a dash. -/
inductive IsRange (field : Field) (stepped : Bool) : List Char → Nat → Nat → Prop
  | star : IsRange field stepped ['*'] field.min field.max
  | single {text : List Char} {v : Nat} (h : field.IsValue text v) :
      IsRange field stepped text v (if stepped then field.max else v)
  | span {low high : List Char} {u v : Nat} (hlow : field.IsValue low u)
      (hhigh : field.IsValue high v) : IsRange field stepped (low ++ '-' :: high) u v

/-- What is wrong with a text that is no range. The low end is judged before the high end. -/
inductive BadRange (field : Field) : List Char → ItemFault → Prop
  | single {text : List Char} {fault : ItemFault} (hstar : text ≠ ['*']) (hdash : '-' ∉ text)
      (h : field.BadValue text fault) : BadRange field text fault
  | low {low high : List Char} {fault : ItemFault} (hdash : '-' ∉ low)
      (h : field.BadValue low fault) : BadRange field (low ++ '-' :: high) fault
  | high {low high : List Char} {u : Nat} {fault : ItemFault} (hlow : field.IsValue low u)
      (h : field.BadValue high fault) : BadRange field (low ++ '-' :: high) fault

/-- Ranges hold nothing but letters, digits, stars and dashes. -/
theorem IsRange.not_mem (h : field.IsRange stepped text u v) {c : Char} (hc : c.isAlphanum = false)
    (hstar : c ≠ '*') (hdash : c ≠ '-') : c ∉ text := by
  cases h with
  | star => exact fun hmem => hstar (List.mem_singleton.mp hmem)
  | single h => exact h.not_mem hc
  | span hlow hhigh =>
    simp only [List.mem_append, List.mem_cons, not_or]
    exact ⟨hlow.not_mem hc, hdash, hhigh.not_mem hc⟩

theorem IsRange.slash_not_mem (h : field.IsRange stepped text u v) : '/' ∉ text :=
  h.not_mem (by decide) (by decide) (by decide)

theorem readRange_single (hstar : text ≠ ['*']) (hdash : '-' ∉ text) :
    field.readRange stepped text =
      (do let v ← field.readValue text
          return (v, if stepped then field.max else v)) := by
  rw [readRange, if_neg hstar, Text.cut_eq_none_iff.mpr hdash]

theorem readRange_span {low high : List Char} (hdash : '-' ∉ low) :
    field.readRange stepped (low ++ '-' :: high) =
      (do let u ← field.readValue low
          let v ← field.readValue high
          return (u, v)) := by
  have hstar : low ++ '-' :: high ≠ ['*'] := fun heq => by
    have hmem : '-' ∈ low ++ '-' :: high := List.mem_append_right _ List.mem_cons_self
    rw [heq] at hmem
    exact absurd hmem (by decide)
  rw [readRange, if_neg hstar, Text.cut_eq_some_iff.mpr ⟨rfl, hdash⟩]

theorem readRange_eq_ok_iff :
    field.readRange stepped text = .ok (u, v) ↔ field.IsRange stepped text u v := by
  constructor
  · intro h
    by_cases hstar : text = ['*']
    · subst hstar
      cases h
      exact .star
    rcases Text.not_mem_or_exists_cut '-' text with hdash | ⟨low, high, rfl, hdash⟩
    · rw [readRange_single hstar hdash] at h
      obtain ⟨a, hvalue, hpair⟩ := bind_eq_ok_iff.mp h
      cases hpair
      exact .single (readValue_eq_ok_iff.mp hvalue)
    · rw [readRange_span hdash] at h
      obtain ⟨a, hlow, hrest⟩ := bind_eq_ok_iff.mp h
      obtain ⟨b, hhigh, hpair⟩ := bind_eq_ok_iff.mp hrest
      cases hpair
      exact .span (readValue_eq_ok_iff.mp hlow) (readValue_eq_ok_iff.mp hhigh)
  · intro h
    cases h with
    | star => rfl
    | single h =>
      have hstar : text ≠ ['*'] := by
        rintro rfl
        exact h.not_mem (by decide) List.mem_cons_self
      rw [readRange_single hstar (h.not_mem (by decide))]
      exact bind_eq_ok_iff.mpr ⟨u, readValue_eq_ok_iff.mpr h, rfl⟩
    | span hlow hhigh =>
      rw [readRange_span (hlow.not_mem (by decide))]
      exact bind_eq_ok_iff.mpr ⟨u, readValue_eq_ok_iff.mpr hlow,
        bind_eq_ok_iff.mpr ⟨v, readValue_eq_ok_iff.mpr hhigh, rfl⟩⟩

theorem readRange_eq_error_iff :
    field.readRange stepped text = .error fault ↔ field.BadRange text fault := by
  constructor
  · intro h
    by_cases hstar : text = ['*']
    · subst hstar
      cases h
    rcases Text.not_mem_or_exists_cut '-' text with hdash | ⟨low, high, rfl, hdash⟩
    · rw [readRange_single hstar hdash] at h
      rcases bind_eq_error_iff.mp h with hvalue | ⟨_, -, hpair⟩
      · exact .single hstar hdash (readValue_eq_error_iff.mp hvalue)
      · cases hpair
    · rw [readRange_span hdash] at h
      rcases bind_eq_error_iff.mp h with hlow | ⟨a, hlow, hrest⟩
      · exact .low hdash (readValue_eq_error_iff.mp hlow)
      · rcases bind_eq_error_iff.mp hrest with hhigh | ⟨_, -, hpair⟩
        · exact .high (readValue_eq_ok_iff.mp hlow) (readValue_eq_error_iff.mp hhigh)
        · cases hpair
  · intro h
    cases h with
    | single hstar hdash h =>
      rw [readRange_single hstar hdash]
      exact bind_eq_error_iff.mpr (.inl (readValue_eq_error_iff.mpr h))
    | low hdash h =>
      rw [readRange_span hdash]
      exact bind_eq_error_iff.mpr (.inl (readValue_eq_error_iff.mpr h))
    | high hlow h =>
      rw [readRange_span (hlow.not_mem (by decide))]
      exact bind_eq_error_iff.mpr (.inr ⟨_, readValue_eq_ok_iff.mpr hlow,
        bind_eq_error_iff.mpr (.inl (readValue_eq_error_iff.mpr h))⟩)

/-! ## Items -/

/-- A text is an item: a range, with a slash and a step behind it or not. -/
inductive IsItem (field : Field) : List Char → Item → Prop
  | plain {text : List Char} {u v : Nat} (h : field.IsRange false text u v) :
      IsItem field text ⟨u, v, 1, Nat.one_pos⟩
  | stepped {range step : List Char} {u v n : Nat} (h : field.IsRange true range u v)
      (hstep : IsStep step n) : IsItem field (range ++ '/' :: step) ⟨u, v, n, hstep.pos⟩

/-- What an item denotes: the numbers from `lo` to `hi`, a step apart. If `hi` is less than `lo`,
there are none. -/
inductive Denotes (field : Field) : List Char → Nat → Nat → Nat → Prop
  | plain {text : List Char} {lo hi : Nat} (h : field.IsRange false text lo hi) :
      Denotes field text lo hi 1
  | stepped {range step : List Char} {lo hi n : Nat} (h : field.IsRange true range lo hi)
      (hstep : IsSignedStep step n) : Denotes field (range ++ '/' :: step) lo hi n

/-- What is wrong with a text that is no item. The step is judged before the range. -/
inductive BadItem (field : Field) : List Char → ItemFault → Prop
  | plain {text : List Char} {fault : ItemFault} (hslash : '/' ∉ text)
      (h : field.BadRange text fault) : BadItem field text fault
  | step {range step : List Char} {fault : ItemFault} (hslash : '/' ∉ range)
      (h : BadStep step fault) : BadItem field (range ++ '/' :: step) fault
  | range {range step : List Char} {n : Nat} {fault : ItemFault} (hslash : '/' ∉ range)
      (hstep : IsStep step n) (h : field.BadRange range fault) :
      BadItem field (range ++ '/' :: step) fault

theorem not_mem_of_not_mem_append {c sep : Char} (h : c ∉ range ++ sep :: step) : c ∉ step :=
  fun hmem => h (List.mem_append_right _ (List.mem_cons_of_mem _ hmem))

theorem readItem_plain (hslash : '/' ∉ text) :
    field.readItem text =
      (do let (lo, hi) ← field.readRange false text
          return { lo, hi, step := 1, step_pos := Nat.one_pos }) := by
  rw [readItem, Text.cut_eq_none_iff.mpr hslash]

theorem readItem_stepped (hslash : '/' ∉ range) :
    field.readItem (range ++ '/' :: step) =
      (do let ⟨step, step_pos⟩ ← readStep step
          let (lo, hi) ← field.readRange true range
          return { lo, hi, step, step_pos }) := by
  rw [readItem, Text.cut_eq_some_iff.mpr ⟨rfl, hslash⟩]

/-- An item is read as what it denotes. -/
theorem readItem_eq_ok_iff_denotes :
    field.readItem text = .ok item ↔ field.Denotes text item.lo item.hi item.step := by
  obtain ⟨lo, hi, n, hn⟩ := item
  dsimp only
  constructor
  · intro h
    rcases Text.not_mem_or_exists_cut '/' text with hslash | ⟨range, step, rfl, hslash⟩
    · rw [readItem_plain hslash] at h
      obtain ⟨⟨u, v⟩, hrange, hitem⟩ := bind_eq_ok_iff.mp h
      cases hitem
      exact .plain (readRange_eq_ok_iff.mp hrange)
    · rw [readItem_stepped hslash] at h
      obtain ⟨⟨n, hn⟩, hstep, hrest⟩ := bind_eq_ok_iff.mp h
      obtain ⟨⟨u, v⟩, hrange, hitem⟩ := bind_eq_ok_iff.mp hrest
      cases hitem
      exact .stepped (readRange_eq_ok_iff.mp hrange) (readStep_eq_ok_iff.mp hstep)
  · intro h
    cases h with
    | plain h =>
      rw [readItem_plain h.slash_not_mem]
      exact bind_eq_ok_iff.mpr ⟨_, readRange_eq_ok_iff.mpr h, rfl⟩
    | @stepped range step _ _ _ h hstep =>
      have hread : readStep step = .ok ⟨n, hn⟩ := readStep_eq_ok_iff.mpr hstep
      rw [readItem_stepped h.slash_not_mem]
      exact bind_eq_ok_iff.mpr ⟨_, hread, bind_eq_ok_iff.mpr ⟨_, readRange_eq_ok_iff.mpr h, rfl⟩⟩

theorem readItem_eq_ok_iff (hplus : '+' ∉ text) :
    field.readItem text = .ok item ↔ field.IsItem text item := by
  rw [readItem_eq_ok_iff_denotes]
  obtain ⟨lo, hi, n, hn⟩ := item
  dsimp only
  constructor
  · intro h
    cases h with
    | plain h => exact .plain h
    | stepped h hstep =>
      exact .stepped h ((isSignedStep_iff (not_mem_of_not_mem_append hplus)).mp hstep)
  · intro h
    cases h with
    | plain h => exact .plain h
    | stepped h hstep => exact .stepped h (.bare hstep)

theorem readItem_eq_error_iff (hplus : '+' ∉ text) :
    field.readItem text = .error fault ↔ field.BadItem text fault := by
  constructor
  · intro h
    rcases Text.not_mem_or_exists_cut '/' text with hslash | ⟨range, step, rfl, hslash⟩
    · rw [readItem_plain hslash] at h
      rcases bind_eq_error_iff.mp h with hrange | ⟨_, -, hitem⟩
      · exact .plain hslash (readRange_eq_error_iff.mp hrange)
      · cases hitem
    · have hplus := not_mem_of_not_mem_append hplus
      rw [readItem_stepped hslash] at h
      rcases bind_eq_error_iff.mp h with hstep | ⟨⟨n, hn⟩, hstep, hrest⟩
      · exact .step hslash ((readStep_eq_error_iff hplus).mp hstep)
      · rcases bind_eq_error_iff.mp hrest with hrange | ⟨_, -, hitem⟩
        · have hstep := (isSignedStep_iff hplus).mp (readStep_eq_ok_iff.mp hstep)
          exact .range hslash hstep (readRange_eq_error_iff.mp hrange)
        · cases hitem
  · intro h
    cases h with
    | plain hslash h =>
      rw [readItem_plain hslash]
      exact bind_eq_error_iff.mpr (.inl (readRange_eq_error_iff.mpr h))
    | @step range step _ hslash h =>
      have hread := (readStep_eq_error_iff (not_mem_of_not_mem_append hplus)).mpr h
      rw [readItem_stepped hslash]
      exact bind_eq_error_iff.mpr (.inl hread)
    | @range range step n _ hslash hstep h =>
      have hread : readStep step = .ok ⟨n, hstep.pos⟩ := readStep_eq_ok_iff.mpr (.bare hstep)
      rw [readItem_stepped hslash]
      exact bind_eq_error_iff.mpr (.inr ⟨_, hread,
        bind_eq_error_iff.mpr (.inl (readRange_eq_error_iff.mpr h))⟩)

/-! ## Fields -/

theorem IsItem.comma_not_mem (h : field.IsItem text item) : ',' ∉ text := by
  cases h with
  | plain h => exact h.not_mem (by decide) (by decide) (by decide)
  | stepped h hstep =>
    simp only [List.mem_append, List.mem_cons, not_or]
    exact ⟨h.not_mem (by decide) (by decide) (by decide), by decide, hstep.not_mem (by decide)⟩

/-- A text is a field: a star, a question mark in a day field, or items with commas between them. -/
inductive IsField (field : Field) : List Char → Prop
  | star : IsField field ['*']
  | question (h : field.allowsQuestionMark = true) : IsField field ['?']
  | list {texts : List (List Char)} (hne : texts ≠ [])
      (h : ∀ text ∈ texts, ∃ item, field.IsItem text item) : IsField field ([','].intercalate texts)

/-- What is wrong with a text that is no field. The first item that is none counts. -/
inductive BadField (field : Field) : List Char → ItemFault → Prop
  | list {before behind : List (List Char)} {bad : List Char} {fault : ItemFault}
      (hopen : [','].intercalate (before ++ bad :: behind) = ['?'] →
        field.allowsQuestionMark = false)
      (hcomma : ∀ text ∈ before ++ bad :: behind, ',' ∉ text)
      (hbefore : ∀ text ∈ before, ∃ item, field.IsItem text item)
      (h : field.BadItem bad fault) :
      BadField field ([','].intercalate (before ++ bad :: behind)) fault

theorem isOpen_iff {text : String} : field.isOpen text = true ↔
    text.toList = ['*'] ∨ field.allowsQuestionMark = true ∧ text.toList = ['?'] := by
  rw [isOpen, Bool.or_eq_true, Bool.and_eq_true, beq_iff_eq, beq_iff_eq, ← String.toList_inj,
    ← String.toList_inj]
  rfl

/-- What stands between separators is made of the other characters. -/
theorem mem_and_ne_of_mem_splitOn {sep : Char} {s : List Char} :
    ∀ part ∈ s.splitOn sep, ∀ c ∈ part, c ∈ s ∧ c ≠ sep := by
  unfold List.splitOn
  induction s with
  | nil =>
    intro part hpart
    rw [List.mem_singleton.mp hpart]
    nofun
  | cons d rest ih =>
    rw [List.splitOnP_cons_eq_if_modifyHead]
    have hrest : ∀ part ∈ rest.splitOnP (· == sep), ∀ c ∈ part, c ∈ d :: rest ∧ c ≠ sep :=
      fun part hpart c hc => ⟨List.mem_cons_of_mem d (ih part hpart c hc).1, (ih part hpart c hc).2⟩
    split
    next hd => exact List.forall_mem_cons.mpr ⟨nofun, hrest⟩
    next hd =>
      cases hparts : rest.splitOnP (· == sep) with
      | nil => nofun
      | cons first others =>
        rw [hparts, List.forall_mem_cons] at hrest
        refine List.forall_mem_cons.mpr ⟨List.forall_mem_cons.mpr ⟨?_, hrest.1⟩, hrest.2⟩
        exact ⟨List.mem_cons_self, fun heq => hd (beq_iff_eq.mpr heq)⟩

theorem read_of_not_open {text : String} (h : field.isOpen text = false) :
    field.read text =
      (do let items ← (text.toList.splitOn ',').mapM field.readItem
          return ValueSet.ofList (items.flatMap Item.values)) := by
  rw [read, if_neg (by rw [h]; exact Bool.false_ne_true)]

/-- A text that is not open is read if each of the parts between its commas is read as an item. -/
theorem exists_read_iff_of_not_open {text : String} (h : field.isOpen text = false) :
    (∃ set, field.read text = .ok set) ↔
      ∀ part ∈ text.toList.splitOn ',', ∃ item, field.readItem part = .ok item := by
  rw [read_of_not_open h, ← exists_mapM_eq_ok_iff]
  simp only [bind_eq_ok_iff]
  constructor
  · rintro ⟨_, items, hitems, -⟩
    exact ⟨items, hitems⟩
  · rintro ⟨items, hitems⟩
    exact ⟨_, items, hitems, rfl⟩

/-- A text that is not open is a field if what stands between its commas are items. -/
theorem isField_iff_of_not_open {text : String} (h : field.isOpen text = false) :
    field.IsField text.toList ↔
      ∀ part ∈ text.toList.splitOn ',', ∃ item, field.IsItem part item := by
  constructor
  · intro hfield
    generalize htext : text.toList = chars at hfield
    cases hfield with
    | star =>
      rw [isOpen_iff.mpr (.inl htext)] at h
      cases h
    | question hallows =>
      rw [isOpen_iff.mpr (.inr ⟨hallows, htext⟩)] at h
      cases h
    | list hne hitems =>
      rw [List.splitOn_intercalate ',' (fun part hpart => ?_) hne]
      · exact hitems
      · obtain ⟨item, hitem⟩ := hitems part hpart
        exact hitem.comma_not_mem
  · intro hitems
    have hfield := IsField.list (List.splitOn_ne_nil ',' text.toList) hitems
    rwa [List.intercalate_splitOn] at hfield

/-- A text that is not open is refused for the first of the parts between its commas that is no
item. -/
theorem badField_iff_of_not_open {text : String} (h : field.isOpen text = false) :
    field.BadField text.toList fault ↔
      ∃ before bad behind, text.toList.splitOn ',' = before ++ bad :: behind ∧
        (∀ part ∈ before, ∃ item, field.IsItem part item) ∧ field.BadItem bad fault := by
  constructor
  · intro hbad
    generalize text.toList = chars at hbad
    cases hbad with
    | @list before behind bad _ hopen hcomma hbefore hbad =>
      refine ⟨before, bad, behind, List.splitOn_intercalate ',' hcomma ?_, hbefore, hbad⟩
      exact List.append_ne_nil_of_right_ne_nil _ (List.cons_ne_nil bad behind)
  · rintro ⟨before, bad, behind, hsplit, hbefore, hbad⟩
    have htext : [','].intercalate (before ++ bad :: behind) = text.toList := by
      rw [← hsplit, List.intercalate_splitOn]
    rw [← htext]
    refine .list (fun hquestion => ?_) (fun part hpart hmem => ?_) hbefore hbad
    · rw [htext] at hquestion
      refine Bool.eq_false_iff.mpr fun hallows => ?_
      rw [isOpen_iff.mpr (.inr ⟨hallows, hquestion⟩)] at h
      cases h
    · rw [← hsplit] at hpart
      exact (mem_and_ne_of_mem_splitOn part hpart _ hmem).2 rfl

/-- A text that is open is not refused. -/
theorem not_badField_of_open {text : String} (h : field.isOpen text = true) :
    ¬ field.BadField text.toList fault := by
  intro hbad
  generalize htext : text.toList = chars at hbad
  cases hbad with
  | @list before behind bad _ hopen hcomma hbefore hbad =>
    rcases isOpen_iff.mp h with hstar | ⟨hallows, hquestion⟩
    · have hsplit := List.splitOn_intercalate ',' hcomma
        (List.append_ne_nil_of_right_ne_nil before (List.cons_ne_nil bad behind))
      rw [← htext, hstar] at hsplit
      obtain ⟨rfl, hlast⟩ | ⟨-, hlast⟩ := List.append_eq_singleton_iff.mp hsplit.symm
      · -- a star alone is an item
        cases hlast
        cases (readItem_eq_error_iff (by decide)).mpr hbad
      · cases hlast
    · rw [hopen (htext ▸ hquestion)] at hallows
      cases hallows

/-- A text without a plus sign is read if it is a field. -/
theorem exists_read_eq_ok_iff {text : String} (hplus : '+' ∉ text.toList) :
    (∃ set, field.read text = .ok set) ↔ field.IsField text.toList := by
  have hparts : ∀ part ∈ text.toList.splitOn ',', '+' ∉ part := fun part hpart hmem =>
    hplus (mem_and_ne_of_mem_splitOn part hpart _ hmem).1
  cases hopen : field.isOpen text with
  | true =>
    refine ⟨fun _ => ?_, fun _ => ⟨_, if_pos hopen⟩⟩
    rcases isOpen_iff.mp hopen with hstar | ⟨hallows, hquestion⟩
    · exact hstar ▸ .star
    · exact hquestion ▸ .question hallows
  | false =>
    rw [exists_read_iff_of_not_open hopen, isField_iff_of_not_open hopen]
    constructor
    · intro h part hpart
      obtain ⟨item, hitem⟩ := h part hpart
      exact ⟨item, (readItem_eq_ok_iff (hparts part hpart)).mp hitem⟩
    · intro h part hpart
      obtain ⟨item, hitem⟩ := h part hpart
      exact ⟨item, (readItem_eq_ok_iff (hparts part hpart)).mpr hitem⟩

/-- A text without a plus sign is refused for what is wrong with it. -/
theorem read_eq_error_iff {text : String} (hplus : '+' ∉ text.toList) :
    field.read text = .error fault ↔ field.BadField text.toList fault := by
  have hparts : ∀ part ∈ text.toList.splitOn ',', '+' ∉ part := fun part hpart hmem =>
    hplus (mem_and_ne_of_mem_splitOn part hpart _ hmem).1
  cases hopen : field.isOpen text with
  | true =>
    refine ⟨fun h => ?_, fun h => absurd h (not_badField_of_open hopen)⟩
    rw [read, if_pos hopen] at h
    cases h
  | false =>
    rw [read_of_not_open hopen, badField_iff_of_not_open hopen, bind_eq_error_iff, mapM_eq_error_iff]
    constructor
    · rintro (⟨before, bad, behind, hsplit, hbefore, hbad⟩ | ⟨_, -, h⟩)
      · rw [hsplit, List.forall_mem_append, List.forall_mem_cons] at hparts
        refine ⟨before, bad, behind, hsplit, fun part hpart => ?_,
          (readItem_eq_error_iff hparts.2.1).mp hbad⟩
        obtain ⟨item, hitem⟩ := hbefore part hpart
        exact ⟨item, (readItem_eq_ok_iff (hparts.1 part hpart)).mp hitem⟩
      · cases h
    · rintro ⟨before, bad, behind, hsplit, hbefore, hbad⟩
      rw [hsplit, List.forall_mem_append, List.forall_mem_cons] at hparts
      refine .inl ⟨before, bad, behind, hsplit, fun part hpart => ?_,
        (readItem_eq_error_iff hparts.2.1).mpr hbad⟩
      obtain ⟨item, hitem⟩ := hbefore part hpart
      exact ⟨item, (readItem_eq_ok_iff (hparts.1 part hpart)).mpr hitem⟩

end Field

end Cron
