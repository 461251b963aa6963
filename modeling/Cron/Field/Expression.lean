import Cron.Field.Names
import Cron.Field.ValueSet
import Cron.Text.Cut
import Cron.Text.Numeral
import Cron.Text.Quoted

/-!
# Field expressions

The text of a field is `*` for all its values, `?` likewise in a day field, or a list of items
separated by commas. An item is a range, with `/` and a step behind it or not:

* `*` runs from the least to the greatest value of the field,
* `V-W` runs from `V` to `W` (and is empty if `V` is greater),
* `V` is `V` alone, but with a step behind it runs to the greatest value of the field.

Model of `parse_field`, `parse_item` and `parse_value`, and of the texts of their errors.

A value is a numeral of at most 32 bits or a name. An item has at most one fault that counts: its
step is judged before its low end, and that before its high end. Of a list, the first faulty item
counts.
-/

namespace Cron

/-- Numerals in a field stand for numbers up to this one. -/
def largestNumeral : Nat := 4294967295

/-- Why an item of a field expression is refused. -/
inductive ItemFault where
  | stepNotNumber (step : String)
  | zeroStep
  | valueOutOfRange (value : String)
  | unknownValue (value : String)
deriving DecidableEq, Repr

/-- The reason in words. -/
def ItemFault.message : ItemFault → String
  | stepNotNumber step => "step " ++ Text.quoted step ++ " is not a number"
  | zeroStep => "step must be greater than zero"
  | valueOutOfRange value => "value " ++ Text.quoted value ++ " is out of range"
  | unknownValue value => "unrecognised value " ++ Text.quoted value

/-- Every `step`-th number from `lo` on, up to `hi`. -/
structure Item where
  lo : Nat
  hi : Nat
  step : Nat
  step_pos : 0 < step

namespace Item

/-- The numbers from `i` on, `step` apart, up to `top`. They end as well where the sum for the next
one would be too large for a numeral. -/
def stepping (step : Nat) (step_pos : 0 < step) (top i : Nat) : List Nat :=
  if i ≤ top then
    if i + step ≤ largestNumeral then i :: stepping step step_pos top (i + step) else [i]
  else []
termination_by top + 1 - i

/-- The numbers of an item, ascending, as far as a value set can hold them. -/
def values (item : Item) : List Nat :=
  stepping item.step item.step_pos (Nat.min item.hi (ValueSet.capacity - 1)) item.lo

/-- Sums that are too large for a numeral are past the top, so no number is missed. -/
theorem mem_stepping {step top i v : Nat} {step_pos : 0 < step} (htop : top ≤ largestNumeral) :
    v ∈ stepping step step_pos top i ↔ i ≤ v ∧ v ≤ top ∧ (v - i) % step = 0 := by
  have hself : ∀ i, (i - i) % step = 0 := fun i => by rw [Nat.sub_self, Nat.zero_mod]
  have hnear : ∀ i, i ≤ v → v < i + step → (v - i) % step = 0 → v = i := fun i hle hlt hmod => by
    rw [Nat.mod_eq_of_lt (by omega)] at hmod
    omega
  fun_induction stepping step step_pos top i with
  | case1 i hi hsum ih =>
    have hfar : i + step ≤ v → (v - (i + step)) % step = (v - i) % step := fun hle => by
      rw [← Nat.add_mod_right, Nat.sub_add_eq, Nat.sub_add_cancel (by omega)]
    rw [List.mem_cons]
    constructor
    · rintro (rfl | hrest)
      · exact ⟨Nat.le_refl _, hi, hself _⟩
      · obtain ⟨hle, hv, hmod⟩ := ih.mp hrest
        exact ⟨by omega, hv, (hfar hle).symm.trans hmod⟩
    · rintro ⟨hle, hv, hmod⟩
      rcases Nat.lt_or_ge v (i + step) with hlt | hge
      · exact .inl (hnear i hle hlt hmod)
      · exact .inr (ih.mpr ⟨hge, hv, (hfar hge).trans hmod⟩)
  | case2 i hi hsum =>
    rw [List.mem_singleton]
    constructor
    · rintro rfl
      exact ⟨Nat.le_refl _, hi, hself _⟩
    · rintro ⟨hle, hv, hmod⟩
      exact hnear i hle (by omega) hmod
  | case3 i hi =>
    constructor
    · intro hmem
      cases hmem
    · rintro ⟨hle, hv, -⟩
      omega

theorem mem_values {item : Item} {v : Nat} :
    v ∈ item.values ↔
      v < ValueSet.capacity ∧ item.lo ≤ v ∧ v ≤ item.hi ∧ (v - item.lo) % item.step = 0 := by
  have htop : ∀ u, u ≤ Nat.min item.hi (ValueSet.capacity - 1) ↔
      u < ValueSet.capacity ∧ u ≤ item.hi := by
    intro u
    simp only [ValueSet.capacity, Nat.min_def]
    split <;> omega
  have hlargest : Nat.min item.hi (ValueSet.capacity - 1) ≤ largestNumeral :=
    Nat.le_trans (Nat.min_le_right _ _) (by decide)
  rw [values, mem_stepping hlargest, htop]
  constructor
  · rintro ⟨hlo, ⟨hcap, hhi⟩, hmod⟩
    exact ⟨hcap, hlo, hhi, hmod⟩
  · rintro ⟨hcap, hlo, hhi, hmod⟩
    exact ⟨hlo, ⟨hcap, hhi⟩, hmod⟩

end Item

namespace Field

/-- Reads a value: a numeral, or one of the field's names. -/
def readValue (field : Field) (text : List Char) : Except ItemFault Nat :=
  match Text.numeral? text with
  | some v =>
    if v ≤ largestNumeral then .ok v else .error (.valueOutOfRange (String.ofList text))
  | none =>
    match field.valueOfName? text with
    | some v => .ok v
    | none => .error (.unknownValue (String.ofList text))

/-- Reads the step behind the slash: a numeral other than zero, after a plus sign or without. -/
def readStep (text : List Char) : Except ItemFault { step : Nat // 0 < step } :=
  let digits := match text with
    | '+' :: rest => rest
    | _ => text
  match Text.numeralUpTo? largestNumeral digits with
  | none => .error (.stepNotNumber (String.ofList text))
  | some step => if h : 0 < step then .ok ⟨step, h⟩ else .error .zeroStep

/-- Reads a range. A single value that has a step behind it runs to the greatest value. -/
def readRange (field : Field) (stepped : Bool) (text : List Char) :
    Except ItemFault (Nat × Nat) :=
  if text = ['*'] then .ok (field.min, field.max)
  else
    match Text.cut '-' text with
    | some (lo, hi) => do
      let lo ← field.readValue lo
      let hi ← field.readValue hi
      return (lo, hi)
    | none => do
      let v ← field.readValue text
      return (v, if stepped then field.max else v)

/-- Reads an item. -/
def readItem (field : Field) (text : List Char) : Except ItemFault Item :=
  match Text.cut '/' text with
  | some (range, step) => do
    let ⟨step, step_pos⟩ ← readStep step
    let (lo, hi) ← field.readRange true range
    return { lo, hi, step, step_pos }
  | none => do
    let (lo, hi) ← field.readRange false text
    return { lo, hi, step := 1, step_pos := Nat.one_pos }

/-- Whether the whole text of a field leaves it unrestricted. -/
def isOpen (field : Field) (text : String) : Bool :=
  text == "*" || (field.allowsQuestionMark && text == "?")

/-- Reads a field: the set of the values that it allows, or the fault of its first faulty item. -/
def read (field : Field) (text : String) : Except ItemFault ValueSet :=
  if field.isOpen text then .ok (calendarValues.get field)
  else do
    let items ← (text.toList.splitOn ',').mapM field.readItem
    return ValueSet.ofList (items.flatMap Item.values)

end Field

end Cron
