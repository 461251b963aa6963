import Cron.Field.Basic
import Cron.Text.Numeral

/-!
# Sets of field values

A `ValueSet` is a set of numbers below 64, held as a 64-bit mask: bit `v` is set iff `v` is a
member. No calendar field reaches 64, so `insert` drops larger numbers. Model of `FieldSet`.

`calendarValues` holds, for each field, the set of all values that the calendar can give it.

Headlines:
* `mem_insert`, `mem_ofList`, `mem_full`: what is a member of a set that was built in these ways;
* `mem_toList`: the listing holds the members;
* `ext`: two sets with the same members are equal.
-/

namespace Cron

/-- A set of numbers below 64. -/
structure ValueSet where
  /-- Bit `v` is set iff `v` is a member. -/
  mask : BitVec 64
deriving DecidableEq

namespace ValueSet

/-- Members are below this number. -/
def capacity : Nat := 64

/-- The set without members. -/
def empty : ValueSet := ⟨0⟩

/-- Whether `v` is a member. The mask is looked at only below the capacity. -/
def contains (s : ValueSet) (v : Nat) : Bool := v < capacity && s.mask.getLsbD v

instance : Membership Nat ValueSet := ⟨fun s v => s.contains v = true⟩

instance (v : Nat) (s : ValueSet) : Decidable (v ∈ s) :=
  inferInstanceAs (Decidable (s.contains v = true))

/-- The set with `v` added. A number at or above the capacity is dropped. -/
def insert (s : ValueSet) (v : Nat) : ValueSet :=
  if v < capacity then ⟨s.mask ||| BitVec.twoPow 64 v⟩ else s

/-- The set of the numbers of a list. -/
def ofList (vs : List Nat) : ValueSet := vs.foldl insert empty

/-- The set of the numbers from `lo` to `hi`, both included. -/
def full (lo hi : Nat) : ValueSet :=
  ofList (List.range' lo (Nat.min hi (capacity - 1) + 1 - lo))

/-- The members in ascending order. -/
def toList (s : ValueSet) : List Nat := (List.range capacity).filter s.contains

/-- The number of members. -/
def size (s : ValueSet) : Nat := s.mask.cpop.toNat

/-- Whether there is no member. -/
def isEmpty (s : ValueSet) : Bool := s.mask == 0

/-- Whether two sets have a member in common. -/
def meets (s t : ValueSet) : Bool := s.mask &&& t.mask != 0

/-- The members between braces, separated by commas. -/
def text (s : ValueSet) : String :=
  "\x7b" ++ String.intercalate ", " (s.toList.map fun v => String.ofList (Text.decimal v))
    ++ "\x7d"

/-! ## Membership -/

theorem mem_def {s : ValueSet} {v : Nat} : v ∈ s ↔ s.contains v = true := Iff.rfl

theorem contains_eq_getLsbD (s : ValueSet) (v : Nat) : s.contains v = s.mask.getLsbD v := by
  unfold contains capacity
  by_cases h : v < 64
  · simp [h]
  · simp [h, BitVec.getLsbD_of_ge _ _ (Nat.le_of_not_lt h)]

theorem lt_capacity_of_mem {s : ValueSet} {v : Nat} (h : v ∈ s) : v < capacity := by
  rw [mem_def, contains, Bool.and_eq_true, decide_eq_true_eq] at h
  exact h.1

@[simp] theorem not_mem_empty (v : Nat) : v ∉ empty := by
  simp [mem_def, contains_eq_getLsbD, empty]

@[simp] theorem mem_insert {s : ValueSet} {u v : Nat} :
    v ∈ s.insert u ↔ v ∈ s ∨ (v = u ∧ u < capacity) := by
  unfold insert
  split
  next h =>
    simp only [mem_def, contains_eq_getLsbD, BitVec.getLsbD_or, BitVec.getLsbD_twoPow,
      Bool.or_eq_true, Bool.and_eq_true, decide_eq_true_eq]
    constructor
    · rintro (h' | ⟨-, rfl⟩)
      · exact .inl h'
      · exact .inr ⟨rfl, h⟩
    · rintro (h' | ⟨rfl, h'⟩)
      · exact .inl h'
      · exact .inr ⟨h', rfl⟩
  next h => simp [h]

theorem mem_foldl_insert {vs : List Nat} {s : ValueSet} {v : Nat} :
    v ∈ vs.foldl insert s ↔ v ∈ s ∨ (v ∈ vs ∧ v < capacity) := by
  induction vs generalizing s with
  | nil => simp
  | cons u us ih =>
    rw [List.foldl_cons, ih, mem_insert, List.mem_cons]
    constructor
    · rintro ((h | ⟨rfl, h⟩) | ⟨h, h'⟩)
      · exact .inl h
      · exact .inr ⟨.inl rfl, h⟩
      · exact .inr ⟨.inr h, h'⟩
    · rintro (h | ⟨rfl | h, h'⟩)
      · exact .inl (.inl h)
      · exact .inl (.inr ⟨rfl, h'⟩)
      · exact .inr ⟨h, h'⟩

@[simp] theorem mem_ofList {vs : List Nat} {v : Nat} :
    v ∈ ofList vs ↔ v ∈ vs ∧ v < capacity := by
  simp [ofList, mem_foldl_insert]

@[simp] theorem mem_full {lo hi v : Nat} :
    v ∈ full lo hi ↔ lo ≤ v ∧ v ≤ hi ∧ v < capacity := by
  simp only [full, mem_ofList, List.mem_range'_1, capacity, Nat.min_def]
  split <;> omega

@[simp] theorem mem_toList {s : ValueSet} {v : Nat} : v ∈ s.toList ↔ v ∈ s := by
  simp only [toList, List.mem_filter, List.mem_range, ← mem_def]
  exact ⟨And.right, fun h => ⟨lt_capacity_of_mem h, h⟩⟩

/-- Two sets with the same members are equal. -/
theorem ext {s t : ValueSet} (h : ∀ v, v ∈ s ↔ v ∈ t) : s = t := by
  cases s with
  | mk a =>
    cases t with
    | mk b =>
      congr 1
      apply BitVec.eq_of_getLsbD_eq
      intro i _
      have := h i
      simp only [mem_def, contains_eq_getLsbD] at this
      exact Bool.eq_iff_iff.mpr this

theorem meets_iff {s t : ValueSet} : s.meets t = true ↔ ∃ v, v ∈ s ∧ v ∈ t := by
  have key : s.mask &&& t.mask = 0 ↔ ∀ v, ¬ (v ∈ s ∧ v ∈ t) := by
    simp only [mem_def, contains_eq_getLsbD]
    constructor
    · intro h v hv
      have := congrArg (fun m => m.getLsbD v) h
      simp [hv.1, hv.2] at this
    · intro h
      apply BitVec.eq_of_getLsbD_eq
      intro i _
      have := h i
      simpa using this
  simp only [meets, bne_iff_ne, ne_eq, key]
  constructor
  · intro h
    exact Classical.byContradiction fun hn => h fun v hv => hn ⟨v, hv⟩
  · rintro ⟨v, hv⟩ h
    exact h v hv

end ValueSet

/-! ## The values of the fields -/

/-- The values that the calendar can give to each field. -/
def calendarValues : PerField ValueSet :=
  PerField.ofFun fun field => ValueSet.full field.min field.max

theorem mem_calendarValues {field : Field} {v : Nat} :
    v ∈ calendarValues.get field ↔ field.min ≤ v ∧ v ≤ field.max := by
  rw [calendarValues, PerField.get_ofFun, ValueSet.mem_full, ValueSet.capacity]
  cases field <;> simp only [Field.min, Field.max] <;> omega

end Cron
