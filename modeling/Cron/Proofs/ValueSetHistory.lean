import Cron.Field.ValueSet

/-!
# What a set of values has been given

A set is made by operations in a row. It is made anew, without members, from a range or from a list,
or it is given one more number. It holds the numbers below the capacity that have been put in since
it was last emptied (`PutInSinceEmptied`), however large the numbers are and wherever a range begins
and ends.

A place of the mask is looked at or set by a word with a single one, shifted there. A word of 64
bits cannot be shifted by 64 places or more. `place?` has no result then, and `insert?`, `contains?`
and the operations that are made of them are written down with it. Each of them compares with the
capacity before it shifts, so all of them have a result, and it is the result of their namesakes.

Headlines:
* `mem_foldl_perform`: what a set holds after any operations;
* `size_eq_length`, `isEmpty_iff`, `eq_iff`, `ofList_toList`: what the mask says about the members;
* `foldlM_perform?`: no operation shifts too far;
* `holds_what_is_put_in`: all of this for the set that any operations leave.
-/

namespace Cron.ValueSet

variable {s t : ValueSet} {v : Nat}

/-! ## The mask and the members -/

/-- The members are listed in ascending order, each once. -/
theorem pairwise_toList (s : ValueSet) : s.toList.Pairwise (· < ·) :=
  List.pairwise_lt_range.filter _

/-- The ones among the lowest `n` places of a word, counted one by one. -/
theorem cpopNatRec_eq_countP (x : BitVec 64) (n : Nat) :
    x.cpopNatRec n 0 = (List.range n).countP x.getLsbD := by
  induction n with
  | zero => rfl
  | succ n ih =>
    rw [BitVec.cpopNatRec_succ, BitVec.cpopNatRec_add, ih, List.range_succ, List.countP_append]
    cases h : x.getLsbD n <;> simp [h]

/-- The ones of the mask are as many as the members. -/
theorem size_eq_length (s : ValueSet) : s.size = s.toList.length := by
  have hcontains : s.contains = s.mask.getLsbD := funext s.contains_eq_getLsbD
  rw [size, BitVec.toNat_cpop, cpopNatRec_eq_countP, toList, hcontains, List.countP_eq_length_filter]
  rfl

theorem eq_iff : s = t ↔ ∀ v, v ∈ s ↔ v ∈ t := by
  constructor
  · rintro rfl v
    exact Iff.rfl
  · exact ext

theorem isEmpty_iff : s.isEmpty = true ↔ ∀ v, v ∉ s := by
  have hempty : s.isEmpty = true ↔ s = empty := by
    rw [isEmpty, beq_iff_eq, empty, mk.injEq]
  rw [hempty, eq_iff]
  exact forall_congr' fun v => iff_false_right (not_mem_empty v)

/-- The set of the listed members is the set itself. -/
@[simp] theorem ofList_toList (s : ValueSet) : ofList s.toList = s := by
  apply ext
  intro v
  rw [mem_ofList, mem_toList]
  exact ⟨And.left, fun h => ⟨h, lt_capacity_of_mem h⟩⟩

/-! ## Operations in a row -/

/-- What is done to a set. -/
inductive Operation where
  /-- It is made anew, without members. -/
  | new
  /-- It is made anew from the numbers from `lo` to `hi`. -/
  | full (lo hi : Nat)
  /-- It is made anew from the numbers of a list. -/
  | collect (vs : List Nat)
  /-- It is given one more number. -/
  | insert (v : Nat)

namespace Operation

/-- The set that an operation leaves. -/
def perform (s : ValueSet) : Operation → ValueSet
  | new => empty
  | full lo hi => ValueSet.full lo hi
  | collect vs => ofList vs
  | insert v => s.insert v

/-- Whether an operation empties the set before it puts anything in. -/
def Empties : Operation → Prop
  | insert _ => False
  | _ => True

/-- Whether an operation puts a number in. -/
def PutsIn (v : Nat) : Operation → Prop
  | new => False
  | full lo hi => lo ≤ v ∧ v ≤ hi
  | collect vs => v ∈ vs
  | insert u => v = u

theorem mem_perform {op : Operation} :
    v ∈ perform s op ↔ (v < capacity ∧ op.PutsIn v) ∨ (v ∈ s ∧ ¬ op.Empties) := by
  cases op with
  | new => simp [perform, PutsIn, Empties]
  | full lo hi =>
    simp only [perform, PutsIn, Empties, mem_full, not_true_eq_false, and_false, or_false]
    omega
  | collect vs =>
    simp only [perform, PutsIn, Empties, mem_ofList, not_true_eq_false, and_false, or_false]
    exact and_comm
  | insert u =>
    simp only [perform, PutsIn, Empties, mem_insert, not_false_eq_true, and_true]
    constructor
    · rintro (h | ⟨rfl, h⟩)
      · exact .inr h
      · exact .inl ⟨h, rfl⟩
    · rintro (⟨h, rfl⟩ | h)
      · exact .inr ⟨rfl, h⟩
      · exact .inl h

end Operation

/-- The operations have put a number in, and none has emptied the set after that. -/
def PutInSinceEmptied (history : List Operation) (v : Nat) : Prop :=
  ∃ earlier op later, history = earlier ++ op :: later ∧ op.PutsIn v ∧ ∀ op ∈ later, ¬ op.Empties

theorem putInSinceEmptied_cons {op : Operation} {history : List Operation} :
    PutInSinceEmptied (op :: history) v ↔
      (op.PutsIn v ∧ ∀ later ∈ history, ¬ later.Empties) ∨ PutInSinceEmptied history v := by
  constructor
  · rintro ⟨earlier, op', later, heq, hputs, hlater⟩
    cases earlier with
    | nil =>
      cases heq
      exact .inl ⟨hputs, hlater⟩
    | cons first earlier =>
      cases heq
      exact .inr ⟨earlier, op', later, rfl, hputs, hlater⟩
  · rintro (⟨hputs, hlater⟩ | ⟨earlier, op', later, rfl, hputs, hlater⟩)
    · exact ⟨[], op, history, rfl, hputs, hlater⟩
    · exact ⟨op :: earlier, op', later, rfl, hputs, hlater⟩

/-- A member has been put in since the set was last emptied, or it was there before and the set has
never been emptied. -/
theorem mem_foldl_perform {history : List Operation} :
    v ∈ history.foldl Operation.perform s ↔
      (v < capacity ∧ PutInSinceEmptied history v) ∨ (v ∈ s ∧ ∀ op ∈ history, ¬ op.Empties) := by
  induction history generalizing s with
  | nil =>
    have hnone : ¬ PutInSinceEmptied [] v := by
      rintro ⟨earlier, op, later, heq, -⟩
      exact List.append_ne_nil_of_right_ne_nil earlier (List.cons_ne_nil op later) heq.symm
    simp [hnone]
  | cons op history ih =>
    rw [List.foldl_cons, ih, Operation.mem_perform, putInSinceEmptied_cons, List.forall_mem_cons]
    constructor
    · rintro (⟨hv, hrest⟩ | ⟨⟨hv, hputs⟩ | ⟨hs, hop⟩, hkept⟩)
      · exact .inl ⟨hv, .inr hrest⟩
      · exact .inl ⟨hv, .inl ⟨hputs, hkept⟩⟩
      · exact .inr ⟨hs, hop, hkept⟩
    · rintro (⟨hv, ⟨hputs, hkept⟩ | hrest⟩ | ⟨hs, hop, hkept⟩)
      · exact .inr ⟨.inl ⟨hv, hputs⟩, hkept⟩
      · exact .inl ⟨hv, hrest⟩
      · exact .inr ⟨.inr ⟨hs, hop⟩, hkept⟩

/-! ## Shifts -/

/-- A one, shifted to a place of a word of 64 bits. It cannot be shifted farther than 63 places. -/
def place? (v : Nat) : Option (BitVec 64) := if v < 64 then some (1#64 <<< v) else none

/-- `insert` by a shift. -/
def insert? (s : ValueSet) (v : Nat) : Option ValueSet :=
  if v < capacity then (place? v).map fun one => ⟨s.mask ||| one⟩ else some s

/-- `contains` by a shift. -/
def contains? (s : ValueSet) (v : Nat) : Option Bool :=
  if v < capacity then (place? v).map fun one => s.mask &&& one != 0 else some false

/-- `ofList` by shifts. -/
def ofList? (vs : List Nat) : Option ValueSet := vs.foldlM insert? empty

/-- `full` by shifts. -/
def full? (lo hi : Nat) : Option ValueSet :=
  ofList? (List.range' lo (Nat.min hi (capacity - 1) + 1 - lo))

/-- `toList` by shifts. -/
def toList? (s : ValueSet) : Option (List Nat) := (List.range capacity).filterM s.contains?

/-- The set that an operation leaves, by shifts. -/
def Operation.perform? (s : ValueSet) : Operation → Option ValueSet
  | new => some empty
  | full lo hi => full? lo hi
  | collect vs => ofList? vs
  | insert v => s.insert? v

theorem place?_of_lt (h : v < capacity) : place? v = some (BitVec.twoPow 64 v) := by
  rw [place?, if_pos (show v < 64 from h), BitVec.twoPow_eq]

theorem insert?_eq (s : ValueSet) (v : Nat) : s.insert? v = some (s.insert v) := by
  unfold insert? insert
  split
  next h => rw [place?_of_lt h, Option.map_some]
  next => rfl

theorem contains?_eq (s : ValueSet) (v : Nat) : s.contains? v = some (s.contains v) := by
  unfold contains? contains
  split
  next h =>
    have hone : BitVec.twoPow 64 v ≠ 0#64 := fun hzero => by
      have hbit := congrArg (·.getLsbD v) hzero
      have hv : v < 64 := h
      simp [hv] at hbit
    rw [place?_of_lt h, Option.map_some, BitVec.and_twoPow, decide_eq_true h]
    cases s.mask.getLsbD v <;> simp [hone]
  next h => rw [decide_eq_false h, Bool.false_and]

theorem ofList?_eq (vs : List Nat) : ofList? vs = some (ofList vs) := by
  have hinsert : insert? = fun s v => pure (s.insert v) := funext fun s => funext fun v => insert?_eq s v
  rw [ofList?, hinsert, List.foldlM_pure]
  rfl

theorem full?_eq (lo hi : Nat) : full? lo hi = some (full lo hi) := ofList?_eq _

theorem filterAuxM_some (p : Nat → Bool) (vs found : List Nat) :
    vs.filterAuxM (fun v => some (p v)) found = some ((vs.filter p).reverse ++ found) := by
  induction vs generalizing found with
  | nil => rfl
  | cons v vs ih =>
    simp only [List.filterAuxM, Option.bind_eq_bind, Option.bind_some, ih]
    cases h : p v <;> simp [h]

theorem toList?_eq (s : ValueSet) : s.toList? = some s.toList := by
  have hcontains : s.contains? = fun v => some (s.contains v) := funext s.contains?_eq
  rw [toList?, hcontains, List.filterM, filterAuxM_some]
  simp [toList]

theorem Operation.perform?_eq (op : Operation) (s : ValueSet) : perform? s op = some (perform s op) := by
  cases op with
  | new => rfl
  | full lo hi => exact full?_eq lo hi
  | collect vs => exact ofList?_eq vs
  | insert v => exact insert?_eq s v

/-- No operation shifts too far. -/
theorem foldlM_perform? (history : List Operation) (s : ValueSet) :
    history.foldlM Operation.perform? s = some (history.foldl Operation.perform s) := by
  have hperform : Operation.perform? = fun s op => pure (Operation.perform s op) :=
    funext fun s => funext fun op => op.perform?_eq s
  rw [hperform, List.foldlM_pure]
  rfl

/-- **The set that any operations leave is the set of what they have put in.** It contains a number
exactly if the number is below 64 and has been put in since the set was last emptied. Its listing
holds what it contains in ascending order, its size is their number, and it is empty if there are
none. It equals any set that contains the same numbers, and so the set of its listing. Nothing is
ever shifted by 64 places or more on the way, nor by asking and listing. -/
theorem holds_what_is_put_in (history : List Operation) :
    let s := history.foldl Operation.perform empty
    (∀ v, s.contains v = true ↔ v < 64 ∧ PutInSinceEmptied history v) ∧
      (s.toList.Pairwise (· < ·) ∧ ∀ v, v ∈ s.toList ↔ s.contains v = true) ∧
      s.size = s.toList.length ∧
      (s.isEmpty = true ↔ ∀ v, s.contains v = false) ∧
      (∀ t : ValueSet, s = t ↔ ∀ v, s.contains v = t.contains v) ∧
      ofList s.toList = s ∧
      history.foldlM Operation.perform? empty = some s ∧
      (∀ v, s.contains? v = some (s.contains v)) ∧ s.toList? = some s.toList := by
  intro s
  refine ⟨fun v => ?_, ⟨pairwise_toList s, fun v => mem_toList⟩, size_eq_length s, ?_, fun t => ?_,
    ofList_toList s, foldlM_perform? history empty, contains?_eq s, toList?_eq s⟩
  · have hmem := @mem_foldl_perform empty v history
    rwa [iff_false_intro (not_mem_empty v), false_and, or_false] at hmem
  · simpa only [mem_def, Bool.not_eq_true] using @isEmpty_iff s
  · simpa only [mem_def, ← Bool.eq_iff_iff] using @eq_iff s t

/-- A set that is filled up, emptied, and filled again across the edge of the word, which is at 64. -/
example :
    let s := [Operation.full 0 4294967295, .collect [4294967295, 64, 63], .insert 5, .insert 64].foldl
      Operation.perform empty
    s.toList = [5, 63] ∧ s.size = 2 := by
  decide +kernel

end Cron.ValueSet
