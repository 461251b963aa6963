import Cron.Proofs.FieldGrammar
import Cron.Proofs.WordSplitting
import Cron.Schedule.Basic

/-!
# The language of patterns

A pattern is six fields with blanks between them, and blanks around them or not (`IsPattern`). Any
other text has a first fault (`FirstFault`): its shape, or else the first field that is none.

No field allows a blank, so there is never more than one way to match a text.

Headlines:
* `mem_captures_iff`: matching finds the words of a text, if each fits its field;
* `compile_spec`: what becomes of a pattern.
-/

namespace Cron

namespace PerField

variable {α β ε : Type} {f : Field → α → Except ε β} {p : PerField α} {e : ε}

/-- Working on each field is trying one after the other. -/
theorem toList_map_traverse (f : Field → α → Except ε β) (p : PerField α) :
    toList <$> p.traverse f = Field.all.mapM fun field => f field (p.get field) := by
  simp only [traverse, Field.all, List.mapM_cons, List.mapM_nil, get, map_bind, map_pure,
    bind_pure_comp, toList, Functor.map_map]

theorem exists_traverse_eq_ok_iff :
    (∃ r, p.traverse f = .ok r) ↔ ∀ field, ∃ b, f field (p.get field) = .ok b := by
  have hall := @exists_mapM_eq_ok_iff _ _ _ (fun field => f field (p.get field)) Field.all
  rw [← toList_map_traverse] at hall
  have hfields : (∀ field ∈ Field.all, ∃ b, f field (p.get field) = .ok b) ↔
      ∀ field, ∃ b, f field (p.get field) = .ok b :=
    ⟨fun h field => h field field.mem_all, fun h field _ => h field⟩
  rw [← hfields, ← hall]
  cases p.traverse f with
  | error e => exact ⟨nofun, nofun⟩
  | ok r => exact ⟨fun _ => ⟨_, rfl⟩, fun _ => ⟨_, rfl⟩⟩

theorem traverse_eq_error_iff : p.traverse f = .error e ↔
    ∃ before field behind, Field.all = before ++ field :: behind ∧
      (∀ other ∈ before, ∃ b, f other (p.get other) = .ok b) ∧ f field (p.get field) = .error e := by
  have hall := @mapM_eq_error_iff _ _ _ (fun field => f field (p.get field)) Field.all e
  rw [← hall, ← toList_map_traverse]
  cases p.traverse f with
  | error e' => exact ⟨fun h => congrArg _ (Except.error.inj h), fun h => congrArg _ (Except.error.inj h)⟩
  | ok r => exact ⟨nofun, nofun⟩

end PerField

namespace Pattern

variable {pattern : String} {texts : PerField (List Char)}

/-! ## Characters -/

theorem isSign_or_isAlpha_of_allows {field : Field} {c : Char} (h : field.allows c = true) :
    Field.isSign c = true ∨ c.isAlpha = true := by
  cases field with
  | month | dayOfWeek => exact Bool.or_eq_true_iff.mp h
  | _ => exact .inl h

/-- Fields allow nothing but characters from the star to the small z. -/
theorem bounds_of_allows {field : Field} {c : Char} (h : field.allows c = true) :
    42 ≤ c.toNat ∧ c.toNat ≤ 122 := by
  have hrange : ∀ {first last : UInt32}, 42 ≤ first.toNat ∧ last.toNat ≤ 122 → first ≤ c.val →
      c.val ≤ last → 42 ≤ c.toNat ∧ c.toNat ≤ 122 := fun hbounds hfirst hlast =>
    ⟨Nat.le_trans hbounds.1 (UInt32.le_iff_toNat_le.mp hfirst),
      Nat.le_trans (UInt32.le_iff_toNat_le.mp hlast) hbounds.2⟩
  rcases isSign_or_isAlpha_of_allows h with hsign | halpha
  · simp only [Field.isSign, Bool.or_eq_true, beq_iff_eq] at hsign
    rcases hsign with ((((rfl | rfl) | rfl) | rfl) | rfl) | hdigit
    · decide
    · decide
    · decide
    · decide
    · decide
    · obtain ⟨hfirst, hlast⟩ := Bool.and_eq_true_iff.mp hdigit
      exact hrange (by decide) (of_decide_eq_true hfirst) (of_decide_eq_true hlast)
  · rcases Bool.or_eq_true_iff.mp halpha with hupper | hlower
    · have hletter := of_decide_eq_true hupper
      exact hrange (by decide) hletter.1 hletter.2
    · obtain ⟨hfirst, hlast⟩ := Bool.and_eq_true_iff.mp hlower
      exact hrange (by decide) (of_decide_eq_true hfirst) (of_decide_eq_true hlast)

/-- Fields allow no blank. -/
theorem isBlank_eq_false_of_allows {field : Field} {c : Char} (h : field.allows c = true) :
    Text.isBlank c = false := by
  have hbounds := bounds_of_allows h
  refine Bool.eq_false_iff.mpr fun hblank => ?_
  simp only [Text.isBlank, Bool.or_eq_true, Bool.and_eq_true, beq_iff_eq, decide_eq_true_eq] at hblank
  omega

theorem isWord_of_allows {field : Field} {w : List Char} (hne : w ≠ [])
    (h : ∀ c ∈ w, field.allows c = true) : Text.IsWord w :=
  ⟨hne, fun c hc => isBlank_eq_false_of_allows (h c hc)⟩

/-! ## Matching -/

/-- Each field allows the characters of its text. -/
def Fit : List Field → List (List Char) → Prop
  | [], [] => True
  | field :: others, w :: ws => (∀ c ∈ w, field.allows c = true) ∧ Fit others ws
  | _, _ => False

/-- Matching a text against fields finds the ways to take words off it that fit the fields. -/
theorem mem_captures_iff {fields : List Field} {ws : List (List Char)} {s : List Char} :
    ws ∈ captures fields s ↔ Text.Spaced ws s ∧ Fit fields ws := by
  fun_induction captures fields s generalizing ws with
  | case1 s =>
    constructor
    · nofun
    · rintro ⟨hspaced, hfit⟩
      cases hspaced <;> cases hfit
  | case2 s field =>
    rw [List.mem_filterMap]
    constructor
    · rintro ⟨⟨w, behind⟩, hrun, hws⟩
      obtain ⟨rfl, hne, hw⟩ := Text.mem_runs.mp hrun
      cases behind with
      | nil =>
        cases hws
        rw [List.append_nil]
        exact ⟨.word (isWord_of_allows hne hw), hw, trivial⟩
      | cons c rest => cases hws
    · rintro ⟨hspaced, hfit⟩
      cases hspaced with
      | word hw =>
        exact ⟨(_, []), Text.mem_runs.mpr ⟨(List.append_nil _).symm, hw.ne_nil, hfit.1⟩, rfl⟩
      | cons hw hne hgap ht => cases ht <;> cases hfit.2
  | case3 s field others hne ih =>
    simp only [List.mem_flatMap, List.mem_map]
    constructor
    · rintro ⟨⟨w, behind⟩, hrun, ⟨gap, rest⟩, hgap, vs, hvs, rfl⟩
      obtain ⟨rfl, hwne, hw⟩ := Text.mem_runs.mp hrun
      obtain ⟨rfl, hgapne, hgap⟩ := Text.mem_runs.mp hgap
      obtain ⟨hspaced, hfit⟩ := (ih rest).mp hvs
      rw [← List.append_assoc]
      exact ⟨.cons (isWord_of_allows hwne hw) hgapne hgap hspaced, hw, hfit⟩
    · rintro ⟨hspaced, hfit⟩
      cases hspaced with
      | word hw =>
        obtain ⟨other, more, rfl⟩ := List.exists_cons_of_ne_nil hne
        cases hfit.2
      | @cons w gap rest vs hw hgapne hgap ht =>
        refine ⟨(w, gap ++ rest), Text.mem_runs.mpr ⟨List.append_assoc w gap rest, hw.ne_nil, hfit.1⟩,
          (gap, rest), Text.mem_runs.mpr ⟨rfl, hgapne, hgap⟩, vs, (ih rest).mpr ⟨ht, hfit.2⟩, rfl⟩

/-! ## The shape of a pattern -/

/-- A pattern has six texts of the right characters, with blanks between them and around them. -/
structure Shape (pattern : String) (texts : PerField (List Char)) : Prop where
  spaced : Text.Spaced texts.toList (Text.trim pattern.toList)
  allowed : ∀ field, ∀ c ∈ texts.get field, field.allows c = true

theorem fit_toList_iff {texts : PerField (List Char)} :
    Fit Field.all texts.toList ↔ ∀ field, ∀ c ∈ texts.get field, field.allows c = true := by
  constructor
  · rintro ⟨hsecond, hminute, hhour, hdayOfMonth, hmonth, hdayOfWeek, -⟩ field
    cases field <;> assumption
  · exact fun h => ⟨h .second, h .minute, h .hour, h .dayOfMonth, h .month, h .dayOfWeek, trivial⟩

/-- Texts that fit the fields of a pattern are six. -/
theorem exists_toList_of_fit {ws : List (List Char)} (h : Fit Field.all ws) :
    ∃ texts : PerField (List Char), ws = texts.toList := by
  match ws, h with
  | [a, b, c, d, e, f], _ => exact ⟨⟨a, b, c, d, e, f⟩, rfl⟩

theorem shape_iff : Shape pattern texts ↔
    texts.toList ∈ captures Field.all (Text.trim pattern.toList) := by
  rw [mem_captures_iff, fit_toList_iff]
  exact ⟨fun h => ⟨h.spaced, h.allowed⟩, fun h => ⟨h.1, h.2⟩⟩

/-- There is one way to take a text of that shape apart. -/
theorem Shape.unique {others : PerField (List Char)} (h : Shape pattern texts)
    (hothers : Shape pattern others) : texts = others := by
  have hsame : texts.toList = others.toList := h.spaced.words_eq.symm.trans hothers.spaced.words_eq
  refine Option.some.inj ?_
  rw [← PerField.ofList?_toList texts, hsame, PerField.ofList?_toList]

/-- The first way to match is the only one. -/
theorem head?_captures_eq_some_iff {fields : List Field} {ws : List (List Char)} {s : List Char} :
    (captures fields s).head? = some ws ↔ ws ∈ captures fields s := by
  constructor
  · exact List.mem_of_head?
  · intro hws
    cases hfirst : (captures fields s).head? with
    | none =>
      rw [List.head?_eq_none_iff.mp hfirst] at hws
      cases hws
    | some vs =>
      have hvs := mem_captures_iff.mp (List.mem_of_head? hfirst)
      rw [← hvs.1.words_eq, (mem_captures_iff.mp hws).1.words_eq]

/-- A text of that shape is taken apart accordingly. -/
theorem fields?_eq_some_iff {result : PerField String} :
    fields? pattern = some result ↔
      ∃ texts, Shape pattern texts ∧
        result = PerField.ofFun fun field => String.ofList (texts.get field) := by
  have hmatch : ∀ ws, (captures Field.all (Text.trim pattern.toList)).head? = some ws ↔
      ∃ texts, Shape pattern texts ∧ ws = texts.toList := fun ws => by
    rw [head?_captures_eq_some_iff]
    constructor
    · intro hws
      obtain ⟨texts, rfl⟩ := exists_toList_of_fit (mem_captures_iff.mp hws).2
      exact ⟨texts, shape_iff.mpr hws, rfl⟩
    · rintro ⟨texts, hshape, rfl⟩
      exact shape_iff.mp hshape
  constructor
  · intro h
    obtain ⟨ws, hws, hresult⟩ := Option.bind_eq_some_iff.mp h
    obtain ⟨texts, hshape, rfl⟩ := (hmatch ws).mp hws
    exact ⟨texts, hshape, (Option.some.inj hresult).symm⟩
  · rintro ⟨texts, hshape, rfl⟩
    exact Option.bind_eq_some_iff.mpr ⟨_, (hmatch _).mpr ⟨texts, hshape, rfl⟩, rfl⟩

theorem fields?_eq_none_iff : fields? pattern = none ↔ ∀ texts, ¬ Shape pattern texts := by
  constructor
  · intro h texts hshape
    rw [fields?_eq_some_iff.mpr ⟨texts, hshape, rfl⟩] at h
    cases h
  · intro h
    cases hfields : fields? pattern with
    | none => rfl
    | some result =>
      obtain ⟨texts, hshape, -⟩ := fields?_eq_some_iff.mp hfields
      exact absurd hshape (h texts)

/-- Six fields of the right characters, with blanks between them and around them. -/
def IsPattern (pattern : String) : Prop :=
  ∃ texts, Shape pattern texts ∧ ∀ field : Field, field.IsField (texts.get field)

/-- What is wrong with a text that is no pattern. Its shape is judged before its fields, and these in
pattern order. -/
inductive FirstFault (pattern : String) : PatternError → Prop
  | shape (h : ∀ texts, ¬ Shape pattern texts) : FirstFault pattern (.badShape pattern)
  | field {texts : PerField (List Char)} {before behind : List Field} {field : Field}
      {fault : ItemFault} (hshape : Shape pattern texts) (horder : Field.all = before ++ field :: behind)
      (hbefore : ∀ other ∈ before, other.IsField (texts.get other))
      (h : field.BadField (texts.get field) fault) :
      FirstFault pattern (.badField field (String.ofList (texts.get field)) fault)

/-- The characters of a field are those that it allows, and no plus sign is among them. -/
theorem Shape.plus_not_mem (h : Shape pattern texts) (field : Field) :
    '+' ∉ (String.ofList (texts.get field)).toList := by
  intro hmem
  rw [String.toList_ofList] at hmem
  have hallows := h.allowed field _ hmem
  cases field <;> cases hallows

end Pattern

namespace Schedule

open Pattern

variable {pattern : String} {texts : PerField (List Char)} {field : Field} {e : PatternError}

/-- Reads the text of a field of a pattern. -/
def readField (field : Field) (text : String) : Except PatternError ValueSet :=
  (field.read text).mapError (.badField field text)

theorem exists_readField_eq_ok_iff (h : Shape pattern texts) (field : Field) :
    (∃ set, readField field (String.ofList (texts.get field)) = .ok set) ↔
      field.IsField (texts.get field) := by
  have hread := @Field.exists_read_eq_ok_iff field _ (h.plus_not_mem field)
  rw [String.toList_ofList] at hread
  rw [← hread, readField]
  cases field.read (String.ofList (texts.get field)) with
  | error fault => exact ⟨nofun, nofun⟩
  | ok set => exact ⟨fun _ => ⟨set, rfl⟩, fun _ => ⟨set, rfl⟩⟩

theorem readField_eq_error_iff (h : Shape pattern texts) (field : Field) :
    readField field (String.ofList (texts.get field)) = .error e ↔
      ∃ fault, field.BadField (texts.get field) fault ∧
        e = .badField field (String.ofList (texts.get field)) fault := by
  have hread := fun fault => @Field.read_eq_error_iff field fault _ (h.plus_not_mem field)
  simp only [String.toList_ofList] at hread
  simp only [← hread, readField]
  cases field.read (String.ofList (texts.get field)) with
  | error fault =>
    constructor
    · rintro ⟨⟩
      exact ⟨fault, rfl, rfl⟩
    · rintro ⟨_, ⟨⟩, rfl⟩
      rfl
  | ok set => exact ⟨nofun, fun ⟨_, h, _⟩ => nomatch h⟩

/-- A text of the right shape is compiled field by field. -/
theorem compile_of_shape (h : Shape pattern texts) :
    compile pattern =
      (do let allowed ← (PerField.ofFun fun field => String.ofList (texts.get field)).traverse readField
          return { text := String.ofList (Text.trim pattern.toList), allowed }) := by
  rw [compile, fields, fields?_eq_some_iff.mpr ⟨texts, h, rfl⟩]
  rfl

/-- A text of another shape is refused as a whole. -/
theorem compile_of_not_shape (h : ∀ texts, ¬ Shape pattern texts) :
    compile pattern = .error (.badShape pattern) := by
  rw [compile, fields, fields?_eq_none_iff.mpr h]
  rfl

theorem exists_compile_eq_ok_iff (h : Shape pattern texts) :
    (∃ s, compile pattern = .ok s) ↔ ∀ field : Field, field.IsField (texts.get field) := by
  have hfields := @PerField.exists_traverse_eq_ok_iff _ _ _ readField
    (PerField.ofFun fun field => String.ofList (texts.get field))
  simp only [PerField.get_ofFun, exists_readField_eq_ok_iff h] at hfields
  rw [← hfields, compile_of_shape h]
  simp only [bind_eq_ok_iff]
  constructor
  · rintro ⟨_, allowed, hallowed, -⟩
    exact ⟨allowed, hallowed⟩
  · rintro ⟨allowed, hallowed⟩
    exact ⟨_, allowed, hallowed, rfl⟩

theorem compile_eq_error_iff (h : Shape pattern texts) : compile pattern = .error e ↔
    ∃ before field behind, Field.all = before ++ field :: behind ∧
      (∀ other ∈ before, other.IsField (texts.get other)) ∧
      ∃ fault, field.BadField (texts.get field) fault ∧
        e = .badField field (String.ofList (texts.get field)) fault := by
  rw [compile_of_shape h, bind_eq_error_iff, PerField.traverse_eq_error_iff]
  simp only [PerField.get_ofFun, exists_readField_eq_ok_iff h, readField_eq_error_iff h]
  constructor
  · rintro (hfield | ⟨_, -, hok⟩)
    · exact hfield
    · cases hok
  · exact .inl

/-- **The language of patterns.** Compiling succeeds for exactly the texts that are patterns, and
refuses each other text for its first fault. -/
theorem compile_spec (pattern : String) :
    ((∃ s, compile pattern = .ok s) ↔ IsPattern pattern) ∧
      ∀ e, compile pattern = .error e ↔ FirstFault pattern e := by
  by_cases hshape : ∃ texts, Shape pattern texts
  · obtain ⟨texts, hshape⟩ := hshape
    rw [exists_compile_eq_ok_iff hshape]
    constructor
    · constructor
      · exact fun hfields => ⟨texts, hshape, hfields⟩
      · rintro ⟨others, hothers, hfields⟩
        rwa [← hothers.unique hshape]
    · intro e
      rw [compile_eq_error_iff hshape]
      constructor
      · rintro ⟨before, field, behind, horder, hbefore, fault, hbad, rfl⟩
        exact .field hshape horder hbefore hbad
      · intro h
        cases h with
        | shape hnone => exact absurd hshape (hnone texts)
        | field hothers horder hbefore hbad =>
          obtain rfl := hothers.unique hshape
          exact ⟨_, _, _, horder, hbefore, _, hbad, rfl⟩
  · have hnone : ∀ texts, ¬ Shape pattern texts := fun texts h => hshape ⟨texts, h⟩
    rw [compile_of_not_shape hnone]
    constructor
    · exact ⟨nofun, fun ⟨texts, h, _⟩ => absurd h (hnone texts)⟩
    · intro e
      constructor
      · rintro ⟨⟩
        exact .shape hnone
      · intro h
        cases h with
        | shape => rfl
        | field hothers => exact absurd hothers (hnone _)

end Schedule

end Cron
