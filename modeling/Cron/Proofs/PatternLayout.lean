import Cron.Proofs.PatternGrammar

/-!
# The layout of a pattern

A text that has words is laid out in one way only: blanks, a word, then other words with blanks in
front of each, and blanks at the end (`Text.Layout`). A pattern is taken apart if its layout has six
words of the right characters, and these are its fields. Its blanks do not count otherwise, so it
can be laid out anew without becoming another one.

Headlines:
* `Text.Layout.eq_of_text`, `Text.exists_layout`: a text with words has one layout;
* `fields_layout`: what becomes of a pattern, and of the same words laid out in another way.
-/

namespace Cron

namespace Text

variable {s t w gap behind behind' : List Char} {ws : List (List Char)} {c : Char}
  {others others' : List (List Char × List Char)}

/-- Blanks, at least one. -/
structure IsGap (gap : List Char) : Prop where
  ne_nil : gap ≠ []
  blank : ∀ c ∈ gap, isBlank c = true

/-- The words of a text and the blanks around them. -/
@[ext] structure Layout where
  before : List Char
  first : List Char
  /-- The other words, each with the blanks in front of it. -/
  others : List (List Char × List Char)
  behind : List Char
  before_blank : ∀ c ∈ before, isBlank c = true
  isWord_first : IsWord first
  isGap_others : ∀ p ∈ others, IsGap p.1 ∧ IsWord p.2
  behind_blank : ∀ c ∈ behind, isBlank c = true

/-- Words with the blanks in front of each, and what stands behind them. -/
def spread (others : List (List Char × List Char)) (behind : List Char) : List Char :=
  others.flatMap (fun p => p.1 ++ p.2) ++ behind

namespace Layout

/-- The whole text. -/
def text (l : Layout) : List Char := l.before ++ (l.first ++ spread l.others l.behind)

/-- The words in their order. -/
def words (l : Layout) : List (List Char) := l.first :: l.others.map Prod.snd

end Layout

theorem spread_cons (p : List Char × List Char) (others : List (List Char × List Char))
    (behind : List Char) : spread (p :: others) behind = p.1 ++ (p.2 ++ spread others behind) := by
  rw [spread, List.flatMap_cons, List.append_assoc, List.append_assoc]
  rfl

/-! ## One layout at most -/

/-- Characters of a kind end where one of another kind follows. -/
theorem takeWhile_append_of_head {p : Char → Bool} (hs : ∀ c ∈ s, p c = true)
    (ht : ∀ c ∈ t.head?, p c = false) : (s ++ t).takeWhile p = s := by
  have hnone : t.takeWhile p = [] := by
    cases t with
    | nil => rfl
    | cons c r => exact List.takeWhile_cons_of_neg (by rw [ht c rfl]; exact Bool.false_ne_true)
  rw [List.takeWhile_append_of_pos hs, hnone, List.append_nil]

theorem append_inj_of_head {p : Char → Bool} {s' t' : List Char} (hs : ∀ c ∈ s, p c = true)
    (hs' : ∀ c ∈ s', p c = true) (ht : ∀ c ∈ t.head?, p c = false)
    (ht' : ∀ c ∈ t'.head?, p c = false) (h : s ++ t = s' ++ t') : s = s' ∧ t = t' := by
  have htake := congrArg (List.takeWhile p) h
  rw [takeWhile_append_of_head hs ht, takeWhile_append_of_head hs' ht'] at htake
  subst htake
  exact ⟨rfl, List.append_cancel_left h⟩

theorem IsWord.head?_append (h : IsWord w) (s : List Char) :
    ∀ c ∈ (w ++ s).head?, isBlank c = false := by
  obtain ⟨d, r, rfl⟩ := List.exists_cons_of_ne_nil h.ne_nil
  rintro c ⟨⟩
  exact h.not_blank d List.mem_cons_self

theorem head?_spread (hothers : ∀ p ∈ others, IsGap p.1 ∧ IsWord p.2)
    (hbehind : ∀ c ∈ behind, isBlank c = true) :
    ∀ c ∈ (spread others behind).head?, isBlank c = true := by
  cases others with
  | nil => exact fun c hc => hbehind c (List.mem_of_head? hc)
  | cons p more =>
    obtain ⟨hgap, -⟩ := (List.forall_mem_cons.mp hothers).1
    obtain ⟨d, r, hp⟩ := List.exists_cons_of_ne_nil hgap.ne_nil
    rw [spread_cons, hp]
    rintro c ⟨⟩
    exact hgap.blank d (hp ▸ List.mem_cons_self)

/-- A word ends where blanks follow. -/
theorem word_append_inj {w' : List Char} (hw : IsWord w) (hw' : IsWord w')
    (hs : ∀ c ∈ s.head?, isBlank c = true) (ht : ∀ c ∈ t.head?, isBlank c = true)
    (h : w ++ s = w' ++ t) : w = w' ∧ s = t :=
  append_inj_of_head (p := fun c => !isBlank c)
    (fun c hc => by rw [hw.not_blank c hc]; rfl) (fun c hc => by rw [hw'.not_blank c hc]; rfl)
    (fun c hc => by rw [hs c hc]; rfl) (fun c hc => by rw [ht c hc]; rfl) h

/-- Blanks alone hold no word. -/
theorem spread_cons_ne_blank {p : List Char × List Char} (hp : IsWord p.2)
    (hbehind : ∀ c ∈ behind, isBlank c = true) : behind ≠ spread (p :: others) behind' := by
  rintro rfl
  obtain ⟨d, hd⟩ := List.exists_mem_of_ne_nil _ hp.ne_nil
  rw [spread_cons] at hbehind
  have hblank := hbehind d (List.mem_append_right _ (List.mem_append_left _ hd))
  rw [hp.not_blank d hd] at hblank
  cases hblank

theorem spread_inj (hothers : ∀ p ∈ others, IsGap p.1 ∧ IsWord p.2)
    (hothers' : ∀ p ∈ others', IsGap p.1 ∧ IsWord p.2) (hbehind : ∀ c ∈ behind, isBlank c = true)
    (hbehind' : ∀ c ∈ behind', isBlank c = true) (h : spread others behind = spread others' behind') :
    others = others' ∧ behind = behind' := by
  induction others generalizing others' with
  | nil =>
    cases others' with
    | nil => exact ⟨rfl, h⟩
    | cons p more =>
      exact absurd h (spread_cons_ne_blank (List.forall_mem_cons.mp hothers').1.2 hbehind)
  | cons p more ih =>
    cases others' with
    | nil => exact absurd h.symm (spread_cons_ne_blank (List.forall_mem_cons.mp hothers).1.2 hbehind')
    | cons p' more' =>
      obtain ⟨⟨hgap, hword⟩, hmore⟩ := List.forall_mem_cons.mp hothers
      obtain ⟨⟨hgap', hword'⟩, hmore'⟩ := List.forall_mem_cons.mp hothers'
      rw [spread_cons, spread_cons] at h
      obtain ⟨hgaps, hrest⟩ := append_inj_of_head hgap.blank hgap'.blank (hword.head?_append _)
        (hword'.head?_append _) h
      obtain ⟨hwords, hrest⟩ := word_append_inj hword hword' (head?_spread hmore hbehind)
        (head?_spread hmore' hbehind') hrest
      obtain ⟨rfl, rfl⟩ := ih hmore hmore' hrest
      exact ⟨congrArg (· :: more) (Prod.ext hgaps hwords), rfl⟩

/-- A text has one layout at most. -/
theorem Layout.eq_of_text {l l' : Layout} (h : l.text = l'.text) : l = l' := by
  obtain ⟨hbefore, hrest⟩ := append_inj_of_head l.before_blank l'.before_blank
    (l.isWord_first.head?_append _) (l'.isWord_first.head?_append _) h
  obtain ⟨hfirst, hrest⟩ := word_append_inj l.isWord_first l'.isWord_first
    (head?_spread l.isGap_others l.behind_blank) (head?_spread l'.isGap_others l'.behind_blank) hrest
  obtain ⟨hothers, hbehind⟩ := spread_inj l.isGap_others l'.isGap_others l.behind_blank l'.behind_blank
    hrest
  exact Layout.ext hbefore hfirst hothers hbehind

/-! ## The layout of a text with words -/

theorem spread_eq_append (others : List (List Char × List Char)) (behind : List Char) :
    spread others behind = spread others [] ++ behind := by
  rw [spread, spread, List.append_nil]

theorem spaced_spread (hw : IsWord w) (hothers : ∀ p ∈ others, IsGap p.1 ∧ IsWord p.2) :
    Spaced (w :: others.map Prod.snd) (w ++ spread others []) := by
  induction others generalizing w with
  | nil =>
    rw [spread, List.flatMap_nil, List.append_nil, List.append_nil]
    exact .word hw
  | cons p more ih =>
    obtain ⟨⟨hgap, hword⟩, hmore⟩ := List.forall_mem_cons.mp hothers
    rw [spread_cons, ← List.append_assoc]
    exact .cons hw hgap.ne_nil hgap.blank (ih hword hmore)

/-- The words of a layout are the words of the text. -/
theorem Layout.words_text (l : Layout) : Text.words l.text = l.words := by
  rw [text, spread_eq_append, ← List.append_assoc l.first, words_blank_append l.before_blank,
    words_append_blanks l.behind_blank]
  exact (spaced_spread l.isWord_first l.isGap_others).words_eq

theorem Spaced.exists_spread (h : Spaced ws t) :
    ∃ first others, IsWord first ∧ (∀ p ∈ others, IsGap p.1 ∧ IsWord p.2) ∧
      t = first ++ spread others [] := by
  induction h with
  | @word w hw => exact ⟨w, [], hw, nofun, (List.append_nil w).symm⟩
  | @cons w gap t ws hw hne hgap ht ih =>
    obtain ⟨first, others, hfirst, hothers, rfl⟩ := ih
    refine ⟨w, (gap, first) :: others, hw, List.forall_mem_cons.mpr ⟨⟨⟨hne, hgap⟩, hfirst⟩, hothers⟩, ?_⟩
    rw [spread_cons, List.append_assoc]

/-- A text that has words is laid out in some way. -/
theorem exists_layout (h : Text.words s ≠ []) : ∃ l : Layout, l.text = s := by
  rcases blank_or_exists_spaced s with hs | ⟨ws, before, t, behind, rfl, ht, hbefore, hbehind⟩
  · exact absurd (words_of_blank hs) h
  · obtain ⟨first, others, hfirst, hothers, rfl⟩ := ht.exists_spread
    refine ⟨⟨before, first, others, behind, hbefore, hfirst, hothers, hbehind⟩, ?_⟩
    simp only [Layout.text, spread_eq_append others behind, List.append_assoc]

end Text

/-! ## Patterns -/

namespace Field

/-- The characters that may stand in any field. -/
def signs : List Char :=
  ['-', '/', '0', '1', '2', '3', '4', '5', '6', '7', '8', '9', '*', '?', ',']

/-- The letters without accents. -/
def letters : List Char :=
  ['A', 'B', 'C', 'D', 'E', 'F', 'G', 'H', 'I', 'J', 'K', 'L', 'M', 'N', 'O', 'P', 'Q', 'R',
    'S', 'T', 'U', 'V', 'W', 'X', 'Y', 'Z', 'a', 'b', 'c', 'd', 'e', 'f', 'g', 'h', 'i', 'j',
    'k', 'l', 'm', 'n', 'o', 'p', 'q', 'r', 's', 't', 'u', 'v', 'w', 'x', 'y', 'z']

/-- The characters that may stand in a field. -/
def alphabet : Field → List Char
  | month | dayOfWeek => signs ++ letters
  | _ => signs

/-- A test for the characters of a list need only be tried out up to the small z, if both end there. -/
theorem test_iff_mem {test : Char → Bool} {l : List Char} {c : Char}
    (htest : test c = true → c.toNat < 123) (hl : (l.all fun c => c.toNat < 123) = true)
    (htable : ∀ n < 123, test (Char.ofNat n) = true ↔ Char.ofNat n ∈ l) :
    test c = true ↔ c ∈ l := by
  have hc := htable c.toNat
  rw [Char.ofNat_toNat] at hc
  refine ⟨fun h => (hc (htest h)).mp h, fun h => (hc ?_).mpr h⟩
  exact of_decide_eq_true (List.all_eq_true.mp hl c h)

theorem isSign_iff_mem_signs {c : Char} : isSign c = true ↔ c ∈ signs := by
  refine test_iff_mem (fun h => ?_) (by decide) (by decide +kernel)
  have hallows : second.allows c = true := h
  exact Nat.lt_succ_of_le (Pattern.bounds_of_allows hallows).2

theorem isAlpha_iff_mem_letters {c : Char} : c.isAlpha = true ↔ c ∈ letters := by
  refine test_iff_mem (fun h => ?_) (by decide) (by decide +kernel)
  have hallows : month.allows c = true := Bool.or_eq_true_iff.mpr (.inr h)
  exact Nat.lt_succ_of_le (Pattern.bounds_of_allows hallows).2

theorem allows_iff_mem_alphabet {field : Field} {c : Char} :
    field.allows c = true ↔ c ∈ field.alphabet := by
  have hboth : (isSign c || c.isAlpha) = true ↔ c ∈ signs ++ letters := by
    rw [Bool.or_eq_true, List.mem_append, isSign_iff_mem_signs, isAlpha_iff_mem_letters]
  cases field with
  | month | dayOfWeek => exact hboth
  | _ => exact isSign_iff_mem_signs

end Field

namespace Pattern

variable {pattern : String} {texts : PerField (List Char)} {result : PerField String}

theorem shape_iff_exists_layout : Shape pattern texts ↔
    ∃ l : Text.Layout, l.text = pattern.toList ∧ l.words = texts.toList ∧
      ∀ field, ∀ c ∈ texts.get field, field.allows c = true := by
  constructor
  · intro h
    obtain ⟨hwords, hne⟩ := Text.spaced_trim_iff.mp h.spaced
    obtain ⟨l, hl⟩ := Text.exists_layout (hwords.symm ▸ hne)
    exact ⟨l, hl, by rw [← l.words_text, hl, hwords], h.allowed⟩
  · rintro ⟨l, hl, hwords, hallowed⟩
    refine ⟨Text.spaced_trim_iff.mpr ⟨?_, List.cons_ne_nil _ _⟩, hallowed⟩
    rw [← hl, l.words_text, hwords]

theorem fields_eq_ok_iff : fields pattern = .ok result ↔
    Shape pattern (PerField.ofFun fun field => (result.get field).toList) := by
  have hsame : fields pattern = .ok result ↔ fields? pattern = some result := by
    unfold fields
    cases fields? pattern with
    | none => exact ⟨nofun, nofun⟩
    | some texts => exact ⟨fun h => congrArg some (Except.ok.inj h), fun h => congrArg _ (Option.some.inj h)⟩
  rw [hsame, fields?_eq_some_iff]
  constructor
  · rintro ⟨texts, hshape, rfl⟩
    have htexts : (PerField.ofFun fun field => (((PerField.ofFun fun field =>
        String.ofList (texts.get field)).get field).toList)) = texts :=
      PerField.ext_get fun field => by
        rw [PerField.get_ofFun, PerField.get_ofFun, String.toList_ofList]
    rwa [htexts]
  · intro hshape
    refine ⟨_, hshape, PerField.ext_get fun field => ?_⟩
    rw [PerField.get_ofFun, PerField.get_ofFun, String.ofList_toList]

/-- A pattern is taken apart into the words of its layout, if they are six of the right characters. -/
theorem fields_eq_ok_iff_layout : fields pattern = .ok result ↔
    ∃ l : Text.Layout, l.text = pattern.toList ∧ l.words = result.toList.map String.toList ∧
      ∀ field, ∀ c ∈ (result.get field).toList, c ∈ field.alphabet := by
  rw [fields_eq_ok_iff, shape_iff_exists_layout]
  simp only [PerField.get_ofFun, Field.allows_iff_mem_alphabet]
  rfl

/-- **How a pattern is taken apart.** It is if it can be laid out as six words of the right characters
with blanks between them, and then its fields are these words, which are what its blanks leave of it.
There is no other layout, and to lay out the same words with other blanks makes no difference. -/
theorem fields_layout (pattern : String) :
    (∀ result, fields pattern = .ok result ↔
      ∃ l : Text.Layout, l.text = pattern.toList ∧ l.words = result.toList.map String.toList ∧
        ∀ field, ∀ c ∈ (result.get field).toList, c ∈ field.alphabet) ∧
    (∀ result, fields pattern = .ok result →
      result.toList.map String.toList = Text.words pattern.toList) ∧
    ∀ l : Text.Layout, l.text = pattern.toList →
      (∀ l' : Text.Layout, l'.text = pattern.toList → l' = l) ∧
      ∀ l' : Text.Layout, l'.words = l.words →
        ∀ result, fields (String.ofList l'.text) = .ok result ↔ fields pattern = .ok result := by
  refine ⟨fun result => fields_eq_ok_iff_layout, fun result h => ?_, fun l hl =>
    ⟨fun l' hl' => Text.Layout.eq_of_text (hl'.trans hl.symm), fun l' hwords result => ?_⟩⟩
  · obtain ⟨l, hl, hwords, -⟩ := fields_eq_ok_iff_layout.mp h
    rw [← hwords, ← hl, l.words_text]
  · rw [fields_eq_ok_iff_layout, fields_eq_ok_iff_layout, String.toList_ofList]
    constructor
    · rintro ⟨k, hk, hresult, halphabet⟩
      obtain rfl := Text.Layout.eq_of_text hk
      exact ⟨l, hl, hwords ▸ hresult, halphabet⟩
    · rintro ⟨k, hk, hresult, halphabet⟩
      obtain rfl := Text.Layout.eq_of_text (hk.trans hl.symm)
      exact ⟨l', rfl, hwords ▸ hresult, halphabet⟩

/-- Wide and narrow blanks do as well as spaces. -/
theorem fields_layout_wide :
    let spaced := "  0\t0   0 1 * ?  "
    let wide := "0\u30000\u2009\u20090\u00a01\u2028* ?\n"
    let result : PerField String := ⟨"0", "0", "0", "1", "*", "?"⟩
    ∃ l l' : Text.Layout, l.text = spaced.toList ∧ l'.text = wide.toList ∧ l'.words = l.words ∧
      fields spaced = .ok result ∧ fields wide = .ok result := by
  intro spaced wide result
  obtain ⟨l, hl⟩ := Text.exists_layout (s := spaced.toList) (by decide +kernel)
  obtain ⟨l', hl'⟩ := Text.exists_layout (s := wide.toList) (by decide +kernel)
  have hresult : l.words = result.toList.map String.toList := by
    rw [← l.words_text, hl]
    decide +kernel
  have hwords : l'.words = l.words := by
    rw [hresult, ← l'.words_text, hl']
    decide +kernel
  obtain ⟨hfields, -, hlayouts⟩ := fields_layout spaced
  have hallows : ∀ field, ((result.get field).toList.all field.allows) = true := fun field => by
    cases field <;> decide +kernel
  have halphabet : ∀ field, ∀ c ∈ (result.get field).toList, c ∈ field.alphabet := fun field c hc =>
    Field.allows_iff_mem_alphabet.mp (List.all_eq_true.mp (hallows field) c hc)
  have hspaced := (hfields result).mpr ⟨l, hl, hresult, halphabet⟩
  have hwide := ((hlayouts l hl).2 l' hwords result).mpr hspaced
  rw [hl', String.ofList_toList] at hwide
  exact ⟨l, l', hl, hl', hwords, hspaced, hwide⟩

/-- Neither a space without width nor a separator of units is blank, and only ASCII letters and digits
are letters and digits. -/
example : Text.isBlank '\u200b' = false ∧ Text.isBlank '\x1c' = false ∧
    Field.month.allows '\u017f' = false ∧ Field.month.allows '\u0661' = false := by decide

end Pattern

end Cron
