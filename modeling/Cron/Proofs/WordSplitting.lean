import Cron.Text.Blank

/-!
# Words and the blanks between them

`words` takes a text apart by looking at each character once. This file says the same from the other
side: a text without blanks at its ends is its words with blanks in between (`Text.Spaced`), in
exactly one way.

Headline: `spaced_trim_iff`.
-/

namespace Cron.Text

variable {s t w gap before behind : List Char} {ws : List (List Char)} {c : Char}

/-- Characters that are not blank, at least one. -/
structure IsWord (w : List Char) : Prop where
  ne_nil : w ≠ []
  not_blank : ∀ c ∈ w, isBlank c = false

/-- A text of some words with blanks between them, and none at its ends. -/
inductive Spaced : List (List Char) → List Char → Prop
  | word {w : List Char} (hw : IsWord w) : Spaced [w] w
  | cons {w gap t : List Char} {ws : List (List Char)} (hw : IsWord w) (hne : gap ≠ [])
      (hgap : ∀ c ∈ gap, isBlank c = true) (ht : Spaced ws t) : Spaced (w :: ws) (w ++ gap ++ t)

/-! ## The words of a text -/

theorem words_of_isWord (h : IsWord w) : words w = [w] := by
  rw [words, List.splitOnP_eq_singleton h.not_blank]
  simp [h.ne_nil]

/-- A blank ends a word. -/
theorem words_append_blank (h : isBlank c = true) (s t : List Char) :
    words (s ++ c :: t) = words s ++ words t := by
  rw [words, List.splitOnP_append_cons s t h, List.filter_append]
  rfl

/-- Blanks at the front add no word. -/
theorem words_blank_append (h : ∀ c ∈ gap, isBlank c = true) (s : List Char) :
    words (gap ++ s) = words s := by
  induction gap with
  | nil => rfl
  | cons c rest ih =>
    rw [List.cons_append, words_cons_blank (h c List.mem_cons_self)]
    exact ih fun d hd => h d (List.mem_cons_of_mem c hd)

theorem words_of_blank (h : ∀ c ∈ gap, isBlank c = true) : words gap = [] := by
  rw [← List.append_nil gap, words_blank_append h, words_nil]

/-- Blanks at the end add no word. -/
theorem words_append_blanks (h : ∀ c ∈ gap, isBlank c = true) (s : List Char) :
    words (s ++ gap) = words s := by
  cases gap with
  | nil => rw [List.append_nil]
  | cons c rest =>
    rw [words_append_blank (h c List.mem_cons_self),
      words_of_blank fun d hd => h d (List.mem_cons_of_mem c hd), List.append_nil]

/-- The words between the blanks are the words of the text. -/
theorem Spaced.words_eq (h : Spaced ws t) : words t = ws := by
  induction h with
  | word hw => exact words_of_isWord hw
  | @cons w gap t ws hw hne hgap ht ih =>
    cases gap with
    | nil => exact absurd rfl hne
    | cons c rest =>
      rw [List.append_assoc, List.cons_append, words_append_blank (hgap c List.mem_cons_self),
        words_of_isWord hw, words_blank_append fun d hd => hgap d (List.mem_cons_of_mem c hd), ih]
      rfl

/-! ## Taking a text apart -/

/-- A character that is not blank joins the word behind it, if it touches it. -/
theorem Spaced.cons_char (h : Spaced ws t) (hc : isBlank c = false) : ∃ us, Spaced us (c :: t) := by
  have hword : ∀ {w : List Char}, IsWord w → IsWord (c :: w) := fun hw =>
    ⟨List.cons_ne_nil c _, List.forall_mem_cons.mpr ⟨hc, hw.not_blank⟩⟩
  cases h with
  | word hw => exact ⟨_, .word (hword hw)⟩
  | cons hw hne hgap ht => exact ⟨_, .cons (hword hw) hne hgap ht⟩

/-- A text is blank, or has words with blanks between them and around them. -/
theorem blank_or_exists_spaced (s : List Char) :
    (∀ c ∈ s, isBlank c = true) ∨
      ∃ ws before t behind, s = before ++ t ++ behind ∧ Spaced ws t ∧
        (∀ c ∈ before, isBlank c = true) ∧ ∀ c ∈ behind, isBlank c = true := by
  induction s with
  | nil => exact .inl nofun
  | cons c rest ih =>
    cases hc : isBlank c with
    | true =>
      rcases ih with hrest | ⟨ws, before, t, behind, rfl, ht, hbefore, hbehind⟩
      · exact .inl (List.forall_mem_cons.mpr ⟨hc, hrest⟩)
      · exact .inr ⟨ws, c :: before, t, behind, rfl, ht,
          List.forall_mem_cons.mpr ⟨hc, hbefore⟩, hbehind⟩
    | false =>
      have hword : IsWord [c] := ⟨List.cons_ne_nil c [], by simpa using hc⟩
      rcases ih with hrest | ⟨ws, before, t, behind, rfl, ht, hbefore, hbehind⟩
      · exact .inr ⟨[[c]], [], [c], rest, rfl, .word hword, nofun, hrest⟩
      · cases before with
        | nil =>
          obtain ⟨us, hus⟩ := ht.cons_char hc
          exact .inr ⟨us, [], c :: t, behind, rfl, hus, nofun, hbehind⟩
        | cons b bs =>
          refine .inr ⟨[c] :: ws, [], [c] ++ b :: bs ++ t, behind, by simp,
            .cons hword (List.cons_ne_nil b bs) hbefore ht, nofun, hbehind⟩

/-! ## Blanks at the ends -/

theorem Spaced.exists_first (h : Spaced ws t) : ∃ c r, t = c :: r ∧ isBlank c = false := by
  have hword : ∀ {w : List Char}, IsWord w → ∃ c r, w = c :: r ∧ isBlank c = false := fun {w} hw => by
    obtain ⟨c, r, rfl⟩ := List.exists_cons_of_ne_nil hw.ne_nil
    exact ⟨c, r, rfl, hw.not_blank c List.mem_cons_self⟩
  cases h with
  | word hw => exact hword hw
  | cons hw =>
    obtain ⟨c, r, rfl, hc⟩ := hword hw
    exact ⟨c, _, rfl, hc⟩

theorem Spaced.exists_last (h : Spaced ws t) : ∃ r c, t = r ++ [c] ∧ isBlank c = false := by
  induction h with
  | @word w hw =>
    refine ⟨w.dropLast, w.getLast hw.ne_nil, (List.dropLast_concat_getLast hw.ne_nil).symm, ?_⟩
    exact hw.not_blank _ (List.getLast_mem hw.ne_nil)
  | @cons w gap t ws hw hne hgap ht ih =>
    obtain ⟨r, c, rfl, hc⟩ := ih
    exact ⟨w ++ gap ++ r, c, (List.append_assoc _ r [c]).symm, hc⟩

theorem dropWhile_blank_append (h : ∀ c ∈ gap, isBlank c = true) (hc : isBlank c = false) :
    (gap ++ c :: s).dropWhile isBlank = c :: s := by
  rw [List.dropWhile_append_of_pos h, List.dropWhile_cons_of_neg (by rw [hc]; exact Bool.false_ne_true)]

/-- Trimming takes away the blanks around the words and nothing else. -/
theorem Spaced.trim_eq (h : Spaced ws t) (hbefore : ∀ c ∈ before, isBlank c = true)
    (hbehind : ∀ c ∈ behind, isBlank c = true) : trim (before ++ t ++ behind) = t := by
  have hleft : trimLeft (before ++ t ++ behind) = t ++ behind := by
    obtain ⟨c, r, rfl, hc⟩ := h.exists_first
    rw [trimLeft, List.append_assoc, List.cons_append, dropWhile_blank_append hbefore hc]
  obtain ⟨r, c, rfl, hc⟩ := h.exists_last
  have hreverse : ((r ++ [c]) ++ behind).reverse = behind.reverse ++ c :: r.reverse := by simp
  rw [trim, hleft, trimRight, hreverse, dropWhile_blank_append (by simpa using hbehind) hc,
    List.reverse_cons, List.reverse_reverse]

theorem trim_of_blank (h : ∀ c ∈ s, isBlank c = true) : trim s = [] := by
  have hleft : trimLeft (s ++ []) = [] := List.dropWhile_append_of_pos h
  rw [List.append_nil] at hleft
  rw [trim, hleft]
  rfl

/-- A trimmed text is its words with blanks between them, if it has any. -/
theorem spaced_trim_iff : Spaced ws (trim s) ↔ words s = ws ∧ ws ≠ [] := by
  rcases blank_or_exists_spaced s with hs | ⟨us, before, t, behind, rfl, ht, hbefore, hbehind⟩
  · rw [trim_of_blank hs, words_of_blank hs]
    constructor
    · intro h
      obtain ⟨c, r, hnil, -⟩ := h.exists_first
      cases hnil
    · rintro ⟨rfl, hne⟩
      exact absurd rfl hne
  · rw [ht.trim_eq hbefore hbehind, words_append_blanks hbehind, words_blank_append hbefore,
      ht.words_eq]
    constructor
    · intro h
      refine ⟨ht.words_eq.symm.trans h.words_eq, ?_⟩
      rintro rfl
      cases h
    · rintro ⟨rfl, -⟩
      exact ht

end Cron.Text
