import Cron.Proofs.WordSplitting
import Cron.Settings.Environment

/-!
# The names of variables

The name of a variable is taken without the blanks at its ends and in small letters (`plainName`),
and every two underscores in a row become a point. A key with neither a point nor two underscores in
a row stands in a name as it is, so a name that consists of `chime_scheduler__` and such a key
stands for the path of that key and for no other (`path?_of_names`).

Headline: `path?_of_names`.
-/

namespace Cron

namespace Text

variable {s : List Char} {c d : Char} {r t : List Char}

/-- A text whose first and last characters are not blank has nothing to be cut off. -/
theorem trim_eq_self (hfirst : s = c :: r) (hlast : s = t ++ [d]) (hc : isBlank c = false)
    (hd : isBlank d = false) : trim s = s := by
  have hleft : trimLeft s = s := by
    rw [hfirst, trimLeft, List.dropWhile_cons_of_neg (by simp [hc])]
  rw [trim, hleft, hlast, trimRight, List.reverse_append, List.reverse_singleton,
    List.singleton_append, List.dropWhile_cons_of_neg (by simp [hd]), List.reverse_cons,
    List.reverse_reverse]

/-- The last character of a trimmed text is not blank. -/
theorem not_blank_of_trim (h : trim s = t ++ [d]) : isBlank d = false := by
  rcases blank_or_exists_spaced s with hs | ⟨ws, before, u, behind, rfl, hu, hbefore, hbehind⟩
  · rw [trim_of_blank hs] at h
    exact absurd h.symm (by simp)
  · obtain ⟨r, c, rfl, hc⟩ := hu.exists_last
    rw [hu.trim_eq hbefore hbehind] at h
    obtain ⟨-, hcd⟩ := List.append_inj' h rfl
    rwa [List.singleton_inj.mp hcd] at hc

/-- No blank is the small form of another character. -/
theorem not_blank_toLower (h : isBlank c = false) : isBlank c.toLower = false := by
  unfold Char.toLower
  split
  next hc =>
    have hlow : 65 ≤ c.val.toNat := UInt32.le_iff_toNat_le.mp hc.1
    have hhigh : c.val.toNat ≤ 90 := UInt32.le_iff_toNat_le.mp hc.2
    have hsmall : (c.val + ('a'.val - 'A'.val)).toNat = c.val.toNat + 32 := by
      have hshift : ('a'.val - 'A'.val).toNat = 32 := by decide
      rw [UInt32.toNat_add]
      omega
    simp only [isBlank, Char.toNat, hsmall, Bool.or_eq_false_iff, Bool.and_eq_false_iff,
      decide_eq_false_iff_not, beq_eq_false_iff_ne]
    omega
  next => exact h

end Text

namespace Environment

variable {name key : String} {s : List Char}

/-- A name without the blanks at its ends, in small letters. -/
def plainName (name : String) : List Char := (Text.trim name.toList).map Char.toLower

/-- The plain name of the variable for a key of the scheduler. -/
def schedulerName (key : String) : List Char := "chime_scheduler__".toList ++ key.toList

/-- A key that stands in a name as it is: nothing in it counts as a point. -/
structure IsKey (key : String) : Prop where
  ne_nil : key.toList ≠ []
  undotted : '.' ∉ key.toList
  undivided : ¬ ['_', '_'] <:+: key.toList

/-- A variable's name stands for a key of the scheduler. -/
structure Names (name key : String) : Prop extends IsKey key where
  plain : plainName name = schedulerName key

theorem schedulerName_inj {key' : String} (h : schedulerName key = schedulerName key') : key = key' :=
  String.toList_inj.mp (List.append_cancel_left h)

/-- Where no two underscores stand in a row, no point is made. -/
theorem pointed_eq_self (h : ¬ ['_', '_'] <:+: s) : pointed s = s := by
  fun_induction pointed s with
  | case1 rest ih => exact absurd (List.IsPrefix.isInfix ⟨rest, rfl⟩) h
  | case2 c rest hc ih =>
    rw [ih fun hrest => h (hrest.trans (List.suffix_cons c rest).isInfix)]
  | case3 => rfl

/-- The last character of a key in a name is not blank. -/
theorem Names.not_blank {t : List Char} {d : Char} (h : Names name key) (ht : key.toList = t ++ [d]) :
    Text.isBlank d = false := by
  have hplain : (Text.trim name.toList).map Char.toLower = ("chime_scheduler__".toList ++ t) ++ [d] := by
    rw [List.append_assoc, ← ht]
    exact h.plain
  obtain ⟨before, last, htrim, -, hlast⟩ := List.map_eq_append_iff.mp hplain
  obtain ⟨c, rfl, rfl⟩ := List.map_eq_singleton_iff.mp hlast
  exact Text.not_blank_toLower (Text.not_blank_of_trim htrim)

/-- A name stands for the path of its key. -/
theorem path?_of_names (h : Names name key) : path? name = some ["scheduler", key] := by
  have hopening : opening.isPrefixOf (schedulerName key) = true := rfl
  have hpointed : pointed ((schedulerName key).drop opening.length) =
      "scheduler".toList ++ '.' :: key.toList := by
    -- the two underscores in front of the key are taken together, whatever the key begins with
    have hrest : pointed ((schedulerName key).drop opening.length) =
        "scheduler".toList ++ '.' :: pointed key.toList := rfl
    rw [hrest, pointed_eq_self h.undivided]
  have htrim : Text.trim ("scheduler".toList ++ '.' :: key.toList) =
      "scheduler".toList ++ '.' :: key.toList := by
    obtain ⟨t, d, ht⟩ : ∃ t d, key.toList = t ++ [d] :=
      ⟨_, _, (List.dropLast_concat_getLast h.ne_nil).symm⟩
    have hlast : "scheduler".toList ++ '.' :: key.toList =
        ("scheduler".toList ++ '.' :: t) ++ [d] := by
      rw [ht, List.append_assoc, List.cons_append]
    exact Text.trim_eq_self rfl hlast (by decide) (h.not_blank ht)
  have hsplit : ("scheduler".toList ++ '.' :: key.toList).splitOn '.' =
      ["scheduler".toList, key.toList] := by
    rw [List.splitOn_append_cons_self_of_not_mem (by decide), List.splitOn_eq_singleton h.undotted]
  have hfull : [("scheduler".toList), key.toList].any List.isEmpty = false := by
    simp [h.ne_nil]
  have hplain : (Text.trim name.toList).map Char.toLower = schedulerName key := h.plain
  simp only [path?, hplain, hopening, if_true, hpointed, htrim, hsplit, hfull, Bool.false_eq_true, if_false,
    List.map_cons, List.map_nil, String.ofList_toList]

end Environment

end Cron
