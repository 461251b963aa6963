/-!
# Cutting a text

`cut sep` takes a text apart at the first `sep`. It loses nothing but that separator, and the part
in front of it holds none (`cut_eq_some_iff`).

`runs p` lists the ways to take characters of a kind off the front of a text (`mem_runs`), in the
order in which a greedy repetition tries them.
-/

namespace Cron.Text

/-- The texts before and after the first `sep`, or `none` if there is no `sep`. -/
def cut (sep : Char) : List Char → Option (List Char × List Char)
  | [] => none
  | c :: r =>
    if c = sep then some ([], r)
    else (cut sep r).map fun (before, after) => (c :: before, after)

/-- The ways to take characters that pass a test off the front of a text, at least one, with what is
left behind them. The more are taken, the earlier the way is listed. -/
def runs (p : Char → Bool) : List Char → List (List Char × List Char)
  | [] => []
  | c :: r =>
    if p c then ((runs p r).map fun (taken, behind) => (c :: taken, behind)) ++ [([c], r)] else []

theorem cut_eq_none_iff {sep : Char} {s : List Char} : cut sep s = none ↔ sep ∉ s := by
  induction s with
  | nil => simp [cut]
  | cons c r ih =>
    unfold cut
    split
    next h => simp [h]
    next h =>
      simp only [Option.map_eq_none_iff, ih, List.mem_cons, not_or]
      exact ⟨fun hr => ⟨fun e => h e.symm, hr⟩, fun hr => hr.2⟩

/-- A cut loses nothing but the separator, and its first part holds none. -/
theorem cut_eq_some_iff {sep : Char} {s before after : List Char} :
    cut sep s = some (before, after) ↔ s = before ++ sep :: after ∧ sep ∉ before := by
  induction s generalizing before with
  | nil => simp [cut]
  | cons c r ih =>
    unfold cut
    split
    next h =>
      subst h
      cases before with
      | nil => simp
      | cons b bs =>
        simp only [Option.some.injEq, Prod.mk.injEq, List.cons_append, List.cons.injEq,
          List.mem_cons, not_or]
        constructor
        · rintro ⟨h, -⟩
          exact absurd h.symm (List.cons_ne_nil _ _)
        · rintro ⟨⟨rfl, -⟩, h, -⟩
          exact absurd rfl h
    next h =>
      cases before with
      | nil =>
        simp only [Option.map_eq_some_iff, Prod.mk.injEq, List.nil_append, List.cons.injEq]
        constructor
        · rintro ⟨_, _, h, -⟩
          exact absurd h (List.cons_ne_nil _ _)
        · rintro ⟨⟨rfl, -⟩, -⟩
          exact absurd rfl h
      | cons b bs =>
        simp only [Option.map_eq_some_iff, Prod.mk.injEq, List.cons_append, List.cons.injEq,
          List.mem_cons, not_or]
        constructor
        · rintro ⟨⟨x, y⟩, hxy, ⟨rfl, rfl⟩, rfl⟩
          obtain ⟨h1, h2⟩ := ih.mp hxy
          exact ⟨⟨rfl, h1⟩, fun e => h e.symm, h2⟩
        · rintro ⟨⟨rfl, h1⟩, -, h2⟩
          exact ⟨(bs, after), ih.mpr ⟨h1, h2⟩, ⟨rfl, rfl⟩, rfl⟩

theorem mem_runs {p : Char → Bool} {s taken behind : List Char} :
    (taken, behind) ∈ runs p s ↔
      s = taken ++ behind ∧ taken ≠ [] ∧ ∀ c ∈ taken, p c = true := by
  induction s generalizing taken with
  | nil =>
    constructor
    · nofun
    · rintro ⟨hs, hne, -⟩
      exact absurd (List.append_eq_nil_iff.mp hs.symm).1 hne
  | cons c r ih =>
    unfold runs
    by_cases hc : p c = true
    · rw [if_pos hc, List.mem_append, List.mem_map, List.mem_singleton]
      constructor
      · rintro (⟨⟨more, rest⟩, hmore, heq⟩ | heq)
        · cases heq
          obtain ⟨rfl, -, hp⟩ := ih.mp hmore
          exact ⟨rfl, List.cons_ne_nil c more, List.forall_mem_cons.mpr ⟨hc, hp⟩⟩
        · cases heq
          exact ⟨rfl, List.cons_ne_nil c [], List.forall_mem_cons.mpr ⟨hc, nofun⟩⟩
      · rintro ⟨hs, hne, hp⟩
        cases taken with
        | nil => exact absurd rfl hne
        | cons d more =>
          cases hs
          by_cases hmore : more = []
          · exact .inr (by rw [hmore]; rfl)
          · exact .inl ⟨(more, behind), ih.mpr ⟨rfl, hmore, (List.forall_mem_cons.mp hp).2⟩, rfl⟩
    · rw [if_neg hc]
      constructor
      · nofun
      · rintro ⟨hs, hne, hp⟩
        cases taken with
        | nil => exact absurd rfl hne
        | cons d more =>
          cases hs
          exact absurd (hp c List.mem_cons_self) hc

end Cron.Text
