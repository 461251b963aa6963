import Cron.Queue.Basic

/-!
# Fire order

The fire order of a queue is known from two facts: no entry is due after one that follows it, and
entries that are due at the same instant, or that never fire, stand as they were put in. Two lists
that agree in the second respect and are both in order are equal (`eq_of_inOrder`), so whatever is
said about the fire order after an operation comes down to these two facts.

Headlines:
* `withNext_fireOrder`: entries with the same next occurrence stand as they were put in;
* `peek_eq_head`: what comes first is the head of the fire order;
* `fireOrder_of_takeDue`, `fireOrder_erase`, `fireOrder_push`: what taking out, erasing and putting in
  make of it.
-/

namespace Cron

theorem dueLe_refl (a : Option Instant) : dueLe a a = true := by
  cases a with
  | none => rfl
  | some t => exact decide_eq_true (Instant.lt_irrefl t)

theorem dueLe_trans (a b c : Option Instant) (h : dueLe a b = true) (h' : dueLe b c = true) :
    dueLe a c = true := by
  cases a with
  | none =>
    cases b with
    | none => exact h'
    | some u => cases h
  | some t =>
    cases c with
    | none => rfl
    | some v =>
      cases b with
      | none => cases h'
      | some u =>
        simp only [dueLe, decide_eq_true_eq, Instant.le_iff_ticks_le] at h h' ⊢
        exact Int.le_trans h h'

theorem dueLe_total (a b : Option Instant) : (dueLe a b || dueLe b a) = true := by
  cases a with
  | none => cases b <;> rfl
  | some t =>
    cases b with
    | none => rfl
    | some u =>
      simp only [dueLe, Bool.or_eq_true, decide_eq_true_eq, Instant.le_iff_ticks_le]
      exact Int.le_total _ _

theorem dueLe_of_not {a b : Option Instant} (h : (!dueLe a b) = true) : dueLe b a = true := by
  have htotal := dueLe_total b a
  rw [Bool.not_eq_true'] at h
  rwa [h, Bool.or_false] at htotal

theorem dueLe_antisymm {a b : Option Instant} (h : dueLe a b = true) (h' : dueLe b a = true) :
    a = b := by
  cases a with
  | none =>
    cases b with
    | none => rfl
    | some u => cases h
  | some t =>
    cases b with
    | none => cases h'
    | some u => exact congrArg some (Instant.le_antisymm (of_decide_eq_true h) (of_decide_eq_true h'))

namespace Queue

variable {q rest : Queue} {due : Instant} {e : Entry} {l l' : List Entry}

/-- No entry is due after one that follows it. -/
def InOrder (l : List Entry) : Prop := l.Pairwise fun a b => dueLe a.next b.next = true

/-- The entries that have a given next occurrence. -/
def withNext (next : Option Instant) (l : List Entry) : List Entry :=
  l.filter fun e => decide (e.next = next)

theorem mem_withNext_self : e ∈ withNext e.next l ↔ e ∈ l := by
  simp [withNext]

theorem withNext_cons_self (e : Entry) (l : List Entry) :
    withNext e.next (e :: l) = e :: withNext e.next l :=
  List.filter_cons_of_pos (decide_eq_true rfl)

theorem withNext_cons_of_ne {next : Option Instant} (h : e.next ≠ next) :
    withNext next (e :: l) = withNext next l :=
  List.filter_cons_of_neg (by simpa using h)

theorem withNext_append (next : Option Instant) (l l' : List Entry) :
    withNext next (l ++ l') = withNext next l ++ withNext next l' :=
  List.filter_append l l'

theorem withNext_eq_nil {next : Option Instant} (h : ∀ e ∈ l, e.next ≠ next) :
    withNext next l = [] :=
  List.filter_eq_nil_iff.mpr fun e he => by simpa using h e he

/-- Two lists in order are equal if entries with the same next occurrence stand in the same way. -/
theorem eq_of_inOrder (h : InOrder l) (h' : InOrder l')
    (hties : ∀ next, withNext next l = withNext next l') : l = l' := by
  have hmem : ∀ e, e ∈ l ↔ e ∈ l' := fun e => by
    rw [← mem_withNext_self, hties, mem_withNext_self]
  induction l generalizing l' with
  | nil => exact (List.eq_nil_iff_forall_not_mem.mpr fun e he => nomatch (hmem e).mpr he).symm
  | cons a t ih =>
    cases l' with
    | nil => exact nomatch (hmem a).mp List.mem_cons_self
    | cons b t' =>
      obtain ⟨ha, ht⟩ := List.pairwise_cons.mp h
      obtain ⟨hb, ht'⟩ := List.pairwise_cons.mp h'
      -- each head is somewhere in the other list, so neither is due before the other
      have hab : dueLe a.next b.next = true := by
        rcases List.mem_cons.mp ((hmem b).mpr List.mem_cons_self) with rfl | hmem
        · exact dueLe_refl _
        · exact ha b hmem
      have hba : dueLe b.next a.next = true := by
        rcases List.mem_cons.mp ((hmem a).mp List.mem_cons_self) with rfl | hmem
        · exact dueLe_refl _
        · exact hb a hmem
      have hnext : a.next = b.next := dueLe_antisymm hab hba
      have hheads := hties a.next
      rw [withNext_cons_self, hnext, withNext_cons_self] at hheads
      obtain ⟨rfl, htail⟩ := List.cons.inj hheads
      have hrest : ∀ next, withNext next t = withNext next t' := fun next => by
        by_cases hn : a.next = next
        · rw [← hn]
          exact htail
        · rw [← withNext_cons_of_ne hn, hties, withNext_cons_of_ne hn]
      rw [ih ht ht' hrest fun e => by rw [← mem_withNext_self, hrest, mem_withNext_self]]

theorem inOrder_fireOrder (q : Queue) : InOrder q.fireOrder :=
  List.pairwise_mergeSort (fun a b c => dueLe_trans a.next b.next c.next)
    (fun a b => dueLe_total a.next b.next) q.entries

theorem fireOrder_perm (q : Queue) : q.fireOrder.Perm q.entries := List.mergeSort_perm _ _

/-- Entries with the same next occurrence stand as they were put in. -/
theorem withNext_fireOrder (next : Option Instant) (q : Queue) :
    withNext next q.fireOrder = withNext next q.entries := by
  have htied : InOrder (withNext next q.entries) :=
    List.pairwise_of_forall_mem_list fun a ha b hb => by
      have ha' : a.next = next := of_decide_eq_true (List.mem_filter.mp ha).2
      have hb' : b.next = next := of_decide_eq_true (List.mem_filter.mp hb).2
      rw [ha', hb']
      exact dueLe_refl next
  have hsub : (withNext next q.entries).Sublist q.fireOrder :=
    List.sublist_mergeSort (fun a b c => dueLe_trans a.next b.next c.next)
      (fun a b => dueLe_total a.next b.next) htied List.filter_sublist
  have hself : withNext next (withNext next q.entries) = withNext next q.entries := by
    simp [withNext, List.filter_filter]
  have hsub' : (withNext next (withNext next q.entries)).Sublist (withNext next q.fireOrder) :=
    hsub.filter _
  rw [hself] at hsub'
  exact (hsub'.eq_of_length (q.fireOrder_perm.filter _).length_eq.symm).symm

/-- A list in order that keeps ties as they were put in is the fire order. -/
theorem fireOrder_eq (h : InOrder l) (hties : ∀ next, withNext next l = withNext next q.entries) :
    q.fireOrder = l :=
  eq_of_inOrder q.inOrder_fireOrder h fun next => by rw [withNext_fireOrder, hties]

/-- What comes first is the head of the fire order. -/
theorem peek_eq_head (q : Queue) : q.peek = q.fireOrder.head?.bind Entry.next := by
  have hmem : ∀ e, e ∈ q.fireOrder ↔ e ∈ q.entries := fun e => q.fireOrder_perm.mem_iff
  have horder := q.inOrder_fireOrder
  cases hl : q.fireOrder with
  | nil =>
    refine earliest_eq_none_iff.mpr fun next hnext => ?_
    obtain ⟨e, he, -⟩ := List.mem_map.mp hnext
    rw [← hmem, hl] at he
    cases he
  | cons a t =>
    rw [hl] at horder hmem
    have hfirst : ∀ e ∈ q.entries, dueLe a.next e.next = true := fun e he => by
      rcases List.mem_cons.mp ((hmem e).mpr he) with rfl | he
      · exact dueLe_refl _
      · exact (List.pairwise_cons.mp horder).1 e he
    rw [List.head?_cons, Option.bind_some]
    cases ha : a.next with
    | none =>
      refine earliest_eq_none_iff.mpr fun next hnext => ?_
      obtain ⟨e, he, rfl⟩ := List.mem_map.mp hnext
      have hle := hfirst e he
      rw [ha] at hle
      cases hnext : e.next with
      | none => rfl
      | some u =>
        rw [hnext] at hle
        cases hle
    | some due =>
      refine peek_eq_some_iff.mpr ⟨⟨a, (hmem a).mp List.mem_cons_self, ha⟩, fun e he u hu => ?_⟩
      have hle := hfirst e he
      rw [ha, hu] at hle
      exact of_decide_eq_true hle

/-- What is taken out was the head of the fire order, and leaves the rest as it was. -/
theorem fireOrder_of_takeDue (h : q.takeDue? due = some (e, rest)) :
    q.fireOrder = e :: rest.fireOrder := by
  obtain ⟨hpeek, hdue, before, after, hentries, hrest, hbefore⟩ := of_takeDue h
  have hmin := (peek_eq_some_iff.mp hpeek).2
  refine fireOrder_eq (List.pairwise_cons.mpr ⟨fun f hf => ?_, rest.inOrder_fireOrder⟩) ?_
  · have hf' : f ∈ q.entries := by
      rw [rest.fireOrder_perm.mem_iff, hrest] at hf
      rw [hentries]
      rcases List.mem_append.mp hf with hf | hf
      · exact List.mem_append_left _ hf
      · exact List.mem_append_right _ (List.mem_cons_of_mem e hf)
    rw [hdue]
    cases hnext : f.next with
    | none => rfl
    | some t => exact decide_eq_true (hmin f hf' t hnext)
  · intro next
    rw [hentries]
    by_cases hnext : e.next = next
    · subst hnext
      have hnone : withNext e.next before = [] :=
        withNext_eq_nil fun f hf => hdue.symm ▸ hbefore f hf
      have hsplit : ∀ l, withNext e.next (before ++ l) = withNext e.next l := fun l => by
        rw [withNext_append, hnone, List.nil_append]
      rw [withNext_cons_self, withNext_fireOrder, hrest, hsplit, hsplit, withNext_cons_self]
    · have hskip : withNext next (before ++ e :: after) = withNext next (before ++ after) := by
        unfold withNext
        rw [List.filter_append, List.filter_append, List.filter_cons_of_neg (by simpa using hnext)]
      rw [withNext_cons_of_ne hnext, withNext_fireOrder, hrest, hskip]

/-- Leaving out entries leaves them out of the fire order. -/
theorem fireOrder_filter (q : Queue) (p : Entry → Bool) :
    (⟨q.entries.filter p⟩ : Queue).fireOrder = q.fireOrder.filter p := by
  refine fireOrder_eq (q.inOrder_fireOrder.filter _) fun next => ?_
  have hcomm : ∀ l : List Entry, withNext next (l.filter p) = (withNext next l).filter p := fun l => by
    unfold withNext
    rw [List.filter_filter, List.filter_filter]
    exact List.filter_congr fun e _ => Bool.and_comm _ _
  rw [hcomm, withNext_fireOrder, ← hcomm]

/-- Erasing a name erases it from the fire order. -/
theorem fireOrder_erase (q : Queue) (id : EntryId) :
    (q.erase id).fireOrder = q.fireOrder.filter fun e => decide (e.id ≠ id) :=
  q.fireOrder_filter fun e => decide (e.id ≠ id)

/-- A test of the next occurrence keeps all entries that have the same one, or none. -/
theorem withNext_filter (p : Option Instant → Bool) (next : Option Instant) (l : List Entry) :
    withNext next (l.filter fun e => p e.next) = if p next then withNext next l else [] := by
  have hboth : withNext next (l.filter fun e => p e.next) =
      l.filter fun e => decide (e.next = next) && p e.next := List.filter_filter
  rw [hboth]
  split
  next hp =>
    refine List.filter_congr fun e _ => ?_
    by_cases he : e.next = next
    · rw [he, hp, Bool.and_true]
    · rw [decide_eq_false he, Bool.false_and]
  next hp =>
    refine List.filter_eq_nil_iff.mpr fun e _ h => ?_
    obtain ⟨he, hpe⟩ := Bool.and_eq_true_iff.mp h
    rw [of_decide_eq_true he] at hpe
    exact hp hpe

/-- The fire order has the entries that are due at most as late as an instant in front. -/
theorem fireOrder_split (q : Queue) (next : Option Instant) :
    q.fireOrder = (q.fireOrder.filter fun e => dueLe e.next next) ++
      q.fireOrder.filter fun e => !dueLe e.next next := by
  refine fireOrder_eq (List.pairwise_append.mpr ⟨q.inOrder_fireOrder.filter _,
    q.inOrder_fireOrder.filter _, fun e he f hf => ?_⟩) fun due => ?_
  · exact dueLe_trans _ _ _ (List.mem_filter.mp he).2 (dueLe_of_not (List.mem_filter.mp hf).2)
  · rw [withNext_append, withNext_filter (fun due => dueLe due next),
      withNext_filter (fun due => !dueLe due next), withNext_fireOrder]
    cases dueLe due next <;> simp

/-- An entry that is put in comes behind those that are due at most as late, and before the others. -/
theorem fireOrder_push (q : Queue) (e : Entry) :
    (q.push e).fireOrder = (q.fireOrder.filter fun f => dueLe f.next e.next) ++
      e :: q.fireOrder.filter fun f => !dueLe f.next e.next := by
  have hbehind : ∀ f ∈ q.fireOrder.filter fun f => !dueLe f.next e.next,
      dueLe e.next f.next = true := fun f hf => dueLe_of_not (List.mem_filter.mp hf).2
  refine fireOrder_eq (List.pairwise_append.mpr ⟨q.inOrder_fireOrder.filter _,
    List.pairwise_cons.mpr ⟨hbehind, q.inOrder_fireOrder.filter _⟩, fun f hf => ?_⟩) fun next => ?_
  · have hle := (List.mem_filter.mp hf).2
    exact List.forall_mem_cons.mpr ⟨hle, fun g hg => dueLe_trans _ _ _ hle (hbehind g hg)⟩
  · have hentries : withNext next (q.push e).entries =
        withNext next q.fireOrder ++ withNext next [e] := by
      rw [withNext_fireOrder, ← withNext_append]
      rfl
    rw [hentries, withNext_append, ← List.singleton_append, withNext_append,
      withNext_filter (fun next => dueLe next e.next), withNext_filter (fun next => !dueLe next e.next)]
    by_cases hnext : e.next = next
    · rw [← hnext, dueLe_refl]
      simp
    · have hnone : withNext next [e] = [] := withNext_cons_of_ne hnext
      rw [hnone]
      cases dueLe next e.next <;> simp

/-- Putting in an entry leaves the others in their order. -/
theorem fireOrder_sublist_push (q : Queue) (e : Entry) :
    q.fireOrder.Sublist (q.push e).fireOrder := by
  have hsub := List.Sublist.append_left (List.sublist_cons_self e
    (q.fireOrder.filter fun f => !dueLe f.next e.next)) (q.fireOrder.filter fun f => dueLe f.next e.next)
  rwa [← q.fireOrder_split e.next, ← fireOrder_push] at hsub

/-- Putting in entries one after the other leaves the others in their order as well. -/
theorem fireOrder_sublist_append (l l' : List Entry) :
    (⟨l⟩ : Queue).fireOrder.Sublist (⟨l ++ l'⟩ : Queue).fireOrder := by
  induction l' generalizing l with
  | nil => simp only [List.append_nil, List.Sublist.refl]
  | cons e rest ih =>
    have hrest := ih (l ++ [e])
    rw [List.append_assoc] at hrest
    exact (fireOrder_sublist_push ⟨l⟩ e).trans hrest

end Queue

end Cron
