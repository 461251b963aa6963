import Cron.Queue.Entry

/-!
# The queue of entries

A queue holds its entries in the order in which they were put in. Their fire order is by next
occurrence, with entries that never fire at the end, and among equals in the order in which they
were put in (`fireOrder`).

Model of `EntryQueue`. There each entry is kept with a number, counted up whenever an entry is put
in, and a binary heap holds them; `due_order`, then the number, says which comes first, and the
order of a `Queued` is turned round, since the heap gives its greatest member. No number is given
out twice, and an entry keeps its number until it is taken out. So the list holds the entries by
ascending numbers, their places stand for the numbers, and the stable sorting of `fireOrder` decides
ties as the numbers do. That a queue cannot be told from one with the numbers kept beside its
entries is `Agenda.Represents.replay`. How a heap arranges its members is out of scope; of it is
assumed that it gives its greatest one.

`takeDue?` takes out the first entry in fire order, but only if it is due exactly at the given
instant. `fireAt` lets all entries fire that are due at an instant: each is taken out, fires, and is
put in again at the end. It ends because an entry that fired is due later.

Headlines:
* `peek_eq_some_iff`: what comes first is due, and nothing is due before it;
* `lt_peek_fireAt`: once all entries have fired that were due first, the next one is due later.
-/

namespace Cron

/-- Whether a next occurrence is at most as late as another one; never is after every instant. -/
def dueLe : Option Instant → Option Instant → Bool
  | some a, some b => a ≤ b
  | some _, none => true
  | none, some _ => false
  | none, none => true

/-- The first member of a list that passes a test, and the others. -/
def takeFirst? {α : Type} (p : α → Bool) : List α → Option (α × List α)
  | [] => none
  | a :: rest =>
    if p a then some (a, rest)
    else (takeFirst? p rest).map fun (found, others) => (found, a :: others)

/-- Entries waiting for their next occurrence. -/
structure Queue where
  /-- The entries in the order in which they were put in. -/
  entries : List Entry

namespace Queue

/-- The queue without entries. -/
def empty : Queue := ⟨[]⟩

/-- The queue with an entry put in. -/
def push (q : Queue) (e : Entry) : Queue := ⟨q.entries ++ [e]⟩

/-- The number of entries. -/
def size (q : Queue) : Nat := q.entries.length

/-- Whether there is no entry. -/
def isEmpty (q : Queue) : Bool := q.entries.isEmpty

/-- The entries in fire order. -/
def fireOrder (q : Queue) : List Entry := q.entries.mergeSort fun a b => dueLe a.next b.next

/-- The earliest of some next occurrences. -/
def earliest : List (Option Instant) → Option Instant
  | [] => none
  | next :: rest =>
    let later := earliest rest
    if dueLe next later then next else later

/-- When the first entry in fire order is due: `none` if the queue is empty or nothing will ever
fire. -/
def peek (q : Queue) : Option Instant := earliest (q.entries.map Entry.next)

/-- Takes out the first entry in fire order, if it is due exactly at an instant. -/
def takeDue? (q : Queue) (due : Instant) : Option (Entry × Queue) :=
  if q.peek = some due then
    (takeFirst? (fun e => decide (e.next = some due)) q.entries).map fun (e, rest) => (e, ⟨rest⟩)
  else none

/-- The queue without the entries of a name. -/
def erase (q : Queue) (id : EntryId) : Queue := ⟨q.entries.filter fun e => e.id ≠ id⟩

/-- Whether there is an entry of a name. -/
def has (q : Queue) (id : EntryId) : Bool := q.entries.any fun e => e.id = id

/-- The queue with all next occurrences looked for anew, after an instant. -/
def reschedule (z : Zone) (horizon : Int) (since : Instant) (q : Queue) : Queue :=
  ⟨q.entries.map (Entry.scheduledAfter z horizon since)⟩

/-! ## Taking out -/

theorem takeFirst?_eq_some {α : Type} {p : α → Bool} {l rest : List α} {a : α}
    (h : takeFirst? p l = some (a, rest)) :
    p a = true ∧ ∃ before after, l = before ++ a :: after ∧ rest = before ++ after ∧
      ∀ b ∈ before, p b = false := by
  induction l generalizing rest with
  | nil => cases h
  | cons b bs ih =>
    unfold takeFirst? at h
    split at h
    next hb =>
      cases h
      exact ⟨hb, [], _, rfl, rfl, by simp⟩
    next hb =>
      simp only [Option.map_eq_some_iff, Prod.mk.injEq] at h
      obtain ⟨⟨c, cs⟩, hc, rfl, rfl⟩ := h
      obtain ⟨hp, before, after, rfl, rfl, hbefore⟩ := ih hc
      refine ⟨hp, b :: before, after, rfl, rfl, ?_⟩
      intro x hx
      rcases List.mem_cons.mp hx with rfl | hx
      · simpa using hb
      · exact hbefore x hx

/-- How many entries are due exactly at an instant. -/
def dueCount (q : Queue) (due : Instant) : Nat :=
  q.entries.countP fun e => decide (e.next = some due)

theorem dueCount_takeDue {q rest : Queue} {due : Instant} {e : Entry}
    (h : q.takeDue? due = some (e, rest)) : q.dueCount due = rest.dueCount due + 1 := by
  unfold takeDue? at h
  split at h
  · simp only [Option.map_eq_some_iff, Prod.mk.injEq] at h
    obtain ⟨⟨a, others⟩, ha, rfl, rfl⟩ := h
    obtain ⟨hp, before, after, hq, rfl, -⟩ := takeFirst?_eq_some ha
    simp only [dueCount, hq, List.countP_append, List.countP_cons, hp, if_true]
    omega
  · cases h

theorem dueCount_push {q : Queue} {due : Instant} {e : Entry} (h : e.next ≠ some due) :
    (q.push e).dueCount due = q.dueCount due := by
  simp [dueCount, push, List.countP_append, h]

theorem fire_next_ne (z : Zone) (horizon : Int) (due : Instant) (e : Entry) :
    (e.fire z horizon due).next ≠ some due :=
  fun h => Instant.lt_irrefl due (Entry.lt_next_fire h)

/-! ## Firing -/

/-- Lets every entry fire that is due exactly at an instant, if the first one in fire order is.
The names of the entries that fired are listed in their order. -/
def fireAt (z : Zone) (horizon : Int) (due : Instant) (q : Queue) : Queue × List EntryId :=
  match _h : q.takeDue? due with
  | none => (q, [])
  | some (e, rest) =>
    let (after, fired) := (rest.push (e.fire z horizon due)).fireAt z horizon due
    (after, e.id :: fired)
termination_by q.dueCount due
decreasing_by
  rw [dueCount_takeDue _h, dueCount_push (fire_next_ne z horizon due e)]
  omega

/-! ## What comes first -/

theorem earliest_eq_none_iff {l : List (Option Instant)} :
    earliest l = none ↔ ∀ next ∈ l, next = none := by
  induction l with
  | nil => simp [earliest]
  | cons next rest ih =>
    simp only [earliest, List.forall_mem_cons]
    cases next with
    | none =>
      cases h : earliest rest with
      | none => simpa [dueLe, h] using ih
      | some t =>
        simp only [dueLe, Bool.false_eq_true, if_false, true_and, ← ih, h, reduceCtorEq]
    | some a =>
      cases earliest rest with
      | none => simp [dueLe]
      | some t =>
        simp only [dueLe, reduceCtorEq, false_and, iff_false]
        by_cases hle : a ≤ t <;> simp [hle]

theorem earliest_eq_some {l : List (Option Instant)} {due : Instant} (h : earliest l = some due) :
    some due ∈ l ∧ ∀ t, some t ∈ l → due ≤ t := by
  induction l generalizing due with
  | nil => cases h
  | cons next rest ih =>
    simp only [earliest] at h
    split at h
    next hle =>
      subst h
      refine ⟨List.mem_cons_self, fun t ht => ?_⟩
      rcases List.mem_cons.mp ht with ht | ht
      · cases ht
        exact Instant.lt_irrefl _
      · cases hr : earliest rest with
        | none => exact absurd (earliest_eq_none_iff.1 hr _ ht) (by simp)
        | some u =>
          rw [hr] at hle
          have h1 : due ≤ u := by simpa [dueLe] using hle
          have h2 := (ih hr).2 t ht
          rw [Instant.le_iff_ticks_le] at *
          omega
    next hle =>
      obtain ⟨hmem, hmin⟩ := ih h
      refine ⟨List.mem_cons_of_mem _ hmem, fun t ht => ?_⟩
      rcases List.mem_cons.mp ht with ht | ht
      · subst ht
        rw [h] at hle
        have : ¬ t ≤ due := by simpa [dueLe] using hle
        rw [Instant.le_iff_ticks_le] at *
        omega
      · exact hmin t ht

/-- What comes first is due at that instant, and nothing is due before it. -/
theorem peek_eq_some_iff {q : Queue} {due : Instant} :
    q.peek = some due ↔
      (∃ e ∈ q.entries, e.next = some due) ∧
        ∀ e ∈ q.entries, ∀ t, e.next = some t → due ≤ t := by
  constructor
  · intro h
    obtain ⟨hmem, hmin⟩ := earliest_eq_some h
    refine ⟨List.mem_map.mp hmem, fun e he t ht => hmin t ?_⟩
    exact ht ▸ List.mem_map_of_mem he
  · rintro ⟨⟨e, he, hdue⟩, hmin⟩
    cases h : q.peek with
    | none =>
      have := earliest_eq_none_iff.1 h e.next (List.mem_map_of_mem he)
      rw [hdue] at this
      cases this
    | some u =>
      obtain ⟨hmem, hleast⟩ := earliest_eq_some h
      obtain ⟨f, hf, hu⟩ := List.mem_map.mp hmem
      have h1 := hmin f hf u hu
      have h2 := hleast due (hdue ▸ List.mem_map_of_mem he)
      rw [Instant.le_antisymm h2 h1]

theorem takeDue?_eq_none_iff {q : Queue} {due : Instant} :
    q.takeDue? due = none ↔ q.peek ≠ some due := by
  unfold takeDue?
  split
  next h =>
    obtain ⟨e, he, hdue⟩ := (peek_eq_some_iff.1 h).1
    have : ∀ l : List Entry, e ∈ l →
        takeFirst? (fun e => decide (e.next = some due)) l ≠ none := by
      intro l hl
      induction l with
      | nil => cases hl
      | cons a rest ih =>
        unfold takeFirst?
        split
        · simp
        next ha =>
          rcases List.mem_cons.mp hl with rfl | hl
          · simp [hdue] at ha
          · simpa using ih hl
    simp only [Option.map_eq_none_iff, h, ne_eq, not_true_eq_false, iff_false]
    exact this _ he
  next h => simp [h]

theorem of_takeDue {q rest : Queue} {due : Instant} {e : Entry}
    (h : q.takeDue? due = some (e, rest)) :
    q.peek = some due ∧ e.next = some due ∧
      ∃ before after, q.entries = before ++ e :: after ∧ rest.entries = before ++ after ∧
        ∀ f ∈ before, f.next ≠ some due := by
  unfold takeDue? at h
  split at h
  next hpeek =>
    simp only [Option.map_eq_some_iff, Prod.mk.injEq] at h
    obtain ⟨⟨a, others⟩, ha, rfl, rfl⟩ := h
    obtain ⟨hp, before, after, hq, hrest, hbefore⟩ := takeFirst?_eq_some ha
    refine ⟨hpeek, by simpa using hp, before, after, hq, hrest, fun f hf => ?_⟩
    simpa using hbefore f hf
  · cases h

/-- Where an entry that is due first fires, nothing gets due before it. -/
theorem le_of_push_fire {z : Zone} {horizon : Int} {due : Instant} {q rest : Queue} {e : Entry}
    (hq : ∀ e ∈ q.entries, ∀ t, e.next = some t → due ≤ t)
    (h : q.takeDue? due = some (e, rest)) :
    ∀ f ∈ (rest.push (e.fire z horizon due)).entries, ∀ t, f.next = some t → due ≤ t := by
  obtain ⟨-, -, before, behind, hentries, hrest, -⟩ := of_takeDue h
  intro f hf t ht
  simp only [push, List.mem_append, List.mem_singleton, hrest] at hf
  rcases hf with hf | rfl
  · refine hq f ?_ t ht
    rw [hentries]
    rcases hf with hf | hf
    · exact List.mem_append_left _ hf
    · exact List.mem_append_right _ (List.mem_cons_of_mem _ hf)
  · have hlt := Entry.lt_next_fire ht
    rw [Instant.lt_iff_ticks_lt] at hlt
    rw [Instant.le_iff_ticks_le]
    omega

/-- Firing keeps everything at or after the instant, and leaves nothing due exactly then. -/
theorem fireAt_after {z : Zone} {horizon : Int} {due : Instant} {q : Queue}
    (hq : ∀ e ∈ q.entries, ∀ t, e.next = some t → due ≤ t) :
    (q.fireAt z horizon due).1.peek ≠ some due ∧
      ∀ e ∈ (q.fireAt z horizon due).1.entries, ∀ t, e.next = some t → due ≤ t := by
  fun_induction fireAt z horizon due q with
  | case1 q hnone => exact ⟨takeDue?_eq_none_iff.1 hnone, hq⟩
  | case2 q e rest hpop after fired heq ih =>
    have hrest := ih (le_of_push_fire hq hpop)
    rwa [heq] at hrest

/-- Once all entries have fired that were due first, the next one is due later. -/
theorem lt_peek_fireAt {z : Zone} {horizon : Int} {due next : Instant} {q : Queue}
    (h : q.peek = some due) (hnext : (q.fireAt z horizon due).1.peek = some next) :
    due < next := by
  obtain ⟨hne, hafter⟩ := @fireAt_after z horizon due q (peek_eq_some_iff.1 h).2
  obtain ⟨⟨e, he, hdue⟩, -⟩ := peek_eq_some_iff.1 hnext
  have hle := hafter e he next hdue
  rw [Instant.le_iff_ticks_le] at hle
  rw [Instant.lt_iff_ticks_lt]
  rcases Int.lt_or_eq_of_le hle with hlt | heq
  · exact hlt
  · rw [← Instant.ext_ticks heq] at hnext
    exact absurd hnext hne

end Queue

end Cron
