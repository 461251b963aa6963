import Cron.Proofs.CalendarOrder
import Cron.Proofs.FireOrder

/-!
# The queue as a sorted list

Every entry that is put into a queue gets a number of its own, and keeps it while it is there. An
`Agenda` is a list of numbered entries that is kept sorted: by next occurrence, with never behind
every instant, and then by number. Its operations are what one expects of a sorted list: the head is
what comes first, an entry is put in at its place, and when all next occurrences are looked for anew
the list is sorted again.

A `Ticket` is a `Queued` of the program, with its number as the `seq`, and `Ticket.Before` is the
order of `Queued`, turned back again. The agenda is what an `EntryQueue` holds, listed in that order
in place of a heap.

A queue holds its entries as they were put in and sorts them when it is asked to. It cannot be told
from the agenda: whatever is done to both, they give the same answers.

Headlines:
* `Represents.perform`: an operation gives the same answer, and leaves the same entries;
* `answers_eq_agenda`: so does every sequence of operations, and what each operation does can be read
  off the fire order.
-/

namespace Cron

/-- Whether an instant comes before another one. Never comes after every instant. -/
def DueBefore : Option Instant → Option Instant → Prop
  | some a, some b => a < b
  | some _, none => True
  | none, _ => False

instance : ∀ a b : Option Instant, Decidable (DueBefore a b)
  | some a, some b => inferInstanceAs (Decidable (a < b))
  | some _, none => inferInstanceAs (Decidable True)
  | none, _ => inferInstanceAs (Decidable False)

theorem DueBefore.trans {a b c : Option Instant} (h : DueBefore a b) (h' : DueBefore b c) :
    DueBefore a c := by
  cases a with
  | none => exact h
  | some t =>
    cases b with
    | none => exact h'.elim
    | some u =>
      cases c with
      | none => trivial
      | some v => exact Instant.lt_trans h h'

theorem DueBefore.irrefl (a : Option Instant) : ¬ DueBefore a a := by
  cases a with
  | none => exact id
  | some t => exact Instant.lt_irrefl t

theorem DueBefore.dueLe {a b : Option Instant} (h : DueBefore a b) : dueLe a b = true := by
  cases a with
  | none => exact h.elim
  | some t =>
    cases b with
    | none => rfl
    | some u => exact decide_eq_true (Instant.le_of_lt h)

theorem dueBefore_trichotomy (a b : Option Instant) : DueBefore a b ∨ a = b ∨ DueBefore b a := by
  cases a with
  | none =>
    cases b with
    | none => exact .inr (.inl rfl)
    | some u => exact .inr (.inr trivial)
  | some t =>
    cases b with
    | none => exact .inl trivial
    | some u =>
      rcases Instant.lt_trichotomy t u with h | rfl | h
      · exact .inl h
      · exact .inr (.inl rfl)
      · exact .inr (.inr h)

/-! ## Tickets -/

/-- An entry with the number under which it was put in. -/
structure Ticket where
  number : Nat
  entry : Entry

namespace Ticket

variable {t u v : Ticket} {l l' : List Ticket}

/-- Whether a ticket comes before another one: by next occurrence, and then by number. -/
def Before (t u : Ticket) : Prop :=
  DueBefore t.entry.next u.entry.next ∨ (t.entry.next = u.entry.next ∧ t.number < u.number)

instance (t u : Ticket) : Decidable (t.Before u) :=
  inferInstanceAs (Decidable (_ ∨ _))

theorem Before.trans (h : t.Before u) (h' : u.Before v) : t.Before v := by
  rcases h with h | ⟨heq, hlt⟩
  · rcases h' with h' | ⟨heq', -⟩
    · exact .inl (h.trans h')
    · exact .inl (heq' ▸ h)
  · rcases h' with h' | ⟨heq', hlt'⟩
    · exact .inl (heq.symm ▸ h')
    · exact .inr ⟨heq.trans heq', Nat.lt_trans hlt hlt'⟩

theorem Before.dueLe (h : t.Before u) : dueLe t.entry.next u.entry.next = true := by
  rcases h with h | ⟨heq, -⟩
  · exact h.dueLe
  · rw [heq]
    exact dueLe_refl _

theorem Before.number_lt (h : t.Before u) (hnext : t.entry.next = u.entry.next) :
    t.number < u.number := by
  rcases h with h | ⟨-, hlt⟩
  · rw [hnext] at h
    exact (DueBefore.irrefl _ h).elim
  · exact hlt

/-- Of two tickets with different numbers, one comes before the other. -/
theorem before_or_before (h : t.number ≠ u.number) : t.Before u ∨ u.Before t := by
  rcases dueBefore_trichotomy t.entry.next u.entry.next with hdue | hdue | hdue
  · exact .inl (.inl hdue)
  · rcases Nat.lt_or_gt_of_ne h with hlt | hlt
    · exact .inl (.inr ⟨hdue, hlt⟩)
    · exact .inr (.inr ⟨hdue.symm, hlt⟩)
  · exact .inr (.inl hdue)

/-- Puts a ticket at its place in a sorted list. -/
def place (t : Ticket) : List Ticket → List Ticket
  | [] => [t]
  | u :: rest => if t.Before u then t :: u :: rest else u :: t.place rest

theorem perm_place (t : Ticket) (l : List Ticket) : (t.place l).Perm (t :: l) := by
  induction l with
  | nil => exact .refl _
  | cons u rest ih =>
    unfold place
    split
    · exact .refl _
    · exact (ih.cons u).trans (.swap t u rest)

/-- A sorted list stays sorted when a ticket of a new number is put in. -/
theorem pairwise_place (hl : l.Pairwise Before) (hnew : ∀ u ∈ l, t.number ≠ u.number) :
    (t.place l).Pairwise Before := by
  induction l with
  | nil => exact List.pairwise_singleton _ _
  | cons u rest ih =>
    obtain ⟨hu, hrest⟩ := List.pairwise_cons.mp hl
    unfold place
    split
    next ht =>
      refine List.pairwise_cons.mpr ⟨fun v hv => ?_, hl⟩
      rcases List.mem_cons.mp hv with rfl | hv
      · exact ht
      · exact ht.trans (hu v hv)
    next ht =>
      have hut : u.Before t :=
        (before_or_before (hnew u List.mem_cons_self)).resolve_left ht
      refine List.pairwise_cons.mpr ⟨fun v hv => ?_, ih hrest fun v hv => ?_⟩
      · rcases List.mem_cons.mp ((perm_place t rest).mem_iff.mp hv) with rfl | hv
        · exact hut
        · exact hu v hv
      · exact hnew v (List.mem_cons_of_mem u hv)

/-- Sorts a list by putting one ticket after the other at its place. -/
def sorted (l : List Ticket) : List Ticket := l.foldr place []

theorem perm_sorted (l : List Ticket) : (sorted l).Perm l := by
  induction l with
  | nil => exact .refl _
  | cons t rest ih => exact (perm_place t (sorted rest)).trans (ih.cons t)

theorem pairwise_sorted (hl : l.Pairwise fun t u => t.number ≠ u.number) :
    (sorted l).Pairwise Before := by
  induction l with
  | nil => exact .nil
  | cons t rest ih =>
    obtain ⟨ht, hrest⟩ := List.pairwise_cons.mp hl
    exact pairwise_place (ih hrest) fun u hu => ht u ((perm_sorted rest).mem_iff.mp hu)

/-- In the order of their numbers, the first of the tickets that are due with the head of the sorted
list is that head. -/
theorem eq_head {before after rest : List Ticket} (hsorted : (t :: rest).Pairwise Before)
    (hnumbers : (before ++ u :: after).Pairwise fun t u => t.number < u.number)
    (hperm : (before ++ u :: after).Perm (t :: rest)) (hnext : t.entry.next = u.entry.next)
    (hbefore : ∀ v ∈ before, v.entry.next ≠ t.entry.next) : u = t := by
  have hu : u ∈ t :: rest := hperm.mem_iff.mp (List.mem_append_right before List.mem_cons_self)
  have ht : t ∈ before ++ u :: after := hperm.mem_iff.mpr List.mem_cons_self
  rcases List.mem_cons.mp hu with rfl | hu
  · rfl
  have hlt : t.number < u.number := ((List.pairwise_cons.mp hsorted).1 u hu).number_lt hnext
  rcases List.mem_append.mp ht with ht | ht
  · exact absurd rfl (hbefore t ht)
  rcases List.mem_cons.mp ht with rfl | ht
  · rfl
  have hgt : u.number < t.number :=
    (List.pairwise_cons.mp (List.pairwise_append.mp hnumbers).2.1).1 t ht
  exact absurd hgt (Nat.lt_asymm hlt)

/-- The ticket with its next occurrence looked for after an instant. -/
def scheduledAfter (z : Zone) (horizon : Int) (since : Instant) (t : Ticket) : Ticket :=
  ⟨t.number, t.entry.scheduledAfter z horizon since⟩

end Ticket

/-! ## Agendas -/

/-- Numbered entries, sorted. -/
structure Agenda where
  tickets : List Ticket
  /-- The last number that was given out. -/
  issued : Nat
  sorted : tickets.Pairwise Ticket.Before
  distinct : tickets.Pairwise fun t u => t.number ≠ u.number
  le_issued : ∀ t ∈ tickets, t.number ≤ issued

namespace Agenda

variable {a : Agenda} {q : Queue}

theorem distinct_of_perm {l l' : List Ticket} (h : l.Perm l')
    (hl : l'.Pairwise fun t u => t.number ≠ u.number) : l.Pairwise fun t u => t.number ≠ u.number :=
  (h.pairwise_iff fun hne heq => hne heq.symm).mpr hl

/-- The agenda without entries. -/
def empty : Agenda := ⟨[], 0, .nil, .nil, nofun⟩

/-- The entries in order. -/
def entries (a : Agenda) : List Entry := a.tickets.map Ticket.entry

/-- When the first entry is due. -/
def peek (a : Agenda) : Option Instant := a.entries.head?.bind Entry.next

/-- The agenda with an entry put in under the next number. -/
def push (a : Agenda) (e : Entry) : Agenda :=
  have hnew : ∀ u ∈ a.tickets, a.issued + 1 ≠ u.number := fun u hu => by
    have := a.le_issued u hu
    omega
  { tickets := Ticket.place ⟨a.issued + 1, e⟩ a.tickets
    issued := a.issued + 1
    sorted := Ticket.pairwise_place a.sorted hnew
    distinct := distinct_of_perm (Ticket.perm_place _ _) (List.pairwise_cons.mpr ⟨hnew, a.distinct⟩)
    le_issued := fun t ht => by
      rcases List.mem_cons.mp ((Ticket.perm_place _ _).mem_iff.mp ht) with rfl | ht
      · exact Nat.le_refl _
      · exact Nat.le_succ_of_le (a.le_issued t ht) }

/-- The agenda with a part of its tickets. -/
def restrict (a : Agenda) (l : List Ticket) (h : l.Sublist a.tickets) : Agenda :=
  ⟨l, a.issued, a.sorted.sublist h, a.distinct.sublist h, fun t ht => a.le_issued t (h.subset ht)⟩

/-- Takes out the first entry, if it is due exactly at an instant. -/
def takeDue? (a : Agenda) (due : Instant) : Option (Entry × Agenda) :=
  match h : a.tickets with
  | [] => none
  | t :: rest =>
    if t.entry.next = some due then
      some (t.entry, a.restrict rest (h ▸ List.sublist_cons_self t rest))
    else none

/-- The agenda without the entries of a name. -/
def erase (a : Agenda) (id : EntryId) : Agenda :=
  a.restrict (a.tickets.filter fun t => decide (t.entry.id ≠ id)) List.filter_sublist

/-- Whether there is an entry of a name. -/
def has (a : Agenda) (id : EntryId) : Bool := a.entries.any fun e => e.id = id

/-- The agenda with all next occurrences looked for anew, and sorted again. -/
def reschedule (z : Zone) (horizon : Int) (since : Instant) (a : Agenda) : Agenda :=
  have hdistinct : (a.tickets.map (Ticket.scheduledAfter z horizon since)).Pairwise
      fun t u => t.number ≠ u.number := List.pairwise_map.mpr a.distinct
  { tickets := Ticket.sorted (a.tickets.map (Ticket.scheduledAfter z horizon since))
    issued := a.issued
    sorted := Ticket.pairwise_sorted hdistinct
    distinct := distinct_of_perm (Ticket.perm_sorted _) hdistinct
    le_issued := fun t ht => by
      obtain ⟨u, hu, rfl⟩ := List.mem_map.mp ((Ticket.perm_sorted _).mem_iff.mp ht)
      exact a.le_issued u hu }

end Agenda

/-! ## Operations -/

/-- What can be done to a queue. -/
inductive QueueOperation where
  | push (e : Entry)
  | takeDue (due : Instant)
  | erase (id : EntryId)
  | reschedule (z : Zone) (horizon : Int) (since : Instant)
  | list
  | peek

/-- What a queue answers. -/
inductive QueueAnswer where
  | nothing
  | taken (e : Option Entry)
  | erased (found : Bool)
  | listing (entries : List Entry)
  | head (next : Option Instant)

/-- The state after some operations, and the answers to them. -/
def replay {σ : Type} (perform : σ → QueueOperation → σ × QueueAnswer) :
    σ → List QueueOperation → σ × List QueueAnswer
  | s, [] => (s, [])
  | s, operation :: rest =>
    let (t, answer) := perform s operation
    let (u, answers) := replay perform t rest
    (u, answer :: answers)

/-- What an operation makes of a queue, and the answer. -/
def Queue.perform (q : Queue) : QueueOperation → Queue × QueueAnswer
  | .push e => (q.push e, .nothing)
  | .takeDue due =>
    match q.takeDue? due with
    | some (e, rest) => (rest, .taken (some e))
    | none => (q, .taken none)
  | .erase id => (q.erase id, .erased (q.has id))
  | .reschedule z horizon since => (q.reschedule z horizon since, .nothing)
  | .list => (q, .listing q.fireOrder)
  | .peek => (q, .head q.peek)

/-- What an operation makes of an agenda, and the answer. -/
def Agenda.perform (a : Agenda) : QueueOperation → Agenda × QueueAnswer
  | .push e => (a.push e, .nothing)
  | .takeDue due =>
    match a.takeDue? due with
    | some (e, rest) => (rest, .taken (some e))
    | none => (a, .taken none)
  | .erase id => (a.erase id, .erased (a.has id))
  | .reschedule z horizon since => (a.reschedule z horizon since, .nothing)
  | .list => (a, .listing a.entries)
  | .peek => (a, .head a.peek)

/-! ## A queue for an agenda -/

namespace Agenda

variable {a : Agenda} {q : Queue}

/-- A queue holds the entries of an agenda in the order of their numbers. -/
def Represents (a : Agenda) (q : Queue) : Prop :=
  ∃ l : List Ticket, l.Perm a.tickets ∧ (l.Pairwise fun t u => t.number < u.number) ∧
    l.map Ticket.entry = q.entries

theorem represents_empty : empty.Represents Queue.empty := ⟨[], .refl _, .nil, rfl⟩

/-- The agenda lists the entries in the fire order of the queue. -/
theorem Represents.fireOrder_eq (h : a.Represents q) : q.fireOrder = a.entries := by
  obtain ⟨l, hperm, hnumbers, hentries⟩ := h
  refine Queue.fireOrder_eq (List.pairwise_map.mpr (a.sorted.imp Ticket.Before.dueLe)) fun next => ?_
  -- tickets with the same next occurrence are sorted by number on both sides
  have hties : a.tickets.filter (fun t => decide (t.entry.next = next)) =
      l.filter fun t => decide (t.entry.next = next) := by
    refine List.Perm.eq_of_pairwise ?_ ?_ (hnumbers.filter _) (hperm.symm.filter _)
    · intro t u _ _ htu hut
      exact absurd hut (Nat.lt_asymm htu)
    · refine (a.sorted.filter _).imp_of_mem fun ht hu hbefore => hbefore.number_lt ?_
      rw [of_decide_eq_true (List.mem_filter.mp ht).2, of_decide_eq_true (List.mem_filter.mp hu).2]
  rw [← hentries]
  unfold Queue.withNext entries
  rw [List.filter_map, List.filter_map]
  exact congrArg (List.map Ticket.entry) hties

theorem Represents.peek_eq (h : a.Represents q) : q.peek = a.peek := by
  rw [Queue.peek_eq_head, h.fireOrder_eq]
  rfl

theorem Represents.push (h : a.Represents q) (e : Entry) : (a.push e).Represents (q.push e) := by
  obtain ⟨l, hperm, hnumbers, hentries⟩ := h
  refine ⟨l ++ [⟨a.issued + 1, e⟩], ?_, ?_, ?_⟩
  · exact (List.perm_append_singleton _ l).trans ((hperm.cons _).trans (Ticket.perm_place _ _).symm)
  · refine List.pairwise_append.mpr ⟨hnumbers, List.pairwise_singleton _ _, fun t ht u hu => ?_⟩
    rw [List.mem_singleton.mp hu]
    exact Nat.lt_succ_of_le (a.le_issued t (hperm.mem_iff.mp ht))
  · rw [List.map_append, hentries]
    rfl

theorem Represents.erase (h : a.Represents q) (id : EntryId) :
    (a.erase id).Represents (q.erase id) := by
  obtain ⟨l, hperm, hnumbers, hentries⟩ := h
  refine ⟨l.filter fun t => decide (t.entry.id ≠ id), hperm.filter _, hnumbers.filter _, ?_⟩
  unfold Queue.erase
  rw [← hentries, List.filter_map]
  rfl

theorem Represents.has_eq (h : a.Represents q) (id : EntryId) : q.has id = a.has id := by
  unfold Queue.has has
  rw [← h.fireOrder_eq]
  exact (q.fireOrder_perm.any_eq).symm

theorem Represents.reschedule (h : a.Represents q) (z : Zone) (horizon : Int) (since : Instant) :
    (a.reschedule z horizon since).Represents (q.reschedule z horizon since) := by
  obtain ⟨l, hperm, hnumbers, hentries⟩ := h
  refine ⟨l.map (Ticket.scheduledAfter z horizon since), ?_, List.pairwise_map.mpr hnumbers, ?_⟩
  · exact (hperm.map _).trans (Ticket.perm_sorted _).symm
  · unfold Queue.reschedule
    rw [← hentries, List.map_map, List.map_map]
    rfl

/-- What is taken out of the queue is the first entry of the agenda, and the rest stay together. -/
theorem Represents.takeDue (h : a.Represents q) (due : Instant) :
    (q.takeDue? due = none ∧ a.takeDue? due = none) ∨
      ∃ e q' a', q.takeDue? due = some (e, q') ∧ a.takeDue? due = some (e, a') ∧ a'.Represents q' := by
  have hpeek := h.peek_eq
  have horder := h.fireOrder_eq
  unfold takeDue?
  split
  next hnil =>
    refine .inl ⟨Queue.takeDue?_eq_none_iff.mpr ?_, rfl⟩
    rw [hpeek, peek, entries, hnil]
    nofun
  next t rest hcons =>
    have hhead : a.peek = t.entry.next := by
      rw [peek, entries, hcons]
      rfl
    split
    next hdue =>
      cases htake : q.takeDue? due with
      | none => exact absurd (hpeek.trans (hhead.trans hdue)) (Queue.takeDue?_eq_none_iff.mp htake)
      | some taken =>
        obtain ⟨e, q'⟩ := taken
        have hfirst := Queue.fireOrder_of_takeDue htake
        rw [horder, entries, hcons, List.map_cons] at hfirst
        obtain ⟨rfl, -⟩ := List.cons.inj hfirst
        refine .inr ⟨_, q', _, rfl, rfl, ?_⟩
        obtain ⟨l, hperm, hnumbers, hentries⟩ := h
        obtain ⟨-, -, before, after, hsplit, hrest, hbefore⟩ := Queue.of_takeDue htake
        rw [hsplit] at hentries
        obtain ⟨lb, lua, rfl, hlb, hlua⟩ := List.map_eq_append_iff.mp hentries
        obtain ⟨u, la, rfl, hu, hla⟩ := List.map_eq_cons_iff.mp hlua
        have hsorted := a.sorted
        rw [hcons] at hperm hsorted
        obtain rfl : u = t := Ticket.eq_head hsorted hnumbers hperm (by rw [hu]) fun v hv hnext =>
          hbefore _ (hlb ▸ List.mem_map_of_mem hv) (hnext.trans hdue)
        refine ⟨lb ++ la, ?_, ?_, ?_⟩
        · exact (List.perm_middle.symm.trans hperm).cons_inv
        · exact hnumbers.sublist ((List.Sublist.refl lb).append (List.sublist_cons_self u la))
        · rw [List.map_append, hlb, hla, hrest]
    next hdue =>
      refine .inl ⟨Queue.takeDue?_eq_none_iff.mpr ?_, rfl⟩
      rw [hpeek, hhead]
      exact hdue

/-- An operation gives the same answer, and leaves the same entries. -/
theorem Represents.perform (h : a.Represents q) (operation : QueueOperation) :
    (q.perform operation).2 = (a.perform operation).2 ∧
      (a.perform operation).1.Represents (q.perform operation).1 := by
  cases operation with
  | push e => exact ⟨rfl, h.push e⟩
  | takeDue due =>
    obtain ⟨hq, ha⟩ | ⟨e, q', a', hq, ha, h'⟩ := h.takeDue due
    · simp only [Queue.perform, Agenda.perform, hq, ha]
      exact ⟨trivial, h⟩
    · simp only [Queue.perform, Agenda.perform, hq, ha]
      exact ⟨trivial, h'⟩
  | erase id => exact ⟨congrArg QueueAnswer.erased (h.has_eq id), h.erase id⟩
  | reschedule z horizon since => exact ⟨rfl, h.reschedule z horizon since⟩
  | list => exact ⟨congrArg QueueAnswer.listing h.fireOrder_eq, h⟩
  | peek => exact ⟨congrArg QueueAnswer.head h.peek_eq, h⟩

/-- A sequence of operations gives the same answers, and leaves the same entries. -/
theorem Represents.replay (h : a.Represents q) (operations : List QueueOperation) :
    (Cron.replay Queue.perform q operations).2 = (Cron.replay Agenda.perform a operations).2 ∧
      (Cron.replay Agenda.perform a operations).1.Represents
        (Cron.replay Queue.perform q operations).1 := by
  induction operations generalizing a q with
  | nil => exact ⟨rfl, h⟩
  | cons operation rest ih =>
    obtain ⟨hanswer, hnext⟩ := h.perform operation
    obtain ⟨hanswers, hlast⟩ := ih hnext
    refine ⟨?_, hlast⟩
    simp only [Cron.replay]
    rw [hanswer, hanswers]

end Agenda

namespace Queue

/-- Taking out takes the head of the fire order, if that is due exactly at the instant. -/
theorem takeDue?_eq_head (q : Queue) (due : Instant) :
    (q.takeDue? due).map (fun taken => (taken.1, taken.2.fireOrder)) =
      match q.fireOrder with
      | [] => none
      | e :: rest => if e.next = some due then some (e, rest) else none := by
  have hpeek := q.peek_eq_head
  cases htake : q.takeDue? due with
  | none =>
    have hne := takeDue?_eq_none_iff.mp htake
    split
    next => rfl
    next e rest hcons =>
      have hdue : e.next ≠ some due := fun hdue => hne (hpeek.trans (by rw [hcons]; exact hdue))
      rw [if_neg hdue]
      rfl
  | some taken =>
    obtain ⟨e, rest⟩ := taken
    obtain ⟨-, hdue, -⟩ := of_takeDue htake
    rw [fireOrder_of_takeDue htake]
    exact (if_pos hdue).symm

/-- **A queue is a list sorted by next occurrence and then by number.** Whatever was done to it
before, it has given the answers of an agenda, and it lists the entries of that agenda. What comes
first is the head of the list, only the head is taken out, erasing a name deletes its entries, and
no other operation adds or drops one. -/
theorem answers_eq_agenda (operations : List QueueOperation) :
    let q := (replay perform empty operations).1
    let a := (replay Agenda.perform Agenda.empty operations).1
    (replay perform empty operations).2 = (replay Agenda.perform Agenda.empty operations).2 ∧
    (q.fireOrder = a.tickets.map Ticket.entry ∧ a.tickets.Pairwise Ticket.Before) ∧
    q.peek = q.fireOrder.head?.bind Entry.next ∧
    (∀ due, (q.takeDue? due).map (fun taken => (taken.1, taken.2.fireOrder)) =
      match q.fireOrder with
      | [] => none
      | e :: rest => if e.next = some due then some (e, rest) else none) ∧
    (∀ id, (q.erase id).fireOrder = q.fireOrder.filter (fun e => decide (e.id ≠ id)) ∧
      (q.has id = true ↔ ∃ e ∈ q.fireOrder, e.id = id)) ∧
    (∀ e, (q.push e).fireOrder.Perm (e :: q.fireOrder)) ∧
    ∀ z horizon since, (q.reschedule z horizon since).fireOrder.Perm
      (q.fireOrder.map (Entry.scheduledAfter z horizon since)) := by
  intro q a
  obtain ⟨hanswers, hrepresents⟩ := Agenda.represents_empty.replay operations
  refine ⟨hanswers, ⟨hrepresents.fireOrder_eq, a.sorted⟩, q.peek_eq_head, q.takeDue?_eq_head,
    fun id => ⟨q.fireOrder_erase id, ?_⟩, fun e => ?_, fun z horizon since => ?_⟩
  · rw [has, List.any_eq_true]
    simp only [decide_eq_true_eq, q.fireOrder_perm.mem_iff]
  · exact ((q.push e).fireOrder_perm.trans (List.perm_append_singleton e q.entries)).trans
      (q.fireOrder_perm.symm.cons e)
  · exact (q.reschedule z horizon since).fireOrder_perm.trans (q.fireOrder_perm.symm.map _)

end Queue

end Cron
