import Cron.Proofs.Agenda
import Cron.Proofs.FiringPass

/-!
# Looking for all next occurrences anew

When a loop starts up, the next occurrence of each entry is looked for after the time on the clock,
whatever the entry was waiting for. Nothing else about the entries changes, and they keep the
numbers under which they were put in. The fire order from before is forgotten with the next
occurrences that it came from: the entries are sorted by what they wait for now, and among equals by
number.

A queue may keep its tickets in any arrangement, as long as it sorts them when it is asked. So the
arrangement in which they are found when the queue is taken apart does not matter either
(`Ticket.sorted_eq_of_perm`).

Headlines:
* `reschedule_reschedule`: only the last time counts;
* `withNext_foldl_push`: what is put in later comes behind all that wait for the same instant;
* `reschedule_recomputes`: what all this does to a queue that any operations have led to.
-/

namespace Cron

namespace Ticket

variable {l l' : List Ticket}

/-- Tickets are sorted in the same way whatever arrangement they are found in. -/
theorem sorted_eq_of_perm (h : l.Perm l') (hl : l'.Pairwise fun t u => t.number ≠ u.number) :
    sorted l = sorted l' := by
  have hperm : (sorted l).Perm (sorted l') := (perm_sorted l).trans (h.trans (perm_sorted l').symm)
  have hsorted : (sorted l).Pairwise Before := pairwise_sorted (Agenda.distinct_of_perm h hl)
  refine hperm.eq_of_pairwise (fun t u _ _ htu hut => ?_) hsorted (pairwise_sorted hl)
  exact absurd ((htu.trans hut).number_lt rfl) (Nat.lt_irrefl _)

end Ticket

namespace Agenda

variable {a : Agenda} {q : Queue}

/-- However the tickets of an agenda are arranged, sorting them anew gives the fire order of the
queue. -/
theorem Represents.fireOrder_reschedule (h : a.Represents q) (z : Zone) (horizon : Int)
    (now : Instant) {heap : List Ticket} (hheap : heap.Perm a.tickets) :
    let rebuilt := Ticket.sorted (heap.map (Ticket.scheduledAfter z horizon now))
    rebuilt.Pairwise Ticket.Before ∧
      (q.reschedule z horizon now).fireOrder = rebuilt.map Ticket.entry := by
  intro rebuilt
  have hdistinct : (a.tickets.map (Ticket.scheduledAfter z horizon now)).Pairwise
      fun t u => t.number ≠ u.number := List.pairwise_map.mpr a.distinct
  -- the agenda sorts its own arrangement, so this is where the arrangement ceases to matter
  have hrebuilt : rebuilt = (a.reschedule z horizon now).tickets :=
    Ticket.sorted_eq_of_perm (hheap.map _) hdistinct
  rw [hrebuilt]
  exact ⟨(a.reschedule z horizon now).sorted, (h.reschedule z horizon now).fireOrder_eq⟩

end Agenda

namespace Queue

variable {q : Queue} {z : Zone} {horizon : Int} {now : Instant} {e : Entry}

/-- Only the last time counts at which all next occurrences are looked for. -/
theorem reschedule_reschedule (z z' : Zone) (horizon horizon' : Int) (now now' : Instant)
    (q : Queue) :
    (q.reschedule z horizon now).reschedule z' horizon' now' = q.reschedule z' horizon' now' :=
  congrArg Queue.mk List.map_map

theorem mem_reschedule (h : e ∈ (q.reschedule z horizon now).entries) :
    ∃ f ∈ q.entries, f.scheduledAfter z horizon now = e :=
  List.mem_map.mp h

theorem entries_foldl_push (added : List Entry) (q : Queue) :
    (added.foldl push q).entries = q.entries ++ added := by
  induction added generalizing q with
  | nil => exact (List.append_nil _).symm
  | cons e rest ih =>
    rw [List.foldl_cons, ih, push, List.append_assoc]
    rfl

/-- What is put in later comes behind all that wait for the same instant. -/
theorem withNext_foldl_push (next : Option Instant) (added : List Entry) (q : Queue) :
    withNext next (added.foldl push q).fireOrder = withNext next q.fireOrder ++ withNext next added := by
  rw [withNext_fireOrder, entries_foldl_push, withNext_append, withNext_fireOrder]

/-- **All next occurrences looked for anew.** Whatever was done to a queue before, the entries that it
holds stay the same, with their names, schedules and last firings, and stand as they were put in. Each
of them waits for the first occurrence after the given instant, which lies later, or for none. In
whatever arrangement the tickets are found, they are sorted by next occurrence and then by number, so
entries that wait for the same instant, or for none, come in the order in which they were put in.
Doing it once more changes nothing, and what is put in afterwards comes behind all that wait for the
same instant. -/
theorem reschedule_recomputes (operations : List QueueOperation) (z : Zone) (horizon : Int)
    (now : Instant) :
    let q := (replay perform empty operations).1
    let a := (replay Agenda.perform Agenda.empty operations).1
    let anew := q.reschedule z horizon now
    a.Represents q ∧
    anew.entries.map (fun e => (e.id, e.schedule, e.prev)) =
      q.entries.map (fun e => (e.id, e.schedule, e.prev)) ∧
    (∀ e ∈ anew.entries, e.next = e.schedule.firstAfter? z horizon now ∧
      ∀ t, e.next = some t → now < t) ∧
    (∀ heap : List Ticket, heap.Perm a.tickets →
      let rebuilt := Ticket.sorted (heap.map (Ticket.scheduledAfter z horizon now))
      rebuilt.Pairwise Ticket.Before ∧ anew.fireOrder = rebuilt.map Ticket.entry) ∧
    (∀ next, withNext next anew.fireOrder = withNext next anew.entries) ∧
    anew.reschedule z horizon now = anew ∧
    ∀ added next, withNext next (added.foldl push anew).fireOrder =
      withNext next anew.fireOrder ++ withNext next added := by
  intro q a anew
  have hrepresents : a.Represents q := (Agenda.represents_empty.replay operations).2
  refine ⟨hrepresents, List.map_map, fun e he => ?_, fun heap hheap => ?_,
    fun next => withNext_fireOrder next anew, reschedule_reschedule z z horizon horizon now now q,
    fun added next => withNext_foldl_push next added anew⟩
  · obtain ⟨f, -, rfl⟩ := mem_reschedule he
    exact ⟨rfl, fun t ht => Schedule.lt_of_firstAfter ht⟩
  · exact hrepresents.fireOrder_reschedule z horizon now hheap

/-- Three entries are left of four that were put in, and the last one of them fires first. Looked for
anew, it is due together with the first one, so that one comes in front again, though the tickets are
found the other way round. -/
theorem reschedule_recomputes_fire_order :
    let never := { calendarValues with dayOfMonth := ValueSet.ofList [32] }
    let operations : List QueueOperation :=
      [.push (waiting "late" calendarValues (Instant.ofSeconds 9)),
        .push (waiting "never" never (Instant.ofSeconds 8)),
        .push (waiting "early" calendarValues (Instant.ofSeconds 5)),
        .push (waiting "gone" calendarValues (Instant.ofSeconds 3)),
        .takeDue (Instant.ofSeconds 3)]
    let q := (replay perform empty operations).1
    let a := (replay Agenda.perform Agenda.empty operations).1
    let anew := q.reschedule .utc 5 (Instant.ofSeconds 0)
    a.tickets.reverse.Perm a.tickets ∧
      q.fireOrder.map (fun e => e.id.text) = ["early", "never", "late"] ∧
      anew.fireOrder.map (fun e => (e.id.text, e.next)) =
        [("late", some (Instant.ofSeconds 1)), ("early", some (Instant.ofSeconds 1)),
          ("never", none)] := by
  intro never operations q a anew
  obtain ⟨hrepresents, -, -, hheap, -⟩ :=
    reschedule_recomputes operations .utc 5 (Instant.ofSeconds 0)
  have hperm : a.tickets.reverse.Perm a.tickets := List.reverse_perm _
  refine ⟨hperm, ?_, ?_⟩
  · rw [show q.fireOrder = a.entries from hrepresents.fireOrder_eq]
    decide +kernel
  · rw [show anew.fireOrder = _ from (hheap _ hperm).2]
    decide +kernel

end Queue

end Cron
