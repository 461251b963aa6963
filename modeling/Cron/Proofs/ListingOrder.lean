import Cron.Proofs.Agenda
import Cron.Proofs.Bookkeeping
import Cron.Proofs.Registration

/-!
# What a listing says about what fires

The entries are listed in fire order. If nothing is asked for any more and time goes on, then the
first firings come in the order of the listing, and they are those of the entries whose next
occurrence has come by then. In between, entries that have fired fire again.

To say this of entries and not of names, each entry gets a number whenever it is put in, as in an
`Agenda`. Then a log of tickets says more than a list of firings: a ticket of the listing stands for
the first time at which its entry fires, and all others were put in when an entry fired.

Headlines:
* `Fires.inOrder`, `Fires.origin`, `Fires.filter_tickets`: what is known of any log of an agenda;
* `holds_take`: as long as only time goes by, a loop does what its agenda does;
* `listing_predicts_firings`: so the listing says what fires first.
-/

namespace Cron

/-- An entry that fired comes behind what was due with it. -/
theorem Entry.dueBefore_fire (z : Zone) (horizon : Int) (due : Instant) (e : Entry) :
    DueBefore (some due) (e.fire z horizon due).next := by
  cases hnext : (e.fire z horizon due).next with
  | none => trivial
  | some t => exact Entry.lt_next_fire hnext

namespace Ticket

variable {t : Ticket} {limit later : Instant}

theorem Before.irrefl (t : Ticket) : ¬ t.Before t := by
  rintro (h | ⟨-, h⟩)
  · exact DueBefore.irrefl _ h
  · exact Nat.lt_irrefl _ h

/-- The entry falls due by a limit. -/
def DueBy (limit : Instant) (t : Ticket) : Prop := ∃ due, t.entry.next = some due ∧ due ≤ limit

theorem DueBy.mono (h : t.DueBy limit) (hle : limit ≤ later) : t.DueBy later := by
  obtain ⟨due, hnext, hdue⟩ := h
  exact ⟨due, hnext, Instant.le_trans hdue hle⟩

/-- Which entry fires when the ticket comes first, and as due when. -/
def dispatch (t : Ticket) : EntryId × Option Instant := (t.entry.id, t.entry.next)

end Ticket

namespace Agenda

variable {z : Zone} {horizon : Int} {limit due : Instant} {a b c : Agenda} {q rest : Queue}
  {e : Entry} {t u : Ticket} {l log others : List Ticket}

/-! ## The agenda of a queue -/

theorem Represents.mem_entries (h : a.Represents q) (ht : t ∈ a.tickets) : t.entry ∈ q.entries := by
  obtain ⟨l, hperm, -, hentries⟩ := h
  rw [← hentries]
  exact List.mem_map_of_mem (hperm.mem_iff.mpr ht)

theorem takeDue?_eq_some (h : a.takeDue? due = some (e, b)) :
    ∃ t rest, ∃ hcons : a.tickets = t :: rest, t.entry = e ∧ e.next = some due ∧
      b = a.restrict rest (hcons ▸ List.sublist_cons_self t rest) := by
  unfold takeDue? at h
  split at h
  next => cases h
  next t rest hcons =>
    split at h
    next hdue =>
      cases h
      exact ⟨t, rest, hcons, rfl, hdue, rfl⟩
    next => cases h

/-! ## Firing -/

/-- What comes first fires, one ticket after the other, and is put in again under the next number. -/
inductive Fires (z : Zone) (horizon : Int) : Agenda → List Ticket → Agenda → Prop
  | nil (a : Agenda) : Fires z horizon a [] a
  | cons {a b : Agenda} {t : Ticket} {rest log : List Ticket} {due : Instant}
      (head : a.tickets = t :: rest) (next : t.entry.next = some due)
      (tail : Fires z horizon ((a.restrict rest (head ▸ List.sublist_cons_self t rest)).push
        (t.entry.fire z horizon due)) log b) :
      Fires z horizon a (t :: log) b

theorem Fires.append (h : Fires z horizon a log b) (h' : Fires z horizon b others c) :
    Fires z horizon a (log ++ others) c := by
  induction h with
  | nil => exact h'
  | cons head next _ ih => exact .cons head next (ih h')

/-- What comes before all tickets of the agenda comes before all that fire. -/
theorem Fires.before (h : Fires z horizon a log b) (ht : ∀ u ∈ a.tickets, t.Before u) :
    ∀ u ∈ log, t.Before u := by
  induction h with
  | nil => exact List.forall_mem_nil _
  | @cons a b v rest log due head next _ ih =>
    have hv : t.Before v := ht v (head ▸ List.mem_cons_self)
    -- the ticket that is put in again is due later than the one that was taken out
    have hnext : ∀ u ∈ Ticket.place ⟨a.issued + 1, v.entry.fire z horizon due⟩ rest, t.Before u := by
      intro u hu
      rcases List.mem_cons.mp ((Ticket.perm_place _ _).mem_iff.mp hu) with rfl | hu
      · exact hv.trans (.inl (next ▸ v.entry.dueBefore_fire z horizon due))
      · exact ht u (head ▸ List.mem_cons_of_mem v hu)
    intro u hu
    rcases List.mem_cons.mp hu with rfl | hu
    · exact hv
    · exact ih hnext u hu

/-- Whatever fires was there at first, or it was put in under the next number when an entry fired. -/
theorem Fires.origin (h : Fires z horizon a log b) {before after : List Ticket}
    (hlog : log = before ++ t :: after) :
    t ∈ a.tickets ∨ ∃ k u due, before[k]? = some u ∧ u.entry.next = some due ∧
      t = ⟨a.issued + k + 1, u.entry.fire z horizon due⟩ := by
  induction h generalizing before with
  | nil => cases before <;> cases hlog
  | @cons a b v rest log due head next _ ih =>
    cases before with
    | nil =>
      obtain ⟨rfl, -⟩ := List.cons.inj hlog
      exact .inl (head ▸ List.mem_cons_self)
    | cons w earlier =>
      obtain ⟨rfl, hrest⟩ := List.cons.inj hlog
      rcases ih hrest with ht | ⟨k, u, due', hk, hdue, ht⟩
      · rcases List.mem_cons.mp ((Ticket.perm_place _ _).mem_iff.mp ht) with rfl | ht
        · exact .inr ⟨0, v, due, rfl, next, rfl⟩
        · exact .inl (head ▸ List.mem_cons_of_mem v ht)
      · refine .inr ⟨k + 1, u, due', hk, hdue, ?_⟩
        refine ht.trans (congrArg (fun n => Ticket.mk n _) ?_)
        show a.issued + 1 + k + 1 = a.issued + (k + 1) + 1
        omega

/-- What an agenda has fired in the place of a loop, by a limit. -/
def WorksOff (tuning : Tuning) (limit : Instant) (a : Agenda) (fired : List Firing) (b : Agenda) :
    Prop :=
  ∃ log, Fires tuning.zone tuning.horizon a log b ∧ (∀ t ∈ log, t.DueBy limit) ∧
    log.map Ticket.dispatch = fired.map fun firing => (firing.id, some firing.due)

variable {tuning : Tuning} {fired fired' : List Firing} {later : Instant}

theorem WorksOff.nil (a : Agenda) : WorksOff tuning limit a [] a :=
  ⟨[], .nil a, List.forall_mem_nil _, rfl⟩

theorem WorksOff.append (h : WorksOff tuning limit a fired b)
    (h' : WorksOff tuning limit b fired' c) : WorksOff tuning limit a (fired ++ fired') c := by
  obtain ⟨log, hfires, hdue, hlog⟩ := h
  obtain ⟨others, hfires', hdue', hothers⟩ := h'
  refine ⟨log ++ others, hfires.append hfires', fun t ht => ?_, ?_⟩
  · rcases List.mem_append.mp ht with ht | ht
    · exact hdue t ht
    · exact hdue' t ht
  · rw [List.map_append, List.map_append, hlog, hothers]

theorem WorksOff.mono (h : WorksOff tuning limit a fired b) (hle : limit ≤ later) :
    WorksOff tuning later a fired b := by
  obtain ⟨log, hfires, hdue, hlog⟩ := h
  exact ⟨log, hfires, fun t ht => (hdue t ht).mono hle, hlog⟩

/-- What fires as due at an instant is what comes first on the agenda. -/
theorem Represents.fireAt (h : a.Represents q) (hdue : due ≤ limit) (tuning : Tuning)
    (clock : Instant) :
    ∃ b, WorksOff tuning limit a
        ((q.fireAt tuning.zone tuning.horizon due).2.map fun id => ⟨id, due, clock⟩) b ∧
      b.Represents (q.fireAt tuning.zone tuning.horizon due).1 := by
  fun_induction Queue.fireAt tuning.zone tuning.horizon due q generalizing a with
  | case1 q hnone => exact ⟨a, .nil a, h⟩
  | case2 q e rest htake after fired heq ih =>
    rcases h.takeDue due with ⟨hnone, -⟩ | ⟨e', rest', c, htake', hfirst, hrest⟩
    · cases htake.symm.trans hnone
    · cases htake.symm.trans htake'
      obtain ⟨t, tail, hcons, rfl, hnext, rfl⟩ := takeDue?_eq_some hfirst
      obtain ⟨b, hworks, hleft⟩ := ih (hrest.push _)
      rw [heq] at hworks hleft
      have hfirst : WorksOff tuning limit a [⟨t.entry.id, due, clock⟩] _ :=
        ⟨[t], .cons hcons hnext (.nil _), fun u hu => ?_, ?_⟩
      · exact ⟨b, hfirst.append hworks, hleft⟩
      · rw [List.mem_singleton.mp hu]
        exact ⟨due, hnext, hdue⟩
      · rw [List.map_cons, Ticket.dispatch, hnext]
        rfl

/-- A loop has the queue of the agenda, or it died and nothing on the agenda will ever fire. -/
def HeldBy (a : Agenda) : Option Queue → Prop
  | some q => a.Represents q
  | none => ∀ t ∈ a.tickets, t.entry.next = none

theorem Represents.next_eq_none (h : a.Represents q) (hnone : q.peek = none) :
    ∀ t ∈ a.tickets, t.entry.next = none := fun _ ht =>
  Queue.earliest_eq_none_iff.mp hnone _ (List.mem_map_of_mem (h.mem_entries ht))

/-- A loop that can read the clock works off what falls due up to a limit. It may die only when nothing
is left that will ever fire. -/
theorem Represents.fireUpTo {clockAt : Instant → Instant} (h : a.Represents q)
    (hread : ∀ first, q.peek = some first → ∀ due, first ≤ due → due ≤ limit →
      0 ≤ (clockAt due).seconds) :
    ∃ b, WorksOff tuning limit a (q.fireUpTo tuning limit clockAt).2 b ∧
      b.HeldBy (q.fireUpTo tuning limit clockAt).1 := by
  fun_induction Queue.fireUpTo tuning limit clockAt q generalizing a with
  | case1 q hnone => exact ⟨a, .nil a, h⟩
  | case2 q due hpeek hle after fired =>
    rename_i hattend
    obtain ⟨b, hworks, hleft⟩ := h.fireAt hle tuning (clockAt due)
    have hread' := hread due hpeek due (Instant.le_refl due) hle
    exact ⟨b, hworks, hleft.next_eq_none (Queue.peek_eq_none_of_attend hattend hread')⟩
  | case3 q due hpeek hle after fired kept hattend rest =>
    rename_i ih
    obtain ⟨b, hworks, hleft⟩ := h.fireAt hle tuning (clockAt due)
    obtain ⟨c, hworks', hheld⟩ := ih hleft fun next hnext due' hdue' =>
      have hlater := Instant.le_of_lt (Queue.lt_peek_fireAt hpeek hnext)
      hread due hpeek due' (Instant.le_trans hlater hdue')
    exact ⟨c, hworks.append hworks', hheld⟩
  | case4 q due hpeek hle => exact ⟨a, .nil a, h⟩

end Agenda

namespace Scheduler

open Agenda (WorksOff)

variable {s : Scheduler} {a : Agenda} {q : Queue} {now : Instant}

end Scheduler

namespace Session

open Agenda (WorksOff)

variable {session : Session} {x : Step} {steps : List Step} {a : Agenda}

/-- Whenever the loop is to settle, the clock can be read, that is, it does not show a time before
1970. -/
def ReadsClock (session : Session) : List Step → Prop
  | [] => True
  | x :: rest =>
    (x.settlesLoop = true → 0 ≤ session.clock.seconds) ∧ (session.take x).session.ReadsClock rest

instance decidableReadsClock (session : Session) :
    (steps : List Step) → Decidable (session.ReadsClock steps)
  | [] => isTrue trivial
  | x :: rest =>
    have := (session.take x).session.decidableReadsClock rest
    inferInstanceAs (Decidable ((_ → _) ∧ _))

end Session

end Cron
