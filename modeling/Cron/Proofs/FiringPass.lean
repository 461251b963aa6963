import Cron.Proofs.FireOrder

/-!
# One pass of firing

To fire what is due at an instant, entries are taken out at the head of the queue and put in again
at its end, until the head is due at another time. Put together, this parts the queue in two
(`fireAt_eq`): the entries that are not due then stay as they are, and behind them stand those that
were, each fired once, in the order in which they were put in.

An entry that fired is never due at the same instant again. That is why the pass ends, and why it
fires no entry twice.

Headlines:
* `fireAt_eq`: what a pass makes of a queue, and what it fires;
* `fireAt_pass`: the same from the outside, with the fire order before and after.
-/

namespace Cron.Queue

variable {z : Zone} {horizon : Int} {due : Instant} {q : Queue} {l : List Entry} {e : Entry}

/-- The entries that have another next occurrence than a given one. -/
def withoutNext (next : Option Instant) (l : List Entry) : List Entry :=
  l.filter fun e => decide (e.next ≠ next)

theorem withoutNext_append (next : Option Instant) (l l' : List Entry) :
    withoutNext next (l ++ l') = withoutNext next l ++ withoutNext next l' :=
  List.filter_append l l'

theorem withoutNext_eq_self {next : Option Instant} (h : ∀ e ∈ l, e.next ≠ next) :
    withoutNext next l = l :=
  List.filter_eq_self.mpr fun e he => decide_eq_true (h e he)

theorem withoutNext_cons_self (e : Entry) (l : List Entry) :
    withoutNext e.next (e :: l) = withoutNext e.next l :=
  List.filter_cons_of_neg (by simp)

/-- An entry in front of a list belongs to one of its two parts. -/
theorem parts_cons {next : Option Instant} (h : e.next = next) (l : List Entry) :
    withNext next (e :: l) = e :: withNext next l ∧ withoutNext next (e :: l) = withoutNext next l := by
  subst h
  exact ⟨withNext_cons_self e l, withoutNext_cons_self e l⟩

theorem withoutNext_eq_filter_not (next : Option Instant) (l : List Entry) :
    withoutNext next l = l.filter fun e => !decide (e.next = next) :=
  List.filter_congr fun _ _ => decide_not

/-- Each entry of a list belongs to one of its two parts. -/
theorem parts_perm (next : Option Instant) (l : List Entry) :
    (withoutNext next l ++ withNext next l).Perm l := by
  rw [withoutNext_eq_filter_not]
  exact List.perm_append_comm.trans (List.filter_append_perm _ l)

/-- If nothing is due before an instant, what is due then comes first in the fire order. -/
theorem fireOrder_eq_parts (hq : ∀ e ∈ q.entries, ∀ t, e.next = some t → due ≤ t) :
    q.fireOrder = withNext (some due) q.entries ++
      (⟨withoutNext (some due) q.entries⟩ : Queue).fireOrder := by
  have hdue : ∀ e ∈ q.fireOrder, dueLe e.next (some due) = decide (e.next = some due) := fun e he => by
    have hle := hq e (q.fireOrder_perm.mem_iff.mp he)
    cases hnext : e.next with
    | none => rfl
    | some t =>
      have hiff : t ≤ due ↔ some t = some due :=
        ⟨fun h => congrArg some (Instant.le_antisymm h (hle t hnext)),
          fun h => Option.some.inj h ▸ Instant.lt_irrefl t⟩
      exact decide_eq_decide.mpr hiff
  have hfirst : (q.fireOrder.filter fun e => dueLe e.next (some due)) =
      withNext (some due) q.entries := by
    rw [← withNext_fireOrder]
    exact List.filter_congr hdue
  have hlast : (q.fireOrder.filter fun e => !dueLe e.next (some due)) =
      (⟨withoutNext (some due) q.entries⟩ : Queue).fireOrder := by
    rw [withoutNext_eq_filter_not, fireOrder_filter]
    exact List.filter_congr fun e he => congrArg not (hdue e he)
  rw [← hfirst, ← hlast]
  exact q.fireOrder_split (some due)

/-- **A pass over a queue.** If nothing is due before an instant, the entries that are due then fire
in the order in which they were put in, and are put in behind the others. -/
theorem fireAt_eq (hq : ∀ e ∈ q.entries, ∀ t, e.next = some t → due ≤ t) :
    q.fireAt z horizon due =
      (⟨withoutNext (some due) q.entries ++
          (withNext (some due) q.entries).map (Entry.fire z horizon due)⟩,
        (withNext (some due) q.entries).map Entry.id) := by
  fun_induction fireAt z horizon due q with
  | case1 q hnone =>
    have hne : ∀ e ∈ q.entries, e.next ≠ some due := fun e he hnext =>
      takeDue?_eq_none_iff.mp hnone (peek_eq_some_iff.mpr ⟨⟨e, he, hnext⟩, hq⟩)
    rw [withNext_eq_nil hne, withoutNext_eq_self hne, List.map_nil, List.map_nil, List.append_nil]
  | case2 q e rest hpop after fired heq ih =>
    obtain ⟨-, hdue, before, behind, hentries, hrest, hbefore⟩ := of_takeDue hpop
    have hpushed : (rest.push (e.fire z horizon due)).entries =
        before ++ (behind ++ [e.fire z horizon due]) := by
      rw [push, hrest, List.append_assoc]
    have hfired : ∀ f ∈ [e.fire z horizon due], f.next ≠ some due :=
      List.forall_mem_singleton.mpr (fire_next_ne z horizon due e)
    have hpass := ih (le_of_push_fire hq hpop)
    rw [heq, hpushed, withNext_append, withoutNext_append, withNext_append, withoutNext_append,
      withNext_eq_nil hbefore, withoutNext_eq_self hbefore, withNext_eq_nil hfired,
      withoutNext_eq_self hfired, List.nil_append, List.append_nil] at hpass
    obtain ⟨rfl, rfl⟩ := Prod.mk.inj hpass
    -- what was taken out is first among those that are due, and last among those that are not
    rw [hentries, withNext_append, withoutNext_append, withNext_eq_nil hbefore,
      withoutNext_eq_self hbefore, (parts_cons hdue behind).1, (parts_cons hdue behind).2]
    simp

/-- **One pass of firing.** If the head of the queue is due at an instant, exactly the entries that are
due then fire, each once and in the order in which they were put in. They fired last at that instant
and are due next where the search after it says, so nothing is due at that instant any more. All the
others stay as they are, in their order, and those that fired come behind them where they are due at
the same time. No entry is added or lost. If the head is due at another time, or never, nothing
happens. -/
theorem fireAt_pass (z : Zone) (horizon : Int) (due : Instant) (q : Queue) :
    (q.peek = some due →
      let fired := withNext (some due) q.entries
      let others := withoutNext (some due) q.entries
      let again := fired.map fun e =>
        { e with prev := some due, next := e.schedule.firstAfter? z horizon due }
      let after := (q.fireAt z horizon due).1
      (q.fireAt z horizon due).2 = fired.map Entry.id ∧
      q.fireOrder = fired ++ (⟨others⟩ : Queue).fireOrder ∧
      after.entries = others ++ again ∧
      (∀ e ∈ after.entries, e.next ≠ some due) ∧
      (⟨others⟩ : Queue).fireOrder.Sublist after.fireOrder ∧
      (∀ next, withNext next after.fireOrder = withNext next others ++ withNext next again) ∧
      (after.entries.map Entry.id).Perm (q.entries.map Entry.id)) ∧
    (q.peek ≠ some due → q.fireAt z horizon due = (q, [])) := by
  constructor
  · intro hpeek fired others again after
    have hq := (peek_eq_some_iff.mp hpeek).2
    have hpass : q.fireAt z horizon due = (⟨others ++ again⟩, fired.map Entry.id) := fireAt_eq hq
    have hafter : after.entries = others ++ again := by
      simp only [after, hpass]
    refine ⟨by rw [hpass], fireOrder_eq_parts hq, hafter, ?_, ?_, fun next => ?_, ?_⟩
    · rw [hafter]
      exact List.forall_mem_append.mpr ⟨fun e he => of_decide_eq_true (List.mem_filter.mp he).2,
        List.forall_mem_map.mpr fun e _ => fire_next_ne z horizon due e⟩
    · rw [show after = ⟨others ++ again⟩ from congrArg Prod.fst hpass]
      exact fireOrder_sublist_append others again
    · rw [withNext_fireOrder, hafter, withNext_append]
    · have hid : again.map Entry.id = fired.map Entry.id := List.map_map
      rw [hafter, List.map_append, hid, ← List.map_append]
      exact (parts_perm (some due) q.entries).map Entry.id
  · intro hpeek
    have hnone := takeDue?_eq_none_iff.mpr hpeek
    unfold fireAt
    split
    next => rfl
    next e rest hpop => cases hnone.symm.trans hpop

/-- An entry waiting for an instant, with the values that its schedule allows. -/
def waiting (name : String) (allowed : PerField ValueSet) (next : Instant) : Entry :=
  { id := ⟨name⟩, schedule := { text := name, allowed }, next := some next, prev := none }

/-- Of two entries that are due, one fires again at the instant for which a third one waits, and the
other one was due for the last time. -/
theorem fireAt_pass_of_three :
    let due := Instant.ofSeconds 0
    let later := Instant.ofSeconds 1
    let q : Queue := ⟨[waiting "a" calendarValues due, waiting "b" calendarValues later,
      waiting "c" { calendarValues with dayOfMonth := .ofList [32] } due]⟩
    q.peek = some due ∧ (q.fireAt .utc 5 due).2 = [⟨"a"⟩, ⟨"c"⟩] ∧
      (q.fireAt .utc 5 due).1.entries.map (fun e => (e.id.text, e.prev, e.next)) =
        [("b", none, some later), ("a", some due, some later), ("c", some due, none)] ∧
      q.fireAt .utc 5 later = (q, []) := by
  intro due later q
  have hpeek : q.peek = some due := by decide +kernel
  obtain ⟨hfired, -, hafter, -⟩ := (fireAt_pass .utc 5 due q).1 hpeek
  have hlater : q.peek ≠ some later := by
    rw [hpeek]
    decide
  refine ⟨hpeek, hfired.trans (by decide +kernel), ?_, (fireAt_pass .utc 5 later q).2 hlater⟩
  rw [hafter]
  decide +kernel

end Cron.Queue
