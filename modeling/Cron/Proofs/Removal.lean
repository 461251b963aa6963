import Cron.Proofs.Dispatch
import Cron.Proofs.Registration

/-!
# Entries that have been removed

A `remove` has been answered long before it is handled. It waits in the channel while the entry may
be overdue, and the queue may change hands before anyone looks at the channel. Still the entry is
gone for good, for two reasons. What is registered already accounts for the commands that wait
(`Scheduler.registered?`), so a name is not registered any more from the moment at which its removal
is sent. And a loop fires only when no command waits, so it fires only what is registered.

Headlines:
* `Trace.lacks`: moves that do not add a name that is not registered never fire it;
* `removed_for_good`: once a `remove` has been answered, its name never fires again, and it is not
  listed any more.
-/

namespace Cron

/-- A registration after a command was there before, or it is that of the entry that is added. -/
theorem Command.mem_record {command : Command} {l : List Registration} {r : Registration}
    (h : r ∈ command.record l) : r ∈ l ∨ ∃ e, command = .add e ∧ r = e.registration := by
  cases command with
  | add e =>
    rcases List.mem_append.mp h with h | h
    · exact .inl h
    · exact .inr ⟨e, rfl, List.mem_singleton.mp h⟩
  | remove id => exact .inl (List.mem_filter.mp h).1
  | list => exact .inl h

theorem Command.mem_foldl_record {commands : List Command} {l : List Registration}
    {r : Registration} (h : r ∈ commands.foldl Command.record l) :
    r ∈ l ∨ ∃ e, .add e ∈ commands ∧ r = e.registration := by
  induction commands generalizing l with
  | nil => exact .inl h
  | cons command rest ih =>
    rcases ih h with h | ⟨e, he, hr⟩
    · rcases mem_record h with h | ⟨e, rfl, hr⟩
      · exact .inl h
      · exact .inr ⟨e, List.mem_cons_self, hr⟩
    · exact .inr ⟨e, List.mem_cons_of_mem command he, hr⟩

namespace Scheduler

variable {s t : Scheduler} {deed : Deed} {deeds : List Deed} {id : EntryId} {now limit : Instant}
  {log : List Firing} {l : List Entry}

/-- No entry of a name is registered. -/
def Lacks (id : EntryId) (s : Scheduler) : Prop :=
  ∀ l, s.registered? = some l → ∀ r ∈ l, r.id ≠ id

/-- A loop fires what is registered. -/
theorem Move.registered_of_fired {firing : Firing} (h : Move s (.fired firing) t) :
    ∃ l, s.registered? = some l ∧ ∃ r ∈ l, r.id = firing.id := by
  cases h with
  | @fire q rest e due clock h hpending htake =>
    obtain ⟨-, -, before, behind, hq, -⟩ := Queue.of_takeDue htake
    refine ⟨q.registrations, ?_, e.registration, ?_, rfl⟩
    · rw [registered?, h, hpending]
      rfl
    · rw [Queue.registrations, hq]
      exact List.mem_map_of_mem (List.mem_append_right before List.mem_cons_self)

/-- Commands that do not add a name leave it unregistered. -/
theorem Lacks.of_trace (h : s.Lacks id) (htrace : Trace s deeds t)
    (hsent : (deeds.filterMap Deed.sent?).countP (Command.adds id) = 0) : t.Lacks id := by
  intro l hl r hr hid
  obtain ⟨before, hbefore, hperm⟩ := htrace.registered hl
  rcases Command.mem_foldl_record (hperm.mem_iff.mp hr) with hr | ⟨e, he, rfl⟩
  · exact h before hbefore r hr hid
  · have hadds : Command.adds id (.add e) = true := decide_eq_true hid
    exact List.countP_eq_zero.mp hsent _ he hadds

/-- Moves that do not add a name that is not registered never fire it. -/
theorem Trace.lacks (h : Trace s deeds t) (hs : s.Lacks id)
    (hsent : (deeds.filterMap Deed.sent?).countP (Command.adds id) = 0) :
    t.Lacks id ∧ ∀ firing ∈ deeds.filterMap Deed.fired?, firing.id ≠ id := by
  refine ⟨hs.of_trace h hsent, fun firing hfiring hid => ?_⟩
  obtain ⟨deed, hdeed, hfired⟩ := List.mem_filterMap.mp hfiring
  obtain ⟨earlier, later, rfl⟩ := List.append_of_mem hdeed
  rw [List.filterMap_append, List.countP_append] at hsent
  obtain ⟨u, hfirst, hsecond⟩ := h.split
  cases deed with
  | fired other =>
    cases hfired
    cases hsecond with
    | cons head tail =>
      obtain ⟨l, hl, r, hr, hrid⟩ := head.registered_of_fired
      exact hs.of_trace hfirst (by omega) l hl r hr (hrid.trans hid)
  | _ => cases hfired

/-- Tasks do not fire a name that is not registered. -/
theorem Tasks.lacks (h : Tasks now limit s log t) (hs : s.Lacks id) :
    t.Lacks id ∧ ∀ firing ∈ log, firing.id ≠ id := by
  obtain ⟨deeds, htrace, htimely, rfl⟩ := h
  have hsent : deeds.filterMap Deed.sent? = [] :=
    List.filterMap_eq_nil_iff.mpr fun deed hdeed => by
      have := htimely deed hdeed
      cases deed <;> first | rfl | cases this
  exact htrace.lacks hs (by rw [hsent]; rfl)

/-- What is not registered is not listed. -/
theorem Lacks.not_listed (h : s.Lacks id) (hlist : (s.entries now).2 = .ok l) :
    ∀ e ∈ l, e.id ≠ id := by
  obtain ⟨t, q, htasks, hqueue, hpending, rfl⟩ := @exists_tasks_of_listed s now now l hlist
  have hq : t.registered? = some q.registrations := by
    rw [registered?, hqueue, hpending]
    rfl
  intro e he
  exact (htasks.lacks h).1 _ hq _ (List.mem_map_of_mem (q.fireOrder_perm.mem_iff.mp he))

end Scheduler

namespace Session

variable {session : Session} {x : Step} {steps : List Step} {id : EntryId}

/-- A step that does not add a name that is not registered neither fires nor lists it. -/
theorem lacks_take (h : session.scheduler.Lacks id) (hadds : id ∉ addedIds (session.history [x])) :
    (session.take x).session.scheduler.Lacks id ∧
      (∀ firing ∈ (session.take x).fired, firing.id ≠ id) ∧
      ∀ entries, x.call = .entries → (session.take x).reply = .ok (.listing entries) →
        ∀ e ∈ entries, e.id ≠ id := by
  obtain ⟨deeds, hcourse⟩ := session.exists_course x
  have hsent := x.call.countP_commands_le (session.take x).reply id
  rw [history, addedIds, filterMap_cons_eq_append, List.mem_append, not_or] at hadds
  rw [List.count_eq_zero.mpr hadds.1, ← hcourse.sent_eq] at hsent
  obtain ⟨hlacks, hfired⟩ := hcourse.trace.lacks h (Nat.le_zero.mp hsent)
  rw [hcourse.fired_eq] at hfired
  refine ⟨hlacks, hfired, fun entries hcall hreply => ?_⟩
  rw [reply_take, hcall] at hreply
  change (session.scheduler.entries session.clock).2.map Reply.listing = _ at hreply
  cases hresult : (session.scheduler.entries session.clock).2 with
  | ok listed =>
    rw [hresult] at hreply
    cases hreply
    exact h.not_listed hresult
  | error e =>
    rw [hresult] at hreply
    cases hreply

/-- As long as a name that is not registered is not added, it neither fires nor is it listed. -/
theorem lacks_after (h : session.scheduler.Lacks id) (hadds : id ∉ addedIds (session.history steps)) :
    (∀ firing ∈ session.firings steps, firing.id ≠ id) ∧
      ∀ entries, (.entries, .ok (.listing entries)) ∈ session.history steps →
        ∀ e ∈ entries, e.id ≠ id := by
  induction steps generalizing session with
  | nil => exact ⟨nofun, nofun⟩
  | cons x rest ih =>
    rw [← List.singleton_append, addedIds_history_append, List.mem_append, not_or] at hadds
    obtain ⟨hnext, hfired, hlisted⟩ := lacks_take h hadds.1
    obtain ⟨hfired', hlisted'⟩ := ih hnext hadds.2
    refine ⟨fun firing hfiring => ?_, fun entries hmem => ?_⟩
    · rcases List.mem_append.mp hfiring with hfiring | hfiring
      · exact hfired firing hfiring
      · exact hfired' firing hfiring
    · rcases List.mem_cons.mp hmem with heq | hmem
      · obtain ⟨hcall, hreply⟩ := Prod.mk.inj heq
        exact hlisted entries hcall.symm hreply.symm
      · exact hlisted' entries hmem

/-- A `remove` is answered if commands can be sent. -/
theorem reply_take_remove (session : Session) (id : EntryId) (settles : Bool) :
    (session.take ⟨.remove id, settles⟩).reply =
      if session.scheduler.channelOpen then .ok .done else .error (.loopGone .channelClosed) := by
  rw [reply_take]
  simp only [perform, Scheduler.remove, Scheduler.send]
  split <;> rfl

/-- Once a `remove` has been answered, its name is not registered, and has not fired since. -/
theorem lacks_take_remove {settles : Bool} {reply : Reply}
    (h : (session.take ⟨.remove id, settles⟩).reply = .ok reply) :
    (session.take ⟨.remove id, settles⟩).session.scheduler.Lacks id ∧
      ∀ firing ∈ (session.take ⟨.remove id, settles⟩).fired, firing.id ≠ id := by
  obtain ⟨asked, s, hasked, htasks⟩ := session.take_spec ⟨.remove id, settles⟩
  refine htasks.lacks fun l hl r hr => ?_
  obtain ⟨before, -, hperm⟩ := hasked.trace.registered hl
  rw [hasked.sent_eq, h] at hperm
  exact of_decide_eq_true (List.mem_filter.mp (hperm.mem_iff.mp hr)).2

/-- **A removal is final.** Once a `remove` has been answered, its name does not fire any more and is
not listed any more, whatever happens afterwards, unless it is given out again. That holds from the
answer on: the command may still be waiting then, and the entry may be overdue. -/
theorem removed_for_good (session : Session) (id : EntryId) (settles : Bool) (rest : List Step)
    (reply : Reply) (hreply : (session.take ⟨.remove id, settles⟩).reply = .ok reply)
    (hadds : id ∉ addedIds ((session.take ⟨.remove id, settles⟩).session.history rest)) :
    (∀ firing ∈ session.firings (⟨.remove id, settles⟩ :: rest), firing.id ≠ id) ∧
      ∀ entries,
        (.entries, .ok (.listing entries)) ∈ session.history (⟨.remove id, settles⟩ :: rest) →
          ∀ e ∈ entries, e.id ≠ id := by
  obtain ⟨hlacks, hfired⟩ := lacks_take_remove hreply
  obtain ⟨hfired', hlisted⟩ := lacks_after hlacks hadds
  refine ⟨fun firing hfiring => ?_, fun entries hmem => ?_⟩
  · rcases List.mem_append.mp hfiring with hfiring | hfiring
    · exact hfired firing hfiring
    · exact hfired' firing hfiring
  · rcases List.mem_cons.mp hmem with heq | hmem
    · cases heq
    · exact hlisted entries hmem

/-- Two entries are overdue when one of them is removed. A stop is signalled before the loop wakes up,
and a start is refused; the scheduler is started again later. Only the other entry fires. -/
theorem removed_for_good_when_overdue :
    let start := new { zone := .utc, horizon := 5, idleSeconds := 86400 } (Instant.ofSeconds 0)
    let session := start.after
      [⟨.add ⟨"a"⟩ "*/10 * * * * *", true⟩, ⟨.add ⟨"b"⟩ "*/10 * * * * *", true⟩, ⟨.start true, true⟩,
        ⟨.setClock (Instant.ofSeconds 25), true⟩]
    let x : Step := ⟨.remove ⟨"a"⟩, false⟩
    let rest : List Step :=
      [⟨.setClock (Instant.ofSeconds 35), true⟩, ⟨.stopWithoutWaiting, true⟩, ⟨.start true, true⟩,
        ⟨.runTasks, true⟩, ⟨.start true, false⟩, ⟨.advance 10000, true⟩, ⟨.entries, true⟩]
    (session.take x).reply = .ok .done ∧ ⟨"a"⟩ ∉ addedIds ((session.take x).session.history rest) ∧
      duesOf ⟨"b"⟩ (session.firings (x :: rest)) = [Instant.ofSeconds 40] ∧
      (∀ firing ∈ session.firings (x :: rest), firing.id ≠ ⟨"a"⟩) ∧
      ∀ entries, (.entries, .ok (.listing entries)) ∈ session.history (x :: rest) →
        ∀ e ∈ entries, e.id ≠ ⟨"a"⟩ := by
  intro start session x rest
  have hopen : session.scheduler.channelOpen = true := by decide +kernel
  have hreply : (session.take x).reply = .ok .done :=
    (reply_take_remove session _ _).trans (if_pos hopen)
  have hadds : ⟨"a"⟩ ∉ addedIds ((session.take x).session.history rest) := by decide +kernel
  refine ⟨hreply, hadds, by decide +kernel, ?_⟩
  exact removed_for_good session ⟨"a"⟩ false rest .done hreply hadds

end Session

end Cron
