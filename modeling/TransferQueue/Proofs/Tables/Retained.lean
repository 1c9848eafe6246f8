import TransferQueue.Proofs.Failures
import TransferQueue.Proofs.Tables.Desk

/-!
# The table of failures

The report of a failure stays in a table of its own until its transfer is tried again, finishes in
another way, or loses its row.  The table is written in four places: when a row comes, when one
finishes, when rows go, and when a transfer is restarted.  That it has a report for exactly the failed
transfers, and the latest one, is therefore a fact about whole runs.

* `Desk.failures`, `Desk.failuresIn`: the failures that actions and runs bring;
* `Tables.loses_restart`: what it is to restart a transfer whose report is held;
* `Desk.failures_retained`: what follows for every run of an empty desk.
-/

namespace TransferQueue

/-! ## Another try -/

namespace Tables

variable {t : Tables} {q : Queue} {tag : Tag} {r : Report}

/-- When the report of a failure is held, there is a row, which goes with all that was held for its
transfer, and the report goes back to the engine. -/
theorem loses_restart (h : t.Represents q) (hretained : t.retained[tag]? = some r) :
    ∃ n t', t.rowOf? tag = some n ∧ t.Loses tag t'
      ∧ t.restart tag = ⟨t', true, .removed n n :: t'.emptied true, [.restart r]⟩ := by
  obtain ⟨row, hfound, -⟩ := Option.bind_eq_some_iff.1 ((h.retained tag).symm.trans hretained)
  obtain ⟨hmem, rfl⟩ := (Queue.find?_eq_some_iff h.nodup).1 hfound
  obtain ⟨before, after, hrows⟩ := List.append_of_mem hmem
  have hplace : t.rowOf? row.tag = some before.length :=
    (h.rowOf?_eq row.tag).trans (Queue.place?_of_locate? (Queue.locate?_of_split h.nodup hrows))
  have hplace' : ({ t with retained := t.retained.erase row.tag } : Tables).rowOf? row.tag
      = some before.length := hplace
  refine ⟨before.length, _, hplace, h.loses_removeRange hrows, ?_⟩
  simp only [restart, hretained, hplace']

/-! ## The history -/

/-- The reports of transfers that have no entry, of each transfer the first. -/
def fresh (t : Tables) (rs : List Report) : List Report :=
  (rs.filter fun r => !t.entries.contains r.tag).eraseDupsBy fun a b => a.tag == b.tag

theorem Represents.fresh_eq (h : t.Represents q) (rs : List Report) : t.fresh rs = q.fresh rs := by
  simp only [fresh, Queue.fresh, h.contains_eq]

end Tables

namespace Desk

/-- The failures among events that arrive one after the other. -/
def failuresHeard (now : Instant) : List Event → Desk → List Report
  | [], _ => []
  | event :: events, d =>
    let first := d.hear now event
    match first.answer with
    | .error _ => []
    | .ok _ => event.failures first.answer ++ failuresHeard now events first.state

/-- The failures that an action brings: transfers that get a row as failed ones, and transfers with a
row that finish as failed ones. -/
def failures (d : Desk) : Action → List Report
  | .hear now event => event.failures (d.hear now event).answer
  | .hearAll now events => failuresHeard now events d
  | .takeIn now event => event.failures (d.takeIn now event).answer
  | .insert r place =>
    (Event.started r).failures (d.tables.insert d.config.paceWeight r place).answer
  | .load size listing =>
    (d.tables.fresh listing.toLoad).filter fun r =>
      (d.load size listing).state.tables.entries.contains r.tag && r.phase == .failed
  | _ => []

/-- The failures that a run brings. -/
def failuresIn (d : Desk) : List Action → List Report
  | [] => []
  | action :: actions => d.failures action ++ failuresIn (d.perform action).state actions

variable {d : Desk} {b : Board}

theorem failuresHeard_eq (h : d.Represents b) (now : Instant) (events : List Event) :
    failuresHeard now events d = Board.failuresHeard now events b := by
  induction events generalizing d b with
  | nil => rfl
  | cons event events ih =>
    have hfirst := h.hear now event
    rw [failuresHeard, Board.failuresHeard, hfirst.answer]
    rcases (b.hear now event).answer with e | heard
    · rfl
    · exact congrArg (event.failures (.ok heard) ++ ·) (ih hfirst.state)

theorem failures_eq (h : d.Represents b) (action : Action) : d.failures action = b.failures action := by
  cases action with
  | hear now event => rw [failures, Board.failures, (h.hear now event).answer]
  | hearAll now events => exact failuresHeard_eq h now events
  | takeIn now event => rw [failures, Board.failures, (h.takeIn now event).answer]
  | insert r place =>
    rw [failures, Board.failures, (h.tables.insert _ r place).answer, h.config]
  | load size listing =>
    have hload : (d.load size listing).Alike Represents (b.load size listing) := by
      rw [load, Board.load, ← h.config]
      exact h.onTables (h.tables.loadListing _ size listing)
    simp only [failures, Board.failures, h.tables.fresh_eq, hload.state.tables.contains_eq]
  | _ => rfl

theorem failuresIn_eq (h : d.Represents b) (actions : List Action) :
    d.failuresIn actions = b.failuresIn actions := by
  induction actions generalizing d b with
  | nil => rfl
  | cons action actions ih =>
    rw [failuresIn, Board.failuresIn, failures_eq h, ih (alike_perform h action).state]

/-! ## What is held after a run -/

/-- A report is held for exactly the transfers whose entry has failed. -/
theorem mem_retained_iff (h : d.Represents b) (reached : b.Reached) (tag : Tag) :
    tag ∈ d.tables.retained ↔ ∃ e, d.tables.entries[tag]? = some e ∧ e.phase = .failed := by
  rw [Std.HashMap.mem_iff_isSome_getElem?, h.tables.retained, h.tables.entries]
  rcases hfound : b.queue.find? tag with _ | row
  · simp
  · have hmem := ((Queue.find?_eq_some_iff h.tables.nodup).1 hfound).1
    simpa using (reached.keeping row hmem).isSome_iff

theorem perform_restart_of_none {tag : Tag} (hnone : d.tables.retained[tag]? = none) :
    d.perform (.restart tag) = ⟨d, .flag false, [], []⟩ := by
  rw [perform, onTables, Tables.restart, hnone]
  rfl

theorem perform_restart_of_some {tag : Tag} {r : Report} (h : d.Represents b)
    (hheld : d.tables.retained[tag]? = some r) :
    ∃ n t, d.tables.rowOf? tag = some n ∧ d.tables.Loses tag t
      ∧ d.perform (.restart tag)
        = ⟨{ d with tables := t }, .flag true, .removed n n :: t.emptied true, [.restart r]⟩ := by
  obtain ⟨n, t, hplace, hloses, hrestart⟩ := Tables.loses_restart h.tables hheld
  refine ⟨n, t, hplace, hloses, ?_⟩
  rw [perform, onTables, hrestart]
  rfl

/-- Whatever happens to an empty desk, a report is held for exactly the transfers whose entry has
failed, and it is that of the latest failure.  A transfer can be restarted exactly if its entry has
failed.  Then its row goes with all that was held for it, and the report goes back to the engine, once
for each failure at most; otherwise nothing happens at all. -/
theorem failures_retained (config : Config) (preference : Preference) (actions : List Action)
    (tag : Tag) :
    let o := (new config preference).run actions
    let t := o.state.tables
    let failures := ofTag tag ((new config preference).failuresIn actions)
    let restarted := ofTag tag (o.commands.filterMap Command.restarted?)
    let again := o.state.perform (.restart tag)
    (tag ∈ t.retained ↔ ∃ e, t.entries[tag]? = some e ∧ e.phase = .failed)
      ∧ (∀ r, t.retained[tag]? = some r → failures.getLast? = some r)
      ∧ (restarted ++ t.retained[tag]?.toList).Sublist failures
      ∧ (again.answer = .flag true ↔ ∃ e, t.entries[tag]? = some e ∧ e.phase = .failed)
      ∧ (again.answer ≠ .flag true → again = ⟨o.state, .flag false, [], []⟩)
      ∧ ∀ r, t.retained[tag]? = some r →
          ∃ n t', t.rowOf? tag = some n ∧ t.Loses tag t'
            ∧ again = ⟨{ o.state with tables := t' }, .flag true,
                .removed n n :: t'.emptied true, [.restart r]⟩ := by
  intro o t failures restarted again
  have hnew := represents_new config preference
  have hrun := alike_run hnew actions
  have reached : ((Board.new config preference).run actions).state.Reached :=
    ⟨config, preference, actions, rfl⟩
  have hfailed : tag ∈ t.retained ↔ ∃ e, t.entries[tag]? = some e ∧ e.phase = .failed :=
    mem_retained_iff hrun.state reached tag
  -- the accounts are kept of the rows, which hold the same reports
  have haccounts : Queue.Accounts (Board.new config preference).queue _ _
      ((Board.new config preference).run actions).state.queue tag :=
    Board.accounts_run .nil (by simp [Board.new, Queue.empty]) actions tag
  have hheld : t.retained[tag]?
      = ((Board.new config preference).run actions).state.queue.retained? tag :=
    hrun.state.tables.retained tag
  have hnone : (Board.new config preference).queue.retained? tag = none := rfl
  rw [← failuresIn_eq hnew, ← hrun.commands] at haccounts
  have hsublist := haccounts.sublist
  have hlatest := haccounts.latest
  rw [hnone, ← hheld] at hsublist hlatest
  refine ⟨hfailed, hlatest, hsublist, ?_, ?_, fun r hr => perform_restart_of_some hrun.state hr⟩
  · rw [← hfailed, Std.HashMap.mem_iff_isSome_getElem?]
    rcases hr : t.retained[tag]? with _ | r
    · simp [again, perform_restart_of_none hr]
    · obtain ⟨n, t', -, -, heq⟩ := perform_restart_of_some hrun.state hr
      have hanswer : again.answer = .flag true := congrArg Outcome.answer heq
      simp [hanswer]
  · intro hanswer
    rcases hr : t.retained[tag]? with _ | r
    · exact perform_restart_of_none hr
    · obtain ⟨n, t', -, -, heq⟩ := perform_restart_of_some hrun.state hr
      exact absurd (congrArg Outcome.answer heq) hanswer

end Desk

end TransferQueue
