import TransferQueue.Proofs.Lifetime
import TransferQueue.Proofs.RoundTrip

/-!
# Bytes that go back

A report on progress may show fewer bytes than the entry of its transfer.  One that is otherwise like
the entry was overtaken on its way, and is passed over; any other one is taken over, and the entry
shows by another phase or another priority that something has happened.

To tell the two apart, a report is compared with the entry as it was.  But a phase that a report asks
for need not be granted: a finished entry keeps its phase, and no report on progress finishes one.
So there are reports that are not passed over and leave nothing but fewer bytes behind.

* `Entry.Rewinds`: an entry that has lost bytes and shows nothing else of it;
* `Entry.Deceived`: the reports that make an entry do so;
* `Board.rewinds_iff`: these reports and no others.
-/

namespace TransferQueue

theorem Phase.advance_eq_self_iff {phase next : Phase} :
    phase.advance next = phase ↔ next = phase ∨ phase.mayBecome next = false := by
  rw [advance]
  constructor
  · intro h
    split at h
    · exact .inl h
    · exact .inr (by simpa using ‹¬phase.mayBecome next = true›)
  · rintro (rfl | h)
    · exact ite_self _
    · rw [if_neg (by simp [h])]

namespace Entry

/-- An entry that shows fewer bytes than before, in the same phase and with the same priority. -/
structure Rewinds (e e' : Entry) : Prop where
  doneBytes : e'.doneBytes < e.doneBytes
  phase : e'.phase = e.phase
  priority : e'.priority = e.priority

/-- A report that shows fewer bytes than an entry, with the same priority, and asks for another phase
in vain. -/
structure Deceived (e : Entry) (r : Report) : Prop where
  doneBytes : r.doneBytes < e.doneBytes
  priority : r.priority = e.priority
  phase : r.phase ≠ e.phase
  refused : e.phase.mayBecome r.phase = false

variable {e : Entry} {r : Report}

theorem not_rewinds_self (e : Entry) : ¬e.Rewinds e := fun h => UInt64.lt_irrefl _ h.doneBytes

/-- The guard against overtaken reports lets those through that ask for another phase. -/
theorem Deceived.not_isAheadOf (h : e.Deceived r) : e.isAheadOf r = false := by
  have hphase : (e.phase == r.phase) = false := beq_false_of_ne h.phase.symm
  simp [isAheadOf, hphase]

/-- What becomes of an entry that is not ahead of a report. -/
theorem rewinds_refresh_iff (hahead : e.isAheadOf r = false) (timeLeft : Option Span)
    (fault : Option Fault) :
    e.Rewinds { e.refresh r timeLeft fault with priority := r.priority } ↔ e.Deceived r := by
  constructor
  · rintro ⟨hless, hphase, hpriority⟩
    -- with the same phase the report would have been passed over
    have hother : r.phase ≠ e.phase := by
      intro heq
      simp [isAheadOf, heq, show r.priority = e.priority from hpriority,
        show ¬e.doneBytes ≤ r.doneBytes from UInt64.not_le.2 hless] at hahead
    exact ⟨hless, hpriority, hother, (Phase.advance_eq_self_iff.1 hphase).resolve_left hother⟩
  · rintro ⟨hless, hpriority, -, hrefused⟩
    exact ⟨hless, Phase.advance_eq_self_iff.2 (.inr hrefused), hpriority⟩

end Entry

/-- A report on progress that can be taken over makes an entry rewind exactly if it deceives it. -/
theorem Row.rewinds_update_iff {weight : Float} {r : Report} {row : Row}
    (hcalm : row.entry.isAheadOf r = false → ∃ row', row.refresh weight r r.lastFault = .ok row') :
    row.entry.Rewinds (row.update weight r).entry ↔ row.entry.Deceived r := by
  rw [update]
  cases hahead : row.entry.isAheadOf r with
  | true =>
    refine iff_of_false (row.entry.not_rewinds_self) fun h => ?_
    simp [h.not_isAheadOf] at hahead
  | false =>
    obtain ⟨row', hmade⟩ := hcalm hahead
    obtain ⟨timeLeft, pace, rfl⟩ := refresh_eq_ok hmade
    rw [hmade]
    exact Entry.rewinds_refresh_iff hahead timeLeft r.lastFault

/-- A report on progress does not fail to express a time if its row can take it over. -/
theorem Queue.exists_refresh_of_calm {q : Queue} {weight : Float} {r : Report} {row : Row}
    (h : q.tags.Nodup) (hrow : q.find? r.tag = some row) (hnew : q.hasSeen r.number = false)
    (hcalm : (q.update weight r).answer ≠ .error .tooLong)
    (hahead : row.entry.isAheadOf r = false) :
    ∃ row', row.refresh weight r r.lastFault = .ok row' := by
  obtain ⟨hmem, htag⟩ := (find?_eq_some_iff h).1 hrow
  obtain ⟨before, after, hrows⟩ := List.append_of_mem hmem
  have hlocate : ({ q with watermark := r.number } : Queue).locate? r.tag
      = some (before.length, row) := htag ▸ locate?_of_split h hrows
  rcases hmade : row.refresh weight r r.lastFault with row' | row'
  · refine absurd ?_ hcalm
    simp only [update, takeIn, hnew, hlocate, hahead, hmade]
    rfl
  · exact ⟨row', rfl⟩

namespace Board

variable {b : Board} {action : Action} {now : Instant} {r : Report} {tag : Tag} {row : Row}

/-- A report on progress has no effect if it is about a folder or a stream, or late. -/
theorem state_perform_of_not_taken
    (brings : action = .hear now (.updated r) ∨ action = .takeIn now (.updated r))
    (h : ¬(action.progress? = some r ∧ b.queue.watermark < r.number)) :
    (b.perform action).state = b := by
  by_cases hless : b.queue.watermark < r.number
  · -- then the report is not taken in
    rcases brings with rfl | rfl
    · have hshown : r.isShown = false := by
        by_contra hshown
        exact h ⟨by simpa [Action.progress?] using hshown, hless⟩
      rw [perform, hear_of_not_isShown (show (Event.updated r).report.isShown = false from hshown)]
      rfl
    · exact absurd ⟨rfl, hless⟩ h
  · have hlate : action.isLate b.queue.watermark = true := by
      have hle : (Event.updated r).report.number ≤ b.queue.watermark := UInt64.not_lt.1 hless
      rcases brings with rfl | rfl <;> simpa [Action.isLate, Action.number?] using hle
    rw [perform_of_isLate hlate]

/-- The row of a transfer loses bytes on a report on progress, and shows it neither by its phase nor by
its priority, exactly when the report is taken in, is about this transfer and not late, shows fewer
bytes with the same priority, and asks for another phase that is refused. -/
theorem rewinds_iff (reached : b.Reached) (hrow : b.queue.find? tag = some row)
    (brings : action = .hear now (.updated r) ∨ action = .takeIn now (.updated r))
    (calm : (b.perform action).answer ≠ .overflow) :
    ∃ row', (b.perform action).state.queue.find? tag = some row'
      ∧ (row.entry.Rewinds row'.entry ↔ action.progress? = some r ∧ b.queue.watermark < r.number
        ∧ r.tag = tag ∧ row.entry.Deceived r) := by
  have hnodup : b.queue.tags.Nodup := reached.balanced.nodup
  by_cases htaken : action.progress? = some r ∧ b.queue.watermark < r.number
  · obtain ⟨hprogress, hless⟩ := htaken
    have hnew : b.queue.hasSeen r.number = false := by simpa [Queue.hasSeen] using hless
    have hqueue : (b.perform action).state.queue = (b.queue.update b.config.paceWeight r).state := by
      rw [perform_of_progress? hprogress]
      rfl
    have hcalm := ne_tooLong_of_progress? hprogress calm
    rw [hqueue, Queue.find?_update hnodup hnew, hrow]
    by_cases htag : r.tag = tag
    · subst htag
      refine ⟨_, if_pos rfl, ?_⟩
      rw [Row.rewinds_update_iff (Queue.exists_refresh_of_calm hnodup hrow hnew hcalm)]
      simp [hprogress, hless]
    · refine ⟨row, if_neg htag, iff_of_false row.entry.not_rewinds_self ?_⟩
      rintro ⟨-, -, htag', -⟩
      exact htag htag'
  · rw [state_perform_of_not_taken brings htaken]
    refine ⟨row, hrow, iff_of_false row.entry.not_rewinds_self ?_⟩
    rintro ⟨hprogress, hless, -⟩
    exact htaken ⟨hprogress, hless⟩

/-- A board with one row, whose transfer has been completed with a thousand bytes. -/
def wholeFile : Board :=
  (startedRow.hear .epoch (.finished { nextReport .completed 11 with doneBytes := 1000 } none)).state

/-- A report on its progress that comes after its end. -/
def afterTheEnd : Report := { nextReport .active 12 with doneBytes := 400 }

theorem rewinds_after_completion :
    ∃ row row', wholeFile.queue.find? 1 = some row ∧ row.entry.phase = .completed
      ∧ (wholeFile.perform (.hear .epoch (.updated afterTheEnd))).state.queue.find? 1 = some row'
      ∧ row.entry.Rewinds row'.entry := by
  have reached : wholeFile.Reached :=
    ⟨{}, .memory false, [.hear .epoch (.started (.bare 1 .download 5 10)),
      .hear .epoch (.finished { nextReport .completed 11 with doneBytes := 1000 } none)], rfl⟩
  have calm : (wholeFile.perform (.hear .epoch (.updated afterTheEnd))).answer ≠ .overflow := by
    decide +kernel
  have hentry : (wholeFile.queue.find? 1).map (fun row => (row.entry.phase, row.entry.priority,
      row.entry.doneBytes)) = some (.completed, 5, 1000) := by
    decide +kernel
  obtain ⟨row, hrow, hshows⟩ := Option.map_eq_some_iff.1 hentry
  obtain ⟨hphase, hpriority, hbytes⟩ : row.entry.phase = .completed ∧ row.entry.priority = 5
      ∧ row.entry.doneBytes = 1000 := by simpa using hshows
  obtain ⟨row', hrow', hrewinds⟩ := rewinds_iff reached hrow (.inl rfl) calm
  refine ⟨row, row', hrow, hphase, hrow', hrewinds.2 ⟨rfl, by decide +kernel, rfl, ?_⟩⟩
  constructor
  · rw [hbytes]
    decide
  · rw [hpriority]
    decide
  · rw [hphase]
    decide
  · rw [hphase]
    decide

end Board

end TransferQueue
