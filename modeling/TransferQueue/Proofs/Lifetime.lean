import TransferQueue.Proofs.Course

/-!
# The lifetime of a row

A row that stays hears events and nothing else, so what one event can do to an entry bounds what a
whole lifetime can.  No event changes which file an entry tells of.  Only the report of the end takes
an entry into a finished phase, and gives it the moment of its end.

* `Entry.SameFile`: what stays the same in an entry for the lifetime of its row;
* `Entry.GoesOn`: what stays the same as long as no end is heard;
* `Board.lifetime`: both of them over a run, and what the end brings.
-/

namespace TransferQueue

/-- Two entries that tell of the same file, transferred the same way since the same moment. -/
structure Entry.SameFile (e e' : Entry) : Prop where
  tag : e'.tag = e.tag
  lane : e'.lane = e.lane
  fileName : e'.fileName = e.fileName
  path : e'.path = e.path
  kind : e'.kind = e.kind
  startedAt : e'.startedAt = e.startedAt

/-- Two entries between which no end was heard. -/
structure Entry.GoesOn (e e' : Entry) : Prop where
  finishedAt : e'.finishedAt = e.finishedAt
  isFinished : e'.phase.isFinished = e.phase.isFinished
  phase : e.phase.isFinished = true → e'.phase = e.phase

namespace Entry

variable {e e' e'' : Entry}

theorem SameFile.refl (e : Entry) : e.SameFile e := ⟨rfl, rfl, rfl, rfl, rfl, rfl⟩

theorem SameFile.trans (h : e.SameFile e') (h' : e'.SameFile e'') : e.SameFile e'' where
  tag := h'.tag.trans h.tag
  lane := h'.lane.trans h.lane
  fileName := h'.fileName.trans h.fileName
  path := h'.path.trans h.path
  kind := h'.kind.trans h.kind
  startedAt := h'.startedAt.trans h.startedAt

theorem GoesOn.refl (e : Entry) : e.GoesOn e := ⟨rfl, rfl, fun _ => rfl⟩

theorem GoesOn.trans (h : e.GoesOn e') (h' : e'.GoesOn e'') : e.GoesOn e'' where
  finishedAt := h'.finishedAt.trans h.finishedAt
  isFinished := h'.isFinished.trans h.isFinished
  phase := fun hfinished => (h'.phase (h.isFinished.trans hfinished)).trans (h.phase hfinished)

/-- A report that is no finish asks for a phase, but neither enters nor leaves a finished one. -/
theorem goesOn_refresh (e : Entry) (r : Report) (timeLeft : Option Span) (fault : Option Fault) :
    e.GoesOn (e.refresh r timeLeft fault) where
  finishedAt := rfl
  isFinished := Phase.isFinished_advance e.phase r.phase
  phase := fun hfinished => Phase.advance_of_isFinished hfinished r.phase

end Entry

/-- Whether an event reports the end of a transfer. -/
def Event.ends (tag : Tag) : Event → Bool
  | .finished r _ => r.tag == tag
  | _ => false

/-! ## One event -/

namespace Row

variable {weight : Float} {row : Row} {tag : Tag}

theorem update_lifetime (weight : Float) (r : Report) (row : Row) :
    row.entry.SameFile (row.update weight r).entry
      ∧ row.entry.GoesOn (row.update weight r).entry := by
  rw [update]
  split
  · exact ⟨.refl _, .refl _⟩
  · rcases hmade : row.refresh weight r r.lastFault with row' | row'
    · obtain ⟨pace, rfl⟩ := refresh_eq_error hmade
      exact ⟨.refl _, .refl _⟩
    · obtain ⟨timeLeft, pace, rfl⟩ := refresh_eq_ok hmade
      have hgoes := row.entry.goesOn_refresh r timeLeft r.lastFault
      exact ⟨⟨rfl, rfl, rfl, rfl, rfl, rfl⟩, ⟨rfl, hgoes.isFinished, hgoes.phase⟩⟩

theorem hinder_lifetime (weight : Float) (r : Report) (fault : Option Fault) (row : Row) :
    row.entry.SameFile (row.hinder weight r fault).entry
      ∧ row.entry.GoesOn (row.hinder weight r fault).entry := by
  rw [hinder]
  rcases hmade : row.refresh weight r fault with row' | row'
  · obtain ⟨pace, rfl⟩ := refresh_eq_error hmade
    exact ⟨.refl _, .refl _⟩
  · obtain ⟨timeLeft, pace, rfl⟩ := refresh_eq_ok hmade
    exact ⟨⟨rfl, rfl, rfl, rfl, rfl, rfl⟩, row.entry.goesOn_refresh r timeLeft fault⟩

theorem sameFile_hear (weight : Float) (now : Instant) (event : Event) (row : Row) :
    row.entry.SameFile (row.hear weight now event).entry := by
  cases event with
  | started r => exact .refl _
  | updated r => exact (update_lifetime weight r row).1
  | hindered r fault => exact (hinder_lifetime weight r fault row).1
  | finished r fault => exact ⟨rfl, rfl, rfl, rfl, rfl, rfl⟩

theorem goesOn_hear {event : Event} (htag : event.report.tag = tag) (hends : event.ends tag = false)
    (weight : Float) (now : Instant) (row : Row) :
    row.entry.GoesOn (row.hear weight now event).entry := by
  cases event with
  | started r => exact .refl _
  | updated r => exact (update_lifetime weight r row).2
  | hindered r fault => exact (hinder_lifetime weight r fault row).2
  | finished r fault => simp [Event.ends, show r.tag = tag from htag] at hends

/-- A finished row stays finished, unless it hears of an end in a phase that is none. -/
theorem isFinished_hear {event : Event} (htag : event.report.tag = tag)
    (hends : event.ends tag = true → event.report.phase.isFinished = true)
    (hfinished : row.entry.phase.isFinished = true) (weight : Float) (now : Instant) :
    (row.hear weight now event).entry.phase.isFinished = true := by
  by_cases hend : event.ends tag = true
  · cases event with
    | finished r fault => exact hends hend
    | _ => simp [Event.ends] at hend
  · have hgoes := goesOn_hear htag (by simpa using hend) weight now row
    exact hgoes.isFinished.trans hfinished

end Row

/-! ## A lifetime -/

namespace Board

variable {b : Board} {tag : Tag}

/-- The row of a lifetime hears events about its transfer. -/
theorem exists_heard (h : Queue.Balanced b.queue.tally b.queue.rows) {actions : List Action}
    (keeps : b.Keeps tag actions) :
    ∃ (row : Row) (heard : List (Instant × Event)), b.queue.find? tag = some row
      ∧ (b.run actions).state.queue.find? tag
          = some (heard.foldl (fun row x => row.hear b.config.paceWeight x.1 x.2) row)
      ∧ ∀ x ∈ heard, x.2 ∈ actions.flatMap Action.events ∧ x.2.report.tag = tag := by
  have hrow := keeps.contains
  rw [Queue.contains_eq_isSome_find?] at hrow
  obtain ⟨row, hrow⟩ := Option.isSome_iff_exists.1 hrow
  obtain ⟨heard, hcourse, hmem⟩ := course_of_keeps h keeps
  refine ⟨row, heard, hrow, ?_, hmem⟩
  rw [find?_run h, hcourse, hrow, Hears.foldl_apply]

/-- From a row to what it becomes when it hears events, by what each of them does. -/
theorem foldl_hear {motive : Row → Prop} {heard : List (Instant × Event)} {weight : Float}
    (step : ∀ row, ∀ x ∈ heard, motive row → motive (row.hear weight x.1 x.2)) (row : Row)
    (start : motive row) :
    motive (heard.foldl (fun row x => row.hear weight x.1 x.2) row) := by
  induction heard generalizing row with
  | nil => exact start
  | cons x heard ih =>
    exact ih (fun row y hy => step row y (List.mem_cons_of_mem x hy)) _
      (step row x List.mem_cons_self start)

/-- The row of a transfer after an end that is not late. -/
theorem find?_takeIn_finished {r : Report} {row : Row} (h : b.queue.tags.Nodup)
    (hrow : b.queue.find? r.tag = some row) (hseen : b.queue.hasSeen r.number = false)
    (now : Instant) (fault : Option Fault) :
    (b.takeIn now (.finished r fault)).state.queue.find? r.tag
      = some (row.finish (r.finishTime now) r fault) := by
  have hfinish : (b.queue.finish now r fault).state.find? r.tag = _ :=
    Queue.find?_finish h hseen r.tag
  rw [if_pos rfl, hrow] at hfinish
  exact hfinish

/-- While the row of a transfer stays, its entry tells of the same file.  It enters or leaves the
finished phases, and the moment of its end changes, only if an end of the transfer is reported; if all
ends are reported in finished phases, a finished entry stays finished.  An end that is not late leaves
the entry in the phase that it reports. -/
theorem lifetime (hb : b.Reached) {actions : List Action} (keeps : b.Keeps tag actions) :
    ∃ row row', b.queue.find? tag = some row
      ∧ (b.run actions).state.queue.find? tag = some row'
      ∧ row.entry.SameFile row'.entry
      ∧ ((∀ event ∈ actions.flatMap Action.events, event.ends tag = false) →
          row.entry.GoesOn row'.entry)
      ∧ ((∀ event ∈ actions.flatMap Action.events, event.ends tag = true →
            event.report.phase.isFinished = true) →
          row.entry.phase.isFinished = true → row'.entry.phase.isFinished = true)
      ∧ ∀ now r fault, r.tag = tag → (b.run actions).state.queue.hasSeen r.number = false →
          ∃ row'', row''.entry.phase = r.phase
            ∧ ((b.run actions).state.takeIn now (.finished r fault)).state.queue.find? tag
                = some row''
            ∧ (r.isShown = true →
                ((b.run actions).state.hear now (.finished r fault)).state.queue.find? tag
                  = some row'') := by
  have h := hb.balanced
  obtain ⟨row, heard, hrow, hrow', hmem⟩ := exists_heard h keeps
  refine ⟨row, _, hrow, hrow', ?_, fun hgoes => ?_, fun hends hfinished => ?_, ?_⟩
  · exact foldl_hear (motive := fun row' => row.entry.SameFile row'.entry)
      (fun row' x _ hsame => hsame.trans (row'.sameFile_hear _ x.1 x.2)) row (.refl _)
  · exact foldl_hear (motive := fun row' => row.entry.GoesOn row'.entry)
      (fun row' x hx hgone => hgone.trans
        (Row.goesOn_hear (hmem x hx).2 (hgoes x.2 (hmem x hx).1) _ x.1 row')) row (.refl _)
  · exact foldl_hear (motive := fun row' => row'.entry.phase.isFinished = true)
      (fun row' x hx hfinished => Row.isFinished_hear (hmem x hx).2 (hends x.2 (hmem x hx).1)
        hfinished _ x.1) row hfinished
  · intro now r fault htag hseen
    obtain ⟨cs, hwalk⟩ : ∃ cs, Queue.Walk False b.queue cs (b.run actions).state.queue :=
      walk_run False.elim
    subst htag
    have hfinish := find?_takeIn_finished (hwalk.balanced h).nodup hrow' hseen now fault
    refine ⟨_, rfl, hfinish, fun hshown => ?_⟩
    rw [← hfinish, hear, if_pos (show (Event.finished r fault).report.isShown = true from hshown)]

/-- A board with one row, whose transfer was reported with the number 10. -/
def startedRow : Board := ((new {} (.memory false)).hear .epoch (.started (.bare 1 .download 5 10))).state

/-- Another report of that transfer. -/
def nextReport (phase : Phase) (number : UInt64) : Report :=
  { Report.bare 1 .download 5 number with phase }

/-- The board when the transfer has been completed. -/
def completedRow : Board :=
  (startedRow.hear .epoch (.finished (nextReport .completed 11) none)).state

theorem lifetime_after_completion :
    (∃ row row', completedRow.queue.find? 1 = some row
      ∧ (completedRow.run [.hear .epoch (.updated (nextReport .active 12)),
          .hear .epoch (.hindered (nextReport .retrying 13) none)]).state.queue.find? 1 = some row'
      ∧ row.entry.GoesOn row'.entry)
    ∧ ∃ row row', completedRow.queue.find? 1 = some row
      ∧ (completedRow.run [.hear .epoch (.updated (nextReport .active 12)),
          .hear .epoch (.finished (nextReport .cancelled 13) none)]).state.queue.find? 1 = some row'
      ∧ row.entry.SameFile row'.entry ∧ row'.entry.phase.isFinished = true
      ∧ ∃ row'', row''.entry.phase = .failed
        ∧ ((completedRow.run [.hear .epoch (.updated (nextReport .active 12)),
          .hear .epoch (.finished (nextReport .cancelled 13) none)]).state.hear .epoch
            (.finished (nextReport .failed 14) none)).state.queue.find? 1 = some row'' := by
  have hreached : completedRow.Reached :=
    ⟨{}, .memory false, [.hear .epoch (.started (.bare 1 .download 5 10)),
      .hear .epoch (.finished (nextReport .completed 11) none)], rfl⟩
  have hfinished : (completedRow.queue.find? 1).map (·.entry.phase.isFinished) = some true := by
    decide +kernel
  have hnews : completedRow.Keeps 1 [.hear .epoch (.updated (nextReport .active 12)),
      .hear .epoch (.hindered (nextReport .retrying 13) none)] := by
    decide +kernel
  have hends : completedRow.Keeps 1 [.hear .epoch (.updated (nextReport .active 12)),
      .hear .epoch (.finished (nextReport .cancelled 13) none)] := by
    decide +kernel
  obtain ⟨row, row', hrow, hrow', -, hgoes, -⟩ := lifetime hreached hnews
  refine ⟨⟨row, row', hrow, hrow', hgoes (by decide +kernel)⟩, ?_⟩
  obtain ⟨row, row', hrow, hrow', hsame, -, hstays, hend⟩ := lifetime hreached hends
  obtain ⟨row'', hphase, -, hheard⟩ :=
    hend .epoch (nextReport .failed 14) none rfl (by decide +kernel)
  refine ⟨row, row', hrow, hrow', hsame, hstays (by decide +kernel) ?_, row'', hphase, hheard rfl⟩
  simpa [hrow] using hfinished

/-- An end that is late does not count, so the row does not take the phase that it reports. -/
theorem late_end_is_missed :
    ¬ ∀ (b : Board) (now : Instant) (r : Report) (fault : Option Fault), b.Reached →
        b.queue.contains r.tag = true → r.isShown = true → r.phase.isFinished = true →
        ((b.hear now (.finished r fault)).state.queue.find? r.tag).map (·.entry.phase)
          = some r.phase := by
  intro h
  have hlate := h startedRow .epoch (nextReport .completed 9) none
    ⟨{}, .memory false, [.hear .epoch (.started (.bare 1 .download 5 10))], rfl⟩
    (by decide +kernel) rfl rfl
  revert hlate
  decide +kernel

end Board

end TransferQueue
