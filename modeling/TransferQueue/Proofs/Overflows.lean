import TransferQueue.Proofs.Encounters
import TransferQueue.Proofs.Failures
import TransferQueue.Proofs.Order

/-!
# Times that cannot be expressed

The time that a transfer still takes may be too long to be expressed.  An event then fails half way,
after some of its work is done, and what is done stays done.  It does no harm, because of the order in
which things are done: the time is estimated before anything that is shown is changed, and what was
changed before is the watermark and the pace of the transfer, on which nothing else depends.

* `Queue.takeIn_eq_error`: how far a report on a shown transfer has come when it fails;
* `Board.Leaves`: what an event that fails leaves behind;
* `Board.Intact`: nothing that is shown, counted or kept has changed;
* `Board.overflow_harmless`: this is so for every event and every new row.
-/

namespace TransferQueue

/-! ## Rows and queues -/

namespace Row

variable {weight : Float} {r : Report} {fault : Option Fault} {row row' : Row}

/-- The row after its pace has taken in the speed of a report. -/
def paced (weight : Float) (r : Report) (row : Row) : Row :=
  { row with pace := some ((row.pace.getD (.start r.speed weight)).observe r.speed) }

/-- Only an unfinished row can fail to express a time, and its pace has taken in the speed by then. -/
theorem eq_paced_of_refresh (h : row.refresh weight r fault = .error row') :
    row.entry.phase.isFinished = false ∧ row' = row.paced weight r := by
  rcases hfinished : row.entry.phase.isFinished with _ | _
  · simp only [refresh, estimate, hfinished, Bool.false_eq_true, if_false] at h
    split at h
    · rename_i row₁ failed hestimate
      exact ⟨rfl, (Except.error.inj h).symm.trans (Prod.mk.inj hestimate).1.symm⟩
    · cases h
  · simp [refresh, estimate, hfinished] at h

end Row

namespace Queue

variable {weight : Float} {q : Queue} {r : Report}

/-- A start that fails leaves everything as it is. -/
theorem start_eq_error (h : (q.start weight r).answer = .error .tooLong) :
    q.start weight r = q.overflow := by
  simp only [start] at h ⊢
  split at h
  · cases h
  · rename_i hseen
    rw [if_neg hseen]
    rcases hadd : q.add weight r (placeFor r.lane r.priority q.rows) with failed | _ | q'
    · rfl
    · rw [hadd] at h
      cases h
    · rw [hadd] at h
      cases h

/-- To show a transfer at a given place, if it fails, leaves everything as it is. -/
theorem insert_eq_error {place : Nat} (h : (q.insert weight r place).answer = .error .tooLong) :
    q.insert weight r place = q.overflow := by
  rw [insert] at h ⊢
  rcases hadd : q.add weight r place with failed | _ | q'
  · rfl
  · rw [hadd] at h
    cases h
  · rw [hadd] at h
    cases h

/-- The queue in which a report that is not late has raised the watermark, and has come as far as the
pace of its transfer. -/
def Half (weight : Float) (r : Report) (q q' : Queue) : Prop :=
  ∃ before row after, q.rows = before ++ row :: after ∧ row.tag = r.tag
    ∧ row.entry.phase.isFinished = false ∧ q.watermark < r.number
    ∧ q' = { q with rows := before ++ row.paced weight r :: after, watermark := r.number }

/-- A report on a shown transfer that fails has found its row, and fails in what follows there. -/
theorem takeIn_eq_error {act : Queue → Nat → Row → Outcome Queue (Except Overflow Bool)}
    (h : (takeIn r act q).answer = .error .tooLong) :
    q.watermark < r.number ∧ ∃ place row,
      ({ q with watermark := r.number } : Queue).locate? r.tag = some (place, row)
        ∧ takeIn r act q = act { q with watermark := r.number } place row := by
  rw [takeIn] at h ⊢
  split at h
  · cases h
  · rename_i hseen
    rw [if_neg hseen]
    dsimp only at h ⊢
    split at h
    · cases h
    · rename_i place row hlocate
      exact ⟨by simpa [hasSeen] using hseen, place, row, hlocate, rfl⟩

/-- A row of which only the pace has changed keeps its phase, so nothing is counted. -/
theorem half_replaceRow {place : Nat} {row : Row} (hless : q.watermark < r.number)
    (hlocate : ({ q with watermark := r.number } : Queue).locate? r.tag = some (place, row))
    (hphase : row.entry.phase.isFinished = false) :
    Half weight r q (({ q with watermark := r.number } : Queue).replaceRow place row.entry.phase
      (row.paced weight r)) := by
  obtain ⟨before, after, hrows, rfl, htag⟩ := locate?_eq_some hlocate
  refine ⟨before, row, after, hrows, htag, hphase, hless, ?_⟩
  have hset : q.rows.set before.length (row.paced weight r)
      = before ++ row.paced weight r :: after := by
    rw [show q.rows = before ++ row :: after from hrows, set_append_length]
  have htally : q.tally.shift row.entry.phase (row.paced weight r).entry = q.tally := if_pos rfl
  simp only [replaceRow, hset, htally]

theorem update_eq_error (h : (q.update weight r).answer = .error .tooLong) :
    ∃ q', Half weight r q q' ∧ q.update weight r = q'.overflow := by
  obtain ⟨hless, place, row, hlocate, heq⟩ := takeIn_eq_error h
  rw [update] at h ⊢
  rw [heq] at h ⊢
  split at h
  · cases h
  · rename_i hahead
    rw [if_neg hahead]
    rcases hmade : row.refresh weight r r.lastFault with row' | row'
    · obtain ⟨hphase, rfl⟩ := Row.eq_paced_of_refresh hmade
      exact ⟨_, half_replaceRow hless hlocate hphase, rfl⟩
    · -- once the time is known, nothing can fail any more
      rw [hmade] at h
      simp only [settle] at h
      split at h <;> cases h

theorem hinder_eq_error {fault : Option Fault}
    (h : (q.hinder weight r fault).answer = .error .tooLong) :
    ∃ q', Half weight r q q' ∧ q.hinder weight r fault = q'.overflow := by
  obtain ⟨hless, place, row, hlocate, heq⟩ := takeIn_eq_error h
  rw [hinder] at h ⊢
  rw [heq] at h ⊢
  rcases hmade : row.refresh weight r fault with row' | row'
  · obtain ⟨hphase, rfl⟩ := Row.eq_paced_of_refresh hmade
    exact ⟨_, half_replaceRow hless hlocate hphase, rfl⟩
  · rw [hmade] at h
    cases h

/-- The end of a transfer never fails: no time is left then. -/
theorem finish_ne_error {now : Instant} {fault : Option Fault} :
    (q.finish now r fault).answer ≠ .error .tooLong := by
  intro h
  obtain ⟨-, place, row, -, heq⟩ := takeIn_eq_error h
  rw [finish, heq] at h
  cases h

end Queue

/-! ## Boards -/

namespace Board

variable {b b' : Board}

/-- Nothing that is shown, counted or kept for another try has changed, nor has the general pause. -/
structure Intact (b b' : Board) : Prop where
  tags : b'.queue.tags = b.queue.tags
  entries : b'.queue.entries = b.queue.entries
  tally : b'.queue.tally = b.queue.tally
  retained : ∀ tag, b'.queue.retained? tag = b.queue.retained? tag
  allPaused : b'.allPaused = b.allPaused
  preference : b'.preference = b.preference

theorem Intact.refl (b : Board) : Intact b b := ⟨rfl, rfl, rfl, fun _ => rfl, rfl, rfl⟩

/-- What an event that fails leaves behind: the board as it was for a start, the watermark and the pace
of its transfer for other news.  The end of a transfer never fails. -/
def Leaves (b : Board) (event : Event) (b' : Board) : Prop :=
  match event with
  | .started _ => b' = b
  | .updated r | .hindered r _ =>
    ∃ q', Queue.Half b.config.paceWeight r b.queue q' ∧ b' = { b with queue := q' }
  | .finished _ _ => False

/-- The pace is not shown. -/
theorem Intact.of_half {weight : Float} {r : Report} {q' : Queue}
    (h : Queue.Half weight r b.queue q') : Intact b { b with queue := q' } := by
  obtain ⟨before, row, after, hrows, -, -, -, rfl⟩ := h
  refine ⟨?_, ?_, rfl, fun tag => ?_, rfl, rfl⟩
  · simp only [Queue.tags, hrows, List.map_append, List.map_cons]
    rfl
  · simp only [Queue.entries, hrows, List.map_append, List.map_cons]
    rfl
  · simp only [Queue.retained?, Queue.find?, hrows, List.find?_append]
    by_cases htag : row.tag = tag
    · -- the row that is found may be the one before it or the row itself
      have htag' : (row.paced weight r).tag = tag := htag
      rw [List.find?_cons_of_pos (by simpa using htag'), List.find?_cons_of_pos (by simpa using htag)]
      cases before.find? (fun a => a.tag == tag) <;> rfl
    · have htag' : (row.paced weight r).tag ≠ tag := htag
      rw [List.find?_cons_of_neg (by simpa using htag'), List.find?_cons_of_neg (by simpa using htag)]

theorem Leaves.intact {event : Event} (h : b.Leaves event b') : Intact b b' := by
  cases event with
  | started r =>
    obtain rfl : b' = b := h
    exact .refl b'
  | updated r =>
    obtain ⟨q', hhalf, rfl⟩ := h
    exact .of_half hhalf
  | hindered r fault =>
    obtain ⟨q', hhalf, rfl⟩ := h
    exact .of_half hhalf
  | finished r fault => exact h.elim

/-- The order of the rows is that of their entries. -/
theorem Intact.ordered (h : Intact b b') (hordered : Queue.Ordered b.queue.rows) :
    Queue.Ordered b'.queue.rows := by
  have hentries : b'.queue.rows.map Row.entry = b.queue.rows.map Row.entry := h.entries
  constructor
  · have hsorted : (b.queue.rows.map Row.entry).Pairwise fun e e' =>
        e.lane = e'.lane → e.priority ≤ e'.priority := List.pairwise_map.2 hordered.sorted
    rw [← hentries] at hsorted
    exact List.pairwise_map.1 hsorted
  · have hlanes : b'.queue.rows.map (·.entry.lane) = b.queue.rows.map (·.entry.lane) := by
      simpa only [List.map_map, Function.comp_def] using congrArg (List.map Entry.lane) hentries
    rw [hlanes]
    exact hordered.together

/-- What is left of an event that has failed.  Nobody is told and nobody is asked. -/
theorem leaves_takeIn {now : Instant} {event : Event}
    (failed : (b.takeIn now event).answer = .error .tooLong) :
    b.Leaves event (b.takeIn now event).state ∧ (b.takeIn now event).changes = []
      ∧ (b.takeIn now event).commands = [] := by
  cases event with
  | started r =>
    have hanswer : (b.queue.start b.config.paceWeight r).answer = .error .tooLong :=
      (b.start_state_answer r).2.symm.trans failed
    have hfailed : b.start r = ⟨b, .error .tooLong, [], []⟩ := by
      simp only [start, onQueue, Queue.start_eq_error hanswer]
      rfl
    rw [takeIn, hfailed]
    exact ⟨rfl, rfl, rfl⟩
  | updated r =>
    obtain ⟨q', hhalf, heq⟩ := Queue.update_eq_error (q := b.queue) failed
    simp only [takeIn, onQueue, heq]
    exact ⟨⟨q', hhalf, rfl⟩, rfl, rfl⟩
  | hindered r fault =>
    obtain ⟨q', hhalf, heq⟩ := Queue.hinder_eq_error (q := b.queue) failed
    simp only [takeIn, onQueue, heq]
    exact ⟨⟨q', hhalf, rfl⟩, rfl, rfl⟩
  | finished r fault => exact absurd failed Queue.finish_ne_error

theorem leaves_of_genuine {e : Encounter} (genuine : e.Genuine)
    (failed : e.outcome.answer = .error .tooLong) :
    e.board.Leaves e.event e.outcome.state ∧ e.outcome.changes = [] ∧ e.outcome.commands = [] := by
  obtain ⟨now, houtcome | houtcome⟩ := genuine
  · rw [houtcome, hear] at failed ⊢
    split at failed
    · rename_i hshown
      rw [if_pos hshown]
      exact leaves_takeIn failed
    · cases failed
  · rw [houtcome] at failed ⊢
    exact leaves_takeIn failed

/-- An encounter leaves a board to which a run leads. -/
theorem reached_of_genuine {e : Encounter} (reached : e.board.Reached) (genuine : e.Genuine) :
    e.outcome.state.Reached := by
  obtain ⟨now, houtcome | houtcome⟩ := genuine
  · rw [houtcome]
    exact reached.perform (.hear now e.event)
  · rw [houtcome]
    exact reached.perform (.takeIn now e.event)

/-- When an event fails because a time cannot be expressed, nobody is told or asked for anything, and
nothing that is shown, counted or kept has changed: a start leaves the board as it was, and other news
leave the watermark at their number and the pace of their transfer with its new speed.  The end of a
transfer never fails.  So the board is one to which a run leads, its books are right and its rows in
order, and the run can go on.  To show a transfer at a given place leaves the board as it was if it
fails. -/
theorem overflow_harmless (reached : b.Reached) (action : Action) :
    (∀ e ∈ b.encounters action, e.outcome.answer = .error .tooLong →
        e.outcome.changes = [] ∧ e.outcome.commands = []
          ∧ Intact e.board e.outcome.state ∧ e.board.Leaves e.event e.outcome.state
          ∧ e.outcome.state.Reached ∧ e.outcome.state.queue.Consistent
          ∧ (∀ row ∈ e.outcome.state.queue.rows, row.Keeping)
          ∧ (Queue.Ordered e.board.queue.rows → Queue.Ordered e.outcome.state.queue.rows))
      ∧ (∀ e ∈ b.encounters action, ∀ r fault, e.event = .finished r fault →
        e.outcome.answer ≠ .error .tooLong)
      ∧ ∀ r place, (b.perform (.insert r place)).answer = .overflow →
        b.perform (.insert r place) = ⟨b, .overflow, [], []⟩ := by
  refine ⟨?_, ?_, ?_⟩
  · intro e he failed
    obtain ⟨hmet, genuine⟩ := mem_encounters reached he
    obtain ⟨hleaves, hchanges, hcommands⟩ := leaves_of_genuine genuine failed
    have hreached := reached_of_genuine hmet genuine
    exact ⟨hchanges, hcommands, hleaves.intact, hleaves, hreached, hreached.balanced.consistent,
      hreached.keeping, hleaves.intact.ordered⟩
  · intro e he r fault hevent failed
    obtain ⟨-, genuine⟩ := mem_encounters reached he
    have hleaves := (leaves_of_genuine genuine failed).1
    rw [hevent] at hleaves
    exact hleaves
  · intro r place failed
    have hanswer : (b.queue.insert b.config.paceWeight r place).answer = .error .tooLong := by
      rcases hinsert : (b.queue.insert b.config.paceWeight r place).answer with overflow | inserted
      · rfl
      · simp [perform, onQueue, Outcome.mapState, Outcome.mapAnswer, hinsert, Answer.ofExcept]
          at failed
    simp only [perform, onQueue, Queue.insert_eq_error hanswer]
    rfl

/-- A report of a transfer that has almost all bytes of the world before it and gets one each second. -/
def vastReport (number : UInt64) : Report :=
  { Report.bare 1 .download 5 number with
    phase := .active, speed := 1, totalBytes := 18446744073709551615 }

/-- A board with a transfer that is slow, and still short. -/
def slowBoard : Board :=
  ((new {} (.memory false)).hear .epoch
    (.started { vastReport 1 with totalBytes := 60 })).state

/-- The transfer turns out to be vast.  The news of its end comes together with that. -/
def vastNews : Action := .hearAll .epoch [.updated (vastReport 2), .finished (vastReport 3) none]

theorem overflow_harmless_slowBoard :
    let o := slowBoard.perform vastNews
    o.answer = .overflow ∧ o.changes = [] ∧ o.commands = [] ∧ Intact slowBoard o.state
      ∧ o.state.queue.watermark = 2 := by
  intro o
  have reached : slowBoard.Reached :=
    ⟨{}, .memory false, [.hear .epoch (.started { vastReport 1 with totalBytes := 60 })], rfl⟩
  let e : Encounter :=
    ⟨slowBoard, .updated (vastReport 2), slowBoard.hear .epoch (.updated (vastReport 2))⟩
  have failed : e.outcome.answer = .error .tooLong := by decide +kernel
  -- the end is not heard any more
  have hone : slowBoard.encounters vastNews = [e] := by
    have hanswer : (slowBoard.hear .epoch (.updated (vastReport 2))).answer = .error .tooLong :=
      failed
    simp only [vastNews, encounters, encountersHearing, hanswer]
    rfl
  have hnews : vastNews.events ≠ [] := List.cons_ne_nil _ _
  obtain ⟨hstate, hchanges, hcommands⟩ := perform_eq_encounters (b := slowBoard) hnews
  rw [hone] at hstate hchanges hcommands
  obtain ⟨htold, hasked, hintact, -⟩ :=
    (overflow_harmless reached vastNews).1 e (hone ▸ List.mem_singleton_self e) failed
  have hsame : o.state = e.outcome.state := hstate
  refine ⟨by decide +kernel, ?_, ?_, hsame ▸ hintact, ?_⟩
  · exact hchanges.trans (by simp [htold])
  · exact hcommands.trans (by simp [hasked])
  · rw [hsame]
    decide +kernel

end Board

end TransferQueue
