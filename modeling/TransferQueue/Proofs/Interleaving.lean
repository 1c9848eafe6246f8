import TransferQueue.Proofs.Arrivals

/-!
# Events between chunks

Each chunk of a listing is loaded on its own, so events may arrive between two of them, with later
news than the listing has.  An event about a transfer that has its row by then is as good as one
that arrives when all chunks have been loaded, for what is loaded later leaves that row alone.  An
event about a transfer whose row is still to come is not kept for it: it is taken for one about an
unknown transfer, and the row that comes with a later chunk is that of the listing.

* `Queue.find?_loadChunks`: chunks leave the rows of known transfers alone;
* `Board.state_load`: the chunks of a listing are loaded one after the other;
* `Board.hear_of_not_contains`: what an event about an unknown transfer does;
* `Board.event_between_chunks`: both together.
-/

namespace TransferQueue

namespace Queue

variable {weight : Float} {number : UInt64} {parts : List (List Report)} {q : Queue} {tag : Tag}

/-- Chunks leave the rows of transfers that have one alone. -/
theorem find?_loadChunks (h : q.tags.Nodup) (hold : q.contains tag = true) :
    (q.loadChunks weight number parts).state.find? tag = q.find? tag := by
  rw [find?, rows_loadChunks]
  exact find?_addAll_of_contains h hold parts.flatten

/-- Chunks do not raise the watermark beyond their number. -/
theorem watermark_loadChunks_lt {n : UInt64} (h : q.watermark < n) (hnumber : number < n) :
    (q.loadChunks weight number parts).state.watermark < n := by
  cases parts with
  | nil => exact h
  | cons chunk parts =>
    rw [watermark_loadChunks, max_eq_ite]
    split
    · exact hnumber
    · exact h

/-- If all times can be expressed, the later chunks are loaded where the earlier ones end. -/
theorem state_loadChunks_append {rest : List (List Report)}
    (h : (q.loadChunks weight number parts).answer ≠ .error .tooLong) :
    (q.loadChunks weight number (parts ++ rest)).state
      = ((q.loadChunks weight number parts).state.loadChunks weight number rest).state := by
  induction parts generalizing q with
  | nil => rfl
  | cons chunk parts ih =>
    rw [List.cons_append, loadChunks, loadChunks]
    rw [loadChunks] at h
    rcases hanswer : (q.loadChunk weight number chunk).answer with e | added
    · simp [hanswer] at h
    · simp only [hanswer] at h ⊢
      refine ih fun herror => h ?_
      simp [Outcome.mapAnswer, Outcome.after, herror, Except.map]

/-- A report on a transfer without a row does nothing but raise the watermark. -/
theorem takeIn_of_not_contains {r : Report}
    {act : Queue → Nat → Row → Outcome Queue (Except Overflow Bool)}
    (hnew : q.hasSeen r.number = false) (h : q.contains r.tag = false) :
    takeIn r act q = { q with watermark := r.number }.refuse := by
  have hloc : ({ q with watermark := r.number } : Queue).locate? r.tag = none :=
    locate?_of_not_contains h
  rw [takeIn, if_neg (by simp [hnew])]
  simp only [hloc]

end Queue

namespace Board

variable {b : Board} {now : Instant} {event : Event}

theorem onQueue_takeIn_of_not_contains {r : Report}
    {act : Queue → Nat → Row → Outcome Queue (Except Overflow Bool)}
    (hnew : b.queue.hasSeen r.number = false) (h : b.queue.contains r.tag = false) :
    b.onQueue (Queue.takeIn r act)
      = ⟨{ b with queue := { b.queue with watermark := r.number } }, .ok false, [], []⟩ := by
  rw [onQueue, Queue.takeIn_of_not_contains hnew h]
  rfl

/-- An event about a transfer without a row does nothing but raise the watermark, unless it tells of
the start. -/
theorem hear_of_not_contains (hkind : ∀ r, event ≠ .started r)
    (hshown : event.report.isShown = true) (hlater : b.queue.watermark < event.report.number)
    (h : b.queue.contains event.report.tag = false) :
    b.hear now event
      = ⟨{ b with queue := { b.queue with watermark := event.report.number } },
        .ok false, [], []⟩ := by
  have hnew : b.queue.hasSeen event.report.number = false :=
    decide_eq_false (UInt64.not_le.2 hlater)
  rw [hear, if_pos hshown]
  cases event with
  | started r => exact absurd rfl (hkind r)
  | updated r => exact onQueue_takeIn_of_not_contains hnew h
  | hindered r fault => exact onQueue_takeIn_of_not_contains hnew h
  | finished r fault => exact onQueue_takeIn_of_not_contains hnew h

/-- Load chunks of a listing that has the given number. -/
def loadChunks (number : UInt64) (parts : List (List Report)) (b : Board) :
    Outcome Board (Except Overflow Nat) :=
  b.onQueue (Queue.loadChunks b.config.paceWeight number parts)

/-- The chunks of a listing are loaded one after the other. -/
theorem state_load {size : Nat} {listing : Listing} {first rest : List (List Report)}
    (hfirst : first ≠ []) (hparts : chunks size listing.toLoad = first ++ rest)
    (hok : (b.loadChunks listing.number first).answer ≠ .error .tooLong) :
    (b.load size listing).state
      = ((b.loadChunks listing.number first).state.loadChunks listing.number rest).state := by
  have hload : b.load size listing = b.loadChunks listing.number (first ++ rest) := by
    rw [load, loadChunks]
    congr 1
    funext q
    rw [Queue.loadListing, hparts]
    split
    · rename_i hnone
      exact absurd (List.append_eq_nil_iff.1 hnone).1 hfirst
    · rfl
  rw [hload]
  exact congrArg (fun queue => { b with queue }) (Queue.state_loadChunks_append hok)

variable {number : UInt64} {parts : List (List Report)}

theorem balanced_loadChunks (h : Queue.Balanced b.queue.tally b.queue.rows) :
    Queue.Balanced (b.loadChunks number parts).state.queue.tally
      (b.loadChunks number parts).state.queue.rows := by
  obtain ⟨cs, hwalk, -⟩ : Queue.Takes False b.queue
      (b.queue.loadChunks b.config.paceWeight number parts) := Queue.takes_loadChunks
  exact hwalk.balanced h

/-- An event about a transfer that has a row bears on that row before chunks are loaded as it does
afterwards. -/
theorem find?_hear_loadChunks (h : Queue.Balanced b.queue.tally b.queue.rows)
    (hkind : ∀ r, event ≠ .started r) (hshown : event.report.isShown = true)
    (hlater : b.queue.watermark < event.report.number) (hbeyond : number < event.report.number)
    (hold : b.queue.contains event.report.tag = true) :
    ((b.hear now event).state.loadChunks number parts).state.queue.find? event.report.tag
      = ((b.loadChunks number parts).state.hear now event).state.queue.find? event.report.tag := by
  have hear_eq : ∀ b : Board, b.hear now event = b.takeIn now event := fun _ => if_pos hshown
  have hnew : b.queue.hasSeen event.report.number = false :=
    decide_eq_false (UInt64.not_le.2 hlater)
  have hheard : (b.takeIn now event).state.queue.find? event.report.tag
      = (b.queue.find? event.report.tag).map (Row.hear b.config.paceWeight now event) :=
    (find?_takeIn h.nodup hkind hnew _).trans (if_pos rfl)
  -- the row is still there when the event has been taken in, so the chunks leave it alone
  have hold' : (b.takeIn now event).state.queue.contains event.report.tag = true := by
    rw [Queue.contains_eq_isSome_find?] at hold ⊢
    rw [hheard, Option.isSome_map, hold]
  have hbalanced : Queue.Balanced (b.takeIn now event).state.queue.tally
      (b.takeIn now event).state.queue.rows := by
    obtain ⟨cs, hwalk, -⟩ : Takes False b (b.takeIn now event) := takes_takeIn
    exact hwalk.balanced h
  have hloaded : (b.loadChunks number parts).state.queue.find? event.report.tag
      = b.queue.find? event.report.tag := Queue.find?_loadChunks h.nodup hold
  have hnew' : (b.loadChunks number parts).state.queue.hasSeen event.report.number = false :=
    decide_eq_false (UInt64.not_le.2 (Queue.watermark_loadChunks_lt hlater hbeyond))
  have hheard' : ((b.loadChunks number parts).state.takeIn now event).state.queue.find?
      event.report.tag
        = ((b.loadChunks number parts).state.queue.find? event.report.tag).map
          (Row.hear b.config.paceWeight now event) :=
    (find?_takeIn (balanced_loadChunks h).nodup hkind hnew' _).trans (if_pos rfl)
  rw [hear_eq, hear_eq, hheard', hloaded, ← hheard]
  exact Queue.find?_loadChunks hbalanced.nodup hold'

/-- An event about an unknown transfer has no effect on the rows that are loaded after it. -/
theorem rows_loadChunks_hear (hkind : ∀ r, event ≠ .started r)
    (hshown : event.report.isShown = true) (hlater : b.queue.watermark < event.report.number)
    (hunknown : b.queue.contains event.report.tag = false) :
    ((b.hear now event).state.loadChunks number parts).state.queue.rows
      = (b.loadChunks number parts).state.queue.rows := by
  rw [hear_of_not_contains hkind hshown hlater hunknown]
  calc (Queue.loadChunks b.config.paceWeight number parts
        { b.queue with watermark := event.report.number }).state.rows
      = (Queue.addAll .loading b.config.paceWeight parts.flatten
          { b.queue with watermark := event.report.number }).1.rows :=
        Queue.rows_loadChunks _ _ _ _
    _ = (Queue.addAll .loading b.config.paceWeight parts.flatten b.queue).1.rows :=
        Queue.rows_addAll_congr (by rfl) _
    _ = (b.loadChunks number parts).state.queue.rows := (Queue.rows_loadChunks _ _ _ _).symm

/-- An event arrives between chunks, with a number beyond that of the listing and of all that was
heard before.  Unless the row of its transfer comes with a later chunk, that row is at the end what
it is when the event arrives after all chunks.  If there is no row yet, the event only raises the
watermark, and the rows are at the end what they are without it. -/
theorem event_between_chunks (reached : b.Reached) (number : UInt64)
    (first rest : List (List Report)) (now : Instant) (event : Event)
    (kind : ∀ r, event ≠ .started r) (shown : event.report.isShown = true)
    (beyond : number < event.report.number) (later : b.queue.watermark < event.report.number) :
    let place := (b.loadChunks number first).state
    let loaded := (place.loadChunks number rest).state
    let heard := place.hear now event
    (place.queue.contains event.report.tag = loaded.queue.contains event.report.tag →
      (heard.state.loadChunks number rest).state.queue.find? event.report.tag
        = (loaded.hear now event).state.queue.find? event.report.tag)
    ∧ (place.queue.contains event.report.tag = false →
      heard = ⟨{ place with queue := { place.queue with watermark := event.report.number } },
        .ok false, [], []⟩
      ∧ (heard.state.loadChunks number rest).state.queue.rows = loaded.queue.rows) := by
  intro place loaded heard
  have hlater : place.queue.watermark < event.report.number :=
    Queue.watermark_loadChunks_lt later beyond
  have hrows : place.queue.contains event.report.tag = false →
      (heard.state.loadChunks number rest).state.queue.rows = loaded.queue.rows :=
    rows_loadChunks_hear kind shown hlater
  constructor
  · -- the transfer has its row when the event arrives, or never gets one
    intro hstays
    rcases hknown : place.queue.contains event.report.tag with _ | _
    · have hunknown : loaded.queue.contains event.report.tag = false := hstays ▸ hknown
      rw [hear_of_not_contains kind shown (Queue.watermark_loadChunks_lt hlater beyond) hunknown]
      exact Queue.find?_congr (hrows hknown) _
    · exact find?_hear_loadChunks (balanced_loadChunks reached.balanced) kind shown hlater beyond
        hknown
  · intro hunknown
    exact ⟨hear_of_not_contains kind shown hlater hunknown, hrows hunknown⟩

/-- A listing of two transfers, which has the number 10. -/
def twoReports : Listing := ⟨[.bare 1 .download 10 0, .bare 2 .download 20 0], 10⟩

/-- The board when the first of the two has been loaded. -/
def firstLoaded : Board :=
  ((new {} (.memory false)).loadChunks 10 [[.bare 1 .download 10 0]]).state

/-- The end of a transfer, told with the number 11. -/
def completed (tag : Tag) : Event :=
  .finished { Report.bare tag .download 10 11 with phase := .completed } none

theorem event_between_two_chunks :
    ((firstLoaded.hear .epoch (completed 1)).state.loadChunks 10
        [[.bare 2 .download 20 0]]).state.queue.find? 1
      = ((firstLoaded.loadChunks 10 [[.bare 2 .download 20 0]]).state.hear .epoch
          (completed 1)).state.queue.find? 1
    ∧ ((firstLoaded.hear .epoch (completed 2)).state.loadChunks 10
        [[.bare 2 .download 20 0]]).state.queue.rows
      = (firstLoaded.loadChunks 10 [[.bare 2 .download 20 0]]).state.queue.rows := by
  have hknown := event_between_chunks (b := new {} (.memory false)) ⟨_, _, [], rfl⟩ 10
    [[.bare 1 .download 10 0]] [[.bare 2 .download 20 0]] .epoch (completed 1) (by simp [completed])
    (by decide +kernel) (by decide +kernel) (by decide +kernel)
  have hunknown := event_between_chunks (b := new {} (.memory false)) ⟨_, _, [], rfl⟩ 10
    [[.bare 1 .download 10 0]] [[.bare 2 .download 20 0]] .epoch (completed 2) (by simp [completed])
    (by decide +kernel) (by decide +kernel) (by decide +kernel)
  exact ⟨hknown.1 (by decide +kernel), (hunknown.2 (by decide +kernel)).2⟩

theorem chunks_twoReports :
    chunks 1 twoReports.toLoad = [[.bare 1 .download 10 0]] ++ [[.bare 2 .download 20 0]] := by
  have htoLoad : twoReports.toLoad = [.bare 1 .download 10 0, .bare 2 .download 20 0] := by
    simp [twoReports, Listing.toLoad, List.mergeSort, List.MergeSort.Internal.splitInTwo,
      Listing.precedes, Report.bare, Report.isShown, Report.lane]
  rw [htoLoad]
  simp [chunks]

/-- When the end of a transfer is heard before its row has come, the row stays as it was listed. -/
theorem finish_before_row_is_missed :
    chunks 1 twoReports.toLoad = [[.bare 1 .download 10 0]] ++ [[.bare 2 .download 20 0]]
    ∧ (((firstLoaded.hear .epoch (completed 2)).state.loadChunks 10
        [[.bare 2 .download 20 0]]).state.queue.find? 2).map (·.entry.phase) = some .queued
    ∧ ((((new {} (.memory false)).load 1 twoReports).state.hear .epoch
        (completed 2)).state.queue.find? 2).map (·.entry.phase) = some .completed := by
  refine ⟨chunks_twoReports, by decide +kernel, ?_⟩
  rw [state_load (by simp) chunks_twoReports (by decide +kernel)]
  decide +kernel

end Board

end TransferQueue
