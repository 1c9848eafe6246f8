import TransferQueue.Proofs.Step

/-!
# Every operation is a walk

For each operation of a queue, and then for each action on a board, there are steps that lead from
the state before to the state after.  Unless a time cannot be expressed, the observers are told of
the steps: what they are told has the effect of the changes that the steps make.

Operations that take rows in close none, and operations that erase rows do nothing else.

* `Queue.takes_insert`, `Queue.takes_start` and so on: the operations of a queue;
* `Board.isWalk_perform`: the actions on a board;
* `Board.walk_run`: the runs of a board.
-/

namespace TransferQueue

namespace Queue

variable {placed : Prop} {weight : Float} {q : Queue}

/-- The outcome of an operation that closes no rows and can fail to express a time: a walk, of which
the observers are told if it does not fail. -/
abbrev Takes {α : Type} (placed : Prop) (q : Queue) (o : Outcome Queue (Except Overflow α)) : Prop :=
  IsWalk placed (o.answer ≠ .error .tooLong) (·.closes = false) q o.changes o.state

/-! ## New rows -/

theorem arrived_eq (q : Queue) (place : Nat) :
    ∃ cs, q.arrived place = [.inserted place place] ++ cs
      ∧ ∀ c ∈ cs, ∃ b, c = Change.presence b ∨ c = Change.pausing b := by
  refine ⟨if q.size = 1 then [.presence true] else [], rfl, ?_⟩
  split <;> simp

theorem takes_insert {r : Report} {place : Nat}
    (fits : placed → place = placeFor r.lane r.priority q.rows) :
    Takes placed q (q.insert weight r place) := by
  rw [insert]
  split
  · exact .refl q
  · exact .refl q
  · rename_i q' hadd
    obtain ⟨row, hrow, rfl, hnew, hbound⟩ := add_eq_ok_some hadd
    obtain ⟨cs, hcs, hsilent⟩ := arrived_eq (q.insertRow place row) place
    have step : Step placed q _ _ := .come hnew hbound hrow fun hp => .inl (fits hp)
    simp only [hcs]
    exact (IsWalk.of_walk step.walk (by simp [Change.closes])).append_silent hsilent

/-- A report that is not late raises the watermark. -/
theorem step_note {r : Report} (h : q.hasSeen r.number = false) :
    Step placed q [] { q with watermark := r.number } := by
  refine .note ?_
  simp only [hasSeen, decide_eq_false_iff_not, UInt64.not_le] at h
  exact UInt64.le_of_lt h

theorem takes_start {r : Report} : Takes placed q (q.start weight r) := by
  simp only [start]
  split
  · exact .refl q
  · rename_i hseen
    have note : Step placed q [] { q with watermark := r.number } := step_note (by simpa using hseen)
    split
    · exact .refl q
    · exact .of_walk_nil note.walk
    · rename_i q' hadd
      obtain ⟨row, hrow, rfl, hnew, hbound⟩ := add_eq_ok_some hadd
      obtain ⟨cs, hcs, hsilent⟩ :=
        arrived_eq (q.insertRow (placeFor r.lane r.priority q.rows) row)
          (placeFor r.lane r.priority q.rows)
      have come : Step placed { q with watermark := r.number } _ _ :=
        .come hnew hbound hrow fun _ => .inl rfl
      simp only [hcs]
      exact (IsWalk.of_walk (note.walk.tail come) (by simp [Change.closes])).append_silent hsilent

/-! ## Reports on shown transfers -/

/-- To take in a report is a walk if what follows on a located row is one. -/
theorem takes_takeIn {r : Report} {act : Queue → Nat → Row → Outcome Queue (Except Overflow Bool)}
    (h : ∀ q place row, q.locate? r.tag = some (place, row) → Takes placed q (act q place row)) :
    Takes placed q (takeIn r act q) := by
  rw [takeIn]
  split
  · exact .refl q
  · rename_i hseen
    have note : Step placed q [] { q with watermark := r.number } := step_note (by simpa using hseen)
    have hnote : IsWalk placed True (·.closes = false) q [] { q with watermark := r.number } :=
      .of_walk_nil note.walk
    simp only
    split
    · exact hnote.mono fun _ => trivial
    · rename_i place row hloc
      exact (hnote.trans (h _ place row hloc)).mono fun ht => ⟨trivial, ht⟩

theorem movedOrUpdated_not_closes (place target : Nat) :
    (movedOrUpdated place target).closes = false := by
  rw [movedOrUpdated]
  split <;> rfl

theorem settle_not_closes (q : Queue) (place : Nat) (before : UInt64) (row : Row) :
    ∀ c ∈ (q.settle place before row).changes, c.closes = false := by
  simp only [settle]
  split
  · simp [Change.closes]
  · simp [movedOrUpdated_not_closes]

theorem takes_update {r : Report} : Takes placed q (q.update weight r) := by
  refine takes_takeIn ?_
  intro q place row hloc
  split
  · exact .refl q
  · split
    · rename_i row' hmade
      exact .of_walk_nil (Step.observe hloc hmade).walk
    · rename_i row' hmade
      exact .of_walk (Step.settle hloc hmade).walk (settle_not_closes _ _ _ _)

theorem takes_hinder {r : Report} {fault : Option Fault} :
    Takes placed q (q.hinder weight r fault) := by
  refine takes_takeIn ?_
  intro q place row hloc
  split
  · rename_i row' hmade
    exact .of_walk_nil (Step.observe hloc hmade).walk
  · rename_i row' hmade
    exact .of_walk (Step.refresh hloc hmade).walk (by simp [Change.closes])

theorem takes_finish {now : Instant} {r : Report} {fault : Option Fault} :
    Takes placed q (q.finish now r fault) :=
  takes_takeIn fun _ _ _ hloc => .of_walk (Step.finish hloc).walk (by simp [Change.closes])

/-! ## Rows that go -/

theorem size_eraseRun (q : Queue) (first last : Nat) :
    (q.eraseRun first last).size = min first q.size + (q.size - (last + 1)) := by
  simp [size, eraseRun]

theorem emptied_silent (q q' : Queue) :
    ∀ c ∈ emptied q q', ∃ b, c = Change.presence b ∨ c = Change.pausing b := by
  rw [emptied]
  split <;> simp

/-- Descending runs, all of them below `bound`. -/
def Stacked : Nat → List Run → Prop
  | _, [] => True
  | bound, run :: runs => run.first ≤ run.last ∧ run.last < bound ∧ Stacked run.first runs

/-- The runs of descending row numbers descend. -/
theorem stacked_ofDescending {ns : List Nat} {bound : Nat} (hdesc : ns.Pairwise (· > ·))
    (hbound : ∀ n ∈ ns, n < bound) : Stacked bound (Run.ofDescending ns) := by
  induction ns generalizing bound with
  | nil => trivial
  | cons n ns ih =>
    rw [List.pairwise_cons] at hdesc
    have hn : n < bound := hbound n List.mem_cons_self
    have hruns : Stacked n (Run.ofDescending ns) := ih hdesc.2 hdesc.1
    rw [Run.ofDescending]
    rcases hof : Run.ofDescending ns with _ | ⟨run, runs⟩
    · exact ⟨Nat.le_refl n, hn, trivial⟩
    · rw [hof] at hruns
      obtain ⟨hle, hlt, hrest⟩ := hruns
      by_cases hnext : run.last + 1 = n
      · simp only [hnext, if_true]
        exact ⟨by show run.first ≤ n; omega, hn, hrest⟩
      · simp only [hnext, if_false]
        exact ⟨Nat.le_refl n, hn, hle, hlt, hrest⟩

/-- Runs that descend are erased one after the other, and each is within the rows that are left. -/
theorem walk_eraseRuns {runs : List Run} {bound : Nat} {q : Queue} (h : Stacked bound runs)
    (hbound : bound ≤ q.size) :
    Walk placed q (runs.map fun run => .removed run.first run.last) (q.eraseRuns runs) := by
  induction runs generalizing bound q with
  | nil => exact .refl q
  | cons run runs ih =>
    obtain ⟨hle, hlt, hrest⟩ := h
    have step : Step placed q _ _ := .erase hle (Nat.lt_of_lt_of_le hlt hbound)
    have hsize : run.first ≤ (q.eraseRun run.first run.last).size := by
      rw [size_eraseRun]
      omega
    exact step.walk.trans (ih hrest hsize)

theorem descending_selection (size : Nat) (rows : List Nat) :
    (selection size rows).reverse.Pairwise (· > ·) :=
  List.pairwise_reverse.2 (pairwise_selection size rows)

theorem lt_of_mem_reverse_selection {size : Nat} {rows : List Nat} :
    ∀ n ∈ (selection size rows).reverse, n < size :=
  fun _ hn => (mem_selection.1 (List.mem_reverse.1 hn)).1

/-- The outcome of an operation that does nothing but close rows: a walk, of which the observers are
told. -/
abbrev Drops {α : Type} (placed : Prop) (q : Queue) (o : Outcome Queue α) : Prop :=
  IsWalk placed True (·.closes = true) q o.changes o.state

theorem drops_eraseRows {rows : List Nat} : Drops placed q (q.eraseRows rows) := by
  have hruns := stacked_ofDescending (descending_selection q.size rows) lt_of_mem_reverse_selection
  have hwalk : Walk placed q _ _ := walk_eraseRuns hruns (Nat.le_refl q.size)
  refine (IsWalk.of_walk hwalk ?_).append_silent (emptied_silent _ _)
  simp [Change.closes]

theorem drops_eraseRange {first count : Nat} : Drops placed q (q.eraseRange first count) := by
  simp only [eraseRange]
  split
  · exact .refl q
  · rename_i h
    have step : Step placed q [.removed first (first + count - 1)]
        (q.eraseRun first (first + count - 1)) := .erase (by omega) (by omega)
    exact (IsWalk.of_walk step.walk (by simp [Change.closes])).append_silent (emptied_silent _ _)

theorem drops_restart {tag : Tag} : Drops placed q (q.restart tag) := by
  simp only [restart]
  split
  · exact .refl q
  · rename_i place row hloc
    split
    · exact .refl q
    · have step : Step placed q _ _ := .erase (Nat.le_refl place) (lt_size_of_locate? hloc)
      exact (IsWalk.of_walk step.walk (by simp [Change.closes])).append_silent (emptied_silent _ _)

/-! ### Dismissing rows -/

/-- What holds of a sweep that has visited rows of `q` from `bound` on: it has walked from `q`, and
the run that is still to be erased is in range. -/
structure Sweep.Sound (placed : Prop) (q : Queue) (bound : Nat) (s : Sweep) : Prop where
  walk : Walk placed q s.changes s.queue
  closes : ∀ c ∈ s.changes, c.closes = true
  pending : ∀ run ∈ s.pending, run.first ≤ run.last ∧ run.last < s.queue.size ∧ bound ≤ run.first

namespace Sweep.Sound

variable {bound n : Nat} {s : Sweep} {cancel : Bool}

/-- The pending run can be erased. -/
theorem flush (h : Sound placed q bound s) : Sound placed q n s.flush := by
  rw [Sweep.flush]
  rcases hpending : s.pending with _ | run
  · exact ⟨h.walk, h.closes, by simp [hpending]⟩
  · obtain ⟨hle, hlt, -⟩ := h.pending run hpending
    refine ⟨h.walk.tail (.erase hle hlt), fun c hc => ?_, by simp⟩
    rcases List.mem_append.1 hc with hc | hc
    · exact h.closes c hc
    · rw [List.mem_singleton.1 hc]
      rfl

/-- When the pending run is erased, the rows before those that were visited stay. -/
theorem lt_size_flush (h : Sound placed q bound s) (hn : n < bound) (hs : n < s.queue.size) :
    n < s.flush.queue.size := by
  rw [Sweep.flush]
  rcases hpending : s.pending with _ | run
  · exact hs
  · obtain ⟨hle, hlt, hfirst⟩ := h.pending run hpending
    show n < (s.queue.eraseRun run.first run.last).size
    rw [size_eraseRun]
    omega

/-- A run of one row is pending. -/
theorem start (h : Sound placed q n s) (hs : n < s.queue.size) :
    Sound placed q n { s with pending := some ⟨n, n⟩ } :=
  ⟨h.walk, h.closes, by simp [hs]⟩

theorem visit (h : Sound placed q bound s) (hn : n < bound) :
    Sound placed q n (s.visit cancel n) := by
  -- a bound that goes down keeps what is known of the pending run
  have hdown : Sound placed q n s :=
    ⟨h.walk, h.closes, fun run hrun => by have := h.pending run hrun; omega⟩
  rw [Sweep.visit]
  split
  · exact hdown
  · rename_i row hrow
    have hs : n < s.queue.size := (List.getElem?_eq_some_iff.1 hrow).1
    have hflush : Sound placed q n s.flush := h.flush
    split
    · -- a finished row joins the pending run, or starts one
      split
      · rename_i run hpending
        obtain ⟨hle, hlt, hfirst⟩ := h.pending run hpending
        split
        · exact ⟨h.walk, h.closes, by simp; omega⟩
        · exact hflush.start (h.lt_size_flush hn hs)
      · exact hdown.start hs
    · -- any other row ends the pending run
      split
      · exact ⟨hflush.walk, hflush.closes, hflush.pending⟩
      · exact hflush

/-- A sweep over descending row numbers is sound to its end. -/
theorem foldl {ns : List Nat} (cancel : Bool) (h : Sound placed q bound s) (hdesc : ns.Pairwise (· > ·))
    (hbound : ∀ n ∈ ns, n < bound) :
    ∃ bound', Sound placed q bound' (ns.foldl (Sweep.visit cancel) s) := by
  induction ns generalizing bound s with
  | nil => exact ⟨bound, h⟩
  | cons n ns ih =>
    rw [List.pairwise_cons] at hdesc
    exact ih (h.visit (hbound n List.mem_cons_self)) hdesc.2 hdesc.1

end Sweep.Sound

theorem drops_dismiss {rows : List Nat} {cancel clear : Bool} :
    Drops placed q (q.dismiss rows cancel clear) := by
  simp only [dismiss]
  split
  · have hstart : Sweep.Sound placed q q.size ⟨q, none, [], []⟩ := ⟨.refl q, by simp, by simp⟩
    obtain ⟨bound, hend⟩ := hstart.foldl cancel (descending_selection q.size rows)
      lt_of_mem_reverse_selection
    have hflush : Sweep.Sound placed q bound _ := hend.flush
    exact (IsWalk.of_walk hflush.walk hflush.closes).append_silent (emptied_silent _ _)
  · split <;> exact .refl q

/-! ## Loading -/

/-- What holds of a load that began at `q`: it has walked from there, and observers will have been
told so when they are told of the pending run. -/
structure Load.Sound (placed : Prop) (q : Queue) (s : Load) : Prop where
  isWalk : IsWalk placed True (·.closes = false) q s.flush.changes s.queue
  pending : ∀ run ∈ s.pending, run.first ≤ run.last

namespace Load.Sound

variable {s : Load}

theorem prepare (h : Sound placed q s) (place : Nat) :
    Sound placed q (s.prepare place) ∧ (s.prepare place).queue = s.queue
      ∧ ∀ run ∈ (s.prepare place).pending, place = run.last + 1 := by
  obtain ⟨hwalk, hle⟩ := h
  rw [Load.prepare]
  rcases hpending : s.pending with _ | run
  · exact ⟨⟨hwalk, hle⟩, rfl, by simp [hpending]⟩
  · by_cases hnext : place = run.last + 1
    · simp only [hnext, if_true]
      exact ⟨⟨hwalk, hle⟩, trivial, by simp [hpending]⟩
    · -- a second flush has nothing to tell
      simp only [hnext, if_false]
      simp only [Load.flush, hpending] at hwalk ⊢
      exact ⟨⟨by simpa [Load.flush] using hwalk, by simp⟩, trivial, by simp⟩

/-- A row that comes behind the pending run, or when there is none. -/
theorem extend (h : Sound placed q s) {q' : Queue} {place : Nat}
    (hnext : ∀ run ∈ s.pending, place = run.last + 1)
    (step : Step placed s.queue [.inserted place place] q') :
    Sound placed q (s.extend q' place) := by
  obtain ⟨hwalk, hle⟩ := h
  have hstep : IsWalk placed True (·.closes = false) s.queue [.inserted place place] q' :=
    .of_walk step.walk (by simp [Change.closes])
  have hboth := (hwalk.trans hstep).mono fun ht : True => ⟨ht, ht⟩
  rcases hpending : s.pending with _ | run
  · refine ⟨?_, by simp [Load.extend, hpending]⟩
    simpa [Load.extend, Load.flush, hpending] using hboth
  · obtain rfl := hnext run hpending
    have hrun := hle run hpending
    refine ⟨?_, by simp [Load.extend, hpending]; omega⟩
    have hsame := (Change.SameReplay.refl s.changes).append
      (Change.SameReplay.inserted_succ hrun)
    simp only [Load.extend, Load.flush, hpending, List.append_assoc, List.cons_append,
      List.nil_append, Option.map_some, Option.getD_some] at hboth ⊢
    exact hboth.retell hsame

/-- A load is sound to its end, and where it breaks off. -/
theorem run (h : Sound placed q s) (rs : List Report) :
    Sound placed q (Load.run weight rs s).1 := by
  induction rs generalizing s with
  | nil => exact h
  | cons r rs ih =>
    obtain ⟨hprepared, hqueue, hnext⟩ := h.prepare (placeLoading r.lane r.priority s.queue.rows)
    simp only [Load.run]
    split
    · exact hprepared
    · exact ih hprepared
    · rename_i q' hadd
      obtain ⟨row, hrow, rfl, hnew, hbound⟩ := add_eq_ok_some hadd
      refine ih (hprepared.extend hnext (.come hnew hbound hrow fun _ => .inr ?_))
      rw [hqueue]

end Load.Sound

theorem Load.queue_flush (s : Load) : s.flush.queue = s.queue := by
  rw [Load.flush]
  split <;> rfl

/-- To tell of a run that is pending bears on no row. -/
theorem Load.queue_prepare (s : Load) (place : Nat) : (s.prepare place).queue = s.queue := by
  rw [Load.prepare]
  split
  · rfl
  · split
    · rfl
    · exact Load.queue_flush s

theorem takes_loadChunk {number : UInt64} {chunk : List Report} :
    Takes placed q (q.loadChunk weight number chunk) := by
  have hle : q.watermark ≤ if q.watermark < number then number else q.watermark := by
    split
    · exact UInt64.le_of_lt ‹_›
    · exact UInt64.le_refl _
  have hnote : IsWalk placed True (·.closes = false) q [] _ := .of_walk_nil (Step.note hle).walk
  have hstart : Load.Sound placed q
      ⟨{ q with watermark := if q.watermark < number then number else q.watermark }, none, 0, []⟩ :=
    ⟨hnote, by simp⟩
  have hend : Load.Sound placed q (Load.run weight chunk _).1 := hstart.run chunk
  simp only [loadChunk]
  split
  · -- the pending run is not told, but then the answer says so
    rename_i s hrun
    rw [hrun] at hend
    obtain ⟨cs, hwalk, hkind, -⟩ := hend.isWalk
    exact ⟨cs, hwalk, hkind, fun ht => absurd rfl ht⟩
  · rename_i s hrun
    rw [hrun] at hend
    refine (IsWalk.append_silent ?_ ?_).mono fun _ => trivial
    · rw [Load.queue_flush]
      exact hend.isWalk
    · split <;> simp

theorem takes_loadChunks {number : UInt64} {parts : List (List Report)} :
    Takes placed q (q.loadChunks weight number parts) := by
  induction parts generalizing q with
  | nil => exact .refl q
  | cons chunk parts ih =>
    have hfirst : Takes placed q (q.loadChunk weight number chunk) := takes_loadChunk
    simp only [loadChunks]
    split
    · exact hfirst
    · rename_i added hanswer
      refine (hfirst.trans ih).mono fun ht => ⟨by simp [hanswer], fun herror => ht ?_⟩
      simp [Outcome.mapAnswer, Outcome.after, herror, Except.map]

theorem takes_loadListing {size : Nat} {listing : Listing} :
    Takes placed q (q.loadListing weight size listing) := by
  rw [loadListing]
  split
  · exact takes_loadChunk
  · exact takes_loadChunks

end Queue

/-! ## Actions on a board -/

namespace Board

open Queue (IsWalk)

variable {placed : Prop} {b : Board}

/-- The outcome of an action that closes no rows and can fail to express a time: a walk of the
queue, of which the observers are told if it does not fail. -/
abbrev Takes {α : Type} (placed : Prop) (b : Board) (o : Outcome Board (Except Overflow α)) : Prop :=
  IsWalk placed (o.answer ≠ .error .tooLong) (·.closes = false) b.queue o.changes o.state.queue

theorem takes_start {r : Report} : Takes placed b (b.start r) := by
  have hstart : Queue.Takes placed b.queue (b.queue.start b.config.paceWeight r) := Queue.takes_start
  simp only [start]
  split
  · split <;> exact hstart
  · exact hstart

theorem takes_takeIn {now : Instant} {event : Event} : Takes placed b (b.takeIn now event) := by
  cases event with
  | started r => exact takes_start
  | updated r => exact Queue.takes_update
  | hindered r fault => exact Queue.takes_hinder
  | finished r fault => exact Queue.takes_finish

theorem takes_hear {now : Instant} {event : Event} : Takes placed b (b.hear now event) := by
  rw [hear]
  split
  · exact takes_takeIn
  · exact .refl b.queue

theorem takes_hearAll {now : Instant} {events : List Event} :
    Takes placed b (hearAll now events b) := by
  induction events generalizing b with
  | nil => exact .refl b.queue
  | cons event events ih =>
    have hfirst : Takes placed b (b.hear now event) := takes_hear
    simp only [hearAll]
    split
    · rename_i e hanswer
      refine hfirst.mono fun ht he => ht ?_
      rw [he] at hanswer
      exact absurd rfl ht
    · rename_i hanswer
      exact (hfirst.trans ih).mono fun ht => ⟨by simp [hanswer], ht⟩

/-- An action leaves it to the queue where new rows come. -/
def Places (b : Board) : Action → Prop
  | .insert r place => place = Queue.placeFor r.lane r.priority b.queue.rows
  | _ => True

/-- What has an answer fails exactly when its answer says so. -/
theorem Takes.answer {α : Type} {o : Outcome Board (Except Overflow α)} (h : Takes placed b o)
    (f : α → Answer) :
    IsWalk placed ((o.mapAnswer (Answer.ofExcept f)).answer ≠ Answer.overflow) (·.closes = false)
      b.queue o.changes o.state.queue := by
  refine h.mono fun ht he => ht ?_
  simp [Outcome.mapAnswer, he, Answer.ofExcept]

/-- An outcome that leaves the queue as it is, and of which only signals are told. -/
structure Rests {α : Type} (b : Board) (o : Outcome Board α) : Prop where
  queue : o.state.queue = b.queue
  silent : ∀ c ∈ o.changes, ∃ p, c = .presence p ∨ c = .pausing p

theorem Rests.isWalk {α : Type} {o : Outcome Board α} (h : Rests b o) :
    IsWalk placed True (·.closes = true) b.queue o.changes o.state.queue := by
  rw [h.queue]
  exact (IsWalk.refl b.queue).append_silent h.silent

theorem rests_moveRange {first count destination : Nat} :
    Rests b (b.onQueue (Queue.moveRange first count destination)) := by
  unfold onQueue Queue.moveRange
  split <;> exact ⟨rfl, by simp [Outcome.mapState]⟩

theorem rests_pauseSelection {rows : List Nat} {paused : Bool} :
    Rests b (b.pauseSelection rows paused) := by
  simp only [pauseSelection]
  split <;> exact ⟨rfl, by simp⟩

theorem rests_pauseAll {paused : Bool} : Rests b (b.pauseAll paused) := by
  refine ⟨rfl, ?_⟩
  simp only [pauseAll]
  split <;> simp

theorem rests_adoptPreference : Rests b b.adoptPreference := by
  rw [adoptPreference]
  split
  · exact ⟨rfl, by simp⟩
  · exact ⟨rests_pauseAll.queue, rests_pauseAll.silent⟩

/-- An action on the board is a walk of the queue that either closes no rows or does nothing else. -/
theorem isWalk_perform {action : Action} (fits : placed → b.Places action) :
    IsWalk placed ((b.perform action).answer ≠ .overflow) (·.closes = false) b.queue
        (b.perform action).changes (b.perform action).state.queue
      ∨ IsWalk placed True (·.closes = true) b.queue
        (b.perform action).changes (b.perform action).state.queue := by
  cases action with
  | hear now event => exact .inl (takes_hear.answer _)
  | hearAll now events => exact .inl (takes_hearAll.answer _)
  | takeIn now event => exact .inl (takes_takeIn.answer _)
  | load size listing =>
    have h : Takes placed b (b.load size listing) := Queue.takes_loadListing
    exact .inl (h.answer _)
  | insert r place =>
    have h : Takes placed b (b.onQueue (Queue.insert b.config.paceWeight r place)) :=
      Queue.takes_insert fits
    exact .inl (h.answer _)
  | eraseRows rows => exact .inr Queue.drops_eraseRows
  | eraseRange first count => exact .inr Queue.drops_eraseRange
  | dismiss rows cancel clear => exact .inr Queue.drops_dismiss
  | restart tag => exact .inr Queue.drops_restart
  | moveRange first count destination => exact .inr rests_moveRange.isWalk
  | moveSelection rows destination => exact .inr (.refl b.queue)
  | pauseOne tag paused => exact .inr (.refl b.queue)
  | pauseSelection rows paused => exact .inr rests_pauseSelection.isWalk
  | pauseAll paused => exact .inr rests_pauseAll.isWalk
  | flipPause => exact .inr rests_pauseAll.isWalk
  | adoptPreference => exact .inr rests_adoptPreference.isWalk
  | overwritePreference paused => exact .inr (.refl b.queue)
  | cancelEverything => exact .inr (.refl b.queue)

/-- Every action is a walk of the queue. -/
theorem walk_perform {action : Action} (fits : placed → b.Places action) :
    ∃ cs, Queue.Walk placed b.queue cs (b.perform action).state.queue := by
  rcases isWalk_perform fits with ⟨cs, hwalk, -, -⟩ | ⟨cs, hwalk, -, -⟩
  · exact ⟨cs, hwalk⟩
  · exact ⟨cs, hwalk⟩

/-! ## Runs -/

/-- All actions of a run leave it to the queue where new rows come. -/
def PlacesAll (b : Board) : List Action → Prop
  | [] => True
  | action :: actions => b.Places action ∧ (b.perform action).state.PlacesAll actions

/-- Every run is a walk of the queue. -/
theorem walk_run {actions : List Action} (fits : placed → b.PlacesAll actions) :
    ∃ cs, Queue.Walk placed b.queue cs (b.run actions).state.queue := by
  induction actions generalizing b with
  | nil => exact ⟨[], .refl b.queue⟩
  | cons action actions ih =>
    obtain ⟨cs, hfirst⟩ : ∃ cs, Queue.Walk placed b.queue cs (b.perform action).state.queue :=
      walk_perform fun hp => (fits hp).1
    obtain ⟨ds, hrest⟩ := ih fun hp => (fits hp).2
    exact ⟨cs ++ ds, hfirst.trans hrest⟩

end Board

/-- The start of 1970. -/
def Instant.epoch : Instant := ⟨0, 0, by decide⟩

/-- The report of a transfer of an empty file, of which there is little to say. -/
def Report.bare (tag : Tag) (direction : Direction) (priority number : UInt64) : Report where
  tag
  direction
  isSync := false
  isFolder := false
  isStreaming := false
  phase := .queued
  priority
  totalBytes := 0
  doneBytes := 0
  speed := 0
  meanSpeed := 0
  startedAt := 0
  updatedAt := 0
  fileName := ""
  path := ""
  parentHandle := 0
  nodeHandle := 0
  sharedNode := none
  lastFault := none
  number

end TransferQueue
