import TransferQueue.Proofs.Erasing

/-!
# Rows that are dismissed

To dismiss rows is to erase those that are finished and to cancel the transfers of the others, in one
sweep from the last selected row to the first.  The sweep erases rows under its own feet, but only
behind the rows that it has still to visit; so what it finds there is what was there at first, and it
erases the runs that the finished rows make among all rows.

* `Queue.Sweep.close`: a sweep that erases given runs and cancels given transfers;
* `Queue.Sweep.close_visit`, `Queue.Sweep.flush_foldl_visit`: each visit and then the whole sweep do so;
* `Board.dismissal`: to dismiss rows is to erase the finished ones and to cancel the others.
-/

namespace TransferQueue

theorem Phase.not_isFinished_of_canCancel {phase : Phase} (h : phase.canCancel = true) :
    ¬phase.isFinished = true := by
  cases phase <;> first | decide | simp [canCancel] at h

namespace Run

variable {run : Run} {runs : List Run} {n : Nat}

theorem join_join_of_next (h : run.first = n + 1) :
    run.join (join ⟨n, n⟩ runs) = join ⟨n, run.last⟩ runs := by
  rcases runs with _ | ⟨next, runs⟩
  · simp only [join, if_pos h.symm]
  · by_cases hnext : next.last + 1 = n
    · simp only [join, if_pos hnext, if_pos h.symm]
    · simp only [join, if_neg hnext, if_pos h.symm]

theorem join_join_of_apart (h : run.first ≠ n + 1) :
    run.join (join ⟨n, n⟩ runs) = run :: join ⟨n, n⟩ runs := by
  rcases runs with _ | ⟨next, runs⟩
  · simp only [join, if_neg h.symm]
  · by_cases hnext : next.last + 1 = n
    · simp only [join, if_pos hnext, if_neg h.symm]
    · simp only [join, if_neg hnext, if_neg h.symm]

theorem join_of_stacked (h : Queue.Stacked n runs) (hn : n < run.first) :
    run.join runs = run :: runs := by
  rcases runs with _ | ⟨next, runs⟩
  · rfl
  · rw [join, if_neg]
    have := h.lt next List.mem_cons_self
    omega

end Run

namespace Queue

/-- Whether there is a finished row with this number. -/
def finishedAt (q : Queue) (n : Nat) : Bool :=
  (q.rows[n]?).any fun row => row.entry.phase.isFinished

/-- The transfer of a row that is to be cancelled, if it can be. -/
def toCancel? (cancel : Bool) (q : Queue) (n : Nat) : Option Tag :=
  ((q.rows[n]?).filter fun row => cancel && row.entry.phase.canCancel).map Row.tag

namespace Sweep

variable {placed : Prop} {q q' : Queue} {s : Sweep} {runs : List Run} {tags : List Tag} {ns : List Nat}
  {cancel : Bool} {bound n : Nat}

/-- The runs that a sweep has still to erase if the rows ahead of it make the given ones. -/
def due (s : Sweep) (runs : List Run) : List Run :=
  match s.pending with
  | none => runs
  | some run => run.join runs

/-- The end of a sweep that has still to erase runs ahead of it and to cancel transfers. -/
def close (s : Sweep) (runs : List Run) (tags : List Tag) : Sweep where
  queue := s.queue.eraseRuns (s.due runs)
  pending := none
  cancelled := s.cancelled ++ tags
  changes := s.changes ++ (s.due runs).map fun run => .removed run.first run.last

theorem pending_flush (s : Sweep) : s.flush.pending = none := by
  rw [flush]
  split
  · assumption
  · rfl

theorem cancelled_flush (s : Sweep) : s.flush.cancelled = s.cancelled := by
  rw [flush]
  split <;> rfl

theorem close_of_pending (h : s.pending = none) (runs : List Run) (tags : List Tag) :
    s.close runs tags = { s with
      queue := s.queue.eraseRuns runs
      cancelled := s.cancelled ++ tags
      changes := s.changes ++ runs.map fun run => .removed run.first run.last } := by
  simp only [close, due, h]

theorem flush_eq_close (s : Sweep) : s.flush = s.close [] [] := by
  rw [flush]
  split
  · rw [close_of_pending ‹_›]
    simp only [eraseRuns, List.foldl_nil, List.append_nil, List.map_nil]
  · simp [close, due, ‹s.pending = _›, Run.join, eraseRuns]

/-- A pending run that the rows ahead cannot join may be erased at once. -/
theorem close_flush (h : ∀ run ∈ s.pending, run.join runs = run :: runs) :
    s.flush.close runs tags = s.close runs tags := by
  rcases hpending : s.pending with _ | run
  · rw [flush, hpending]
  · rw [close_of_pending s.pending_flush, close, due, flush, hpending]
    simp [h run hpending, eraseRuns]

/-- A run of one row that is pending joins the runs ahead. -/
theorem close_start (h : s.pending = none) :
    { s with pending := some ⟨n, n⟩ }.close runs tags = s.close (Run.join ⟨n, n⟩ runs) tags := by
  simp only [close, due, h]

/-- The row before the pending run joins it. -/
theorem close_grow {run : Run} (h : s.pending = some run) (hnext : run.first = n + 1) :
    { s with pending := some ⟨n, run.last⟩ }.close runs tags
      = s.close (Run.join ⟨n, n⟩ runs) tags := by
  simp only [close, due, h, Run.join_join_of_next hnext]

/-- A transfer that is to be cancelled comes before those ahead. -/
theorem close_cancel (s : Sweep) (runs : List Run) (tags : List Tag) (tag : Tag) :
    { s with cancelled := s.cancelled ++ [tag] }.close runs tags = s.close runs (tag :: tags) := by
  simp [close, due]

/-- What a visit does to the end of a sweep. -/
theorem close_visit (hpending : ∀ run ∈ s.pending, n < run.first) (hruns : Stacked n runs)
    (hrow : s.queue.rows[n]? = q.rows[n]?) :
    (s.visit cancel n).close runs tags
      = s.close (if q.finishedAt n then Run.join ⟨n, n⟩ runs else runs)
          ((q.toCancel? cancel n).toList ++ tags) := by
  rw [visit, finishedAt, toCancel?, hrow]
  rcases q.rows[n]? with _ | row
  · rfl
  cases hfinished : row.entry.phase.isFinished with
  | true =>
    have hkeep : row.entry.phase.canCancel = false :=
      Bool.eq_false_iff.2 fun hcancel => Phase.not_isFinished_of_canCancel hcancel hfinished
    simp only [Option.any_some, Option.filter_some, hfinished, hkeep, Bool.and_false,
      Bool.false_eq_true, if_true, if_false, Option.map_none, Option.toList_none, List.nil_append]
    split
    · rename_i run hrun
      split
      · exact close_grow hrun ‹_›
      · -- nothing ahead can join the pending run any more
        rw [close_start s.pending_flush]
        refine close_flush fun next hnext => Run.join_join_of_apart ?_
        rwa [← Option.some.inj (hrun.symm.trans hnext)]
    · exact close_start ‹_›
  | false =>
    have hflush : ∀ tags, s.flush.close runs tags = s.close runs tags := fun tags =>
      close_flush fun run hrun => Run.join_of_stacked hruns (hpending run hrun)
    simp only [Option.any_some, Option.filter_some, hfinished, Bool.false_eq_true, if_false]
    cases cancel && row.entry.phase.canCancel with
    | true =>
      have hcancelled := s.flush.close_cancel runs tags row.tag
      rw [s.cancelled_flush] at hcancelled
      exact hcancelled.trans (hflush _)
    | false => exact hflush tags

/-- The rows before those that were visited are where they were. -/
theorem Sound.getElem?_visit (h : Sound placed q' bound s) {m : Nat} (hm : m < bound) :
    (s.visit cancel n).queue.rows[m]? = s.queue.rows[m]? := by
  rcases s.queue_visit cancel n with hqueue | hqueue
  · rw [hqueue]
  · rw [hqueue, Sweep.flush]
    rcases hpending : s.pending with _ | run
    · rfl
    · obtain ⟨hle, hlt, hfirst⟩ := h.pending run hpending
      have hlen : m < (s.queue.rows.take run.first).length := by
        rw [List.length_take]
        rw [size] at hlt
        omega
      show (s.queue.rows.take run.first ++ s.queue.rows.drop (run.last + 1))[m]? = _
      rw [List.getElem?_append_left hlen, List.getElem?_take_of_lt (by omega)]

/-- A sweep erases the runs that the finished rows make, and cancels the transfers of other rows. -/
theorem flush_foldl_visit (h : Sound placed q' bound s)
    (hrows : ∀ n < bound, s.queue.rows[n]? = q.rows[n]?) (hdesc : ns.Pairwise (· > ·))
    (hbound : ∀ n ∈ ns, n < bound) :
    (ns.foldl (visit cancel) s).flush
      = s.close (Run.ofDescending (ns.filter q.finishedAt)) (ns.filterMap (q.toCancel? cancel)) := by
  induction ns generalizing bound s with
  | nil => exact s.flush_eq_close
  | cons n ns ih =>
    obtain ⟨hbelow, hdesc⟩ := List.pairwise_cons.1 hdesc
    have hn : n < bound := hbound n List.mem_cons_self
    have hvisit : ∀ m < n, (s.visit cancel n).queue.rows[m]? = q.rows[m]? := fun m hm =>
      (h.getElem?_visit (Nat.lt_trans hm hn)).trans (hrows m (Nat.lt_trans hm hn))
    have hpending : ∀ run ∈ s.pending, n < run.first := fun run hrun =>
      Nat.lt_of_lt_of_le hn (h.pending run hrun).2.2
    have hruns : Stacked n (Run.ofDescending (ns.filter q.finishedAt)) :=
      stacked_ofDescending (hdesc.filter _) fun m hm => hbelow m (List.mem_of_mem_filter hm)
    rw [List.foldl_cons, ih (h.visit hn) hvisit hdesc hbelow, close_visit hpending hruns (hrows n hn),
      List.filter_cons, List.filterMap_cons]
    congr 1
    · split
      · rw [Run.ofDescending_cons]
      · rfl
    · cases q.toCancel? cancel n <;> rfl

end Sweep

variable {q : Queue} {rows rows' : List Nat} {cancel : Bool}

/-- The finished rows among those that a list chooses. -/
def finishedAmong (q : Queue) (rows : List Nat) : Finset Nat :=
  (q.chosen rows).filter fun n => q.finishedAt n

/-- The rows of a queue at chosen places whose transfers can be cancelled. -/
def cancelableAmong (q : Queue) (rows : List Nat) : List Row :=
  (pick q.rows (· ∈ q.chosen rows)).filter fun row => row.entry.phase.canCancel

theorem mem_finishedAmong {n : Nat} :
    n ∈ q.finishedAmong rows ↔ n ∈ q.chosen rows ∧ q.finishedAt n = true := by
  rw [finishedAmong, Finset.mem_filter]

theorem chosen_filter_finishedAt (rows : List Nat) (q : Queue) :
    q.chosen (rows.filter q.finishedAt) = q.finishedAmong rows := by
  ext n
  rw [mem_finishedAmong, mem_chosen, mem_chosen, List.mem_filter, and_right_comm]

/-- The finished rows of a selection are selected by any list of them. -/
theorem filter_selection (h : q.chosen rows' = q.finishedAmong rows) :
    (selection q.size rows).filter q.finishedAt = selection q.size rows' := by
  refine ((pairwise_selection _ _).filter _).eq_of_mem_iff (pairwise_selection _ _) fun n => ?_
  rw [List.mem_filter, mem_selection_iff, mem_selection_iff, h, mem_finishedAmong]

theorem pick_chosen (rows : List Nat) (q : Queue) :
    pick q.rows (· ∈ q.chosen rows) = (selection q.size rows).filterMap (q.rows[·]?) :=
  pick_congr fun n hn => by simpa [mem_chosen, size] using fun _ => hn

theorem sweep_eq (h : q.chosen rows' = q.finishedAmong rows) :
    ((selection q.size rows).reverse.foldl (Sweep.visit cancel) ⟨q, none, [], []⟩).flush
      = Sweep.close ⟨q, none, [], []⟩ (Run.ofDescending (selection q.size rows').reverse)
          ((selection q.size rows).reverse.filterMap (q.toCancel? cancel)) := by
  have hstart : Sweep.Sound False q q.size ⟨q, none, [], []⟩ := ⟨.refl q, by simp, by simp⟩
  rw [← filter_selection h, ← List.filter_reverse]
  exact Sweep.flush_foldl_visit hstart (fun _ _ => rfl) (descending_selection q.size rows)
    lt_of_mem_reverse_selection

/-- To dismiss rows and to clear the finished ones away is to erase these. -/
theorem dismiss_clear (h : q.chosen rows' = q.finishedAmong rows) :
    (q.dismiss rows cancel true).state = (q.eraseRows rows').state
      ∧ (q.dismiss rows cancel true).changes = (q.eraseRows rows').changes := by
  simp only [dismiss, if_true, sweep_eq h]
  exact ⟨rfl, rfl⟩

/-- To dismiss rows without clearing any away changes nothing. -/
theorem dismiss_keep (rows : List Nat) (cancel : Bool) (q : Queue) :
    (q.dismiss rows cancel false).state = q ∧ (q.dismiss rows cancel false).changes = [] := by
  cases cancel <;> exact ⟨rfl, rfl⟩

theorem filterMap_toCancel? (rows : List Nat) (q : Queue) :
    (selection q.size rows).reverse.filterMap (q.toCancel? true)
      = (q.cancelableAmong rows).reverse.map Row.tag := by
  rw [cancelableAmong, pick_chosen, ← List.filter_reverse, ← List.filterMap_reverse,
    List.filter_filterMap, List.map_filterMap]
  rfl

/-- What is cancelled does not depend on whether finished rows are cleared away. -/
theorem commands_dismiss (rows : List Nat) (cancel clear : Bool) (q : Queue) :
    (q.dismiss rows cancel clear).commands
      = if cancel then (q.cancelableAmong rows).reverse.map (.cancel ·.tag) else [] := by
  cases clear with
  | false =>
    cases cancel with
    | false => rfl
    | true =>
      simp only [dismiss, cancelableAmong, pick_chosen, ← List.filter_reverse,
        ← List.filterMap_reverse, if_true, Bool.false_eq_true, if_false]
  | true =>
    simp only [dismiss, if_true, sweep_eq (chosen_filter_finishedAt rows q), Sweep.close,
      List.nil_append]
    cases cancel with
    | false => simp [List.filterMap_eq_nil_iff, toCancel?]
    | true => rw [filterMap_toCancel?, List.map_map, if_pos rfl, Function.comp_def]

/-- A row whose transfer can be cancelled is among the rows that are left. -/
theorem mem_rows_dismiss {row : Row} (hrow : row ∈ q.cancelableAmong rows) (cancel clear : Bool) :
    row ∈ (q.dismiss rows cancel clear).state.rows := by
  obtain ⟨hpick, hcancel⟩ := List.mem_filter.1 hrow
  obtain ⟨n, hat, -⟩ := mem_pick.1 hpick
  cases clear with
  | false =>
    rw [(dismiss_keep rows cancel q).1]
    exact List.mem_of_getElem? hat
  | true =>
    have hfinished := chosen_filter_finishedAt rows q
    rw [(dismiss_clear hfinished).1, rows_eraseRows, hfinished]
    refine mem_pick.2 ⟨n, hat, decide_eq_true fun hgone => ?_⟩
    have hat' := (mem_finishedAmong.1 hgone).2
    rw [finishedAt, hat] at hat'
    exact Phase.not_isFinished_of_canCancel hcancel hat'

end Queue

namespace Board

variable {b : Board}

/-- To dismiss rows is to erase the finished ones of them as a set, if these are to be cleared away, and
to cancel the transfers of those that can be cancelled, from the last row to the first, if this is asked
for.  The one does not depend on the other, and a transfer that is cancelled keeps its row. -/
theorem dismissal (reached : b.Reached) (rows : List Nat) (cancel clear : Bool) :
    let o := b.perform (.dismiss rows cancel clear)
    (clear = true → ∀ finished, b.queue.chosen finished = b.queue.finishedAmong rows →
        o.state = (b.perform (.eraseRows finished)).state
          ∧ o.changes = (b.perform (.eraseRows finished)).changes)
      ∧ (clear = false → o.state = b ∧ o.changes = [])
      ∧ o.commands
        = (if cancel then (b.queue.cancelableAmong rows).reverse.map (.cancel ·.tag) else [])
      ∧ ∀ tag, .cancel tag ∈ o.commands →
        ∃ row, b.queue.find? tag = some row ∧ o.state.queue.find? tag = some row := by
  intro o
  have hnodup : b.queue.tags.Nodup := reached.balanced.nodup
  have hcommands : o.commands = _ := Queue.commands_dismiss rows cancel clear b.queue
  refine ⟨?_, ?_, hcommands, ?_⟩
  · rintro rfl finished hfinished
    obtain ⟨hstate, hchanges⟩ := Queue.dismiss_clear hfinished
    exact ⟨congrArg (fun queue => { b with queue }) hstate, hchanges⟩
  · rintro rfl
    obtain ⟨hstate, hchanges⟩ := Queue.dismiss_keep rows cancel b.queue
    exact ⟨congrArg (fun queue => { b with queue }) hstate, hchanges⟩
  · intro tag htag
    have hcancelled : ∃ row ∈ b.queue.cancelableAmong rows, row.tag = tag := by
      rw [hcommands] at htag
      split at htag
      · simpa using htag
      · simp at htag
    obtain ⟨row, hrow, rfl⟩ := hcancelled
    have hsub := Queue.sublist_dismiss rows cancel clear b.queue
    have hleft : o.state.queue.find? row.tag = some row :=
      (Queue.find?_eq_some_iff (hnodup.sublist (hsub.map Row.tag))).2
        ⟨Queue.mem_rows_dismiss hrow cancel clear, rfl⟩
    exact ⟨row, Queue.find?_of_sublist hnodup hsub hleft, hleft⟩

theorem Reached.run (h : b.Reached) (actions : List Action) : (b.run actions).state.Reached := by
  obtain ⟨config, preference, before, rfl⟩ := h
  refine ⟨config, preference, before ++ actions, ?_⟩
  rw [run_append]
  rfl

/-- A board with four rows, of which the second and the third are finished. -/
def halfDone : Board :=
  (fourRows.run
    [.hear .epoch (.finished { Report.bare 2 .download 20 5 with phase := .completed } none),
      .hear .epoch (.finished { Report.bare 3 .download 30 6 with phase := .cancelled } none)]).state

/-- All rows but the last are dismissed, by a list with a duplicate and a number beyond the end. -/
theorem dismissal_halfDone :
    (halfDone.perform (.dismiss [2, 0, 9, 2, 1] true true)).state
        = (halfDone.perform (.eraseRows [1, 2])).state
      ∧ (halfDone.perform (.dismiss [2, 0, 9, 2, 1] true true)).changes
        = (halfDone.perform (.eraseRows [1, 2])).changes
      ∧ (halfDone.perform (.dismiss [2, 0, 9, 2, 1] true true)).commands = [.cancel 1]
      ∧ (halfDone.perform (.dismiss [2, 0, 9, 2, 1] true false)).state = halfDone
      ∧ ∃ row, (halfDone.perform (.dismiss [2, 0, 9, 2, 1] true true)).state.queue.find? 1
        = some row := by
  have reached : halfDone.Reached := Reached.run ⟨_, _, _, rfl⟩ _
  have hfinished : halfDone.queue.chosen [1, 2] = halfDone.queue.finishedAmong [2, 0, 9, 2, 1] := by
    decide +kernel
  have hcancel : (halfDone.queue.cancelableAmong [2, 0, 9, 2, 1]).reverse.map (.cancel ·.tag)
      = [Command.cancel 1] := by
    decide +kernel
  obtain ⟨hclear, -, hcommands, hstays⟩ := dismissal reached [2, 0, 9, 2, 1] true true
  obtain ⟨-, hkeep, -⟩ := dismissal reached [2, 0, 9, 2, 1] true false
  have hasked := hcommands.trans hcancel
  obtain ⟨row, -, hrow⟩ := hstays 1 (hasked ▸ List.mem_cons_self)
  obtain ⟨hstate, hchanges⟩ := hclear rfl [1, 2] hfinished
  exact ⟨hstate, hchanges, hasked, (hkeep rfl).1, row, hrow⟩

end Board

end TransferQueue
