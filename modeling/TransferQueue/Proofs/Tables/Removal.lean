import TransferQueue.Proofs.Tables.Basic

/-!
# Requests of the user in the tables

Rows that are erased are drained from the sequence run by run, and each transfer of a run is forgotten.
To restart a transfer begins at the other end: its report is taken out of the failures, and the row,
if there is one, goes because of that.  The remaining requests only look things up.

* `Tables.Represents.eraseRows`, `Tables.Represents.eraseRange`, `Tables.Represents.dismiss`: rows that
  are erased;
* `Tables.Loses`: a transfer loses its row and all that is held for it, as it does when it is restarted;
* `Tables.Represents.restart`: to find the report first comes to the same as to find the row first;
* `Tables.Represents.moveRange`, `Tables.Represents.moveSelection`, `Tables.Represents.links_eq`: what the
  engine is asked for and what is offered.
-/

namespace TransferQueue

namespace Tables

/-! ## Erasing rows -/

/-- Erase runs one after the other. -/
def eraseRuns (t : Tables) (runs : List Run) : Tables :=
  runs.foldl (fun t run => t.removeRange run.first (run.last + 1 - run.first)) t

/-- Remove the rows with the given numbers, and answer how many there were. -/
def eraseRows (rows : List Nat) (t : Tables) : Outcome Tables Nat :=
  let selected := (Queue.selection t.order.length rows).reverse
  let runs := Run.ofDescending selected
  let t' := t.eraseRuns runs
  ⟨t', selected.length,
    runs.map (fun run => .removed run.first run.last) ++ t'.emptied (!t.order.isEmpty), []⟩

/-- Remove `count` rows from the row `first` on. -/
def eraseRange (first count : Nat) (t : Tables) : Outcome Tables Bool :=
  if count = 0 ∨ t.order.length < first + count then ⟨t, false, [], []⟩
  else
    let t' := t.removeRange first count
    ⟨t', true, .removed first (first + count - 1) :: t'.emptied true, []⟩

namespace Represents

variable {t : Tables} {q : Queue}

theorem eraseRuns {runs : List Run} {bound : Nat} (stacked : Queue.Stacked bound runs)
    (h : t.Represents q) : (t.eraseRuns runs).Represents (q.eraseRuns runs) := by
  induction runs generalizing bound t q with
  | nil => exact h
  | cons run runs ih =>
    obtain ⟨hle, -, hrest⟩ := stacked
    exact ih hrest (h.removeRange hle)

theorem eraseRows (h : t.Represents q) (rows : List Nat) :
    (t.eraseRows rows).Alike Represents (q.eraseRows rows) := by
  have stacked := Queue.stacked_ofDescending (Queue.descending_selection q.size rows)
    Queue.lt_of_mem_reverse_selection
  have h' := h.eraseRuns stacked
  rw [Tables.eraseRows, Queue.eraseRows, h.length_order, h.isEmpty_order]
  exact ⟨h', rfl, by rw [h'.emptied_eq rfl], rfl⟩

theorem eraseRange (h : t.Represents q) (first count : Nat) :
    (t.eraseRange first count).Alike Represents (q.eraseRange first count) := by
  rw [Tables.eraseRange, Queue.eraseRange, h.length_order]
  split
  · exact ⟨h, rfl, rfl, rfl⟩
  · rename_i hvalid
    have run : first ≤ first + count - 1 := by omega
    have hcount : count = first + count - 1 + 1 - first := by omega
    have h' : (t.removeRange first count).Represents (q.eraseRun first (first + count - 1)) := by
      have hremove := h.removeRange run
      rwa [← hcount] at hremove
    have hrows : true = !q.rows.isEmpty := by
      have hlt : 0 < q.rows.length := by
        rw [← Queue.size]
        omega
      simpa using List.ne_nil_of_length_pos hlt
    exact ⟨h', rfl, congrArg (List.cons _) (h'.emptied_eq hrows), rfl⟩

end Represents

/-! ## Dismissing rows -/

/-- A walk over selected rows from the last to the first. -/
structure Sweep where
  /-- The tables without the runs that have been erased. -/
  tables : Tables
  /-- The run of finished rows that has not been erased yet. -/
  pending : Option Run
  /-- The transfers to be cancelled. -/
  cancelled : List Tag
  /-- What observers are told. -/
  changes : List Change

namespace Sweep

/-- Erase the pending run. -/
def flush (s : Sweep) : Sweep :=
  match s.pending with
  | none => s
  | some run =>
    { s with
      tables := s.tables.removeRange run.first (run.last + 1 - run.first)
      pending := none
      changes := s.changes ++ [.removed run.first run.last] }

/-- Go on to the row `n`. -/
def visit (cancel : Bool) (s : Sweep) (n : Nat) : Sweep :=
  match s.tables.entryAt? n with
  | none => s
  | some e =>
    if e.phase.isFinished then
      match s.pending with
      | some run =>
        if run.first = n + 1 then { s with pending := some ⟨n, run.last⟩ }
        else { s.flush with pending := some ⟨n, n⟩ }
      | none => { s with pending := some ⟨n, n⟩ }
    else if cancel && e.phase.canCancel then
      { s.flush with cancelled := s.cancelled ++ [e.tag] }
    else s.flush

/-- The tables hold what the rows of another sweep hold, and all else is the same. -/
structure Represents (s : Sweep) (p : Queue.Sweep) : Prop where
  tables : s.tables.Represents p.queue
  pending : s.pending = p.pending
  run : ∀ run ∈ p.pending, run.first ≤ run.last
  cancelled : s.cancelled = p.cancelled
  changes : s.changes = p.changes

namespace Represents

variable {s : Sweep} {p : Queue.Sweep}

theorem flush (h : s.Represents p) : s.flush.Represents p.flush := by
  rw [Sweep.flush, Queue.Sweep.flush, h.pending]
  rcases hpending : p.pending with _ | run
  · exact h
  · have hrun := h.run run hpending
    exact ⟨h.tables.removeRange hrun, rfl, by simp, h.cancelled, by rw [h.changes]⟩

theorem visit (h : s.Represents p) (cancel : Bool) (n : Nat) :
    (s.visit cancel n).Represents (p.visit cancel n) := by
  rw [Sweep.visit, Queue.Sweep.visit, h.tables.entryAt?_eq]
  rcases p.queue.rows[n]? with _ | row
  · exact h
  · simp only [Option.map_some]
    split
    · rw [h.pending]
      rcases hpending : p.pending with _ | run
      · exact ⟨h.tables, rfl, by simp, h.cancelled, h.changes⟩
      · have hrun := h.run run hpending
        dsimp only
        split
        · exact ⟨h.tables, rfl, by simp; omega, h.cancelled, h.changes⟩
        · exact ⟨h.flush.tables, rfl, by simp, h.flush.cancelled, h.flush.changes⟩
    · split
      · exact ⟨h.flush.tables, h.flush.pending, h.flush.run, by rw [h.cancelled]; rfl,
          h.flush.changes⟩
      · exact h.flush

theorem foldl (cancel : Bool) (ns : List Nat) (h : s.Represents p) :
    (ns.foldl (Sweep.visit cancel) s).Represents (ns.foldl (Queue.Sweep.visit cancel) p) := by
  induction ns generalizing s p with
  | nil => exact h
  | cons n ns ih => exact ih (h.visit cancel n)

end Represents

end Sweep

/-- Cancel and clear: cancel the transfers of the selected rows that can be cancelled, and erase the
finished rows, each only if asked for. -/
def dismiss (rows : List Nat) (cancel clear : Bool) (t : Tables) : Outcome Tables Unit :=
  let selected := (Queue.selection t.order.length rows).reverse
  if clear then
    let s := (selected.foldl (Sweep.visit cancel) ⟨t, none, [], []⟩).flush
    ⟨s.tables, (), s.changes ++ s.tables.emptied (!t.order.isEmpty), s.cancelled.map .cancel⟩
  else if cancel then
    let chosen := (selected.filterMap t.entryAt?).filter fun e => e.phase.canCancel
    ⟨t, (), [], chosen.map fun e => .cancel e.tag⟩
  else ⟨t, (), [], []⟩

/-- The entries of selected rows. -/
theorem Represents.filterMap_entryAt? {t : Tables} {q : Queue} (h : t.Represents q)
    (rows : List Nat) :
    rows.filterMap t.entryAt? = (rows.filterMap (q.rows[·]?)).map Row.entry := by
  rw [List.map_filterMap]
  exact List.filterMap_congr fun n _ => h.entryAt?_eq n

theorem Represents.dismiss {t : Tables} {q : Queue} (h : t.Represents q) (rows : List Nat)
    (cancel clear : Bool) :
    (t.dismiss rows cancel clear).Alike Represents (q.dismiss rows cancel clear) := by
  rw [Tables.dismiss, Queue.dismiss, h.length_order, h.isEmpty_order]
  dsimp only
  split
  · have hstart : Sweep.Represents ⟨t, none, [], []⟩ ⟨q, none, [], []⟩ :=
      ⟨h, rfl, by simp, rfl, rfl⟩
    have hend := (hstart.foldl cancel (Queue.selection q.size rows).reverse).flush
    refine ⟨hend.tables, rfl, ?_, by rw [hend.cancelled]⟩
    rw [hend.changes, hend.tables.emptied_eq rfl]
  · split
    · refine ⟨h, rfl, rfl, ?_⟩
      rw [h.filterMap_entryAt?, List.filter_map, List.map_map]
      rfl
    · exact ⟨h, rfl, rfl, rfl⟩

/-! ## Another try -/

/-- Retry a failed transfer: take its report out of the failures, erase its row if it has one, and ask
the engine to start it again. -/
def restart (tag : Tag) (t : Tables) : Outcome Tables Bool :=
  match t.retained[tag]? with
  | none => ⟨t, false, [], []⟩
  | some report =>
    let t := { t with retained := t.retained.erase tag }
    match t.rowOf? tag with
    | none => ⟨t, true, [], [.restart report]⟩
    | some n =>
      let t := t.removeRange n 1
      ⟨t, true, .removed n n :: t.emptied true, [.restart report]⟩

/-- From `t` to `t'` a transfer has lost its row, with all that was held for it, and nothing else has
changed. -/
structure Loses (t : Tables) (tag : Tag) (t' : Tables) : Prop where
  order : t'.order = t.order.erase tag
  entries : Sets t.entries tag none t'.entries
  retained : Sets t.retained tag none t'.retained
  paces : Sets t.paces tag none t'.paces
  /-- The counters that its entry bears on are lowered. -/
  tally : ∃ e, t.entries[tag]? = some e ∧ t'.tally = t.tally.remove e
  watermark : t'.watermark = t.watermark

section Loses

variable {t t' : Tables} {q : Queue} {before after : List Row} {row : Row}

/-- When one row goes, its transfer goes from the sequence. -/
theorem Represents.erase_order (h : t.Represents q) (hrows : q.rows = before ++ row :: after) :
    t.order.erase row.tag = t.order.take before.length ++ t.order.drop (before.length + 1) := by
  have horder : t.order = before.map Row.tag ++ row.tag :: after.map Row.tag := by
    rw [h.order, Queue.tags, hrows, List.map_append, List.map_cons]
  have hbefore : row.tag ∉ before.map Row.tag := by
    have hnodup := h.nodup
    rw [← h.order, horder, List.nodup_append] at hnodup
    exact fun hold => hnodup.2.2 _ hold _ List.mem_cons_self rfl
  rw [← List.eraseIdx_eq_take_drop_succ, horder, List.erase_append_right _ hbefore,
    List.erase_cons_head, ← List.length_map Row.tag, eraseIdx_append_length]

/-- The row at which a restart finds its transfer goes, and so does the report, which has been taken
out of the failures before. -/
theorem Represents.loses_removeRange (h : t.Represents q) (hrows : q.rows = before ++ row :: after) :
    t.Loses row.tag
      (({ t with retained := t.retained.erase row.tag } : Tables).removeRange before.length 1) := by
  have hdrained : (t.order.drop before.length).take 1 = [row.tag] := by
    simp [h.order, Queue.tags, hrows]
  have hentry : t.entries[row.tag]? = some row.entry := h.entry_of_mem (by simp [hrows])
  rw [Tables.removeRange, hdrained]
  refine ⟨(h.erase_order hrows).symm, sets_erase _ _, ?_, sets_erase _ _,
    ⟨row.entry, hentry, tally_forget hentry⟩, rfl⟩
  intro other
  show ((t.retained.erase row.tag).erase row.tag)[other]? = _
  rw [sets_erase, sets_erase]
  split <;> rfl

theorem Loses.represents (hloses : t.Loses row.tag t') (h : t.Represents q)
    (hrows : q.rows = before ++ row :: after) :
    t'.Represents (q.eraseRun before.length before.length) := by
  have hgone : [row] = (q.rows.drop before.length).take (before.length + 1 - before.length) := by
    simp [hrows]
  obtain ⟨e, he, htally⟩ := hloses.tally
  obtain rfl : row.entry = e :=
    Option.some.inj ((h.entry_of_mem (by simp [hrows])).symm.trans he)
  exact h.drop (Nat.le_refl _) hgone (hloses.order.trans (h.erase_order hrows)) hloses.entries.lacks
    hloses.retained.lacks hloses.paces.lacks htally hloses.watermark

end Loses

theorem Represents.restart {t : Tables} {q : Queue} (h : t.Represents q) (tag : Tag) :
    (t.restart tag).Alike Represents (q.restart tag) := by
  rw [Tables.restart, Queue.restart, h.retained]
  rcases hloc : q.locate? tag with _ | ⟨place, row⟩
  · -- without a row there is no report either
    rw [Queue.find?_of_locate?_eq_none hloc]
    exact ⟨h, rfl, rfl, rfl⟩
  · obtain ⟨before, after, hrows, rfl, rfl⟩ := Queue.locate?_eq_some hloc
    have hplace : ({ t with retained := t.retained.erase row.tag } : Tables).rowOf? row.tag
        = some before.length :=
      (h.rowOf?_eq row.tag).trans (Queue.place?_of_locate? hloc)
    rw [Queue.find?_of_locate? h.nodup hloc, Option.bind_some]
    dsimp only
    rcases row.retained with _ | report
    · exact ⟨h, rfl, rfl, rfl⟩
    · have h' := (h.loses_removeRange hrows).represents h hrows
      dsimp only
      rw [hplace]
      exact ⟨h', rfl, congrArg (List.cons _) (h'.emptied_eq (by simp [hrows])), rfl⟩

/-! ## Moving rows and offering links -/

/-- The commands that move `count` rows from the row `first` on before the row `destination`. -/
def commandsToMove? (order : List Tag) (first count destination : Nat) : Option (List Command) :=
  if count = 0 ∨ order.length < first + count ∨ order.length < destination
      ∨ (first ≤ destination ∧ destination < first + count) then none
  else some (Queue.blockCommands order ((order.drop first).take count) destination)

/-- Ask the engine to move a block of rows. -/
def moveRange (first count destination : Nat) (t : Tables) : Outcome Tables Bool :=
  match commandsToMove? t.order first count destination with
  | none => ⟨t, false, [], []⟩
  | some commands => ⟨t, true, [], commands⟩

/-- Rows have been dropped: ask the engine to move each of the selected rows. -/
def moveSelection (rows : List Nat) (destination : Nat) (t : Tables) : Outcome Tables Bool :=
  let selected := Queue.selection t.order.length rows
  let ordered := if destination = 0 then selected.reverse else selected
  let commands := (ordered.filterMap fun n => commandsToMove? t.order n 1 destination).flatten
  ⟨t, !commands.isEmpty, [], commands⟩

/-- The link to the file of an entry: a failed one has the shared node of its failure. -/
def link? (base : String) (t : Tables) (e : Entry) : Option String :=
  (if e.phase = .failed then t.retained[e.tag]?.bind Report.sharedNode else e.sharedNode).bind
    fun node => node.link? base

/-- The links and the nodes to be exported of the rows with the given numbers. -/
def links (base : String) (rows : List Nat) (t : Tables) : Links :=
  let selected := rows.filterMap t.entryAt?
  { toExport := (selected.filter fun e => (t.link? base e).isNone).map Entry.nodeHandle
    links := selected.filterMap (t.link? base) }

namespace Represents

variable {t : Tables} {q : Queue}

theorem commandsToMove?_eq (h : t.Represents q) (first count destination : Nat) :
    commandsToMove? t.order first count destination = q.commandsToMove? first count destination := by
  rw [commandsToMove?, Queue.commandsToMove?, h.length_order, h.order]

theorem moveRange (h : t.Represents q) (first count destination : Nat) :
    (t.moveRange first count destination).Alike Represents (q.moveRange first count destination) := by
  rw [Tables.moveRange, Queue.moveRange, h.commandsToMove?_eq]
  rcases q.commandsToMove? first count destination with _ | commands
  · exact ⟨h, rfl, rfl, rfl⟩
  · exact ⟨h, rfl, rfl, rfl⟩

theorem moveSelection (h : t.Represents q) (rows : List Nat) (destination : Nat) :
    (t.moveSelection rows destination).Alike Represents (q.moveSelection rows destination) := by
  rw [Tables.moveSelection, Queue.moveSelection, h.length_order]
  simp only [h.commandsToMove?_eq]
  exact ⟨h, rfl, rfl, rfl⟩

theorem links_eq (h : t.Represents q) (base : String) (rows : List Nat) :
    t.links base rows = q.links base rows := by
  have hlink : ∀ row ∈ rows.filterMap (q.rows[·]?), t.link? base row.entry = row.link? base := by
    intro row hrow
    obtain ⟨n, -, hn⟩ := List.mem_filterMap.1 hrow
    have hfound := (Queue.find?_eq_some_iff h.nodup).2 ⟨List.mem_of_getElem? hn, rfl⟩
    have hretained : t.retained[row.entry.tag]? = row.retained := by
      rw [h.retained, ← Row.tag, hfound, Option.bind_some]
    rw [link?, Row.link?, Row.sharedNode?, hretained]
  have hexport : ∀ row ∈ rows.filterMap (q.rows[·]?),
      (t.link? base row.entry).isNone = (row.link? base).isNone :=
    fun row hrow => congrArg Option.isNone (hlink row hrow)
  simp only [Tables.links, Queue.links, h.filterMap_entryAt?, List.filter_map, List.map_map,
    List.filterMap_map, Function.comp_def, List.filterMap_congr hlink, List.filter_congr hexport]

end Represents

end Tables

end TransferQueue
