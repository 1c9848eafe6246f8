import TransferQueue.Queue.Basic

/-!
# Rows that go

Rows are erased in runs of neighbours, from the last run to the first, so that the numbers of the
rows that are still to be erased stay valid.

* `Queue.selection` is what a list of row numbers selects: duplicates and numbers beyond the end
  do not count;
* `Queue.eraseRows` erases a selection, `Queue.eraseRange` a range;
* `Queue.dismiss` erases the finished rows of a selection and cancels the transfers of the others;
* `Queue.restart` erases a failed row and asks the engine to start its transfer again.
-/

namespace TransferQueue

/-- The rows from `first` to `last`. -/
structure Run where
  /-- The first row. -/
  first : Nat
  /-- The last row. -/
  last : Nat
deriving DecidableEq, Repr

/-- The runs of neighbours among descending row numbers, from the last run to the first. -/
def Run.ofDescending : List Nat → List Run
  | [] => []
  | n :: ns =>
    match ofDescending ns with
    | [] => [⟨n, n⟩]
    | run :: runs => if run.last + 1 = n then ⟨run.first, n⟩ :: runs else ⟨n, n⟩ :: run :: runs

namespace Queue

/-- The row numbers below `size` that are in a list, in ascending order. -/
def selection (size : Nat) (rows : List Nat) : List Nat := (List.range size).filter rows.contains

theorem mem_selection {size n : Nat} {rows : List Nat} :
    n ∈ selection size rows ↔ n < size ∧ n ∈ rows := by
  simp [selection]

/-- A selection is in ascending order and has no duplicates. -/
theorem pairwise_selection (size : Nat) (rows : List Nat) :
    (selection size rows).Pairwise (· < ·) :=
  List.pairwise_lt_range.filter _

/-- A selection depends only on which row numbers are in the list. -/
theorem selection_congr {size : Nat} {rows rows' : List Nat} (h : ∀ n < size, n ∈ rows ↔ n ∈ rows') :
    selection size rows = selection size rows' := by
  refine List.filter_congr fun n hn => ?_
  have := h n (List.mem_range.1 hn)
  rw [List.contains_eq_mem, List.contains_eq_mem]
  exact decide_eq_decide.2 this

/-- Erase runs one after the other. -/
def eraseRuns (q : Queue) (runs : List Run) : Queue :=
  runs.foldl (fun q run => q.eraseRun run.first run.last) q

/-- Remove the rows with the given numbers, and answer how many there were. -/
def eraseRows (rows : List Nat) (q : Queue) : Outcome Queue Nat :=
  let selected := (selection q.size rows).reverse
  let runs := Run.ofDescending selected
  let q' := q.eraseRuns runs
  ⟨q', selected.length, runs.map (fun run => .removed run.first run.last) ++ emptied q q', []⟩

/-- Remove `count` rows from the row `first` on.  A range that is empty or reaches beyond the end
is refused. -/
def eraseRange (first count : Nat) (q : Queue) : Outcome Queue Bool :=
  if count = 0 ∨ q.size < first + count then ⟨q, false, [], []⟩
  else
    let q' := q.eraseRun first (first + count - 1)
    ⟨q', true, .removed first (first + count - 1) :: emptied q q', []⟩

/-! ## Dismissing rows -/

/-- A walk over selected rows from the last to the first. -/
structure Sweep where
  /-- The queue without the runs that have been erased. -/
  queue : Queue
  /-- The run of finished rows that has not been erased yet. -/
  pending : Option Run
  /-- The transfers to be cancelled. -/
  cancelled : List Tag
  /-- What observers are told. -/
  changes : List Change

namespace Sweep

/-- Erase the pending run. -/
def flush (s : Sweep) : Sweep :=
  match s.pending with
  | none => s
  | some run =>
    { s with
      queue := s.queue.eraseRun run.first run.last
      pending := none
      changes := s.changes ++ [.removed run.first run.last] }

/-- Go on to the row `n`.  A finished row joins the pending run if it is next to it, or else
starts a run; any other row ends the run. -/
def visit (cancel : Bool) (s : Sweep) (n : Nat) : Sweep :=
  match s.queue.rows[n]? with
  | none => s
  | some row =>
    if row.entry.phase.isFinished then
      match s.pending with
      | some run =>
        if run.first = n + 1 then { s with pending := some ⟨n, run.last⟩ }
        else { s.flush with pending := some ⟨n, n⟩ }
      | none => { s with pending := some ⟨n, n⟩ }
    else if cancel && row.entry.phase.canCancel then
      { s.flush with cancelled := s.cancelled ++ [row.tag] }
    else s.flush

end Sweep

/-- Cancel and clear: cancel the transfers of the selected rows that can be cancelled, and erase the
finished rows, each only if asked for.  The commands go out when all rows have been erased. -/
def dismiss (rows : List Nat) (cancel clear : Bool) (q : Queue) : Outcome Queue Unit :=
  let selected := (selection q.size rows).reverse
  if clear then
    let s := (selected.foldl (Sweep.visit cancel) ⟨q, none, [], []⟩).flush
    ⟨s.queue, (), s.changes ++ emptied q s.queue, s.cancelled.map .cancel⟩
  else if cancel then
    let chosen := (selected.filterMap (q.rows[·]?)).filter fun row => row.entry.phase.canCancel
    ⟨q, (), [], chosen.map fun row => .cancel row.tag⟩
  else ⟨q, (), [], []⟩

/-! ## Another try -/

/-- Retry a failed transfer: erase its row and ask the engine to start it again.  If the engine
does, the transfer comes back as a new one. -/
def restart (tag : Tag) (q : Queue) : Outcome Queue Bool :=
  match q.locate? tag with
  | none => ⟨q, false, [], []⟩
  | some (place, row) =>
    match row.retained with
    | none => ⟨q, false, [], []⟩
    | some report =>
      let q' := q.eraseRun place place
      ⟨q', true, .removed place place :: emptied q q', [.restart report]⟩

end Queue

end TransferQueue
