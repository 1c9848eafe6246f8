import Mathlib.Data.List.Destutter
import TransferQueue.Proofs.Checked.Words
import TransferQueue.Proofs.Dismissing

/-!
# Checked removals

Rows are erased in runs, by the number of the first of them and by how many they are.  The numbers come
from a list of any numbers, of which those beyond the rows are passed over, the others sorted and each
taken once.  The runs that are made of them descend, so the rows before a run are still where they were
when its turn comes.

* `Queue.checkedEraseRun_eq`: one run;
* `Queue.checkedEraseRange_eq`, `Queue.checkedRestart_eq`: a range, and the row of a failed transfer;
* `Queue.descending_eq`, `Run.checkedOfDescending_eq`: a list of numbers, and the runs made of them;
* `Queue.checkedEraseRows_eq`, `Queue.checkedDismiss_eq`: scattered rows.
-/

namespace TransferQueue

namespace Queue

variable {q : Queue} {first count last n : Nat} {rows : List Nat}

/-! ## One run -/

/-- Erase `count` rows from the row `first` on, and say what observers are told. -/
def checkedEraseRun (first count : Nat) (q : Queue) : Checked (Queue × Change) := do
  let limit ← Checked.add first count
  let (gone, rows) ← Checked.drain q.rows first limit
  let last ← Checked.sub limit 1
  pure ({ q with rows, tally := gone.foldl (fun t row => t.remove row.entry) q.tally },
    .removed first last)

/-- A run within the rows is erased. -/
theorem checkedEraseRun_eq (h : q.size < UInt64.size) (hcount : first + count = last + 1)
    (hle : first ≤ last) (hlt : last < q.size) :
    q.checkedEraseRun first count = .ok (q.eraseRun first last, .removed first last) := by
  have hlimit : Checked.add first count = .ok (last + 1) := hcount ▸ Checked.add_eq (by omega)
  rw [checkedEraseRun, hlimit, Checked.ok_bind, Checked.drain_eq (by omega) hlt, Checked.ok_bind]
  dsimp only
  rw [Checked.sub_eq (by omega), Checked.ok_bind, Nat.add_sub_cancel]
  rfl

theorem size_eraseRun_le (hle : first ≤ last) : (q.eraseRun first last).size ≤ q.size := by
  rw [size_eraseRun]
  omega

/-- Erase `count` rows from the row `first` on, if they are there. -/
def checkedEraseRange (first count : Nat) (q : Queue) : Checked (Outcome Queue Bool) :=
  if count = 0 then pure ⟨q, false, [], []⟩
  else if (Checked.add? first count).all (q.size < ·) then pure ⟨q, false, [], []⟩
  else do
    let (q', change) ← q.checkedEraseRun first count
    pure ⟨q', true, change :: emptied q q', []⟩

theorem checkedEraseRange_eq (h : q.size < UInt64.size) (first count : Nat) :
    q.checkedEraseRange first count = .ok (q.eraseRange first count) := by
  rw [checkedEraseRange, eraseRange]
  by_cases hnone : count = 0
  · rw [if_pos hnone, if_pos (.inl hnone)]
    rfl
  · rw [if_neg hnone]
    by_cases hbeyond : q.size < first + count
    · rw [if_pos ((Checked.all_add?_iff h).2 hbeyond), if_pos (.inr hbeyond)]
      rfl
    · have hrun : q.checkedEraseRun first count = .ok (q.eraseRun first (first + count - 1), _) :=
        checkedEraseRun_eq h (by omega) (by omega) (by omega)
      rw [if_neg fun hall => hbeyond ((Checked.all_add?_iff h).1 hall), if_neg (by omega), hrun]
      rfl

/-- Erase the row of a failed transfer and ask the engine to start it again. -/
def checkedRestart (tag : Tag) (q : Queue) : Checked (Outcome Queue Bool) :=
  match q.locate? tag with
  | none => pure ⟨q, false, [], []⟩
  | some (place, row) =>
    match row.retained with
    | none => pure ⟨q, false, [], []⟩
    | some report => do
      let (q', change) ← q.checkedEraseRun place 1
      pure ⟨q', true, change :: emptied q q', [.restart report]⟩

theorem checkedRestart_eq (h : q.size < UInt64.size) (tag : Tag) :
    q.checkedRestart tag = .ok (q.restart tag) := by
  rw [checkedRestart, restart]
  rcases hlocate : q.locate? tag with _ | ⟨place, row⟩
  · rfl
  · dsimp only
    cases row.retained with
    | none => rfl
    | some report =>
      dsimp only
      rw [checkedEraseRun_eq h rfl (Nat.le_refl _) (lt_size_of_locate? hlocate)]
      rfl

/-! ## Lists of row numbers -/

/-- The numbers of a list, sorted, each of them once. -/
def distinct (before : Nat → Nat → Bool) (rows : List Nat) : List Nat :=
  (rows.mergeSort before).destutter (· ≠ ·)

theorem mem_destutter_ne {ns : List Nat} : n ∈ ns.destutter (· ≠ ·) ↔ n ∈ ns := by
  rcases ns with _ | ⟨m, ns⟩
  · rfl
  · rw [List.destutter_cons']
    induction ns generalizing m with
    | nil => rfl
    | cons m' ns ih =>
      by_cases hne : m ≠ m'
      · rw [List.destutter'_cons_pos _ hne, List.mem_cons, ih, List.mem_cons (a := n) (b := m)]
      · obtain rfl : m = m' := not_not.1 hne
        rw [List.destutter'_cons_neg _ hne, ih, List.mem_cons, List.mem_cons, List.mem_cons,
          or_self_left]

theorem mem_distinct {before : Nat → Nat → Bool} : n ∈ distinct before rows ↔ n ∈ rows :=
  mem_destutter_ne.trans List.mem_mergeSort

theorem pairwise_distinct {before : Nat → Nat → Bool} {R : Nat → Nat → Prop} [Trans R R R]
    (trans : ∀ l m n, before l m = true → before m n = true → before l n = true)
    (total : ∀ m n, (before m n || before n m) = true)
    (strict : ∀ m n, before m n = true → m ≠ n → R m n) (rows : List Nat) :
    (distinct before rows).Pairwise R := by
  have hsorted := (List.pairwise_mergeSort trans total rows).sublist (List.destutter_sublist (· ≠ ·) _)
  have hapart := List.isChain_iff_getElem.1 (List.isChain_destutter (· ≠ ·) (rows.mergeSort before))
  refine (List.isChain_iff_getElem.2 fun i hi => ?_).pairwise
  exact strict _ _ (List.pairwise_iff_getElem.1 hsorted i (i + 1) _ hi i.lt_succ_self) (hapart i hi)

/-- The row numbers below `size` that are in a list, from the greatest to the least. -/
def descending (size : Nat) (rows : List Nat) : List Nat :=
  distinct (fun m n => n ≤ m) (rows.filter (· < size))

theorem descending_eq (size : Nat) (rows : List Nat) :
    descending size rows = (selection size rows).reverse := by
  have hpairwise : (descending size rows).Pairwise (· > ·) := by
    refine pairwise_distinct ?_ ?_ ?_ _ <;> grind
  refine hpairwise.eq_of_mem_iff (descending_selection size rows) fun n => ?_
  rw [descending, mem_distinct, List.mem_reverse, mem_selection, List.mem_filter, decide_eq_true_eq,
    and_comm]

end Queue

namespace Run

/-- The runs of neighbours, when the one from `low` to `high` comes before the numbers `ns`. -/
def checkedGather (high low : Nat) : List Nat → List Run
  | [] => [⟨low, high⟩]
  | n :: ns =>
    if Checked.sub? low 1 = some n then checkedGather high n ns
    else ⟨low, high⟩ :: checkedGather n n ns

/-- The runs of neighbours among descending row numbers. -/
def checkedOfDescending : List Nat → List Run
  | [] => []
  | n :: ns => checkedGather n n ns

theorem sub?_one_eq_some_iff {low n : Nat} : Checked.sub? low 1 = some n ↔ low = n + 1 := by
  rw [Checked.sub?, Checked.sub]
  split
  · simp only [Except.toOption, Option.some.injEq]
    omega
  · simp only [Except.toOption, reduceCtorEq, false_iff]
    omega

theorem checkedGather_eq (high low : Nat) (ns : List Nat) :
    checkedGather high low ns = join ⟨low, high⟩ (ofDescending ns) := by
  induction ns generalizing high low with
  | nil => rfl
  | cons n ns ih =>
    rw [checkedGather, ofDescending_cons]
    by_cases hnext : low = n + 1
    · rw [if_pos (sub?_one_eq_some_iff.2 hnext), ih, join_join_of_next hnext]
    · rw [if_neg fun h => hnext (sub?_one_eq_some_iff.1 h), ih, join_join_of_apart hnext]

theorem checkedOfDescending_eq (ns : List Nat) : checkedOfDescending ns = ofDescending ns := by
  cases ns with
  | nil => rfl
  | cons n ns => rw [checkedOfDescending, checkedGather_eq, ofDescending_cons]

/-- The number of rows in a run. -/
def width (run : Run) : Nat := run.last + 1 - run.first

/-- The number of rows in some runs. -/
def widths : List Run → Nat
  | [] => 0
  | run :: runs => run.width + widths runs

/-- Runs have as many rows as were gathered into them. -/
theorem widths_ofDescending {ns : List Nat} (hdesc : ns.Pairwise (· > ·)) :
    widths (ofDescending ns) = ns.length := by
  induction ns with
  | nil => rfl
  | cons n ns ih =>
    obtain ⟨hn, hdesc⟩ := List.pairwise_cons.1 hdesc
    have hruns := Queue.stacked_ofDescending hdesc hn
    rw [ofDescending_cons, List.length_cons, ← ih hdesc]
    rcases hof : ofDescending ns with _ | ⟨next, runs⟩
    · simp [join, widths, width]
    · rw [hof] at hruns
      obtain ⟨hle, hlt, -⟩ := hruns
      rw [join]
      dsimp only
      split
      · simp only [widths, width]
        omega
      · simp only [widths, width]
        omega

end Run

namespace Queue

variable {q : Queue} {rows : List Nat}

/-! ## Scattered rows -/

/-- Erase runs one after the other.  So far, `removed` rows have been erased, and observers have been
told of them. -/
def checkedEraseRuns : List Run → Queue → Nat → List Change → Checked (Queue × Nat × List Change)
  | [], q, removed, changes => pure (q, removed, changes)
  | run :: runs, q, removed, changes => do
    let distance ← Checked.sub run.last run.first
    let count ← Checked.add distance 1
    let (q, change) ← q.checkedEraseRun run.first count
    let removed ← Checked.add removed count
    checkedEraseRuns runs q removed (changes ++ [change])

/-- Erase the rows with the given numbers, and answer how many there were. -/
def checkedEraseRows (rows : List Nat) (q : Queue) : Checked (Outcome Queue Nat) := do
  let (q', removed, changes) ←
    checkedEraseRuns (Run.checkedOfDescending (descending q.size rows)) q 0 []
  pure ⟨q', removed, changes ++ emptied q q', []⟩

/-- Runs that descend are erased.  What has been erased and what is left is never more than there was. -/
theorem checkedEraseRuns_eq {runs : List Run} {bound removed : Nat} (h : Stacked bound runs)
    (hbound : bound ≤ q.size) (hsize : removed + q.size < UInt64.size) (changes : List Change) :
    checkedEraseRuns runs q removed changes
      = .ok (q.eraseRuns runs, removed + Run.widths runs,
        changes ++ runs.map fun run => .removed run.first run.last) := by
  induction runs generalizing bound q removed changes with
  | nil => simp [checkedEraseRuns, eraseRuns, Run.widths]
  | cons run runs ih =>
    obtain ⟨hle, hlt, hrest⟩ := h
    have hwidth : run.last - run.first + 1 = run.width := by
      rw [Run.width]
      omega
    have hcount : run.first + run.width = run.last + 1 := by omega
    have hleft : removed + run.width + (q.eraseRun run.first run.last).size = removed + q.size := by
      rw [size_eraseRun]
      omega
    have hbefore : run.first ≤ (q.eraseRun run.first run.last).size := by
      rw [size_eraseRun]
      omega
    rw [checkedEraseRuns, Checked.sub_eq hle, Checked.ok_bind, Checked.add_eq (by omega),
      Checked.ok_bind, hwidth, checkedEraseRun_eq (by omega) hcount hle (by omega), Checked.ok_bind]
    dsimp only
    rw [Checked.add_eq (by omega), Checked.ok_bind, ih hrest hbefore (by omega)]
    simp [eraseRuns, Run.widths, Nat.add_assoc]

theorem checkedEraseRows_eq (h : q.size < UInt64.size) (rows : List Nat) :
    q.checkedEraseRows rows = .ok (q.eraseRows rows) := by
  have hdesc := descending_selection q.size rows
  have hruns := stacked_ofDescending hdesc lt_of_mem_reverse_selection
  rw [checkedEraseRows, descending_eq, Run.checkedOfDescending_eq,
    checkedEraseRuns_eq hruns (Nat.le_refl _) (by omega), Checked.ok_bind,
    Run.widths_ofDescending hdesc, Nat.zero_add]
  rfl

/-! ## Dismissing rows -/

/-- A walk over selected rows from the last to the first. -/
structure CheckedSweep where
  /-- The queue without the runs that have been erased. -/
  queue : Queue
  /-- The run of finished rows that has not been erased yet: its first row, and how many they are. -/
  pending : Option (Nat × Nat)
  /-- The transfers to be cancelled. -/
  cancelled : List Tag
  /-- What observers are told. -/
  changes : List Change

namespace CheckedSweep

/-- Erase the pending run. -/
def flush (s : CheckedSweep) : Checked CheckedSweep :=
  match s.pending with
  | none => pure s
  | some (first, count) => do
    let (queue, change) ← s.queue.checkedEraseRun first count
    pure { s with queue, pending := none, changes := s.changes ++ [change] }

/-- Go on to the row `n`. -/
def visit (cancel : Bool) (s : CheckedSweep) (n : Nat) : Checked CheckedSweep :=
  match s.queue.rows[n]? with
  | none => pure s
  | some row =>
    if row.entry.phase.isFinished then
      match s.pending with
      | some (first, count) => do
        let next ← Checked.add n 1
        if first = next then
          let count ← Checked.add count 1
          pure { s with pending := some (n, count) }
        else
          let s ← s.flush
          pure { s with pending := some (n, 1) }
      | none => pure { s with pending := some (n, 1) }
    else do
      let s ← s.flush
      if cancel && row.entry.phase.canCancel then pure { s with cancelled := s.cancelled ++ [row.tag] }
      else pure s

end CheckedSweep

/-- The sweep that keeps the length of the pending run instead of its last row. -/
def Sweep.counted (s : Sweep) : CheckedSweep :=
  ⟨s.queue, s.pending.map fun run => (run.first, run.width), s.cancelled, s.changes⟩

/-- Cancel the transfers of the selected rows that can be cancelled, and erase the finished rows, each
only if asked for. -/
def checkedDismiss (rows : List Nat) (cancel clear : Bool) (q : Queue) : Checked (Outcome Queue Unit) :=
  let selected := descending q.size rows
  if clear then do
    let s ← selected.foldlM (CheckedSweep.visit cancel) ⟨q, none, [], []⟩
    let s ← s.flush
    pure ⟨s.queue, (), s.changes ++ emptied q s.queue, s.cancelled.map .cancel⟩
  else if cancel then
    let chosen := (selected.filterMap (q.rows[·]?)).filter fun row => row.entry.phase.canCancel
    pure ⟨q, (), [], chosen.map fun row => .cancel row.tag⟩
  else pure ⟨q, (), [], []⟩

namespace Sweep

variable {s : Sweep} {bound n : Nat} {placed : Prop} {cancel : Bool}

theorem size_flush_le (h : Sound placed q bound s) : s.flush.queue.size ≤ s.queue.size := by
  rw [flush]
  rcases hpending : s.pending with _ | run
  · exact Nat.le_refl _
  · exact size_eraseRun_le (h.pending run hpending).1

theorem size_visit_le (cancel : Bool) (n : Nat) (h : Sound placed q bound s) :
    (s.visit cancel n).queue.size ≤ s.queue.size := by
  have hflush := size_flush_le h
  rw [visit]
  split
  · exact Nat.le_refl _
  · split
    · split
      · split
        · exact Nat.le_refl _
        · exact hflush
      · exact Nat.le_refl _
    · split <;> exact hflush

/-- The pending run is within the rows. -/
theorem checkedFlush_counted (h : Sound placed q bound s) (hsize : s.queue.size < UInt64.size) :
    s.counted.flush = .ok s.flush.counted := by
  rw [CheckedSweep.flush, flush]
  rcases hpending : s.pending with _ | run
  · simp [counted, hpending]
  · obtain ⟨hle, hlt, -⟩ := h.pending run hpending
    have hcount : run.first + run.width = run.last + 1 := by
      rw [Run.width]
      omega
    simp only [counted, hpending, Option.map_some]
    rw [checkedEraseRun_eq hsize hcount hle hlt]
    rfl

theorem checkedVisit_counted (h : Sound placed q bound s) (hsize : s.queue.size < UInt64.size) :
    s.counted.visit cancel n = .ok (s.visit cancel n).counted := by
  have hflush := checkedFlush_counted h hsize
  rw [CheckedSweep.visit, visit]
  rcases hrow : s.queue.rows[n]? with _ | row
  · simp [counted, hrow]
  · have hn : n < s.queue.size := (List.getElem?_eq_some_iff.1 hrow).1
    simp only [show s.counted.queue = s.queue from rfl, hrow]
    split
    · rcases hpending : s.pending with _ | run
      · simp [counted, hpending, Run.width]
      · obtain ⟨hle, hlt, -⟩ := h.pending run hpending
        have hcounted : s.counted.pending = some (run.first, run.width) := by
          simp only [counted, hpending, Option.map_some]
        have hwidth : run.width = run.last + 1 - run.first := rfl
        simp only [hcounted]
        rw [Checked.add_eq (by omega), Checked.ok_bind]
        split
        · rename_i hnext
          rw [Checked.add_eq (by omega)]
          simp only [Checked.ok_bind, Checked.pure_eq, counted, Option.map_some, Run.width]
          congr 4
          omega
        · rw [hflush]
          simp [counted, Run.width]
    · rw [hflush, Checked.ok_bind, ← cancelled_flush s]
      split <;> rfl

/-- The whole sweep. -/
theorem foldlM_checkedVisit {ns : List Nat} (cancel : Bool) (h : Sound placed q bound s)
    (hsize : s.queue.size < UInt64.size) (hdesc : ns.Pairwise (· > ·)) (hbound : ∀ n ∈ ns, n < bound) :
    ns.foldlM (CheckedSweep.visit cancel) s.counted
      = .ok (ns.foldl (visit cancel) s).counted
      ∧ (ns.foldl (visit cancel) s).queue.size ≤ s.queue.size := by
  induction ns generalizing bound s with
  | nil => exact ⟨rfl, Nat.le_refl _⟩
  | cons n ns ih =>
    obtain ⟨hn, hdesc⟩ := List.pairwise_cons.1 hdesc
    have hvisit : Sound placed q n (s.visit cancel n) := h.visit (hbound n List.mem_cons_self)
    have hle := size_visit_le cancel n h
    obtain ⟨hrest, hless⟩ := ih hvisit (Nat.lt_of_le_of_lt hle hsize) hdesc hn
    rw [List.foldlM_cons, checkedVisit_counted h hsize, Checked.ok_bind]
    exact ⟨hrest, Nat.le_trans hless hle⟩

end Sweep

theorem checkedDismiss_eq (h : q.size < UInt64.size) (rows : List Nat) (cancel clear : Bool) :
    q.checkedDismiss rows cancel clear = .ok (q.dismiss rows cancel clear) := by
  simp only [checkedDismiss, dismiss, descending_eq]
  split
  · have hstart : Sweep.Sound False q q.size ⟨q, none, [], []⟩ := ⟨.refl q, by simp, by simp⟩
    have hdesc := descending_selection q.size rows
    obtain ⟨bound, hend⟩ := hstart.foldl cancel hdesc lt_of_mem_reverse_selection
    obtain ⟨hsweep, hle⟩ := Sweep.foldlM_checkedVisit cancel hstart h hdesc lt_of_mem_reverse_selection
    have hcounted : (⟨q, none, [], []⟩ : Sweep).counted = ⟨q, none, [], []⟩ := rfl
    rw [hcounted] at hsweep
    rw [hsweep, Checked.ok_bind, Sweep.checkedFlush_counted hend (Nat.lt_of_le_of_lt hle h)]
    rfl
  · split <;> rfl

end Queue

end TransferQueue
