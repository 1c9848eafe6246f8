import Mathlib.Data.Finset.Card
import TransferQueue.Proofs.Blocks
import TransferQueue.Proofs.Course
import TransferQueue.Proofs.Picking
import TransferQueue.Proofs.RoundTrip
import TransferQueue.Proofs.Runs

/-!
# Rows that are erased

Any list of row numbers chooses a set of rows, and what becomes of a queue whose rows are erased
depends on that set only.  The rows are erased run by run, from the last run to the first.  A run that
is erased does not move the rows before it, so every run is erased where it was at first.

* `Queue.rows_eraseRuns`: the rows that are in none of the runs are left;
* `Board.Erases`: what is left, answered and told when a set of rows is erased;
* `Board.erasure`: lists erase the sets that they choose, and ranges the sets of their rows.
-/

namespace TransferQueue

namespace Queue

variable {q : Queue} {runs : List Run} {rows rows' : List Nat} {first last bound : Nat}

/-! ## Chosen rows -/

/-- The rows that a list chooses. -/
def chosen (q : Queue) (rows : List Nat) : Finset Nat := rows.toFinset.filter (· < q.size)

theorem mem_chosen {n : Nat} : n ∈ q.chosen rows ↔ n ∈ rows ∧ n < q.size := by
  simp [chosen]

theorem mem_selection_iff {n : Nat} : n ∈ selection q.size rows ↔ n ∈ q.chosen rows := by
  rw [mem_selection, mem_chosen, and_comm]

theorem length_selection : (selection q.size rows).length = (q.chosen rows).card := by
  rw [← List.toFinset_card_of_nodup (pairwise_selection q.size rows).nodup]
  congr 1
  ext n
  rw [List.mem_toFinset, mem_selection_iff]

/-- Lists that choose the same rows select the same row numbers. -/
theorem selection_eq_of_chosen (h : q.chosen rows = q.chosen rows') :
    selection q.size rows = selection q.size rows' :=
  selection_congr fun n hn => by simpa [mem_chosen, hn] using Finset.ext_iff.1 h n

/-- A range within the rows is selected as it is. -/
theorem selection_range' {count : Nat} (h : first + count ≤ q.size) :
    selection q.size (List.range' first count) = List.range' first count := by
  refine (pairwise_selection _ _).eq_of_mem_iff List.pairwise_lt_range' fun n => ?_
  rw [mem_selection, and_iff_right_iff_imp, List.mem_range'_1]
  omega

/-! ## Runs that go -/

theorem Stacked.lt (h : Stacked bound runs) : ∀ run ∈ runs, run.last < bound := by
  induction runs generalizing bound with
  | nil => simp
  | cons run runs ih =>
    obtain ⟨hle, hlt, hrest⟩ := h
    refine List.forall_mem_cons.2 ⟨hlt, fun next hnext => ?_⟩
    have := ih hrest next hnext
    omega

/-- The rows around a run are left when it is erased. -/
theorem rows_eraseRun {pre block post : List Row} (hrows : q.rows = pre ++ (block ++ post))
    (hfirst : pre.length = first) (hlast : pre.length + block.length = last + 1) :
    (q.eraseRun first last).rows = pre ++ post := by
  show q.rows.take first ++ q.rows.drop (last + 1) = pre ++ post
  rw [hrows, ← hfirst, ← hlast, List.take_left, ← List.drop_drop, List.drop_left, List.drop_left]

/-- The rows that are in none of the runs are left. -/
theorem rows_eraseRuns (h : Stacked bound runs) (hbound : bound ≤ q.size) :
    (q.eraseRuns runs).rows = pick q.rows fun n => ∀ run ∈ runs, n ∉ run := by
  induction runs generalizing bound q with
  | nil => exact (pick_eq_self (by simp)).symm
  | cons run runs ih =>
    obtain ⟨hle, hlt, hrest⟩ := h
    have hwithin : run.first + (run.last + 1 - run.first) ≤ q.rows.length := by
      rw [← size]
      omega
    obtain ⟨pre, block, post, hrows, hpre, hblock⟩ := exists_block hwithin
    have hleft := rows_eraseRun hrows hpre (by omega : pre.length + block.length = run.last + 1)
    have hsize : run.first ≤ (q.eraseRun run.first run.last).size := by
      rw [size, hleft, List.length_append]
      omega
    -- the rows from the run on are in none of the others
    have hbehind : ∀ n, run.first ≤ n → ∀ next ∈ runs, n ∉ next := by
      intro n hn next hnext hmem
      have := hrest.lt next hnext
      rw [Run.mem_iff] at hmem
      omega
    have herased : (q.eraseRuns (run :: runs)).rows
        = pick pre (fun n => ∀ next ∈ runs, n ∉ next) ++ post := by
      rw [eraseRuns, List.foldl_cons, ← eraseRuns, ih hrest hsize, hleft]
      exact pick_append_left fun n hn => decide_eq_true (hbehind n (by omega))
    have hpick : pick q.rows (fun n => ∀ next ∈ run :: runs, n ∉ next)
        = pick pre (fun n => ∀ next ∈ run :: runs, n ∉ next) ++ post := by
      rw [hrows]
      refine pick_append_block ?_ ?_
      · intro n hn hn'
        refine decide_eq_false fun hout => ?_
        exact hout run List.mem_cons_self (Run.mem_iff.2 (by omega))
      · intro n hn
        refine decide_eq_true (List.forall_mem_cons.2 ⟨?_, hbehind n (by omega)⟩)
        rw [Run.mem_iff]
        omega
    rw [herased, hpick]
    congr 1
    refine pick_congr fun n hn => decide_eq_decide.2 ?_
    rw [List.forall_mem_cons, Run.mem_iff]
    exact (and_iff_right (by omega)).symm

/-! ## Rows that are left -/

/-- When the rows at some positions go, their transfers have no row any more, and the others keep
theirs. -/
theorem find?_of_pick {q' : Queue} {gone : Nat → Bool} (h : q.tags.Nodup)
    (hrows : q'.rows = pick q.rows fun n => !gone n) (tag : Tag) :
    q'.find? tag = if tag ∈ pick q.tags gone then none else q.find? tag := by
  have htags : q'.tags = q.tags.filter (· ∉ pick q.tags gone) := by
    rw [filter_notMem_pick h, tags, tags, hrows, pick_map]
  rw [find?_eq_ite_of_sublist h (hrows ▸ pick_sublist q.rows _)]
  by_cases hold : tag ∈ q.tags
  · have hleft : q'.contains tag = true ↔ tag ∉ pick q.tags gone := by
      rw [← Bool.not_eq_false, contains_eq_false_iff, not_not, htags, List.mem_filter]
      simp [hold]
    by_cases hgone : tag ∈ pick q.tags gone
    · rw [if_pos hgone, if_neg (by simpa [hleft] using hgone)]
    · rw [if_neg hgone, if_pos (hleft.2 hgone)]
  · rw [find?_eq_none_iff.2 hold, ite_self, ite_self]

theorem rows_eraseRows (rows : List Nat) (q : Queue) :
    (q.eraseRows rows).state.rows = pick q.rows (· ∉ q.chosen rows) := by
  have hdesc := descending_selection q.size rows
  have hstacked := stacked_ofDescending hdesc lt_of_mem_reverse_selection
  refine (rows_eraseRuns hstacked (Nat.le_refl q.size)).trans (pick_congr fun n _ => ?_)
  refine decide_eq_decide.2 ?_
  rw [← mem_selection_iff, ← List.mem_reverse, ← (Run.splits_ofDescending hdesc).covers n]
  simp

/-- Observers are told that there are no rows any more if all of them are chosen. -/
theorem emptied_eraseRows (rows : List Nat) (q : Queue) :
    emptied q (q.eraseRows rows).state
      = if (q.chosen rows).Nonempty ∧ q.chosen rows = Finset.range q.size then [.presence false]
        else [] := by
  have hempty : (q.eraseRows rows).state.rows = [] ↔ q.chosen rows = Finset.range q.size := by
    rw [rows_eraseRows, pick_eq_nil_iff, Finset.ext_iff]
    constructor
    · intro hall n
      rw [Finset.mem_range]
      exact ⟨fun hn => (mem_chosen.1 hn).2, fun hn => by simpa using hall n hn⟩
    · intro hall n hn
      simpa using (hall n).2 (Finset.mem_range.2 hn)
  rw [emptied]
  refine if_congr ?_ rfl rfl
  rw [Bool.and_eq_true, List.isEmpty_iff, hempty, and_congr_left_iff]
  intro hall
  rw [hall, Finset.nonempty_range_iff, size, Ne, List.length_eq_zero_iff]
  simp

end Queue

namespace Board

open Queue

/-- An outcome that erases the chosen rows: the others are left in their order, each transfer with its
entry and what is kept beside it, and observers are told of the maximal runs of chosen rows from the
last to the first, and at the end that there are no rows any more if this is so. -/
structure Erases (b : Board) (chosen : Finset Nat) (o : Outcome Board Answer) : Prop where
  rows : o.state.queue.rows = pick b.queue.rows (· ∉ chosen)
  find? : ∀ tag, o.state.queue.find? tag
    = if tag ∈ pick b.queue.tags (· ∈ chosen) then none else b.queue.find? tag
  answer : o.answer = .count chosen.card
  told : ∃ runs : List Run, (∀ run, run ∈ runs ↔ run.IsMaximal (· ∈ chosen))
    ∧ runs.Pairwise (fun run next => next.last < run.first)
    ∧ o.changes = runs.map (fun run => .removed run.first run.last)
      ++ if chosen.Nonempty ∧ chosen = Finset.range b.queue.size then [.presence false] else []

variable {b : Board}

theorem erases_eraseRows (reached : b.Reached) (rows : List Nat) :
    Erases b (b.queue.chosen rows) (b.perform (.eraseRows rows)) := by
  have hrows := rows_eraseRows rows b.queue
  have hdesc := descending_selection b.queue.size rows
  constructor
  case rows => exact hrows
  case find? =>
    intro tag
    have hgone : (b.queue.eraseRows rows).state.rows
        = pick b.queue.rows fun n => !decide (n ∈ b.queue.chosen rows) := by
      simpa only [decide_not] using hrows
    exact find?_of_pick reached.balanced.nodup hgone tag
  case answer =>
    show Answer.count (selection b.queue.size rows).reverse.length = _
    rw [List.length_reverse, length_selection]
  case told =>
    refine ⟨_, ?_, (Run.splits_ofDescending hdesc).spaced.imp ?_, ?_⟩
    · intro run
      simpa only [List.mem_reverse, mem_selection_iff] using Run.mem_ofDescending_iff hdesc
    · intro run next hspaced
      omega
    · rw [← emptied_eraseRows]
      rfl

/-- To erase a range within the rows is to erase its rows. -/
theorem eraseRange_eq {q : Queue} {first count : Nat} (hcount : 0 < count)
    (hrange : first + count ≤ q.size) :
    q.eraseRange first count
      = { q.eraseRows (List.range' first count) with answer := true } := by
  obtain ⟨count, rfl⟩ := Nat.exists_eq_succ_of_ne_zero hcount.ne'
  have hruns : Run.ofDescending (selection q.size (List.range' first (count + 1))).reverse
      = [⟨first, first + count⟩] := by
    rw [selection_range' hrange, Run.ofDescending_range']
  rw [eraseRange, if_neg (by omega)]
  simp only [eraseRows, Nat.succ_eq_add_one, hruns]
  rfl

/-- Rows are erased as a set: the chosen rows go and no others, whatever list they are chosen by, and a
range within the rows goes as the set of its rows. -/
theorem erasure (reached : b.Reached) :
    (∀ rows, Erases b (b.queue.chosen rows) (b.perform (.eraseRows rows)))
      ∧ (∀ rows rows', b.queue.chosen rows = b.queue.chosen rows' →
        b.perform (.eraseRows rows) = b.perform (.eraseRows rows'))
      ∧ ∀ first count, 0 < count → first + count ≤ b.queue.size →
        (b.perform (.eraseRange first count)).answer = .flag true
          ∧ (b.perform (.eraseRange first count)).state
            = (b.perform (.eraseRows (List.range' first count))).state
          ∧ (b.perform (.eraseRange first count)).changes
            = (b.perform (.eraseRows (List.range' first count))).changes := by
  refine ⟨erases_eraseRows reached, fun rows rows' hsame => ?_, fun first count hcount hrange => ?_⟩
  · simp only [perform, onQueue, eraseRows, selection_eq_of_chosen hsame]
  · simp only [perform, onQueue, eraseRange_eq hcount hrange]
    exact ⟨rfl, rfl, rfl⟩

/-- Three of four rows go, chosen by a list with a duplicate and a number beyond the end. -/
theorem erasure_fourRows :
    fourRows.queue.chosen [3, 0, 0, 7, 1] = {0, 1, 3}
      ∧ (fourRows.perform (.eraseRows [3, 0, 0, 7, 1])).answer = .count 3
      ∧ (fourRows.perform (.eraseRows [3, 0, 0, 7, 1])).state.queue.tags = [3]
      ∧ (fourRows.perform (.eraseRows [3, 0, 0, 7, 1])).state.queue.find? 2 = none
      ∧ fourRows.perform (.eraseRows [3, 0, 0, 7, 1]) = fourRows.perform (.eraseRows [0, 1, 3])
      ∧ (fourRows.perform (.eraseRange 1 2)).state
        = (fourRows.perform (.eraseRows [1, 2])).state := by
  have reached : fourRows.Reached := ⟨_, _, _, rfl⟩
  have htags : fourRows.queue.tags = [1, 2, 3, 4] := by decide +kernel
  have hsize : fourRows.queue.size = 4 := by decide +kernel
  have hchosen : fourRows.queue.chosen [3, 0, 0, 7, 1] = {0, 1, 3} := by
    rw [chosen, hsize]
    decide
  have hchosen' : fourRows.queue.chosen [0, 1, 3] = {0, 1, 3} := by
    rw [chosen, hsize]
    decide
  obtain ⟨herases, hset, hrange⟩ := erasure reached
  obtain ⟨hrows, hfind, hanswer, -⟩ := hchosen ▸ herases [3, 0, 0, 7, 1]
  refine ⟨hchosen, hanswer, ?_, ?_, hset _ _ (hchosen.trans hchosen'.symm), ?_⟩
  · rw [tags, hrows, ← pick_map, ← tags, htags]
    decide
  · rw [hfind, htags]
    exact if_pos (by decide)
  · exact (hrange 1 2 (by decide) (by rw [hsize]; decide)).2.1

end Board

end TransferQueue
