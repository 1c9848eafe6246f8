import Mathlib.Data.Prod.Lex
import TransferQueue.Proofs.Arrivals
import TransferQueue.Proofs.Order
import TransferQueue.Proofs.Scan

/-!
# Chunks do not show

A listing is sorted and loaded in chunks, and the place of a row is searched in a way that is fast
when rows come in order.  Of this nothing shows in the queue if its rows are sorted: it is the one to
which the sorted reports lead that are inserted one after the other, each where a new row belongs.

* `StablySorted`: sorted by a key, equals in the order that they had;
* `Listing.stablySorted_toLoad`: what is loaded is sorted so;
* `Queue.rows_addAll_of_ascending`: rows that come in order come to the end;
* `Board.load_in_any_chunks`: what it is to load a listing.
-/

namespace TransferQueue

/-! ## The order of loading -/

/-- `bs` are the elements of `as` in the order of their keys; those of one key are in the order that
they have in `as`. -/
structure StablySorted {α κ : Type} [LinearOrder κ] (key : α → κ) (as bs : List α) : Prop where
  /-- Nothing is lost or added. -/
  perm : bs.Perm as
  /-- The keys do not decrease. -/
  ascending : bs.Pairwise fun a b => key a ≤ key b
  /-- Equals keep their order. -/
  stable : ∀ k, bs.filter (fun a => key a = k) = as.filter fun a => key a = k

/-- Merge sort is stable. -/
theorem stablySorted_mergeSort {α κ : Type} [LinearOrder κ] {key : α → κ} {le : α → α → Bool}
    (hle : ∀ a b, le a b = true ↔ key a ≤ key b) (as : List α) :
    StablySorted key as (as.mergeSort le) := by
  have htrans : ∀ a b c, le a b = true → le b c = true → le a c = true := by
    intro a b c hab hbc
    rw [hle] at hab hbc ⊢
    exact hab.trans hbc
  have htotal : ∀ a b, (le a b || le b a) = true := by
    intro a b
    rw [Bool.or_eq_true, hle, hle]
    exact le_total (key a) (key b)
  have hperm : (as.mergeSort le).Perm as := List.mergeSort_perm as le
  refine ⟨hperm, (List.pairwise_mergeSort htrans htotal as).imp (hle _ _).1, fun k => ?_⟩
  -- the elements of one key are sorted among themselves, so they are left in their order
  have hpair : (as.filter fun a => key a = k).Pairwise fun a b => le a b = true := by
    refine List.pairwise_filter.2 (List.pairwise_of_forall fun a b ha hb => ?_)
    rw [hle, of_decide_eq_true ha, of_decide_eq_true hb]
  have hsub := (List.sublist_mergeSort htrans htotal hpair List.filter_sublist).filter
    fun a => key a = k
  rw [List.filter_filter, List.filter_congr fun a _ => Bool.and_self _] at hsub
  exact (hsub.eq_of_length (hperm.filter _).length_eq.symm).symm

/-- The place of a lane and priority in a listing: uploads first, within a direction the plain
transfers, and within a lane the smaller priorities. -/
def Lane.rank (lane : Lane) (priority : UInt64) : Nat ×ₗ Nat ×ₗ Nat :=
  toLex (lane.direction.index.val, toLex (lane.sync.toNat, priority.toNat))

theorem Lane.rank_le_rank_iff {lane : Lane} {priority priority' : UInt64} :
    lane.rank priority ≤ lane.rank priority' ↔ priority ≤ priority' := by
  simp [rank, Prod.Lex.toLex_le_toLex, UInt64.le_iff_toNat_le]

/-- Whatever stands between two of a lane is of the lane. -/
theorem Lane.eq_of_rank_le {lane lane' : Lane} {low mid high : UInt64}
    (h : lane.rank low ≤ lane'.rank mid) (h' : lane'.rank mid ≤ lane.rank high) : lane' = lane := by
  obtain ⟨direction, sync⟩ := lane
  obtain ⟨direction', sync'⟩ := lane'
  cases direction <;> cases direction' <;> cases sync <;> cases sync' <;>
    simp_all [rank, Prod.Lex.toLex_le_toLex, Direction.index]

/-- The place of a report in a listing. -/
def Report.rank (r : Report) : Nat ×ₗ Nat ×ₗ Nat := r.lane.rank r.priority

/-- The place of a row in a listing. -/
def Row.rank (row : Row) : Nat ×ₗ Nat ×ₗ Nat := row.entry.lane.rank row.entry.priority

/-- Whether a report is loaded: folders, streams and transfers without a priority are left out. -/
def Report.isLoaded (r : Report) : Bool := r.isShown && r.priority != 0

theorem Listing.precedes_iff (a b : Report) : precedes a b = true ↔ a.rank ≤ b.rank := by
  rcases a with ⟨_, direction, sync⟩
  rcases b with ⟨_, direction', sync'⟩
  cases direction <;> cases direction' <;> cases sync <;> cases sync' <;>
    simp [precedes, Report.rank, Lane.rank, Report.lane, Lane.index, Direction.index,
      Prod.Lex.toLex_le_toLex, UInt64.le_iff_toNat_le]

theorem Listing.stablySorted_toLoad (listing : Listing) :
    StablySorted Report.rank (listing.reports.filter Report.isLoaded) listing.toLoad :=
  stablySorted_mergeSort Listing.precedes_iff _

namespace Queue

variable {weight : Float} {q : Queue} {r : Report} {rs : List Report} {row : Row}

/-! ## Sorted rows -/

/-- A row that comes where it belongs keeps the order. -/
theorem sorted_insertRow (h : Sorted q.rows) (hmade : Row.ofReport weight r = .ok row) :
    Sorted (q.insertRow (placeFor r.lane r.priority q.rows) row).rows := by
  obtain ⟨timeLeft, hentry⟩ := Row.entry_ofReport hmade
  refine h.insertIdx ?_
  rw [hentry]
  exact slot_placeFor h r.lane r.priority

/-- Among sorted rows the two searches for places lead to the same queue. -/
theorem addAll_loading_eq (h : Sorted q.rows) (rs : List Report) :
    addAll .loading weight rs q = addAll .new weight rs q := by
  induction rs generalizing q with
  | nil => rfl
  | cons r rs ih =>
    have hplace : Search.loading.place r.lane r.priority q.rows
        = Search.new.place r.lane r.priority q.rows :=
      placeLoading_eq_placeFor h r.lane r.priority
    rw [addAll, addAll, hplace]
    split
    · exact ih h
    · split
      · rfl
      · rename_i row hmade
        exact ih (sorted_insertRow h hmade)

/-! ## Rows that come in order -/

/-- Behind rows that all precede it, a row comes to the end. -/
theorem placeFor_of_ascending {rows : List Row} {lane : Lane} {priority : UInt64}
    (h : rows.Pairwise fun a b => a.rank ≤ b.rank) (hle : ∀ a ∈ rows, a.rank ≤ lane.rank priority) :
    placeFor lane priority rows = rows.length := by
  have hsorted : Sorted rows := by
    refine h.imp ?_
    intro a b hab hlane
    rw [Row.rank, Row.rank, hlane] at hab
    exact Lane.rank_le_rank_iff.1 hab
  rw [placeFor_eq_placeBehind hsorted]
  by_cases habsent : ∀ row ∈ rows, row.entry.lane ≠ lane
  · exact placeBehind_of_absent habsent
  · -- the lane has a row, and behind that row there is no other lane
    push Not at habsent
    obtain ⟨row, hrow, hlane⟩ := habsent
    rcases List.eq_nil_or_concat rows with rfl | ⟨init, last, rfl⟩
    · simp at hrow
    · rw [List.concat_eq_append] at *
      have hlast := hle last (by simp)
      have hrank : row.rank ≤ last.rank := by
        rcases List.mem_append.1 hrow with hrow | hrow
        · exact (List.pairwise_append.1 h).2.2 row hrow last (by simp)
        · rw [List.mem_singleton.1 hrow]
      have hlane' : last.entry.lane = lane := by
        rw [Row.rank, Row.rank, hlane] at hrank
        exact Lane.eq_of_rank_le hrank hlast
      rw [Row.rank, hlane', Lane.rank_le_rank_iff] at hlast
      rw [placeBehind_append_cons (isUpTo_eq_true_iff.2 ⟨hlane', hlast⟩) (by simp)]
      simp

/-- When the reports are in order and no row comes after any of them, the new rows come to the end, in
the order of the reports. -/
theorem rows_addAll_of_ascending (h : (addAll .new weight rs q).2 = false)
    (hrows : q.rows.Pairwise fun a b => a.rank ≤ b.rank)
    (hrs : rs.Pairwise fun a b => a.rank ≤ b.rank)
    (hacross : ∀ row ∈ q.rows, ∀ r ∈ rs, row.rank ≤ r.rank) :
    ∃ news, (addAll .new weight rs q).1.rows = q.rows ++ news
      ∧ List.Forall₂ (fun r row => Row.ofReport weight r = .ok row) (q.fresh rs) news := by
  induction rs generalizing q with
  | nil => exact ⟨[], by simp [addAll], .nil⟩
  | cons r rs ih =>
    rw [List.pairwise_cons] at hrs
    have hacross' : ∀ row ∈ q.rows, ∀ s ∈ rs, row.rank ≤ s.rank :=
      fun row hrow s hs => hacross row hrow s (List.mem_cons_of_mem r hs)
    rw [addAll] at h ⊢
    split at h
    · rename_i hold
      rw [if_pos hold, fresh_of_contains hold]
      exact ih h hrows hrs.2 hacross'
    · rename_i hnew
      rw [if_neg hnew]
      split at h
      · simp at h
      · rename_i row hmade
        have hplace : Search.new.place r.lane r.priority q.rows = q.rows.length :=
          placeFor_of_ascending hrows fun row hrow => hacross row hrow r List.mem_cons_self
        have hrank : row.rank = r.rank := by
          obtain ⟨timeLeft, hentry⟩ := Row.entry_ofReport hmade
          rw [Row.rank, hentry]
          rfl
        have hend : (q.insertRow q.rows.length row).rows = q.rows ++ [row] :=
          List.insertIdx_length_self
        rw [hplace] at h ⊢
        obtain ⟨news, hnews, hmake⟩ := ih h
          (by
            rw [hend, List.pairwise_append]
            refine ⟨hrows, List.pairwise_singleton _ _, fun a ha b hb => ?_⟩
            rw [List.mem_singleton.1 hb, hrank]
            exact hacross a ha r List.mem_cons_self)
          hrs.2
          (by
            rw [hend]
            intro a ha s hs
            rcases List.mem_append.1 ha with ha | ha
            · exact hacross' a ha s hs
            · rw [List.mem_singleton.1 ha, hrank]
              exact hrs.1 s hs)
        refine ⟨row :: news, ?_, ?_⟩
        · rw [hnews, hend, List.append_assoc]
          rfl
        · rw [fresh_cons (by simpa using hnew) (Nat.le_refl _) (Row.ofReport_eq_ok hmade).1]
          exact .cons hmade hmake

end Queue

namespace Board

/-- What it is to load a listing into a board, whatever the size of the chunks. -/
structure LoadsAs (b : Board) (listing : Listing) (loaded : List Report) (queue : Queue)
    (broken : Bool) : Prop where
  /-- What is loaded: uploads first, plain transfers first, and the smaller priorities first. -/
  order : StablySorted Report.rank (listing.reports.filter Report.isLoaded) loaded
  /-- The reports are inserted one after the other, each where a new row belongs. -/
  inserted : Queue.addAll .new b.config.paceWeight loaded (b.queue.noting listing.number)
    = (queue, broken)
  /-- The watermark is the greater one. -/
  watermark : queue.watermark = max b.queue.watermark listing.number
  /-- The queue is left so for all sizes, and the answer is the number of new rows. -/
  outcome : ∀ size, (b.perform (.load size listing)).state = { b with queue }
    ∧ (b.perform (.load size listing)).answer
      = if broken then .overflow
        else .count (queue.rows.filter fun row => !b.queue.contains row.tag).length
  /-- The rows that were there stay as they are, in their order. -/
  kept : queue.rows.filter (fun row => b.queue.contains row.tag) = b.queue.rows
  /-- To load the listing once more adds nothing, and nobody is told of it. -/
  again : broken = false → ∀ size,
    perform { b with queue } (.load size listing) = ⟨{ b with queue }, .count 0, [], []⟩
  /-- A queue without rows gets one for the first report of each transfer, in the order of loading. -/
  ofEmpty : broken = false → b.queue.rows = [] →
    List.Forall₂ (fun r row => Row.ofReport b.config.paceWeight r = .ok row)
      (loaded.eraseDupsBy fun r r' => r.tag == r'.tag) queue.rows

/-- The size of the chunks does not show: a listing is loaded as if its reports were sorted and then
inserted one after the other. -/
theorem load_in_any_chunks (b : Board) (sorted : Queue.Sorted b.queue.rows) (listing : Listing) :
    ∃ loaded queue broken, b.LoadsAs listing loaded queue broken := by
  have hkept := Queue.filter_addAll .new b.config.paceWeight listing.toLoad
    (b.queue.noting listing.number)
  have hwatermark := Queue.watermark_addAll .new b.config.paceWeight listing.toLoad
    (b.queue.noting listing.number)
  have hnoted := hwatermark ▸ Queue.le_watermark_noting listing.number b.queue
  refine ⟨listing.toLoad, _, _, listing.stablySorted_toLoad, rfl, hwatermark, ?_, hkept, ?_, ?_⟩
  · -- chunks lead to what the one search leads to, and among sorted rows the other leads there, too
    intro size
    obtain ⟨hstate, hanswer⟩ :=
      Queue.loadListing_eq b.config.paceWeight size listing b.queue
    rw [Queue.addAll_loading_eq (q := b.queue.noting listing.number) sorted] at hstate hanswer
    constructor
    · exact congrArg (fun queue => { b with queue }) hstate
    · show Answer.ofExcept Answer.count
        (b.queue.loadListing b.config.paceWeight size listing).answer = _
      rw [hanswer]
      split
      · rfl
      · -- the rows that were there and the new ones are all rows
        have hsum := List.length_eq_length_filter_add
          (l := (Queue.addAll .new b.config.paceWeight listing.toLoad
            (b.queue.noting listing.number)).1.rows)
          fun row => (b.queue.noting listing.number).contains row.tag
        rw [hkept] at hsum
        exact congrArg Answer.count (Nat.sub_eq_of_eq_add' hsum)
  · intro hbroken size
    have hcontains := Queue.contains_addAll hbroken
    simp only [perform, load, onQueue]
    rw [Queue.loadListing_of_contained hnoted hcontains size]
    rfl
  · -- sorted reports come to the end of rows of which there is none
    intro hbroken hempty
    have hrows : (b.queue.noting listing.number).rows = [] := hempty
    obtain ⟨news, hnews, hmade⟩ := Queue.rows_addAll_of_ascending hbroken (by simp [hrows])
      listing.stablySorted_toLoad.ascending (by simp [hrows])
    rw [hnews, hrows, List.nil_append]
    simpa [Queue.fresh, Queue.contains, hrows] using hmade

/-- A board with a row that a listing mentions. -/
def oneRow : Board :=
  ((new {} (.memory false)).run [.hear .epoch (.started (.bare 2 .download 20 2))]).state

/-- A listing of three transfers, of which one has a row. -/
def threeReports : Listing :=
  ⟨[.bare 3 .download 30 5, .bare 2 .download 10 4, .bare 1 .upload 40 3], 6⟩

theorem load_three_reports :
    Queue.Sorted oneRow.queue.rows
    ∧ (∃ loaded queue broken, oneRow.LoadsAs threeReports loaded queue broken)
    ∧ ∀ size, (oneRow.perform (.load size threeReports)).state.queue.tags = [2, 3, 1] := by
  have sorted : Queue.Sorted oneRow.queue.rows := by
    unfold Queue.Sorted
    decide +kernel
  obtain ⟨loaded, queue, broken, h⟩ := load_in_any_chunks oneRow sorted threeReports
  refine ⟨sorted, ⟨loaded, queue, broken, h⟩, fun size => ?_⟩
  have hload : threeReports.toLoad
      = [.bare 1 .upload 40 3, .bare 2 .download 10 4, .bare 3 .download 30 5] := by
    simp [threeReports, Listing.toLoad, List.mergeSort, List.MergeSort.Internal.splitInTwo,
      Listing.precedes, Report.bare, Report.isShown, Report.lane, Lane.index, Direction.index]
  rw [(h.outcome size).1, ← (h.outcome 0).1]
  show (oneRow.queue.loadListing oneRow.config.paceWeight 0 threeReports).state.tags = [2, 3, 1]
  rw [(Queue.loadListing_eq oneRow.config.paceWeight 0 threeReports oneRow.queue).1, hload]
  decide +kernel

end Board

end TransferQueue
