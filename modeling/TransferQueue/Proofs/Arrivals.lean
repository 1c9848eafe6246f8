import TransferQueue.Proofs.Lateness
import TransferQueue.Proofs.Rows

/-!
# Rows that are loaded

A listing is loaded in chunks, each of which raises the watermark and counts its own rows.  None of
this bears on the rows: the queue is the one to which the reports lead that are inserted one after
the other, whatever the places at which they come.

* `Queue.Search`: a way to find places;
* `Queue.addAll`: reports inserted one after the other;
* `Queue.exists_news`: the rows that come of that, and `Queue.filter_addAll`: those that stay;
* `Queue.loadChunks_eq`, `Queue.loadListing_eq`: what it is to load chunks, and a listing.
-/

namespace TransferQueue

namespace Queue

/-- A way to find the place of a row of a lane and priority among rows. -/
structure Search where
  /-- The place. -/
  place : Lane → UInt64 → List Row → Nat
  /-- It is not beyond the end. -/
  le : ∀ lane priority rows, place lane priority rows ≤ rows.length

/-- The search for the place of a new row. -/
def Search.new : Search := ⟨placeFor, placeFor_le⟩

/-- The search for the place of a row of a listing. -/
def Search.loading : Search := ⟨placeLoading, placeLoading_le⟩

variable {search : Search} {weight : Float} {q : Queue} {r : Report} {rs : List Report} {row : Row}

/-! ## Reports inserted one after the other -/

/-- The queue after the reports have been inserted one after the other, each where a new row belongs.
Transfers that have a row are passed over.  The flag says that a time could not be expressed, which
ends the work there. -/
def addAll (search : Search) (weight : Float) : List Report → Queue → Queue × Bool
  | [], q => (q, false)
  | r :: rs, q =>
    if q.contains r.tag then addAll search weight rs q
    else
      match Row.ofReport weight r with
      | .error _ => (q, true)
      | .ok row => addAll search weight rs (q.insertRow (search.place r.lane r.priority q.rows) row)

theorem addAll_append (rs rs' : List Report) (q : Queue) :
    addAll search weight (rs ++ rs') q
      = if (addAll search weight rs q).2 then addAll search weight rs q
        else addAll search weight rs' (addAll search weight rs q).1 := by
  induction rs generalizing q with
  | nil => rfl
  | cons r rs ih =>
    rw [List.cons_append, addAll, addAll]
    split
    · exact ih q
    · split
      · rfl
      · exact ih _

/-- What every new row keeps, all of them keep. -/
theorem addAll_keeps {P : Queue → Prop}
    (step : ∀ q r row, q.contains r.tag = false → Row.ofReport weight r = .ok row → P q →
      P (q.insertRow (search.place r.lane r.priority q.rows) row))
    (rs : List Report) (hq : P q) : P (addAll search weight rs q).1 := by
  induction rs generalizing q with
  | nil => exact hq
  | cons r rs ih =>
    rw [addAll]
    split
    · exact ih hq
    · rename_i hnew
      split
      · exact hq
      · rename_i row hmade
        exact ih (step q r row (by simpa using hnew) hmade hq)

theorem watermark_addAll (search : Search) (weight : Float) (rs : List Report) (q : Queue) :
    (addAll search weight rs q).1.watermark = q.watermark :=
  addAll_keeps (P := fun q' => q'.watermark = q.watermark) (fun _ _ _ _ _ h => h) rs rfl

/-- The new rows depend on the rows only. -/
theorem rows_addAll_congr {q' : Queue} (h : q'.rows = q.rows) (rs : List Report) :
    (addAll search weight rs q').1.rows = (addAll search weight rs q).1.rows := by
  induction rs generalizing q q' with
  | nil => exact h
  | cons r rs ih =>
    have hcontains : q'.contains r.tag = q.contains r.tag := by
      simp only [contains, h]
    rw [addAll, addAll, hcontains, h]
    split
    · exact ih h
    · split
      · exact h
      · exact ih (by simp only [insertRow, h])

/-! ### The rows that come -/

theorem contains_insertRow {place : Nat} (bound : place ≤ q.size) (row : Row) (tag : Tag) :
    (q.insertRow place row).contains tag = (q.contains tag || row.tag == tag) := by
  have hmem : tag ∈ (q.insertRow place row).tags ↔ tag = row.tag ∨ tag ∈ q.tags := by
    rw [tags_insertRow]
    exact List.mem_insertIdx (by simpa [tags, size] using bound)
  rw [Bool.eq_iff_iff, Bool.or_eq_true, beq_iff_eq, ← Bool.not_eq_false, ← Bool.not_eq_false,
    contains_eq_false_iff, contains_eq_false_iff, not_not, not_not, hmem, or_comm, eq_comm]

/-- The reports of transfers that have no row, of each transfer the first. -/
def fresh (q : Queue) (rs : List Report) : List Report :=
  (rs.filter fun r => !q.contains r.tag).eraseDupsBy fun a b => a.tag == b.tag

theorem fresh_of_contains (h : q.contains r.tag = true) : q.fresh (r :: rs) = q.fresh rs := by
  simp [fresh, h]

/-- The first report of a transfer takes the later ones out. -/
theorem fresh_cons {place : Nat} (h : q.contains r.tag = false) (bound : place ≤ q.size)
    (htag : row.tag = r.tag) : q.fresh (r :: rs) = r :: (q.insertRow place row).fresh rs := by
  rw [fresh, List.filter_cons_of_pos (by simp [h]), List.eraseDupsBy_cons, List.filter_filter, fresh]
  congr 2
  refine List.filter_congr fun b _ => ?_
  rw [contains_insertRow bound, htag, Bool.not_or, Bool.and_comm, Bool.beq_comm (a := b.tag)]
  cases h' : r.tag == b.tag <;> simp

/-- What is left of a list without duplicates is in its order, and without duplicates. -/
theorem eraseDupsBy_spec {α : Type} (same : α → α → Bool) (as : List α) :
    (as.eraseDupsBy same).Sublist as
      ∧ (as.eraseDupsBy same).Pairwise fun a b => same b a = false := by
  -- what is behind the first element gets shorter in each round
  induction hlen : as.length using Nat.strong_induction_on generalizing as with
  | _ n ih =>
    cases as with
    | nil => simp
    | cons a as =>
      have hle := (List.filter_sublist (l := as) (p := fun b => same b a == false)).length_le
      obtain ⟨hsub, hpair⟩ := ih _ (by rw [List.length_cons] at hlen; omega)
        (as.filter fun b => same b a == false) rfl
      rw [List.eraseDupsBy_cons]
      refine ⟨(hsub.trans List.filter_sublist).cons_cons a, List.pairwise_cons.2 ⟨?_, hpair⟩⟩
      intro b hb
      exact eq_of_beq (List.mem_filter.1 (hsub.subset hb)).2

/-- Fresh reports are of transfers without a row, and of different ones. -/
theorem contains_of_mem_fresh (h : r ∈ q.fresh rs) : q.contains r.tag = false := by
  have hmem := (eraseDupsBy_spec _ _).1.subset h
  simpa using (List.mem_filter.1 hmem).2

theorem pairwise_fresh (q : Queue) (rs : List Report) :
    (q.fresh rs).Pairwise fun a b => a.tag ≠ b.tag := by
  refine (eraseDupsBy_spec _ _).2.imp ?_
  intro a b hab heq
  simp [heq] at hab

/-- The rows that come are those of the first reports of transfers without a row, up to one whose
time cannot be expressed. -/
theorem exists_news (search : Search) (weight : Float) (rs : List Report) (q : Queue) :
    ∃ come rest news, q.fresh rs = come ++ rest ∧ ((addAll search weight rs q).2 = false → rest = [])
      ∧ List.Forall₂ (fun r row => Row.ofReport weight r = .ok row) come news
      ∧ (addAll search weight rs q).1.rows.Perm (news ++ q.rows) := by
  induction rs generalizing q with
  | nil => exact ⟨[], [], [], rfl, fun _ => rfl, .nil, .refl _⟩
  | cons r rs ih =>
    rw [addAll]
    split
    · rename_i hold
      rw [fresh_of_contains hold]
      exact ih q
    · rename_i hnew
      split
      · exact ⟨[], q.fresh (r :: rs), [], rfl, by simp, .nil, .refl _⟩
      · rename_i row hmade
        have bound := search.le r.lane r.priority q.rows
        obtain ⟨come, rest, news, hfresh, hrest, hnews, hperm⟩ :=
          ih (q.insertRow (search.place r.lane r.priority q.rows) row)
        refine ⟨r :: come, rest, row :: news, ?_, hrest, .cons hmade hnews, ?_⟩
        · rw [fresh_cons (by simpa using hnew) bound (Row.ofReport_eq_ok hmade).1, hfresh]
          rfl
        · exact (hperm.trans ((List.perm_insertIdx row _ bound).append_left news)).trans
            List.perm_middle

/-- The rows that were there stay as they are, in their order. -/
theorem filter_addAll (search : Search) (weight : Float) (rs : List Report) (q : Queue) :
    (addAll search weight rs q).1.rows.filter (fun row => q.contains row.tag) = q.rows := by
  refine addAll_keeps (P := fun q' => q'.rows.filter (fun row => q.contains row.tag) = q.rows)
    ?_ rs ?_
  · intro q' r row hnew hmade hfilter
    -- the new row is of a transfer that had no row from the start
    have hold : q.contains row.tag = false := by
      rw [(Row.ofReport_eq_ok hmade).1, contains_eq_false_iff]
      rw [contains_eq_false_iff] at hnew
      refine fun hmem => hnew ?_
      rw [tags, ← hfilter] at hmem
      exact List.map_subset _ (List.filter_subset_self _) hmem
    obtain ⟨before, after, hrows, -, hrows'⟩ :=
      insertRow_split (search.le r.lane r.priority q'.rows) row
    rw [hrows', List.filter_append, List.filter_cons_of_neg (by simp [hold]), ← List.filter_append,
      ← hrows, hfilter]
  · exact List.filter_eq_self.2 fun row hrow => List.any_eq_true.2 ⟨row, hrow, beq_self_eq_true _⟩

theorem size_le_addAll (search : Search) (weight : Float) (rs : List Report) (q : Queue) :
    q.size ≤ (addAll search weight rs q).1.size := by
  have hle := (List.filter_sublist (l := (addAll search weight rs q).1.rows)
    (p := fun row => q.contains row.tag)).length_le
  rw [filter_addAll] at hle
  exact hle

theorem contains_addAll_of_contains {tag : Tag} (h : q.contains tag = true) (rs : List Report) :
    (addAll search weight rs q).1.contains tag = true := by
  obtain ⟨row, hrow, htag⟩ := List.any_eq_true.1 h
  rw [← filter_addAll search weight rs q] at hrow
  exact List.any_eq_true.2 ⟨row, List.mem_of_mem_filter hrow, htag⟩

theorem nodup_insertRow {place : Nat} {row : Row} (bound : place ≤ q.size) (h : q.tags.Nodup)
    (hnew : q.contains row.tag = false) : (q.insertRow place row).tags.Nodup := by
  have hperm := List.perm_insertIdx row.tag q.tags (by simpa [tags, size] using bound)
  rw [tags_insertRow, hperm.nodup_iff, List.nodup_cons]
  exact ⟨contains_eq_false_iff.1 hnew, h⟩

theorem nodup_addAll (h : q.tags.Nodup) (rs : List Report) :
    (addAll search weight rs q).1.tags.Nodup := by
  refine addAll_keeps (P := fun q => q.tags.Nodup) (fun q r row hnew hmade hq => ?_) rs h
  refine nodup_insertRow (search.le r.lane r.priority q.rows) hq ?_
  rwa [(Row.ofReport_eq_ok hmade).1]

/-- A transfer that has a row keeps it. -/
theorem find?_addAll_of_contains {tag : Tag} (h : q.tags.Nodup) (hold : q.contains tag = true)
    (rs : List Report) : (addAll search weight rs q).1.find? tag = q.find? tag := by
  obtain ⟨row, hrow, htag⟩ := List.any_eq_true.1 hold
  have hfound : q.find? tag = some row := (find?_eq_some_iff h).2 ⟨hrow, eq_of_beq htag⟩
  rw [← filter_addAll search weight rs q] at hrow
  rw [hfound]
  exact (find?_eq_some_iff (nodup_addAll h rs)).2 ⟨List.mem_of_mem_filter hrow, eq_of_beq htag⟩

/-- Each row is made of one of the reports. -/
theorem exists_of_mem_made {news : List Row}
    (hnews : List.Forall₂ (fun r row => Row.ofReport weight r = .ok row) rs news)
    (hmem : row ∈ news) : ∃ r ∈ rs, Row.ofReport weight r = .ok row := by
  induction hnews with
  | nil => simp at hmem
  | cons hmade _ ih =>
    rcases List.mem_cons.1 hmem with rfl | hmem
    · exact ⟨_, List.mem_cons_self, hmade⟩
    · obtain ⟨r, hr, hmade⟩ := ih hmem
      exact ⟨r, List.mem_cons_of_mem _ hr, hmade⟩

/-- A transfer that had no row gets that of a fresh report. -/
theorem exists_fresh_of_find? {tag : Tag} (h : q.tags.Nodup) (hnew : q.contains tag = false)
    (hfound : (addAll search weight rs q).1.find? tag = some row) :
    ∃ r ∈ q.fresh rs, r.tag = tag ∧ Row.ofReport weight r = .ok row := by
  obtain ⟨come, rest, news, hfresh, -, hnews, hperm⟩ := exists_news search weight rs q
  obtain ⟨hrow, htag⟩ := (find?_eq_some_iff (nodup_addAll h rs)).1 hfound
  have hmem : row ∈ news := by
    rcases List.mem_append.1 (hperm.subset hrow) with hmem | hmem
    · exact hmem
    · exact absurd (List.mem_map_of_mem hmem) (htag ▸ contains_eq_false_iff.1 hnew)
  obtain ⟨r, hr, hmade⟩ := exists_of_mem_made hnews hmem
  refine ⟨r, hfresh ▸ List.mem_append_left rest hr, ?_, hmade⟩
  rw [← htag, (Row.ofReport_eq_ok hmade).1]

/-- When all times can be expressed, all transfers have a row. -/
theorem contains_addAll (h : (addAll search weight rs q).2 = false) :
    ∀ r ∈ rs, (addAll search weight rs q).1.contains r.tag = true := by
  induction rs generalizing q with
  | nil => simp
  | cons r rs ih =>
    rw [List.forall_mem_cons]
    rw [addAll] at h ⊢
    split at h
    · rename_i hold
      rw [if_pos hold]
      exact ⟨contains_addAll_of_contains hold rs, ih h⟩
    · rename_i hnew
      rw [if_neg hnew]
      split at h
      · simp at h
      · rename_i row hmade
        refine ⟨contains_addAll_of_contains ?_ rs, ih h⟩
        rw [contains_insertRow (search.le r.lane r.priority q.rows), (Row.ofReport_eq_ok hmade).1]
        simp

/-! ## Loading -/

theorem add_eq {place : Nat} (bound : place ≤ q.size) :
    q.add weight r place
      = if q.contains r.tag then .ok none
        else (Row.ofReport weight r).map fun row => some (q.insertRow place row) := by
  rw [add, decide_eq_false (Nat.not_lt.2 bound), Bool.or_false]

theorem Load.added_prepare (s : Load) (place : Nat) : (s.prepare place).added = s.added := by
  rw [Load.prepare]
  split
  · rfl
  · split
    · rfl
    · rw [Load.flush]
      split <;> rfl

/-- To load reports is to insert them one after the other, and to count the rows that come. -/
theorem Load.run_eq (weight : Float) (rs : List Report) (s : Load) :
    (Load.run weight rs s).1.queue = (addAll .loading weight rs s.queue).1
      ∧ (Load.run weight rs s).2 = (addAll .loading weight rs s.queue).2
      ∧ (Load.run weight rs s).1.added + s.queue.size
        = s.added + (addAll .loading weight rs s.queue).1.size := by
  induction rs generalizing s with
  | nil => exact ⟨rfl, rfl, rfl⟩
  | cons r rs ih =>
    simp only [Load.run]
    -- whatever has to be told first leaves the queue and the count as they are
    have hqueue := Load.queue_prepare s (placeLoading r.lane r.priority s.queue.rows)
    have hadded := Load.added_prepare s (placeLoading r.lane r.priority s.queue.rows)
    generalize s.prepare (placeLoading r.lane r.priority s.queue.rows) = s' at hqueue hadded ⊢
    have bound : placeLoading r.lane r.priority s'.queue.rows ≤ s'.queue.size :=
      placeLoading_le _ _ _
    rw [← hqueue, ← hadded, add_eq bound, addAll]
    by_cases hold : s'.queue.contains r.tag = true
    · rw [if_pos hold, if_pos hold]
      exact ih s'
    · rw [if_neg hold, if_neg hold]
      rcases hmade : Row.ofReport weight r with e | row
      · exact ⟨rfl, rfl, rfl⟩
      · have hsize := size_insertRow bound row
        obtain ⟨hqueue, hflag, hcount⟩ := ih (s'.extend
          (s'.queue.insertRow (placeLoading r.lane r.priority s'.queue.rows) row)
          (placeLoading r.lane r.priority s'.queue.rows))
        refine ⟨hqueue, hflag, ?_⟩
        simp only [Load.extend, hsize] at hcount
        simp only [Except.map, Load.extend]
        show _ = s'.added + (addAll .loading weight rs
          (s'.queue.insertRow (placeLoading r.lane r.priority s'.queue.rows) row)).1.size
        omega

/-- The queue with a watermark that is not below the number. -/
def noting (number : UInt64) (q : Queue) : Queue :=
  { q with watermark := max q.watermark number }

theorem noting_of_le {number : UInt64} (h : number ≤ q.watermark) : q.noting number = q := by
  rw [noting, max_of_le h]

theorem le_watermark_noting (number : UInt64) (q : Queue) :
    number ≤ (q.noting number).watermark := by
  show number ≤ max q.watermark number
  by_cases h : number ≤ q.watermark
  · rwa [max_of_le h]
  · rw [max_of_not_le h]
    exact UInt64.le_refl number

theorem noting_noting (number : UInt64) (q : Queue) :
    (q.noting number).noting number = q.noting number := by
  simp only [noting, max_max]

theorem loadChunk_def (number : UInt64) (chunk : List Report) (q : Queue) :
    q.loadChunk weight number chunk
      = let s := Load.run weight chunk ⟨q.noting number, none, 0, []⟩
        if s.2 then ⟨s.1.queue, .error .tooLong, s.1.changes, []⟩
        else ⟨s.1.queue, .ok s.1.added, s.1.flush.changes
          ++ (if q.rows.isEmpty && !s.1.queue.rows.isEmpty then [.presence true] else []), []⟩ := by
  have hnoting : { q with watermark := max q.watermark number } = q.noting number := rfl
  simp only [loadChunk, ← max_eq_ite, hnoting]
  rcases Load.run weight chunk ⟨q.noting number, none, 0, []⟩ with ⟨s, _ | _⟩
  · have hadded : s.flush.added = s.added := by
      rw [Load.flush]
      split <;> rfl
    simp only [Load.queue_flush, hadded]
    rfl
  · rfl

/-- Only the first chunk raises the watermark. -/
theorem loadChunk_noting (number : UInt64) (chunk : List Report) (q : Queue) :
    (q.noting number).loadChunk weight number chunk = q.loadChunk weight number chunk := by
  rw [loadChunk_def, loadChunk_def, noting_noting]
  rfl

/-- What it is to load a chunk. -/
theorem loadChunk_eq (weight : Float) (number : UInt64) (chunk : List Report) (q : Queue) :
    (q.loadChunk weight number chunk).state = (addAll .loading weight chunk (q.noting number)).1
      ∧ (q.loadChunk weight number chunk).answer
        = if (addAll .loading weight chunk (q.noting number)).2 then .error .tooLong
          else .ok ((addAll .loading weight chunk (q.noting number)).1.size - q.size) := by
  obtain ⟨hqueue, hflag, hcount⟩ :=
    Load.run_eq weight chunk ⟨q.noting number, none, 0, []⟩
  have hsize : (q.noting number).size = q.size := rfl
  simp only [hsize, Nat.zero_add] at hqueue hflag hcount
  rw [loadChunk_def, ← hqueue, ← hflag]
  dsimp only
  split
  · exact ⟨rfl, rfl⟩
  · rw [hqueue, ← hcount, Nat.add_sub_cancel]
    exact ⟨rfl, rfl⟩

/-- The chunks together are loaded as one. -/
theorem loadChunks_eq {number : UInt64} (hnoted : number ≤ q.watermark)
    (parts : List (List Report)) :
    (q.loadChunks weight number parts).state = (addAll .loading weight parts.flatten q).1
      ∧ (q.loadChunks weight number parts).answer
        = if (addAll .loading weight parts.flatten q).2 then .error .tooLong
          else .ok ((addAll .loading weight parts.flatten q).1.size - q.size) := by
  -- new rows do not lower the watermark, so no chunk has to raise it
  induction parts generalizing q with
  | nil => simp [loadChunks, addAll]
  | cons chunk parts ih =>
    obtain ⟨hstate, hanswer⟩ := loadChunk_eq weight number chunk q
    rw [noting_of_le hnoted] at hstate hanswer
    rw [loadChunks, List.flatten_cons, addAll_append]
    rcases hflag : (addAll .loading weight chunk q).2 with _ | _
    · rw [hflag] at hanswer
      simp only [Bool.false_eq_true, if_false] at hanswer ⊢
      simp only [hanswer, hstate]
      have hnoted' : number ≤ (addAll .loading weight chunk q).1.watermark := by
        rwa [watermark_addAll]
      obtain ⟨hstate', hanswer'⟩ := ih hnoted'
      refine ⟨hstate', ?_⟩
      simp only [Outcome.mapAnswer, Outcome.after, hanswer']
      split
      · rfl
      · have hle := size_le_addAll .loading weight chunk q
        have hle' := size_le_addAll .loading weight parts.flatten (addAll .loading weight chunk q).1
        simp only [Except.map]
        congr 1
        omega
    · rw [hflag] at hanswer
      simp only [hanswer, hstate, hflag, if_true, and_self]

theorem loadChunks_noting (number : UInt64) (chunk : List Report) (parts : List (List Report))
    (q : Queue) :
    (q.noting number).loadChunks weight number (chunk :: parts)
      = q.loadChunks weight number (chunk :: parts) := by
  rw [loadChunks, loadChunks, loadChunk_noting]

/-- The rows after chunks have been loaded. -/
theorem rows_loadChunks (weight : Float) (number : UInt64) (parts : List (List Report))
    (q : Queue) :
    (q.loadChunks weight number parts).state.rows
      = (addAll .loading weight parts.flatten q).1.rows := by
  cases parts with
  | nil => rfl
  | cons chunk parts =>
    have hrows : (q.noting number).rows = q.rows := rfl
    rw [← loadChunks_noting, (loadChunks_eq (le_watermark_noting number q) _).1]
    exact rows_addAll_congr hrows _

/-- What it is to load a listing, whatever the size of the chunks. -/
theorem loadListing_eq (weight : Float) (size : Nat) (listing : Listing) (q : Queue) :
    (q.loadListing weight size listing).state
        = (addAll .loading weight listing.toLoad (q.noting listing.number)).1
      ∧ (q.loadListing weight size listing).answer
        = if (addAll .loading weight listing.toLoad (q.noting listing.number)).2 then
            .error .tooLong
          else
            .ok ((addAll .loading weight listing.toLoad (q.noting listing.number)).1.size
              - q.size) := by
  have hflatten := flatten_chunks size listing.toLoad
  rw [loadListing]
  split
  · rename_i hnone
    rw [hnone, List.flatten_nil] at hflatten
    rw [← hflatten]
    exact loadChunk_eq weight listing.number [] q
  · rename_i hsome
    rcases hparts : chunks size listing.toLoad with _ | ⟨chunk, parts⟩
    · exact absurd hparts hsome
    · rw [← hflatten, hparts]
      rw [← loadChunks_noting]
      exact loadChunks_eq (q := q.noting listing.number) (le_watermark_noting _ q) (chunk :: parts)

/-! ## Loading once more -/

/-- Nothing is loaded of transfers that have rows. -/
theorem Load.run_of_contained {s : Load} (hpending : s.pending = none) {rs : List Report}
    (h : ∀ r ∈ rs, s.queue.contains r.tag = true) : Load.run weight rs s = (s, false) := by
  induction rs with
  | nil => rfl
  | cons r rs ih =>
    rw [List.forall_mem_cons] at h
    have hprepare : ∀ place, s.prepare place = s := by
      intro place
      rw [Load.prepare, hpending]
    have hadd : ∀ place, s.queue.add weight r place = .ok none := by
      intro place
      rw [add, h.1]
      rfl
    simp only [Load.run, hprepare, hadd]
    exact ih h.2

theorem loadChunk_of_contained {number : UInt64} (hnoted : number ≤ q.watermark)
    {chunk : List Report} (h : ∀ r ∈ chunk, q.contains r.tag = true) :
    q.loadChunk weight number chunk = ⟨q, .ok 0, [], []⟩ := by
  rw [loadChunk_def, noting_of_le hnoted, Load.run_of_contained rfl h]
  cases hrows : q.rows.isEmpty <;> simp [Load.flush, hrows]

theorem loadChunks_of_contained {number : UInt64} (hnoted : number ≤ q.watermark)
    {parts : List (List Report)} (h : ∀ r ∈ parts.flatten, q.contains r.tag = true) :
    q.loadChunks weight number parts = ⟨q, .ok 0, [], []⟩ := by
  induction parts with
  | nil => rfl
  | cons chunk parts ih =>
    rw [List.flatten_cons, List.forall_mem_append] at h
    rw [loadChunks, loadChunk_of_contained hnoted h.1]
    simp only [ih h.2]
    rfl

/-- A listing of transfers that have rows changes nothing. -/
theorem loadListing_of_contained {listing : Listing} (hnoted : listing.number ≤ q.watermark)
    (h : ∀ r ∈ listing.toLoad, q.contains r.tag = true) (size : Nat) :
    q.loadListing weight size listing = ⟨q, .ok 0, [], []⟩ := by
  rw [← flatten_chunks size listing.toLoad] at h
  rw [loadListing]
  split
  · exact loadChunk_of_contained hnoted (by simp)
  · exact loadChunks_of_contained hnoted h

end Queue

end TransferQueue
