import Mathlib.Data.List.InsertIdx
import TransferQueue.Proofs.Tables.Arrival

/-!
# Reports on shown transfers in the tables

A report that is not late raises the watermark, and then finds the row of its transfer in the sequence
and its entry in the table of entries.  The pace takes in the speed before anything else is written,
so it has changed even when the time left cannot be expressed.

* `Tables.Represents.replace`: a row that changes;
* `Tables.Represents.settle`: a row that moves;
* `Tables.Represents.update`, `Tables.Represents.hinder`, `Tables.Represents.finish`: the three kinds of
  reports.
-/

namespace TransferQueue

theorem Queue.tags_replaceRow_of_locate? {q : Queue} {tag : Tag} {place : Nat} {row row' : Row}
    (located : q.locate? tag = some (place, row)) (phase : Phase) (htag : row'.tag = row.tag) :
    (q.replaceRow place phase row').tags = q.tags := by
  obtain ⟨before, after, hrows, -, hrows'⟩ := replaceRow_split located phase row'
  simp only [tags, hrows, hrows', List.map_append, List.map_cons, htag]

/-- An estimate changes nothing but the pace. -/
theorem Row.estimate_keeps (weight : Float) (r : Report) (row : Row) :
    (row.estimate weight r).1.entry = row.entry
      ∧ (row.estimate weight r).1.retained = row.retained := by
  rw [estimate]
  split <;> exact ⟨rfl, rfl⟩

namespace Tables

/-- The pace of a transfer takes in the speed of a report, and the time that is left then.  A transfer
that has no pace gets one; a finished transfer needs none. -/
def estimate (weight : Float) (phase : Phase) (r : Report) (t : Tables) :
    Tables × Except Overflow (Option Span) :=
  if phase.isFinished then (t, .ok none)
  else
    let pace := (t.paces[r.tag]?.getD (.start r.speed weight)).observe r.speed
    ({ t with paces := t.paces.insert r.tag pace }, pace.timeLeft r.bytesLeft)

/-- Take in a report on a shown transfer, whose row and entry are given to `act`. -/
def takeIn (r : Report) (act : Tables → Nat → Entry → Outcome Tables (Except Overflow Bool))
    (t : Tables) : Outcome Tables (Except Overflow Bool) :=
  if t.hasSeen r.number then t.refuse
  else
    let t := { t with watermark := r.number }
    match t.rowOf? r.tag with
    | none => t.refuse
    | some n =>
      match t.entries[r.tag]? with
      | none => t.refuse
      | some e => act t n e

/-- Put the transfer at the row `n`, which had the priority `before` and now has the entry `e`, where it
now belongs. -/
def settle (tag : Tag) (n : Nat) (before : UInt64) (e : Entry) (t : Tables) :
    Outcome Tables (Except Overflow Bool) :=
  if e.priority = before then ⟨t, .ok true, [.updated n], []⟩
  else
    let rest := t.order.eraseIdx n
    let target :=
      if e.priority < before then placeRaised t.entries e.lane e.priority rest
      else placeFor t.entries e.lane e.priority rest
    ⟨{ t with order := rest.insertIdx target tag }, .ok true, [Queue.movedOrUpdated n target], []⟩

/-- Take in a report on progress. -/
def update (weight : Float) (r : Report) : Tables → Outcome Tables (Except Overflow Bool) :=
  takeIn r fun t n e =>
    if e.isAheadOf r then t.refuse
    else
      match t.estimate weight e.phase r with
      | (t, .error o) => ⟨t, .error o, [], []⟩
      | (t, .ok timeLeft) =>
        let e' := { e.refresh r timeLeft r.lastFault with priority := r.priority }
        let t := { t with
          entries := t.entries.insert r.tag e'
          tally := t.tally.shift e.phase e' }
        t.settle r.tag n e.priority e'

/-- Take in the report of a temporary error. -/
def hinder (weight : Float) (r : Report) (fault : Option Fault) :
    Tables → Outcome Tables (Except Overflow Bool) :=
  takeIn r fun t n e =>
    match t.estimate weight e.phase r with
    | (t, .error o) => ⟨t, .error o, [], []⟩
    | (t, .ok timeLeft) =>
      let e' := e.refresh r timeLeft fault
      ⟨{ t with entries := t.entries.insert r.tag e', tally := t.tally.shift e.phase e' }, .ok true,
        [.updated n], []⟩

/-- Take in the report of the end.  A failure is put among the failures, and any other end takes the
transfer out of them. -/
def finish (now : Instant) (r : Report) (fault : Option Fault) :
    Tables → Outcome Tables (Except Overflow Bool) :=
  takeIn r fun t n e =>
    let e' := e.finish r (r.finishTime now) fault
    ⟨{ t with
        entries := t.entries.insert r.tag e'
        tally := t.tally.shift e.phase e'
        retained :=
          if e'.phase = .failed then
            t.retained.insert r.tag { r with lastFault := fault.or r.lastFault }
          else t.retained.erase r.tag
        paces := t.paces.erase r.tag }, .ok true, [.updated n], []⟩

namespace Represents

variable {t t' : Tables} {q q' : Queue} {tag : Tag} {place : Nat} {row row' : Row} {r : Report}

/-- A row has changed, and in each table its transfer has been given what the row now holds. -/
theorem replace (h : t.Represents q) (located : q.locate? row.tag = some (place, row))
    (htag : row'.tag = row.tag) (horder : t'.order = t.order)
    (hentries : Sets t.entries row.tag (some row'.entry) t'.entries)
    (hretained : Sets t.retained row.tag row'.retained t'.retained)
    (hpaces : Sets t.paces row.tag row'.pace t'.paces)
    (htally : t'.tally = t.tally.shift row.entry.phase row'.entry)
    (hwatermark : t'.watermark = t.watermark) :
    t'.Represents (q.replaceRow place row.entry.phase row') := by
  have htags := Queue.tags_replaceRow_of_locate? located row.entry.phase htag
  rw [← htag] at hentries hretained hpaces
  refine h.revise (Queue.revises_replaceRow h.nodup located _ htag) (htags ▸ h.nodup) ?_ hentries
    hretained hpaces ?_ (hwatermark.trans h.watermark)
  · rw [horder, h.order, htags]
  · rw [htally, h.tally, Queue.replaceRow]

/-- The rows stand in another order, and so do the transfers of the sequence. -/
theorem reorder (h : t.Represents q) (hperm : q'.rows.Perm q.rows) (horder : t'.order = q'.tags)
    (hentries : t'.entries = t.entries) (hretained : t'.retained = t.retained)
    (hpaces : t'.paces = t.paces) (htally : t'.tally = q'.tally)
    (hwatermark : t'.watermark = q'.watermark) : t'.Represents q' where
  nodup := (hperm.map Row.tag).nodup_iff.2 h.nodup
  order := horder
  entries tag := by rw [hentries, h.entries, Queue.find?_perm h.nodup hperm]
  retained tag := by rw [hretained, h.retained, Queue.find?_perm h.nodup hperm]
  paces tag := by rw [hpaces, h.paces, Queue.find?_perm h.nodup hperm]
  tally := htally
  watermark := hwatermark

/-- The pace that the table holds for the transfer of a row is that of the row. -/
theorem estimate (h : t.Represents q) (hfound : q.find? r.tag = some row) (weight : Float) :
    ∃ paces, t.estimate weight row.entry.phase r = ({ t with paces }, (row.estimate weight r).2)
      ∧ Sets t.paces r.tag (row.estimate weight r).1.pace paces := by
  have hpace : t.paces[r.tag]? = row.pace := by
    rw [h.paces, hfound]
    rfl
  rw [Tables.estimate, Row.estimate]
  split
  · exact ⟨t.paces, rfl, sets_self hpace⟩
  · rw [hpace]
    exact ⟨_, rfl, sets_insert _ _ _⟩

theorem takeIn {act : Tables → Nat → Entry → Outcome Tables (Except Overflow Bool)}
    {act' : Queue → Nat → Row → Outcome Queue (Except Overflow Bool)} (h : t.Represents q)
    (hact : ∀ {t q place row}, t.Represents q → q.locate? r.tag = some (place, row) →
      row.tag = r.tag →
      (act t place row.entry).Alike Represents (act' q place row)) :
    (t.takeIn r act).Alike Represents (q.takeIn r act') := by
  rw [Tables.takeIn, Queue.takeIn, h.hasSeen_eq]
  split
  · exact h.refuse
  · have h' := h.note r.number
    dsimp only
    rcases hloc : ({ q with watermark := r.number } : Queue).locate? r.tag with _ | ⟨place, row⟩
    · -- a transfer without a row has no entry either
      have hnone : t.entries[r.tag]? = none := by
        rw [h'.entries, Queue.find?_of_locate?_eq_none hloc, Option.map_none]
      rw [hnone]
      split
      · exact h'.refuse
      · exact h'.refuse
    · have hfound := Queue.find?_of_locate? h'.nodup hloc
      have hentry : t.entries[r.tag]? = some row.entry := by
        rw [h'.entries, hfound, Option.map_some]
      rw [h'.rowOf?_eq, Queue.place?_of_locate? hloc, hentry]
      obtain ⟨-, -, -, -, htag⟩ := Queue.locate?_eq_some hloc
      exact hact h' hloc htag

/-- A transfer goes where its row goes. -/
theorem settle (h : t.Represents q) (hrow : q.rows[place]? = some row) (before : UInt64) :
    (t.settle row.tag place before row.entry).Alike Represents (q.settle place before row) := by
  rw [Tables.settle, Queue.settle]
  dsimp only
  split
  · exact ⟨h, rfl, rfl, rfl⟩
  · obtain ⟨before, after, hrows, rfl⟩ := exists_split_of_getElem? hrow
    have hentries : ∀ other ∈ before ++ after, t.entries[other.tag]? = some other.entry := by
      intro other hother
      refine h.entry_of_mem ?_
      rw [hrows]
      exact List.perm_middle.symm.subset (List.mem_cons_of_mem row hother)
    have hrest : t.order.eraseIdx before.length = (before ++ after).map Row.tag := by
      rw [h.order, Queue.tags, hrows, List.map_append, List.map_cons, List.map_append,
        ← List.length_map Row.tag, eraseIdx_append_length]
    rw [hrest, hrows, eraseIdx_append_length, placeRaised_eq hentries, placeFor_eq hentries]
    refine ⟨h.reorder ?_ (List.map_insertIdx ..).symm rfl rfl rfl h.tally h.watermark, rfl, rfl, rfl⟩
    rw [hrows]
    refine (List.perm_insertIdx row _ ?_).trans List.perm_middle.symm
    split
    · exact Queue.placeRaised_le _ _ _
    · exact Queue.placeFor_le _ _ _

/-- The row of a transfer has been refreshed, or nothing but its pace has changed. -/
theorem refresh (h : t.Represents q) (located : q.locate? r.tag = some (place, row))
    (htag : row.tag = r.tag) (weight : Float) (fault : Option Fault) :
    (∃ o t' row', t.estimate weight row.entry.phase r = (t', .error o)
        ∧ row.refresh weight r fault = .error row'
        ∧ t'.Represents (q.replaceRow place row.entry.phase row'))
      ∨ ∃ t' timeLeft row', t.estimate weight row.entry.phase r = (t', .ok timeLeft)
        ∧ row.refresh weight r fault = .ok row'
        ∧ row.entry.refresh r timeLeft fault = row'.entry
        ∧ ∀ e : Entry, e.tag = r.tag →
          ({ t' with
            entries := t'.entries.insert r.tag e
            tally := t'.tally.shift row.entry.phase e } : Tables).Represents
            (q.replaceRow place row.entry.phase { row' with entry := e }) := by
  have hfound := Queue.find?_of_locate? h.nodup located
  obtain ⟨paces, hestimate, hpaces⟩ := h.estimate hfound weight
  have hretained : t.retained[r.tag]? = row.retained := by
    rw [h.retained, hfound, Option.bind_some]
  have hentry : t.entries[r.tag]? = some row.entry := by
    rw [h.entries, hfound, Option.map_some]
  have hkept := row.estimate_keeps weight r
  rw [← htag] at located hpaces hretained hentry
  rw [hestimate, Row.refresh]
  rcases hmade : row.estimate weight r with ⟨row', o | timeLeft⟩
  · rw [hmade] at hpaces hkept
    refine .inl ⟨o, _, row', rfl, rfl, ?_⟩
    refine h.replace located (congrArg Entry.tag hkept.1) rfl ?_ ?_ hpaces ?_ rfl
    · rw [hkept.1]
      exact sets_self hentry
    · rw [hkept.2]
      exact sets_self hretained
    · rw [hkept.1, Tally.shift, if_pos rfl]
  · rw [hmade] at hpaces hkept
    refine .inr ⟨_, timeLeft, _, rfl, rfl, rfl, fun e he => ?_⟩
    refine h.replace located (he.trans htag.symm) rfl ?_ ?_ hpaces rfl rfl
    · rw [htag]
      exact sets_insert _ _ _
    · rw [show _ = row.retained from hkept.2]
      exact sets_self hretained

theorem update (h : t.Represents q) (weight : Float) (r : Report) :
    (t.update weight r).Alike Represents (q.update weight r) := by
  refine h.takeIn fun {t q place row} h hloc htag => ?_
  split
  · exact h.refuse
  · rcases h.refresh hloc htag weight r.lastFault with
      ⟨o, t', row', ht, hrow, h'⟩ | ⟨t', timeLeft, row', ht, hrow, hentry, h'⟩
    · rw [ht, hrow]
      exact ⟨h', rfl, rfl, rfl⟩
    · have htag' : (row'.withPriority r.priority).tag = r.tag :=
        (congrArg Entry.tag hentry).symm.trans htag
      have hplace : (q.replaceRow place row.entry.phase (row'.withPriority r.priority)).rows[place]?
          = some (row'.withPriority r.priority) :=
        List.getElem?_set_self (Queue.lt_size_of_locate? hloc)
      have hsettle := (h' (row'.withPriority r.priority).entry htag').settle hplace row.entry.priority
      rw [htag'] at hsettle
      rw [ht, hrow]
      dsimp only
      rw [hentry]
      exact hsettle

theorem hinder (h : t.Represents q) (weight : Float) (r : Report) (fault : Option Fault) :
    (t.hinder weight r fault).Alike Represents (q.hinder weight r fault) := by
  refine h.takeIn fun {t q place row} h hloc htag => ?_
  rcases h.refresh hloc htag weight fault with
    ⟨o, t', row', ht, hrow, h'⟩ | ⟨t', timeLeft, row', ht, hrow, hentry, h'⟩
  · rw [ht, hrow]
    exact ⟨h', rfl, rfl, rfl⟩
  · rw [ht, hrow]
    dsimp only
    rw [hentry]
    exact ⟨h' row'.entry ((congrArg Entry.tag hentry).symm.trans htag), rfl, rfl, rfl⟩

theorem finish (h : t.Represents q) (now : Instant) (r : Report) (fault : Option Fault) :
    (t.finish now r fault).Alike Represents (q.finish now r fault) := by
  refine h.takeIn fun {t q place row} h hloc htag => ?_
  have hretained (r' : Report) : Sets t.retained r.tag (if r.phase = .failed then some r' else none)
      (if r.phase = .failed then t.retained.insert r.tag r' else t.retained.erase r.tag) := by
    split
    · exact sets_insert _ _ _
    · exact sets_erase _ _
  rw [← htag] at hloc
  refine ⟨h.replace hloc rfl rfl ?_ ?_ ?_ rfl rfl, rfl, rfl, rfl⟩
  · rw [htag]
    exact sets_insert _ _ _
  · rw [htag]
    exact hretained _
  · rw [htag]
    exact sets_erase _ _

end Represents

end Tables

end TransferQueue
