import TransferQueue.Proofs.Bookkeeping

/-!
# The row of a transfer

The steps say where rows go.  Seen from one transfer, most of that is of no account: what counts is
the row that `Queue.find?` gives, and what an operation makes of it.  While no transfer has two rows,
a row is found wherever it stands, so an operation bears on the row of a transfer only by what it
does to that row.

* `Row.hear`: what an event that is no start makes of the row of its transfer;
* `Queue.find?_insertRow`, `Queue.find?_update` and so on: the rows that are found after an operation;
* `Board.find?_takeIn`: the same for the events of the engine;
* `Board.Reached`: the boards to which runs lead.
-/

namespace TransferQueue

/-! ## What a report makes of a row -/

namespace Row

variable {weight : Float} {r : Report} {fault : Option Fault} {row row' : Row}

/-- The row after a report on progress. -/
def update (weight : Float) (r : Report) (row : Row) : Row :=
  if row.entry.isAheadOf r then row
  else
    match row.refresh weight r r.lastFault with
    | .error row' => row'
    | .ok row' => row'.withPriority r.priority

/-- The row after a report on a passing fault. -/
def hinder (weight : Float) (r : Report) (fault : Option Fault) (row : Row) : Row :=
  match row.refresh weight r fault with
  | .error row' => row'
  | .ok row' => row'

/-- The row after an event at the moment `now`.  A start leaves a row as it is. -/
def hear (weight : Float) (now : Instant) (event : Event) (row : Row) : Row :=
  match event with
  | .started _ => row
  | .updated r => row.update weight r
  | .hindered r fault => row.hinder weight r fault
  | .finished r fault => row.finish (r.finishTime now) r fault

/-- A report that is no finish leaves alone what is kept for another try. -/
theorem update_keeps : (row.update weight r).tag = row.tag
    ∧ (row.update weight r).retained = row.retained := by
  rw [update]
  split
  · exact ⟨rfl, rfl⟩
  · rcases hmade : row.refresh weight r r.lastFault with row' | row'
    · obtain ⟨pace, rfl⟩ := refresh_eq_error hmade
      exact ⟨rfl, rfl⟩
    · obtain ⟨timeLeft, pace, rfl⟩ := refresh_eq_ok hmade
      exact ⟨rfl, rfl⟩

theorem hinder_keeps : (row.hinder weight r fault).tag = row.tag
    ∧ (row.hinder weight r fault).retained = row.retained := by
  rw [hinder]
  rcases hmade : row.refresh weight r fault with row' | row'
  · obtain ⟨pace, rfl⟩ := refresh_eq_error hmade
    exact ⟨rfl, rfl⟩
  · obtain ⟨timeLeft, pace, rfl⟩ := refresh_eq_ok hmade
    exact ⟨rfl, rfl⟩

/-- The row of a new transfer. -/
theorem ofReport_eq_ok (h : ofReport weight r = .ok row) :
    row.tag = r.tag ∧ row.entry.phase = r.phase
      ∧ row.retained = if r.phase = .failed then some r else none := by
  simp only [ofReport, Except.map] at h
  split at h
  · simp at h
  · rw [← Except.ok.inj h]
    exact ⟨rfl, rfl, rfl⟩

end Row

namespace Queue

variable {q q' : Queue} {row row' : Row} {tag : Tag} {place : Nat} {weight : Float} {r : Report}

/-! ## Finding rows -/

/-- What is found depends on the rows only. -/
theorem find?_congr (h : q'.rows = q.rows) (tag : Tag) : q'.find? tag = q.find? tag := by
  rw [find?, find?, h]

theorem contains_eq_isSome_find? (q : Queue) (tag : Tag) :
    q.contains tag = (q.find? tag).isSome := by
  rw [contains, find?, List.isSome_find?]

theorem find?_eq_none_iff : q.find? tag = none ↔ tag ∉ q.tags := by
  simp [find?, tags, List.find?_eq_none]

/-- A located row is the row that is found. -/
theorem find?_of_locate? (h : q.tags.Nodup) (located : q.locate? tag = some (place, row)) :
    q.find? tag = some row := by
  obtain ⟨before, after, hrows, -, htag⟩ := locate?_eq_some located
  exact (find?_eq_some_iff h).2 ⟨by simp [hrows], htag⟩

theorem find?_of_locate?_eq_none (h : q.locate? tag = none) : q.find? tag = none := by
  rcases hplace : q.place? tag with _ | place
  · rw [find?_eq_none_iff]
    simpa [place?, tags] using hplace
  · -- a place that was found holds a row
    obtain ⟨before, row, after, hrows, rfl, -⟩ := exists_split_of_findIdx? hplace
    simp [locate?, hplace, hrows] at h

theorem locate?_of_not_contains (h : q.contains tag = false) : q.locate? tag = none := by
  rcases hloc : q.locate? tag with _ | ⟨place, row⟩
  · rfl
  · obtain ⟨before, after, hrows, -, htag⟩ := locate?_eq_some hloc
    refine absurd ?_ (contains_eq_false_iff.1 h)
    rw [tags, hrows, ← htag]
    simp

/-- A row of a transfer is located between the rows before it and those behind it. -/
theorem locate?_of_split {before after : List Row} (h : q.tags.Nodup)
    (hrows : q.rows = before ++ row :: after) :
    q.locate? row.tag = some (before.length, row) := by
  have hplace : q.place? row.tag = some before.length :=
    (place?_eq_some_iff h).2 (by simp [tags, hrows])
  simp [locate?, hplace, hrows]

/-- It does not matter in which order the rows stand. -/
theorem find?_perm (h : q.tags.Nodup) (hperm : q'.rows.Perm q.rows) (tag : Tag) :
    q'.find? tag = q.find? tag := by
  have h' : q'.tags.Nodup := (hperm.map Row.tag).nodup_iff.2 h
  refine Option.ext fun row => ?_
  rw [find?_eq_some_iff h, find?_eq_some_iff h', hperm.mem_iff]

/-- Rows that are left are found as before. -/
theorem find?_of_sublist (h : q.tags.Nodup) (hsub : q'.rows.Sublist q.rows)
    (hfind : q'.find? tag = some row) : q.find? tag = some row := by
  have h' : q'.tags.Nodup := h.sublist (hsub.map Row.tag)
  obtain ⟨hmem, htag⟩ := (find?_eq_some_iff h').1 hfind
  exact (find?_eq_some_iff h).2 ⟨hsub.subset hmem, htag⟩

/-! ## Steps -/

/-- Where a row comes. -/
theorem insertRow_split (bound : place ≤ q.size) (row : Row) :
    ∃ before after, q.rows = before ++ after ∧ before.length = place
      ∧ (q.insertRow place row).rows = before ++ row :: after := by
  obtain ⟨before, after, hrows, rfl⟩ := exists_append_of_le bound
  exact ⟨before, after, hrows, rfl, by simp only [insertRow, hrows, insertIdx_append_length]⟩

theorem find?_insertRow (bound : place ≤ q.size) (hnew : row.tag ∉ q.tags) (tag : Tag) :
    (q.insertRow place row).find? tag = if row.tag = tag then some row else q.find? tag := by
  obtain ⟨before, after, hrows, -, hrows'⟩ := insertRow_split bound row
  simp only [find?, hrows, hrows', List.find?_append]
  by_cases htag : row.tag = tag
  · -- no row before it is of its transfer
    have hbefore : before.find? (fun a => a.tag == tag) = none := by
      refine List.find?_eq_none.2 fun a ha heq => hnew ?_
      rw [htag, ← eq_of_beq heq]
      exact List.mem_map_of_mem (by simp [hrows, ha])
    simp [htag, hbefore]
  · rw [if_neg htag, List.find?_cons_of_neg (by simpa using htag)]

/-- In `q'` a row is found that stands for the one that was found in `q`, and all other rows as they
were found. -/
def Revises (q : Queue) (row : Row) (q' : Queue) : Prop :=
  ∀ tag, q'.find? tag = if row.tag = tag then some row else q.find? tag

theorem revises_self (h : q.find? row.tag = some row) : Revises q row q := by
  intro tag
  split
  · rename_i heq
    rw [← heq, h]
  · rfl

theorem revises_replaceRow (h : q.tags.Nodup) (located : q.locate? tag = some (place, row))
    (phase : Phase) (htag : row'.tag = row.tag) : Revises q row' (q.replaceRow place phase row') := by
  obtain ⟨before, after, hrows, rfl, hrows'⟩ := replaceRow_split located phase row'
  intro tag
  simp only [find?, hrows', hrows, List.find?_append]
  by_cases heq : row'.tag = tag
  · have hbefore : before.find? (fun a => a.tag == tag) = none := by
      rw [← heq, htag]
      exact List.find?_eq_none.2 (by simpa using tag_ne_of_split h hrows)
    simp [heq, hbefore]
  · rw [if_neg heq, List.find?_cons_of_neg (by simpa using heq),
      List.find?_cons_of_neg (by simpa [← htag] using heq)]

/-- To go elsewhere changes no row. -/
theorem revises_settle {priority : UInt64} (h : q.tags.Nodup)
    (located : q.locate? tag = some (place, row)) (phase : Phase) (htag : row'.tag = row.tag) :
    Revises q row' ((q.replaceRow place phase row').settle place priority row').state := by
  have hnodup : (q.replaceRow place phase row').tags.Nodup := by
    obtain ⟨before, after, hrows, rfl, hrows'⟩ := replaceRow_split located phase row'
    simpa only [tags, hrows, hrows', List.map_append, List.map_cons, htag] using h
  intro tag
  rw [find?_perm hnodup (perm_settle_replaceRow located phase priority row')]
  exact revises_replaceRow h located phase htag tag

/-! ## Reports on shown transfers -/

/-- A report that is not late bears on the row of its transfer only, if what follows on a located row
does. -/
theorem find?_takeIn {act : Queue → Nat → Row → Outcome Queue (Except Overflow Bool)}
    {f : Row → Row} (h : q.tags.Nodup) (hnew : q.hasSeen r.number = false)
    (htag : ∀ row, (f row).tag = row.tag)
    (hact : ∀ (q : Queue) place row, q.tags.Nodup → q.locate? r.tag = some (place, row) →
      Revises q (f row) (act q place row).state) (tag : Tag) :
    (takeIn r act q).state.find? tag
      = if r.tag = tag then (q.find? tag).map f else q.find? tag := by
  rw [takeIn, if_neg (by simp [hnew])]
  simp only
  split
  · rename_i hloc
    have hnone : q.find? r.tag = none := find?_of_locate?_eq_none hloc
    show q.find? tag = _
    split
    · rename_i heq
      rw [← heq, hnone]
      rfl
    · rfl
  · rename_i place row hloc
    have hsome : q.find? r.tag = some row := find?_of_locate? h hloc
    obtain ⟨-, -, -, -, hrow⟩ := locate?_eq_some hloc
    refine (hact { q with watermark := r.number } place row h hloc tag).trans ?_
    rw [htag, hrow]
    split
    · rename_i heq
      rw [← heq, hsome]
      rfl
    · rfl

theorem find?_update (h : q.tags.Nodup) (hnew : q.hasSeen r.number = false) (tag : Tag) :
    (q.update weight r).state.find? tag
      = if r.tag = tag then (q.find? tag).map (Row.update weight r) else q.find? tag := by
  refine find?_takeIn h hnew (fun _ => Row.update_keeps.1) (fun q place row hnodup hloc => ?_) tag
  rw [Row.update]
  split
  · -- the row stays as it is
    refine revises_self ?_
    obtain ⟨-, -, -, -, htag⟩ := locate?_eq_some hloc
    rw [htag]
    exact find?_of_locate? hnodup hloc
  · rcases hmade : row.refresh weight r r.lastFault with row' | row'
    · obtain ⟨pace, rfl⟩ := Row.refresh_eq_error hmade
      exact revises_replaceRow hnodup hloc _ rfl
    · obtain ⟨timeLeft, pace, rfl⟩ := Row.refresh_eq_ok hmade
      exact revises_settle hnodup hloc _ rfl

theorem find?_hinder {fault : Option Fault} (h : q.tags.Nodup)
    (hnew : q.hasSeen r.number = false) (tag : Tag) :
    (q.hinder weight r fault).state.find? tag
      = if r.tag = tag then (q.find? tag).map (Row.hinder weight r fault) else q.find? tag := by
  refine find?_takeIn h hnew (fun _ => Row.hinder_keeps.1) (fun q place row hnodup hloc => ?_) tag
  rw [Row.hinder]
  rcases hmade : row.refresh weight r fault with row' | row'
  · obtain ⟨pace, rfl⟩ := Row.refresh_eq_error hmade
    exact revises_replaceRow hnodup hloc _ rfl
  · obtain ⟨timeLeft, pace, rfl⟩ := Row.refresh_eq_ok hmade
    exact revises_replaceRow hnodup hloc _ rfl

theorem find?_finish {now : Instant} {fault : Option Fault} (h : q.tags.Nodup)
    (hnew : q.hasSeen r.number = false) (tag : Tag) :
    (q.finish now r fault).state.find? tag
      = if r.tag = tag then (q.find? tag).map (Row.finish (r.finishTime now) r fault)
        else q.find? tag := by
  refine find?_takeIn h hnew (fun _ => by rfl) (fun q place row hnodup hloc => ?_) tag
  exact revises_replaceRow hnodup hloc _ rfl

end Queue

namespace Board

variable {b : Board} {now : Instant} {event : Event}

/-- An event that is not late and no start bears on the row of its transfer only. -/
theorem find?_takeIn (h : b.queue.tags.Nodup) (hkind : ∀ r, event ≠ .started r)
    (hnew : b.queue.hasSeen event.report.number = false) (tag : Tag) :
    (b.takeIn now event).state.queue.find? tag
      = if event.report.tag = tag then
          (b.queue.find? tag).map (Row.hear b.config.paceWeight now event)
        else b.queue.find? tag := by
  cases event with
  | started r => exact absurd rfl (hkind r)
  | updated r => exact Queue.find?_update h hnew tag
  | hindered r fault => exact Queue.find?_hinder h hnew tag
  | finished r fault => exact Queue.find?_finish h hnew tag

/-! ## Boards that are reached -/

/-- A run from a board without rows leads to the board. -/
def Reached (b : Board) : Prop :=
  ∃ config preference actions, ((new config preference).run actions).state = b

theorem Reached.balanced (h : b.Reached) : Queue.Balanced b.queue.tally b.queue.rows := by
  obtain ⟨config, preference, actions, rfl⟩ := h
  obtain ⟨cs, hwalk⟩ : ∃ cs, Queue.Walk False (new config preference).queue cs
      ((new config preference).run actions).state.queue := walk_run False.elim
  exact hwalk.balanced .nil

end Board

end TransferQueue
