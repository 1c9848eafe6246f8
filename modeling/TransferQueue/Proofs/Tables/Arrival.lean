import TransferQueue.Proofs.Tables.Basic

/-!
# Places and new rows in the tables

Where a row belongs is found by walking the sequence of transfers and looking up the entry of each.
A new row writes to the tables one after the other: to the tally, to the failures if it has failed,
to the paces unless it has finished, to the entries, and last to the sequence.

* `Tables.placeFor_eq`, `Tables.placeLoading_eq`, `Tables.placeRaised_eq`: the places are those among
  the rows;
* `Tables.Represents.add`: a new row;
* `Tables.Represents.insert`, `Tables.Represents.start`, `Tables.Represents.loadListing`: the operations
  that show transfers.
-/

namespace TransferQueue

/-! ## Positions -/

section Positions

variable {α β : Type} {f : α → β} {p : β → Bool} {p' : α → Bool} {as : List α}

theorem findIdx?_map_of_forall (h : ∀ a ∈ as, p (f a) = p' a) :
    (as.map f).findIdx? p = as.findIdx? p' := by
  induction as with
  | nil => rfl
  | cons a as ih =>
    obtain ⟨ha, has⟩ := List.forall_mem_cons.1 h
    rw [List.map_cons, List.findIdx?_cons, List.findIdx?_cons, ha, ih has]

theorem lastIdx?_map_of_forall (h : ∀ a ∈ as, p (f a) = p' a) :
    lastIdx? p (as.map f) = lastIdx? p' as := by
  induction as with
  | nil => rfl
  | cons a as ih =>
    obtain ⟨ha, has⟩ := List.forall_mem_cons.1 h
    rw [List.map_cons, lastIdx?, lastIdx?, ha, ih has]

end Positions

namespace Tables

variable {entries : Std.HashMap Tag Entry} {lane : Lane} {priority : UInt64} {rows : List Row}
  {row : Row}

/-! ## Places -/

/-- The entry of a transfer, if it is one of the lane. -/
def sameLane? (entries : Std.HashMap Tag Entry) (lane : Lane) (tag : Tag) : Option Entry :=
  entries[tag]?.filter fun e => e.lane == lane

/-- Walk on from the row `n`, with whose transfer the list begins, through the rows of a lane, to the
first that comes after the priority. -/
def walk (entries : Std.HashMap Tag Entry) (lane : Lane) (priority : UInt64) :
    Nat → List Tag → Option Nat
  | _, [] => none
  | n, tag :: tags =>
    match sameLane? entries lane tag with
    | some e => if priority < e.priority then some n else walk entries lane priority (n + 1) tags
    | none => none

/-- The row at which a new transfer of the given lane and priority is inserted. -/
def placeFor (entries : Std.HashMap Tag Entry) (lane : Lane) (priority : UInt64)
    (order : List Tag) : Nat :=
  match order.findIdx? fun tag => (sameLane? entries lane tag).isSome with
  | none => order.length
  | some first =>
    match walk entries lane priority first (order.drop first) with
    | some n => n
    | none =>
      match lastIdx? (fun tag => (sameLane? entries lane tag).any (·.priority ≤ priority)) order with
      | some n => n + 1
      | none => first

/-- The row at which a transfer of a listing is inserted. -/
def placeLoading (entries : Std.HashMap Tag Entry) (lane : Lane) (priority : UInt64)
    (order : List Tag) : Nat :=
  match lastIdx? (fun tag => (sameLane? entries lane tag).isSome) order with
  | none => order.length
  | some n =>
    if (order[n]?.bind (entries[·]?)).any (·.priority ≤ priority) then n + 1
    else placeFor entries lane priority order

/-- The row to which a transfer moves that has got a smaller priority. -/
def placeRaised (entries : Std.HashMap Tag Entry) (lane : Lane) (priority : UInt64)
    (order : List Tag) : Nat :=
  match order.findIdx? fun tag => (sameLane? entries lane tag).any (priority ≤ ·.priority) with
  | some n => n
  | none => placeFor entries lane priority order

theorem sameLane?_eq (h : entries[row.tag]? = some row.entry) (lane : Lane) :
    sameLane? entries lane row.tag = if row.isIn lane then some row.entry else none := by
  rw [sameLane?, h, Option.filter_some, Row.isIn]

theorem any_sameLane? (h : entries[row.tag]? = some row.entry) (lane : Lane) (p : Entry → Bool) :
    (sameLane? entries lane row.tag).any p = (row.isIn lane && p row.entry) := by
  rw [sameLane?_eq h]
  cases row.isIn lane <;> rfl

theorem isSome_sameLane? (h : entries[row.tag]? = some row.entry) (lane : Lane) :
    (sameLane? entries lane row.tag).isSome = row.isIn lane := by
  rw [sameLane?_eq h]
  cases row.isIn lane <;> rfl

/-- The walk goes through the rows of the lane with which the rows begin. -/
theorem walk_eq (h : ∀ row ∈ rows, entries[row.tag]? = some row.entry) (n : Nat) :
    walk entries lane priority n (rows.map Row.tag)
      = ((rows.takeWhile (Row.isIn lane)).findIdx? fun row => priority < row.entry.priority).map
          (n + ·) := by
  induction rows generalizing n with
  | nil => rfl
  | cons row rows ih =>
    obtain ⟨hrow, hrows⟩ := List.forall_mem_cons.1 h
    rw [List.map_cons, walk, sameLane?_eq hrow, List.takeWhile_cons]
    by_cases hlane : row.isIn lane = true
    · rw [if_pos hlane, if_pos hlane, List.findIdx?_cons]
      dsimp only
      by_cases hafter : priority < row.entry.priority
      · rw [if_pos hafter, if_pos (decide_eq_true hafter)]
        rfl
      · rw [if_neg hafter, if_neg (by simpa using hafter), ih hrows, Option.map_map]
        congr 1
        funext i
        exact Nat.add_right_comm n 1 i
    · rw [if_neg hlane, if_neg hlane]
      rfl

theorem placeFor_eq (h : ∀ row ∈ rows, entries[row.tag]? = some row.entry) (lane : Lane)
    (priority : UInt64) :
    placeFor entries lane priority (rows.map Row.tag) = Queue.placeFor lane priority rows := by
  have hfirst : (rows.map Row.tag).findIdx? (fun tag => (sameLane? entries lane tag).isSome)
      = rows.findIdx? (Row.isIn lane) :=
    findIdx?_map_of_forall fun row hrow => isSome_sameLane? (h row hrow) lane
  have hlast : lastIdx? (fun tag => (sameLane? entries lane tag).any (·.priority ≤ priority))
      (rows.map Row.tag)
      = lastIdx? (fun row => row.isIn lane && row.entry.priority ≤ priority) rows :=
    lastIdx?_map_of_forall fun row hrow => any_sameLane? (h row hrow) lane _
  rw [placeFor, Queue.placeFor, hfirst, hlast, List.length_map]
  rcases rows.findIdx? (Row.isIn lane) with _ | first
  · rfl
  · dsimp only
    rw [← List.map_drop, walk_eq fun row hrow => h row (List.mem_of_mem_drop hrow)]
    rcases ((rows.drop first).takeWhile (Row.isIn lane)).findIdx? _ with _ | i <;> rfl

theorem placeLoading_eq (h : ∀ row ∈ rows, entries[row.tag]? = some row.entry) (lane : Lane)
    (priority : UInt64) :
    placeLoading entries lane priority (rows.map Row.tag)
      = Queue.placeLoading lane priority rows := by
  have hlast : lastIdx? (fun tag => (sameLane? entries lane tag).isSome) (rows.map Row.tag)
      = lastIdx? (Row.isIn lane) rows :=
    lastIdx?_map_of_forall fun row hrow => isSome_sameLane? (h row hrow) lane
  rw [placeLoading, Queue.placeLoading, hlast, List.length_map, placeFor_eq h]
  rcases lastIdx? (Row.isIn lane) rows with _ | n
  · rfl
  · have hentry : ((rows.map Row.tag)[n]?.bind (entries[·]?)) = rows[n]?.map Row.entry := by
      rw [List.getElem?_map]
      rcases hrow : rows[n]? with _ | row
      · rfl
      · exact h row (List.mem_of_getElem? hrow)
    dsimp only
    rw [hentry, Option.any_map]

theorem placeRaised_eq (h : ∀ row ∈ rows, entries[row.tag]? = some row.entry) (lane : Lane)
    (priority : UInt64) :
    placeRaised entries lane priority (rows.map Row.tag) = Queue.placeRaised lane priority rows := by
  have hfirst : (rows.map Row.tag).findIdx?
        (fun tag => (sameLane? entries lane tag).any (priority ≤ ·.priority))
      = rows.findIdx? fun row => row.isIn lane && priority ≤ row.entry.priority :=
    findIdx?_map_of_forall fun row hrow => any_sameLane? (h row hrow) lane _
  rw [placeRaised, Queue.placeRaised, hfirst]
  rcases rows.findIdx? _ with _ | n
  · exact placeFor_eq h lane priority
  · rfl

/-! ## New rows -/

/-- The tables with a new row at `n`; there are none if the transfer has an entry or the row is beyond
the end. -/
def add (weight : Float) (r : Report) (n : Nat) (t : Tables) : Except Overflow (Option Tables) :=
  if t.entries.contains r.tag then .ok none
  else if t.order.length < n then .ok none
  else
    let pace := (Pace.start r.speed weight).observe r.speed
    match pace.timeLeft r.bytesLeft with
    | .error e => .error e
    | .ok timeLeft =>
      let e := Entry.ofReport r timeLeft
      .ok (some { t with
        tally := t.tally.add e
        retained := if e.phase = .failed then t.retained.insert r.tag r else t.retained
        paces := if e.phase.isFinished then t.paces else t.paces.insert r.tag pace
        entries := t.entries.insert r.tag e
        order := t.order.insertIdx n r.tag })

/-- What observers are told of a new row. -/
def arrived (t : Tables) (n : Nat) : List Change :=
  .inserted n n :: (if t.order.length = 1 then [.presence true] else [])

/-- Show a transfer at a row of the caller's choice. -/
def insert (weight : Float) (r : Report) (n : Nat) (t : Tables) :
    Outcome Tables (Except Overflow Bool) :=
  match t.add weight r n with
  | .error e => ⟨t, .error e, [], []⟩
  | .ok none => t.refuse
  | .ok (some t') => ⟨t', .ok true, t'.arrived n, []⟩

/-- Take in the report of a new transfer.  The watermark rises after the row has come. -/
def start (weight : Float) (r : Report) (t : Tables) : Outcome Tables (Except Overflow Bool) :=
  if t.hasSeen r.number then t.refuse
  else
    let n := placeFor t.entries r.lane r.priority t.order
    match t.add weight r n with
    | .error e => ⟨t, .error e, [], []⟩
    | .ok none => { t with watermark := r.number }.refuse
    | .ok (some t') => ⟨{ t' with watermark := r.number }, .ok true, t'.arrived n, []⟩

namespace Represents

variable {t : Tables} {q : Queue} {weight : Float} {r : Report}

theorem placeFor (h : t.Represents q) (lane : Lane) (priority : UInt64) :
    placeFor t.entries lane priority t.order = Queue.placeFor lane priority q.rows := by
  rw [h.order]
  exact placeFor_eq (fun _ => h.entry_of_mem) lane priority

theorem placeLoading (h : t.Represents q) (lane : Lane) (priority : UInt64) :
    placeLoading t.entries lane priority t.order = Queue.placeLoading lane priority q.rows := by
  rw [h.order]
  exact placeLoading_eq (fun _ => h.entry_of_mem) lane priority

/-- A row comes to the tables exactly when it comes to the rows.  What it does not write stays as it
was, and that is right because nothing was held for its transfer. -/
theorem add (h : t.Represents q) (weight : Float) (r : Report) (n : Nat) :
    (∃ e, t.add weight r n = .error e ∧ q.add weight r n = .error e)
      ∨ (t.add weight r n = .ok none ∧ q.add weight r n = .ok none)
      ∨ ∃ t' q', t.add weight r n = .ok (some t') ∧ q.add weight r n = .ok (some q')
        ∧ t'.Represents q' := by
  by_cases hshown : q.contains r.tag = true
  · exact .inr (.inl ⟨by rw [Tables.add, h.contains_eq, if_pos hshown],
      by rw [Queue.add, hshown, Bool.true_or, if_pos rfl]⟩)
  have hnew : q.contains r.tag = false := by simpa using hshown
  by_cases hbeyond : q.size < n
  · exact .inr (.inl ⟨by rw [Tables.add, h.contains_eq, if_neg hshown, h.length_order, if_pos hbeyond],
      by rw [Queue.add, decide_eq_true hbeyond, Bool.or_true, if_pos rfl]⟩)
  have bound : n ≤ q.size := Nat.not_lt.1 hbeyond
  rw [Tables.add, h.contains_eq, if_neg hshown, h.length_order, if_neg hbeyond, Queue.add_eq bound,
    if_neg hshown, Row.ofReport]
  dsimp only
  rcases (((Pace.start r.speed weight).observe r.speed).timeLeft r.bytesLeft) with e | timeLeft
  · exact .inl ⟨e, rfl, rfl⟩
  · have hfind := Queue.find?_eq_none_iff.2 (Queue.contains_eq_false_iff.1 hnew)
    have hretained : Sets t.retained r.tag (if r.phase = .failed then some r else none)
        (if r.phase = .failed then t.retained.insert r.tag r else t.retained) := by
      split
      · exact sets_insert _ _ _
      · exact sets_self (by rw [h.retained, hfind, Option.bind_none])
    have hpaces (pace : Pace) : Sets t.paces r.tag (if r.phase.isFinished then none else some pace)
        (if r.phase.isFinished then t.paces else t.paces.insert r.tag pace) := by
      split
      · exact sets_self (by rw [h.paces, hfind, Option.bind_none])
      · exact sets_insert _ _ _
    refine .inr (.inr ⟨_, _, rfl, rfl, ?_⟩)
    refine h.revise (Queue.find?_insertRow bound (Queue.contains_eq_false_iff.1 hnew))
      (Queue.nodup_insertRow bound h.nodup hnew) ?_ (sets_insert _ _ _) hretained (hpaces _) ?_
      h.watermark
    · rw [h.order, Queue.tags_insertRow]
      rfl
    · rw [h.tally, Queue.insertRow]

theorem refuse (h : t.Represents q) : t.refuse.Alike Represents q.refuse := ⟨h, rfl, rfl, rfl⟩

theorem arrived_eq (h : t.Represents q) (n : Nat) : t.arrived n = q.arrived n := by
  rw [Tables.arrived, Queue.arrived, h.length_order]

theorem insert (h : t.Represents q) (weight : Float) (r : Report) (n : Nat) :
    (t.insert weight r n).Alike Represents (q.insert weight r n) := by
  rw [Tables.insert, Queue.insert]
  rcases h.add weight r n with ⟨e, ht, hq⟩ | ⟨ht, hq⟩ | ⟨t', q', ht, hq, h'⟩
  · rw [ht, hq]
    exact ⟨h, rfl, rfl, rfl⟩
  · rw [ht, hq]
    exact h.refuse
  · rw [ht, hq]
    exact ⟨h', rfl, h'.arrived_eq n, rfl⟩

theorem start (h : t.Represents q) (weight : Float) (r : Report) :
    (t.start weight r).Alike Represents (q.start weight r) := by
  rw [Tables.start, Queue.start, h.hasSeen_eq, h.placeFor]
  split
  · exact h.refuse
  · dsimp only
    rcases h.add weight r (Queue.placeFor r.lane r.priority q.rows) with
      ⟨e, ht, hq⟩ | ⟨ht, hq⟩ | ⟨t', q', ht, hq, h'⟩
    · rw [ht, hq]
      exact ⟨h, rfl, rfl, rfl⟩
    · rw [ht, hq]
      exact (h.note r.number).refuse
    · rw [ht, hq]
      exact ⟨h'.note r.number, rfl, h'.arrived_eq _, rfl⟩

end Represents

/-! ## Loading a listing -/

/-- A chunk that is being loaded. -/
structure Load where
  /-- The tables with the rows so far. -/
  tables : Tables
  /-- The run of new rows that observers have not been told of. -/
  pending : Option Run
  /-- The number of new rows. -/
  added : Nat
  /-- What observers are told. -/
  changes : List Change

namespace Load

/-- Tell observers of the pending run. -/
def flush (s : Load) : Load :=
  match s.pending with
  | none => s
  | some run => { s with pending := none, changes := s.changes ++ [.inserted run.first run.last] }

/-- Make ready for a row at `n`: a pending run that it does not continue is told now. -/
def prepare (s : Load) (n : Nat) : Load :=
  match s.pending with
  | none => s
  | some run => if n = run.last + 1 then s else s.flush

/-- The load after a row has come at `n`. -/
def extend (s : Load) (t : Tables) (n : Nat) : Load :=
  { s with
    tables := t
    pending := some ⟨(s.pending.map Run.first).getD n, n⟩
    added := s.added + 1 }

/-- Load reports one after the other, until a time cannot be expressed. -/
def run (weight : Float) : List Report → Load → Load × Bool
  | [], s => (s, false)
  | r :: rs, s =>
    let n := placeLoading s.tables.entries r.lane r.priority s.tables.order
    let s := s.prepare n
    match s.tables.add weight r n with
    | .error _ => (s, true)
    | .ok none => run weight rs s
    | .ok (some t) => run weight rs (s.extend t n)

/-- The tables hold what the rows of another load hold, and all else is the same. -/
structure Represents (s : Load) (p : Queue.Load) : Prop where
  tables : s.tables.Represents p.queue
  pending : s.pending = p.pending
  added : s.added = p.added
  changes : s.changes = p.changes

namespace Represents

variable {s : Load} {p : Queue.Load}

theorem flush (h : s.Represents p) : s.flush.Represents p.flush := by
  rw [Load.flush, Queue.Load.flush, h.pending]
  rcases p.pending with _ | run
  · exact h
  · exact ⟨h.tables, rfl, h.added, by rw [h.changes]⟩

theorem prepare (h : s.Represents p) (n : Nat) : (s.prepare n).Represents (p.prepare n) := by
  rw [Load.prepare, Queue.Load.prepare, h.pending]
  rcases p.pending with _ | run
  · exact h
  · dsimp only
    split
    · exact h
    · exact h.flush

theorem extend {t : Tables} {q : Queue} (h : s.Represents p) (ht : t.Represents q) (n : Nat) :
    (s.extend t n).Represents (p.extend q n) where
  tables := ht
  pending := by rw [Load.extend, Queue.Load.extend, h.pending]
  added := by rw [Load.extend, Queue.Load.extend, h.added]
  changes := h.changes

theorem run (weight : Float) (rs : List Report) (h : s.Represents p) :
    (run weight rs s).1.Represents (Queue.Load.run weight rs p).1
      ∧ (run weight rs s).2 = (Queue.Load.run weight rs p).2 := by
  induction rs generalizing s p with
  | nil => exact ⟨h, rfl⟩
  | cons r rs ih =>
    rw [Load.run, Queue.Load.run, h.tables.placeLoading]
    have h' := h.prepare (Queue.placeLoading r.lane r.priority p.queue.rows)
    rcases h'.tables.add weight r (Queue.placeLoading r.lane r.priority p.queue.rows) with
      ⟨e, ht, hq⟩ | ⟨ht, hq⟩ | ⟨t', q', ht, hq, hadd⟩
    · rw [ht, hq]
      exact ⟨h', rfl⟩
    · rw [ht, hq]
      exact ih h'
    · rw [ht, hq]
      exact ih (h'.extend hadd _)

end Represents

end Load

/-- Populate the tables with one chunk of a listing that has the given number. -/
def loadChunk (weight : Float) (number : UInt64) (chunk : List Report) (t : Tables) :
    Outcome Tables (Except Overflow Nat) :=
  let t := { t with watermark := if t.watermark < number then number else t.watermark }
  match Load.run weight chunk ⟨t, none, 0, []⟩ with
  | (s, true) => ⟨s.tables, .error .tooLong, s.changes, []⟩
  | (s, false) =>
    let s := s.flush
    ⟨s.tables, .ok s.added,
      s.changes ++ (if t.order.isEmpty && !s.tables.order.isEmpty then [.presence true] else []), []⟩

/-- Load chunks one after the other, until a time cannot be expressed. -/
def loadChunks (weight : Float) (number : UInt64) :
    List (List Report) → Tables → Outcome Tables (Except Overflow Nat)
  | [], t => ⟨t, .ok 0, [], []⟩
  | chunk :: rest, t =>
    let first := t.loadChunk weight number chunk
    match first.answer with
    | .error _ => first
    | .ok added =>
      ((loadChunks weight number rest first.state).after first).mapAnswer
        fun answer => answer.map (added + ·)

/-- Populate the tables with a listing, in chunks of `size` rows. -/
def loadListing (weight : Float) (size : Nat) (listing : Listing) (t : Tables) :
    Outcome Tables (Except Overflow Nat) :=
  match chunks size listing.toLoad with
  | [] => t.loadChunk weight listing.number []
  | parts => t.loadChunks weight listing.number parts

namespace Represents

variable {t : Tables} {q : Queue}

theorem loadChunk (h : t.Represents q) (weight : Float) (number : UInt64) (chunk : List Report) :
    (t.loadChunk weight number chunk).Alike Represents (q.loadChunk weight number chunk) := by
  have h₀ := h.note (if q.watermark < number then number else q.watermark)
  have hload : Load.Represents ⟨_, none, 0, []⟩ ⟨_, none, 0, []⟩ := ⟨h₀, rfl, rfl, rfl⟩
  obtain ⟨hrun, hflag⟩ := hload.run weight chunk
  rw [Tables.loadChunk, Queue.loadChunk, h.watermark]
  dsimp only
  generalize Load.run weight chunk _ = o at hrun hflag ⊢
  generalize Queue.Load.run weight chunk _ = o' at hrun hflag ⊢
  obtain ⟨s, flag⟩ := o
  obtain ⟨p, flag'⟩ := o'
  obtain rfl : flag = flag' := hflag
  cases flag with
  | true => exact ⟨hrun.tables, rfl, hrun.changes, rfl⟩
  | false =>
    have hend := hrun.flush
    refine ⟨hend.tables, congrArg Except.ok hend.added, ?_, rfl⟩
    dsimp only
    rw [hend.changes, h₀.isEmpty_order, hend.tables.isEmpty_order]

theorem loadChunks (h : t.Represents q) (weight : Float) (number : UInt64)
    (parts : List (List Report)) :
    (t.loadChunks weight number parts).Alike Represents (q.loadChunks weight number parts) := by
  induction parts generalizing t q with
  | nil => exact ⟨h, rfl, rfl, rfl⟩
  | cons chunk parts ih =>
    have hfirst := h.loadChunk weight number chunk
    rw [Tables.loadChunks, Queue.loadChunks]
    rw [hfirst.answer]
    rcases (q.loadChunk weight number chunk).answer with e | added
    · exact hfirst
    · exact ((ih hfirst.state).after hfirst).mapAnswer _

theorem loadListing (h : t.Represents q) (weight : Float) (size : Nat) (listing : Listing) :
    (t.loadListing weight size listing).Alike Represents (q.loadListing weight size listing) := by
  rw [Tables.loadListing, Queue.loadListing]
  rcases chunks size listing.toLoad with _ | ⟨chunk, parts⟩
  · exact h.loadChunk weight listing.number []
  · exact h.loadChunks weight listing.number (chunk :: parts)

end Represents

end Tables

end TransferQueue
