import TransferQueue.Proofs.Arrivals
import TransferQueue.Proofs.Checked.Arrival

/-!
# Checked loads

A load counts the rows that have come, and keeps the last row of the run that observers have not been
told of.  Each row that is counted is there, so there are never more of them than rows, over all chunks
of a listing.

* `Queue.Load.Within`: what holds of a load, so that it can go on;
* `Queue.Load.checkedRun_eq`: reports one after the other;
* `Queue.checkedLoadListing_eq`: a whole listing.
-/

namespace TransferQueue

namespace Queue

variable {weight : Float} {q : Queue} {total : Nat}

namespace Load

/-- Make ready for a row at `place`: a pending run that it does not continue is told now. -/
def checkedPrepare (s : Load) (place : Nat) : Checked Load :=
  match s.pending with
  | none => pure s
  | some run => do
    let next ← Checked.add run.last 1
    if place = next then pure s else pure s.flush

/-- The load after a row has come at `place`. -/
def checkedExtend (s : Load) (q : Queue) (place : Nat) : Checked Load := do
  let added ← Checked.add s.added 1
  pure { s with
    queue := q
    pending := some ⟨(s.pending.map Run.first).getD place, place⟩
    added }

/-- Load reports one after the other. -/
def checkedRun (weight : Float) : List Report → Load → Checked (Load × Bool)
  | [], s => pure (s, false)
  | r :: rs, s => do
    let place ← checkedPlaceLoading r.lane r.priority s.queue.rows
    let s ← s.checkedPrepare place
    match ← s.queue.checkedAdd weight r place with
    | .error _ => pure (s, true)
    | .ok none => checkedRun weight rs s
    | .ok (some q) => do
      let s ← s.checkedExtend q place
      checkedRun weight rs s

end Load

/-- Load one chunk of a listing with the given number. -/
def checkedLoadChunk (weight : Float) (number : UInt64) (chunk : List Report) (q : Queue) :
    Checked (Outcome Queue (Except Overflow Nat)) := do
  let q := { q with watermark := if q.watermark < number then number else q.watermark }
  match ← Load.checkedRun weight chunk ⟨q, none, 0, []⟩ with
  | (s, true) => pure ⟨s.queue, .error .tooLong, s.changes, []⟩
  | (s, false) =>
    let s := s.flush
    pure ⟨s.queue, .ok s.added,
      s.changes ++ (if q.rows.isEmpty && !s.queue.rows.isEmpty then [.presence true] else []), []⟩

/-- Load chunks one after the other.  So far, `total` rows have come. -/
def checkedLoadChunks (weight : Float) (number : UInt64) :
    List (List Report) → Nat → Queue → Checked (Outcome Queue (Except Overflow Nat))
  | [], total, q => pure ⟨q, .ok total, [], []⟩
  | chunk :: rest, total, q => do
    let first ← q.checkedLoadChunk weight number chunk
    match first.answer with
    | .error _ => pure first
    | .ok added => do
      let total ← Checked.add total added
      let o ← checkedLoadChunks weight number rest total first.state
      pure (o.after first)

/-- Load a listing in chunks of `size` rows. -/
def checkedLoadListing (weight : Float) (size : Nat) (listing : Listing) (q : Queue) :
    Checked (Outcome Queue (Except Overflow Nat)) :=
  match chunks size listing.toLoad with
  | [] => q.checkedLoadChunk weight listing.number []
  | parts => q.checkedLoadChunks weight listing.number parts 0

namespace Load

/-- The rows that have come, `total` of them before this load, are there, and so is the last row of the
pending run. -/
structure Within (total : Nat) (s : Load) : Prop where
  nodup : s.queue.tags.Nodup
  added : total + s.added ≤ s.queue.size
  pending : ∀ run ∈ s.pending, run.last < s.queue.size

variable {s : Load}

theorem Within.flush (h : Within total s) : Within total s.flush := by
  rw [Load.flush]
  split
  · exact h
  · exact ⟨h.nodup, h.added, by simp⟩

theorem Within.prepare (h : Within total s) (place : Nat) : Within total (s.prepare place) := by
  rw [Load.prepare]
  split
  · exact h
  · split
    · exact h
    · exact h.flush

/-- A row that comes is one more. -/
theorem Within.extend {r : Report} {place : Nat} {q' : Queue} (h : Within total s)
    (hadd : s.queue.add weight r place = .ok (some q')) : Within total (s.extend q' place) := by
  obtain ⟨row, hmade, rfl, hnew, bound⟩ := add_eq_ok_some hadd
  have hsize := size_insertRow bound row
  refine ⟨?_, ?_, ?_⟩
  · exact nodup_insertRow bound h.nodup ((Row.ofReport_eq_ok hmade).1 ▸ hnew)
  · have := h.added
    show total + (s.added + 1) ≤ (s.queue.insertRow place row).size
    omega
  · intro run hrun
    obtain rfl := Option.mem_some_iff.1 hrun
    show place < (s.queue.insertRow place row).size
    omega

theorem checkedPrepare_eq (h : Within total s) (place : Nat) :
    s.checkedPrepare place = .ok (s.prepare place) := by
  have hsize := size_lt_of_nodup h.nodup
  rw [checkedPrepare, prepare]
  rcases hpending : s.pending with _ | run
  · rfl
  · have hlast := h.pending run hpending
    dsimp only
    rw [Checked.add_eq (by omega), Checked.ok_bind]
    split <;> rfl

/-- The row that is counted is there. -/
theorem checkedExtend_eq {q' : Queue} {place : Nat} (h : Within total (s.extend q' place)) :
    s.checkedExtend q' place = .ok (s.extend q' place) := by
  have hsize : q'.size < UInt64.size := size_lt_of_nodup h.nodup
  have hadded : total + (s.added + 1) ≤ q'.size := h.added
  rw [checkedExtend, Checked.add_eq (by omega)]
  rfl

/-- Reports are loaded one after the other, and so it stays. -/
theorem checkedRun_eq (weight : Float) (h : Within total s) (rs : List Report) :
    checkedRun weight rs s = .ok (run weight rs s) ∧ Within total (run weight rs s).1 := by
  induction rs generalizing s with
  | nil => exact ⟨rfl, h⟩
  | cons r rs ih =>
    have hprepared := h.prepare (placeLoading r.lane r.priority s.queue.rows)
    rw [checkedRun, checkedPlaceLoading_eq (size_lt_of_nodup h.nodup), Checked.ok_bind,
      checkedPrepare_eq h, Checked.ok_bind, checkedAdd_eq, Checked.ok_bind]
    simp only [run]
    cases hadd : (s.prepare (placeLoading r.lane r.priority s.queue.rows)).queue.add weight r
        (placeLoading r.lane r.priority s.queue.rows) with
    | error e => exact ⟨rfl, hprepared⟩
    | ok q' =>
      cases q' with
      | none => exact ih hprepared
      | some q' =>
        have hextended := hprepared.extend hadd
        dsimp only
        rw [checkedExtend_eq hextended, Checked.ok_bind]
        exact ih hextended

end Load

/-- A chunk is loaded; the rows that it counts are there. -/
theorem checkedLoadChunk_eq (weight : Float) (h : q.tags.Nodup) (htotal : total ≤ q.size)
    (number : UInt64) (chunk : List Report) :
    q.checkedLoadChunk weight number chunk = .ok (q.loadChunk weight number chunk)
      ∧ (q.loadChunk weight number chunk).state.tags.Nodup
      ∧ ∀ added, (q.loadChunk weight number chunk).answer = .ok added →
        total + added ≤ (q.loadChunk weight number chunk).state.size := by
  have hstart : Load.Within total
      ⟨{ q with watermark := if q.watermark < number then number else q.watermark }, none, 0, []⟩ :=
    ⟨h, htotal, by simp⟩
  obtain ⟨hrun, hend⟩ := Load.checkedRun_eq weight hstart chunk
  simp only [checkedLoadChunk, loadChunk, hrun, Checked.ok_bind]
  generalize Load.run weight chunk _ = outcome at hend
  obtain ⟨s, failed⟩ := outcome
  cases failed with
  | true => exact ⟨rfl, hend.nodup, fun _ h => by cases h⟩
  | false =>
    refine ⟨rfl, hend.flush.nodup, fun added hadded => ?_⟩
    obtain rfl := Except.ok.inj hadded
    exact hend.flush.added

theorem checkedLoadChunks_eq (h : q.tags.Nodup) (htotal : total ≤ q.size) (number : UInt64)
    (parts : List (List Report)) :
    q.checkedLoadChunks weight number parts total
      = .ok ((q.loadChunks weight number parts).mapAnswer fun answer => answer.map (total + ·)) := by
  induction parts generalizing q total with
  | nil => rfl
  | cons chunk parts ih =>
    obtain ⟨hchunk, hnodup, hadded⟩ := checkedLoadChunk_eq weight h htotal number chunk
    rw [checkedLoadChunks, hchunk, Checked.ok_bind, loadChunks]
    generalize q.loadChunk weight number chunk = first at hnodup hadded ⊢
    obtain ⟨q', answer, changes, commands⟩ := first
    cases answer with
    | error e => rfl
    | ok added =>
      have hsum : total + added ≤ q'.size := hadded added rfl
      have hsize : q'.size < UInt64.size := size_lt_of_nodup hnodup
      dsimp only
      rw [Checked.add_eq (by omega), Checked.ok_bind, ih hnodup hsum, Checked.ok_bind]
      generalize q'.loadChunks weight number parts = rest
      obtain ⟨q'', answer, changes', commands'⟩ := rest
      cases answer with
      | error e => rfl
      | ok others =>
        simp only [Outcome.mapAnswer, Outcome.after, Except.map, Checked.pure_eq, Nat.add_assoc]

theorem checkedLoadListing_eq (h : q.tags.Nodup) (size : Nat) (listing : Listing) :
    q.checkedLoadListing weight size listing = .ok (q.loadListing weight size listing) := by
  rw [checkedLoadListing, loadListing]
  cases chunks size listing.toLoad with
  | nil => exact (checkedLoadChunk_eq weight h (Nat.zero_le _) listing.number []).1
  | cons chunk parts =>
    refine (checkedLoadChunks_eq h (Nat.zero_le _) listing.number (chunk :: parts)).trans ?_
    dsimp only
    generalize q.loadChunks weight listing.number (chunk :: parts) = o
    obtain ⟨q', answer, changes, commands⟩ := o
    cases answer with
    | error e => rfl
    | ok added => simp only [Outcome.mapAnswer, Except.map, Nat.zero_add]

end Queue

end TransferQueue
