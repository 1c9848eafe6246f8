import TransferQueue.Queue.Placement
import TransferQueue.Queue.Removal

/-!
# Loading a listing

When the queue is connected to an engine, the transfers that the engine has already come as a
listing.  The listing is sorted by lane and priority and loaded in chunks.  Rows that get
neighbouring places one after the other are told to the observers as one run.

* `Listing.toLoad` is what is loaded of a listing, in order;
* `Queue.loadChunk` loads one chunk, `Queue.loadListing` a whole listing.
-/

namespace TransferQueue

namespace Listing

/-- Whether one report is loaded before another: by lane, then by priority. -/
def precedes (a b : Report) : Bool :=
  a.lane.index < b.lane.index || (a.lane.index == b.lane.index && a.priority ≤ b.priority)

/-- The reports that are loaded, in order: folders, streams and transfers without a priority are
left out, and equals keep the order of the listing. -/
def toLoad (listing : Listing) : List Report :=
  (listing.reports.filter fun r => r.isShown && r.priority != 0).mergeSort precedes

end Listing

/-- The chunks of a list, each of `size` elements except the last.  A size of zero stands for
one. -/
def chunks {α : Type} (size : Nat) (as : List α) : List (List α) :=
  if as.length = 0 then [] else as.take (max size 1) :: chunks size (as.drop (max size 1))
termination_by as.length
decreasing_by
  rw [List.length_drop]
  omega

/-- Nothing of a list is lost or put elsewhere when it is cut into chunks. -/
theorem flatten_chunks {α : Type} (size : Nat) (as : List α) : (chunks size as).flatten = as := by
  fun_induction chunks size as with
  | case1 as h => exact (List.eq_nil_of_length_eq_zero h).symm
  | case2 as _ ih => rw [List.flatten_cons, ih, List.take_append_drop]

namespace Queue

/-- A chunk that is being loaded. -/
structure Load where
  /-- The queue with the rows so far. -/
  queue : Queue
  /-- The run of new rows that observers have not been told of. -/
  pending : Option Run
  /-- The number of new rows. -/
  added : Nat
  /-- What observers are told. -/
  changes : List Change

namespace Load

/-- Tell observers of the pending run. -/
def flush (s : Load) : Load :=
  match s.pending with
  | none => s
  | some run =>
    { s with pending := none, changes := s.changes ++ [.inserted run.first run.last] }

/-- Make ready for a row at `place`: a pending run that it does not continue is told now. -/
def prepare (s : Load) (place : Nat) : Load :=
  match s.pending with
  | none => s
  | some run => if place = run.last + 1 then s else s.flush

/-- The load after a row has come at `place`. -/
def extend (s : Load) (q : Queue) (place : Nat) : Load :=
  { s with
    queue := q
    pending := some ⟨(s.pending.map Run.first).getD place, place⟩
    added := s.added + 1 }

/-- Load reports one after the other.  Transfers that have a row are passed over.  The flag says
that a time could not be expressed, which ends the loading there. -/
def run (weight : Float) : List Report → Load → Load × Bool
  | [], s => (s, false)
  | r :: rs, s =>
    let place := placeLoading r.lane r.priority s.queue.rows
    let s := s.prepare place
    match s.queue.add weight r place with
    | .error _ => (s, true)
    | .ok none => run weight rs s
    | .ok (some q) => run weight rs (s.extend q place)

end Load

/-- Populate the queue with one chunk of a listing that has the given number. -/
def loadChunk (weight : Float) (number : UInt64) (chunk : List Report) (q : Queue) :
    Outcome Queue (Except Overflow Nat) :=
  let q := { q with watermark := if q.watermark < number then number else q.watermark }
  match Load.run weight chunk ⟨q, none, 0, []⟩ with
  | (s, true) => ⟨s.queue, .error .tooLong, s.changes, []⟩
  | (s, false) =>
    let s := s.flush
    ⟨s.queue, .ok s.added,
      s.changes ++ (if q.rows.isEmpty && !s.queue.rows.isEmpty then [.presence true] else []), []⟩

/-- Load chunks one after the other, until a time cannot be expressed. -/
def loadChunks (weight : Float) (number : UInt64) :
    List (List Report) → Queue → Outcome Queue (Except Overflow Nat)
  | [], q => ⟨q, .ok 0, [], []⟩
  | chunk :: rest, q =>
    let first := q.loadChunk weight number chunk
    match first.answer with
    | .error _ => first
    | .ok added =>
      ((loadChunks weight number rest first.state).after first).mapAnswer
        fun answer => answer.map (added + ·)

/-- Populate the queue with a listing, in chunks of `size` rows.  A listing without rows is one
empty chunk. -/
def loadListing (weight : Float) (size : Nat) (listing : Listing) (q : Queue) :
    Outcome Queue (Except Overflow Nat) :=
  match chunks size listing.toLoad with
  | [] => q.loadChunk weight listing.number []
  | parts => q.loadChunks weight listing.number parts

end Queue

end TransferQueue
