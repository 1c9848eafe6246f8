import TransferQueue.Queue.Basic

/-!
# Where a row belongs, and how it gets there

Rows of a lane stand together and in the order of their priorities.  These functions find the
place of a new or changed row among given rows.

* `Queue.placeFor`: behind the rows of its lane that do not come after it.  The search walks the
  first block of the lane and falls back on a search from the end;
* `Queue.placeLoading`: the same place, found faster when rows come in order;
* `Queue.placeRaised`: before the rows of its lane that do not come before it.

A transfer that is not shown yet gets a row, at a place of the caller's choice (`Queue.insert`) or
at the one where it belongs (`Queue.start`).  A transfer that has a row is not shown twice.  When
the time it takes cannot be expressed, nothing changes at all.
-/

namespace TransferQueue

/-- The last position whose element has a property. -/
def lastIdx? {α : Type} (p : α → Bool) : List α → Option Nat
  | [] => none
  | a :: as =>
    match lastIdx? p as with
    | some i => some (i + 1)
    | none => if p a then some 0 else none

theorem lastIdx?_eq_none_iff {α : Type} {p : α → Bool} {as : List α} :
    lastIdx? p as = none ↔ ∀ a ∈ as, p a = false := by
  induction as with
  | nil => simp [lastIdx?]
  | cons a as ih =>
    rw [lastIdx?, List.forall_mem_cons]
    cases h : lastIdx? p as with
    | some i =>
      have hno : ¬ ∀ b ∈ as, p b = false := fun hall => by simp [ih.2 hall] at h
      simp [hno]
    | none =>
      have hall := ih.1 h
      cases hp : p a
      · simpa using hall
      · simp

/-- The last position whose element has the property splits a list into what comes before it, the
element, and elements without the property. -/
theorem lastIdx?_eq_some_iff {α : Type} {p : α → Bool} {as : List α} {i : Nat} :
    lastIdx? p as = some i ↔
      ∃ before a after, as = before ++ a :: after ∧ before.length = i ∧ p a = true
        ∧ ∀ b ∈ after, p b = false := by
  induction as generalizing i with
  | nil => simp [lastIdx?]
  | cons c cs ih =>
    rw [lastIdx?]
    constructor
    · intro h
      cases hl : lastIdx? p cs with
      | some j =>
        simp only [hl, Option.some.injEq] at h
        obtain ⟨before, a, after, hcs, hlen, ha, hafter⟩ := ih.1 hl
        refine ⟨c :: before, a, after, by simp [hcs], ?_, ha, hafter⟩
        rw [List.length_cons, hlen, h]
      | none =>
        have hnone := lastIdx?_eq_none_iff.1 hl
        cases hc : p c with
        | false => simp [hl, hc] at h
        | true =>
          simp only [hl, hc, if_true, Option.some.injEq] at h
          exact ⟨[], c, cs, rfl, h, hc, hnone⟩
    · rintro ⟨before, a, after, hcs, hlen, ha, hafter⟩
      cases before with
      | nil =>
        simp only [List.nil_append, List.cons.injEq] at hcs
        obtain ⟨rfl, rfl⟩ := hcs
        simp only [List.length_nil] at hlen
        simp [lastIdx?_eq_none_iff.2 hafter, ha, ← hlen]
      | cons b before =>
        simp only [List.cons_append, List.cons.injEq] at hcs
        have hl := ih.2 ⟨before, a, after, hcs.2, rfl, ha, hafter⟩
        simp only [List.length_cons] at hlen
        simp [hl, hlen]

/-- Whether a row belongs to a lane. -/
def Row.isIn (lane : Lane) (row : Row) : Bool := row.entry.lane == lane

namespace Queue

/-- The row at which a new transfer of the given lane and priority is inserted: behind the rows of
its lane that do not come after it, or before its lane if all do.  A lane that has no rows is put
at the end. -/
def placeFor (lane : Lane) (priority : UInt64) (rows : List Row) : Nat :=
  match rows.findIdx? (Row.isIn lane) with
  | none => rows.length
  | some first =>
    let block := (rows.drop first).takeWhile (Row.isIn lane)
    match block.findIdx? fun row => priority < row.entry.priority with
    | some i => first + i
    | none =>
      match lastIdx? (fun row => row.isIn lane && row.entry.priority ≤ priority) rows with
      | some i => i + 1
      | none => first

/-- The row at which a transfer of a listing is inserted.  Listings are sorted, so it is mostly the
one behind the last row of the lane. -/
def placeLoading (lane : Lane) (priority : UInt64) (rows : List Row) : Nat :=
  match lastIdx? (Row.isIn lane) rows with
  | none => rows.length
  | some i =>
    if rows[i]?.any fun row => row.entry.priority ≤ priority then i + 1
    else placeFor lane priority rows

/-- The place among `rows` of a transfer that has got a smaller priority: before the rows of its
lane that do not come before it, otherwise that of a new transfer. -/
def placeRaised (lane : Lane) (priority : UInt64) (rows : List Row) : Nat :=
  match rows.findIdx? fun row => row.isIn lane && priority ≤ row.entry.priority with
  | some i => i
  | none => placeFor lane priority rows

/-! ## New rows -/

/-- The queue with a new row at `place`; there is none if the transfer has a row or the place is
beyond the end. -/
def add (weight : Float) (r : Report) (place : Nat) (q : Queue) : Except Overflow (Option Queue) :=
  if q.contains r.tag || q.size < place then .ok none
  else (Row.ofReport weight r).map fun row => some (q.insertRow place row)

/-- What observers are told of a new row at `place` of the queue `q`. -/
def arrived (q : Queue) (place : Nat) : List Change :=
  .inserted place place :: (if q.size = 1 then [.presence true] else [])

/-- Show a transfer at a place of the caller's choice. -/
def insert (weight : Float) (r : Report) (place : Nat) (q : Queue) :
    Outcome Queue (Except Overflow Bool) :=
  match q.add weight r place with
  | .error _ => q.overflow
  | .ok none => q.refuse
  | .ok (some q') => ⟨q', .ok true, q'.arrived place, []⟩

/-- Take in the report of a new transfer, which is shown where it belongs. -/
def start (weight : Float) (r : Report) (q : Queue) : Outcome Queue (Except Overflow Bool) :=
  if q.hasSeen r.number then q.refuse
  else
    let place := placeFor r.lane r.priority q.rows
    match q.add weight r place with
    | .error _ => q.overflow
    | .ok none => { q with watermark := r.number }.refuse
    | .ok (some q') => ⟨{ q' with watermark := r.number }, .ok true, q'.arrived place, []⟩

end Queue

end TransferQueue
