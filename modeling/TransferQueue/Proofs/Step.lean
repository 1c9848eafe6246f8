import TransferQueue.Board.Action
import TransferQueue.Proofs.Placement
import TransferQueue.Proofs.Replay

/-!
# The steps of the operations

Whatever happens to a queue happens in few kinds of steps: the watermark rises, a row comes, is
refreshed, finishes, moves, or a run of rows goes.  This file says what each step does, and finds
the steps of every operation.  What the steps keep, all operations keep.

* `Queue.Step`: a step, with the change that it makes to the sequence of the rows;
* `Queue.Walk`: steps one after the other;
* `Queue.IsWalk`: a walk that observers are told of.
-/

namespace TransferQueue

/-! ## What a report does to a row -/

namespace Row

variable {weight : Float} {r : Report} {fault : Option Fault} {row row' : Row}

theorem entry_ofReport (h : ofReport weight r = .ok row) :
    ∃ timeLeft, row.entry = .ofReport r timeLeft := by
  simp only [ofReport, Except.map] at h
  split at h
  · simp at h
  · exact ⟨_, by rw [← Except.ok.inj h]⟩

/-- A report that is no finish refreshes the entry and the pace. -/
theorem refresh_eq_ok (h : row.refresh weight r fault = .ok row') :
    ∃ timeLeft pace, row' = ⟨row.entry.refresh r timeLeft fault, row.retained, pace⟩ := by
  simp only [refresh, estimate] at h
  split at h
  · simp at h
  · rename_i row₁ timeLeft hest
    split at hest
    · obtain ⟨rfl, -⟩ := Prod.mk.inj hest
      exact ⟨timeLeft, row.pace, (Except.ok.inj h).symm⟩
    · obtain ⟨rfl, -⟩ := Prod.mk.inj hest
      exact ⟨timeLeft, _, (Except.ok.inj h).symm⟩

/-- When the time left cannot be expressed, nothing but the pace changes. -/
theorem refresh_eq_error (h : row.refresh weight r fault = .error row') :
    ∃ pace, row' = { row with pace } := by
  simp only [refresh, estimate] at h
  split at h
  · rename_i row₁ e hest
    split at hest
    · simp at hest
    · obtain ⟨rfl, -⟩ := Prod.mk.inj hest
      exact ⟨_, (Except.error.inj h).symm⟩
  · simp at h

end Row

/-! ## Kinds of changes -/

namespace Change

/-- Whether rows are opened. -/
def opens : Change → Bool
  | .inserted _ _ => true
  | _ => false

/-- Whether rows are closed. -/
def closes : Change → Bool
  | .removed _ _ => true
  | _ => false

/-- What closes rows opens none. -/
theorem opens_of_closes {c : Change} (h : c.closes = true) : c.opens = false := by
  cases c <;> simp_all [opens, closes]

end Change

namespace Queue

/-- Where a transfer is found. -/
theorem locate?_eq_some {q : Queue} {tag : Tag} {place : Nat} {row : Row}
    (h : q.locate? tag = some (place, row)) :
    ∃ before after, q.rows = before ++ row :: after ∧ before.length = place ∧ row.tag = tag := by
  obtain ⟨i, hi, hmap⟩ := Option.bind_eq_some_iff.1 h
  obtain ⟨row₁, hrow, heq⟩ := Option.map_eq_some_iff.1 hmap
  obtain ⟨rfl, rfl⟩ := Prod.mk.inj heq
  obtain ⟨before, row₂, after, hsplit, rfl, htag, -⟩ := exists_split_of_findIdx? hi
  obtain rfl : row₂ = row₁ := by simpa [hsplit] using hrow
  exact ⟨before, after, hsplit, rfl, eq_of_beq htag⟩

theorem lt_size_of_locate? {q : Queue} {tag : Tag} {place : Nat} {row : Row}
    (h : q.locate? tag = some (place, row)) : place < q.size := by
  obtain ⟨before, after, hrows, rfl, -⟩ := locate?_eq_some h
  rw [size, hrows, List.length_append, List.length_cons]
  omega

theorem size_insertRow {q : Queue} {place : Nat} (bound : place ≤ q.size) (row : Row) :
    (q.insertRow place row).size = q.size + 1 := List.length_insertIdx_of_le_length bound row

/-- Where a row is replaced that was found. -/
theorem replaceRow_split {q : Queue} {tag : Tag} {place : Nat} {row : Row}
    (located : q.locate? tag = some (place, row)) (phase : Phase) (row' : Row) :
    ∃ before after, q.rows = before ++ row :: after ∧ before.length = place
      ∧ (q.replaceRow place phase row').rows = before ++ row' :: after := by
  obtain ⟨before, after, hrows, rfl, -⟩ := locate?_eq_some located
  refine ⟨before, after, hrows, rfl, ?_⟩
  show q.rows.set before.length row' = before ++ row' :: after
  rw [hrows, set_append_length]

theorem contains_eq_false_iff {q : Queue} {tag : Tag} : q.contains tag = false ↔ tag ∉ q.tags := by
  simp [contains, tags, List.any_eq_false]

/-- A new row comes to an existing place, and its transfer had none. -/
theorem add_eq_ok_some {q q' : Queue} {weight : Float} {r : Report} {place : Nat}
    (h : q.add weight r place = .ok (some q')) :
    ∃ row, Row.ofReport weight r = .ok row ∧ q' = q.insertRow place row
      ∧ q.contains r.tag = false ∧ place ≤ q.size := by
  simp only [add] at h
  split at h
  · simp at h
  · rename_i hguard
    simp only [Bool.or_eq_true, decide_eq_true_eq, not_or, Bool.not_eq_true, Nat.not_lt] at hguard
    cases hrow : Row.ofReport weight r with
    | error e => simp [hrow, Except.map] at h
    | ok row =>
      simp only [hrow, Except.map, Except.ok.injEq, Option.some.injEq] at h
      exact ⟨row, rfl, h.symm, hguard⟩

/-- Where a row goes that had the given priority: nowhere, or out of its place and into another
one, which is a slot if the other rows are sorted. -/
theorem settle_eq {q : Queue} {before after : List Row} {row : Row} (priority : UInt64)
    (h : q.rows = before ++ row :: after) :
    (row.entry.priority = priority
        ∧ q.settle before.length priority row = ⟨q, .ok true, [.updated before.length], []⟩)
      ∨ ∃ target, target ≤ (before ++ after).length
        ∧ (Sorted (before ++ after) →
            IsSlot row.entry.lane row.entry.priority (before ++ after) target)
        ∧ q.settle before.length priority row
            = ⟨{ q with rows := (before ++ after).insertIdx target row }, .ok true,
                [movedOrUpdated before.length target], []⟩ := by
  simp only [settle, h, eraseIdx_append_length]
  by_cases hsame : row.entry.priority = priority
  · exact .inl ⟨hsame, if_pos hsame⟩
  · right
    rw [if_neg hsame]
    by_cases hless : row.entry.priority < priority
    · rw [if_pos hless]
      exact ⟨_, placeRaised_le _ _ _, fun hsorted => slot_placeRaised hsorted _ _, rfl⟩
    · rw [if_neg hless]
      exact ⟨_, placeFor_le _ _ _, fun hsorted => slot_placeFor hsorted _ _, rfl⟩

/-- To go elsewhere changes nothing but the order. -/
theorem perm_settle {q : Queue} {place : Nat} {priority : UInt64} {row : Row}
    (hrow : q.rows[place]? = some row) :
    (q.settle place priority row).state.rows.Perm q.rows := by
  obtain ⟨before, after, hrows, rfl⟩ := exists_split_of_getElem? hrow
  rcases settle_eq priority hrows with ⟨-, heq⟩ | ⟨target, bound, -, heq⟩
  · rw [heq]
  · rw [heq, hrows]
    exact (List.perm_insertIdx row _ bound).trans List.perm_middle.symm

/-- A row that was replaced goes elsewhere. -/
theorem perm_settle_replaceRow {q : Queue} {tag : Tag} {place : Nat} {row : Row}
    (located : q.locate? tag = some (place, row)) (phase : Phase) (priority : UInt64) (row' : Row) :
    ((q.replaceRow place phase row').settle place priority row').state.rows.Perm
      (q.replaceRow place phase row').rows := by
  obtain ⟨before, after, -, rfl, hrows'⟩ := replaceRow_split located phase row'
  refine perm_settle ?_
  rw [hrows']
  simp

/-- A run that is erased leaves the other rows in their order. -/
theorem sublist_eraseRun {first last : Nat} (run : first ≤ last) (q : Queue) :
    (q.eraseRun first last).rows.Sublist q.rows := by
  have hsub : (q.rows.take first ++ q.rows.drop (last + 1)).Sublist
      (q.rows.take first ++ q.rows.drop first) :=
    (List.Sublist.refl _).append (List.drop_sublist_drop_left _ (Nat.le_succ_of_le run))
  rwa [List.take_append_drop] at hsub

/-! ## Steps -/

/-- A step from a queue to another one, and the change that it makes to the sequence of the rows.
If `placed` holds, new rows come only to the places where they belong. -/
inductive Step (placed : Prop) : Queue → List Change → Queue → Prop where
  /-- The watermark rises. -/
  | note {q : Queue} {number : UInt64} (rises : q.watermark ≤ number) :
    Step placed q [] { q with watermark := number }
  /-- A row comes. -/
  | come {q : Queue} {weight : Float} {r : Report} {place : Nat} {row : Row}
    (new : q.contains r.tag = false) (bound : place ≤ q.size)
    (made : Row.ofReport weight r = .ok row)
    (fits : placed → place = placeFor r.lane r.priority q.rows
      ∨ place = placeLoading r.lane r.priority q.rows) :
    Step placed q [.inserted place place] (q.insertRow place row)
  /-- A row takes in a speed, but the time left cannot be expressed. -/
  | observe {q : Queue} {weight : Float} {r : Report} {fault : Option Fault} {place : Nat}
    {row row' : Row} (located : q.locate? r.tag = some (place, row))
    (made : row.refresh weight r fault = .error row') :
    Step placed q [] (q.replaceRow place row.entry.phase row')
  /-- A row is refreshed and keeps its place. -/
  | refresh {q : Queue} {weight : Float} {r : Report} {fault : Option Fault} {place : Nat}
    {row row' : Row} (located : q.locate? r.tag = some (place, row))
    (made : row.refresh weight r fault = .ok row') :
    Step placed q [.updated place] (q.replaceRow place row.entry.phase row')
  /-- A row is refreshed, gets a priority and goes where it then belongs. -/
  | settle {q : Queue} {weight : Float} {r : Report} {fault : Option Fault} {place : Nat}
    {row row' : Row} (located : q.locate? r.tag = some (place, row))
    (made : row.refresh weight r fault = .ok row') :
    Step placed q
      ((q.replaceRow place row.entry.phase (row'.withPriority r.priority)).settle place
        row.entry.priority (row'.withPriority r.priority)).changes
      ((q.replaceRow place row.entry.phase (row'.withPriority r.priority)).settle place
        row.entry.priority (row'.withPriority r.priority)).state
  /-- A row finishes. -/
  | finish {q : Queue} {finishedAt : Instant} {r : Report} {fault : Option Fault} {place : Nat}
    {row : Row} (located : q.locate? r.tag = some (place, row)) :
    Step placed q [.updated place]
      (q.replaceRow place row.entry.phase (row.finish finishedAt r fault))
  /-- A run of rows goes. -/
  | erase {q : Queue} {first last : Nat} (run : first ≤ last) (bound : last < q.size) :
    Step placed q [.removed first last] (q.eraseRun first last)

/-- Steps one after the other, and the changes that they make. -/
inductive Walk (placed : Prop) : Queue → List Change → Queue → Prop where
  | refl (q : Queue) : Walk placed q [] q
  | tail {q q' q'' : Queue} {cs ds : List Change} (walk : Walk placed q cs q')
    (step : Step placed q' ds q'') : Walk placed q (cs ++ ds) q''

variable {placed : Prop} {q q' q'' : Queue} {cs ds : List Change}

theorem Step.walk (h : Step placed q cs q') : Walk placed q cs q' := .tail (.refl q) h

theorem Walk.trans (h : Walk placed q cs q') (h' : Walk placed q' ds q'') :
    Walk placed q (cs ++ ds) q'' := by
  induction h' with
  | refl => simpa using h
  | tail _ step ih => simpa only [List.append_assoc] using ih.tail step

/-- What a step keeps, a walk keeps. -/
theorem Walk.keeps {P : Queue → Prop} (step : ∀ {q cs q'}, Step placed q cs q' → P q → P q')
    (h : Walk placed q cs q') (hq : P q) : P q' := by
  induction h with
  | refl => exact hq
  | tail _ hstep ih => exact step hstep ih

/-- From `q` to `q'` there is a walk with changes of one kind only.  If `told` holds, observers that
replay `changes` cannot tell them from those of the walk. -/
def IsWalk (placed told : Prop) (kind : Change → Prop) (q : Queue) (changes : List Change)
    (q' : Queue) : Prop :=
  ∃ cs, Walk placed q cs q' ∧ (∀ c ∈ cs, kind c) ∧ (told → Change.SameReplay changes cs)

namespace IsWalk

variable {told told' : Prop} {kind : Change → Prop} {changes changes' : List Change}

theorem refl (q : Queue) : IsWalk placed told kind q [] q :=
  ⟨[], .refl q, by simp, fun _ => .refl []⟩

/-- A walk of which exactly its changes are told. -/
theorem of_walk (h : Walk placed q cs q') (hkind : ∀ c ∈ cs, kind c) :
    IsWalk placed told kind q cs q' :=
  ⟨cs, h, hkind, fun _ => .refl cs⟩

/-- A walk that leaves the sequence of the rows as it is. -/
theorem of_walk_nil (h : Walk placed q [] q') : IsWalk placed told kind q [] q' :=
  of_walk h (by simp)

theorem trans (h : IsWalk placed told kind q changes q')
    (h' : IsWalk placed told' kind q' changes' q'') :
    IsWalk placed (told ∧ told') kind q (changes ++ changes') q'' := by
  obtain ⟨cs, hwalk, hkind, htold⟩ := h
  obtain ⟨ds, hwalk', hkind', htold'⟩ := h'
  refine ⟨cs ++ ds, hwalk.trans hwalk', ?_, fun ht => (htold ht.1).append (htold' ht.2)⟩
  exact fun c hc => (List.mem_append.1 hc).elim (hkind c) (hkind' c)

/-- The same may be told in another way. -/
theorem retell (h : IsWalk placed told kind q changes q')
    (same : Change.SameReplay changes' changes) : IsWalk placed told kind q changes' q' := by
  obtain ⟨cs, hwalk, hkind, htold⟩ := h
  exact ⟨cs, hwalk, hkind, fun ht => same.trans (htold ht)⟩

/-- It may be told on fewer occasions. -/
theorem mono (h : IsWalk placed told kind q changes q') (himp : told' → told) :
    IsWalk placed told' kind q changes q' := by
  obtain ⟨cs, hwalk, hkind, htold⟩ := h
  exact ⟨cs, hwalk, hkind, fun ht => htold (himp ht)⟩

/-- Signals that are not about rows may be told as well. -/
theorem append_silent (h : IsWalk placed told kind q changes q')
    (silent : ∀ c ∈ changes', ∃ b, c = .presence b ∨ c = .pausing b) :
    IsWalk placed told kind q (changes ++ changes') q' := by
  obtain ⟨cs, hwalk, hkind, htold⟩ := h
  exact ⟨cs, hwalk, hkind, fun ht => (Change.SameReplay.append_silent _ silent).trans (htold ht)⟩

end IsWalk

end Queue

end TransferQueue
