import TransferQueue.Proofs.Arrivals

/-!
# A queue kept as tables

A queue is a list of rows, and a row has all that is known of its transfer.  This is a good way to
think of a queue, but not the way to keep one: to find a transfer, one wants a table.  Here a queue
is kept as a sequence of transfers, which says the order of the rows, and three tables, by transfer:
the entries, the reports of failures, and the paces of unfinished transfers.

Nothing ties the tables to each other.  Every operation writes to each of them by itself, in an
order of its own, and may forget one.  So it has to be proved that the tables always agree, and the
way to do this is to compare them with the rows: each table holds what the rows hold of its kind.

* `Outcome.Alike`: operations on related states that say the same;
* `Tables`: the sequence, the tables, the tally and the watermark;
* `Tables.Represents`: the tables hold what the rows of a queue hold;
* `Tables.Represents.revise`, `Tables.Represents.removeRange`: rows that come or change, and rows
  that go;
* `Tables.Consistent`: the tables agree, and the tally is what a recount would give.
-/

namespace TransferQueue

namespace Outcome

variable {σ τ α β : Type} {R : σ → τ → Prop}

/-- Two outcomes that say the same, and whose states are related. -/
structure Alike (R : σ → τ → Prop) (o : Outcome σ α) (p : Outcome τ α) : Prop where
  state : R o.state p.state
  answer : o.answer = p.answer
  changes : o.changes = p.changes
  commands : o.commands = p.commands

namespace Alike

variable {o : Outcome σ α} {p : Outcome τ α}

theorem mapAnswer (h : o.Alike R p) (f : α → β) : (o.mapAnswer f).Alike R (p.mapAnswer f) :=
  ⟨h.state, congrArg f h.answer, h.changes, h.commands⟩

/-- Outcomes that are alike, one after the other. -/
theorem after {σ' τ' : Type} {R' : σ' → τ' → Prop} {first : Outcome σ' β} {first' : Outcome τ' β}
    (h : o.Alike R p) (hfirst : first.Alike R' first') :
    (o.after first).Alike R (p.after first') where
  state := h.state
  answer := h.answer
  changes := by rw [Outcome.after, Outcome.after, h.changes, hfirst.changes]
  commands := by rw [Outcome.after, Outcome.after, h.commands, hfirst.commands]

end Alike

end Outcome

/-- A queue kept as tables. -/
structure Tables where
  /-- The entry of each transfer. -/
  entries : Std.HashMap Tag Entry
  /-- The transfers in the order of their rows. -/
  order : List Tag
  /-- The tally. -/
  tally : Tally
  /-- The report of the failure of each failed transfer. -/
  retained : Std.HashMap Tag Report
  /-- The pace of each unfinished transfer. -/
  paces : Std.HashMap Tag Pace
  /-- The number of the latest report that was taken in. -/
  watermark : UInt64

/-- A table comes to hold `a` for a transfer, and holds what it held for any other. -/
def Sets {α : Type} (table : Std.HashMap Tag α) (tag : Tag) (a : Option α)
    (table' : Std.HashMap Tag α) : Prop :=
  ∀ other, table'[other]? = if tag = other then a else table[other]?

section Sets

variable {α : Type} {table : Std.HashMap Tag α} {tag : Tag} {a : Option α}

theorem sets_insert (table : Std.HashMap Tag α) (tag : Tag) (a : α) :
    Sets table tag (some a) (table.insert tag a) := by
  intro other
  simp only [Std.HashMap.getElem?_insert, beq_iff_eq]

theorem sets_erase (table : Std.HashMap Tag α) (tag : Tag) :
    Sets table tag none (table.erase tag) := by
  intro other
  simp only [Std.HashMap.getElem?_erase, beq_iff_eq]

/-- What a table already holds need not be written. -/
theorem sets_self (h : table[tag]? = a) : Sets table tag a table := by
  intro other
  split
  · rename_i heq
    rw [← heq, h]
  · rfl

/-- A table comes to hold nothing for some transfers, and holds what it held for the others. -/
def Lacks {α : Type} (table : Std.HashMap Tag α) (tags : List Tag) (table' : Std.HashMap Tag α) :
    Prop :=
  ∀ other, table'[other]? = if other ∈ tags then none else table[other]?

theorem Lacks.nil (table : Std.HashMap Tag α) : Lacks table [] table := by
  simp [Lacks]

theorem Sets.lacks {table' : Std.HashMap Tag α} (h : Sets table tag none table') :
    Lacks table [tag] table' := by
  intro other
  simp only [h other, List.mem_singleton, eq_comm]

/-- One transfer is erased, and then the others. -/
theorem Lacks.erase {table' : Std.HashMap Tag α} {tags : List Tag}
    (h : Lacks (table.erase tag) tags table') : Lacks table (tag :: tags) table' := by
  intro other
  rw [h other, sets_erase table tag other]
  by_cases heq : tag = other
  · simp [heq]
  · simp [heq, Ne.symm heq]

end Sets

theorem Queue.place?_of_locate? {q : Queue} {tag : Tag} {place : Nat} {row : Row}
    (located : q.locate? tag = some (place, row)) : q.place? tag = some place := by
  obtain ⟨n, hplace, hrow⟩ := Option.bind_eq_some_iff.1 located
  obtain ⟨_, _, heq⟩ := Option.map_eq_some_iff.1 hrow
  obtain ⟨rfl, -⟩ := Prod.mk.inj heq
  exact hplace

/-- When a run goes, exactly the rows of the run are found no more. -/
theorem Queue.find?_eraseRun {q : Queue} {first last : Nat} (h : q.tags.Nodup) (run : first ≤ last)
    (tag : Tag) :
    (q.eraseRun first last).find? tag
      = if tag ∈ ((q.rows.drop first).take (last + 1 - first)).map Row.tag then none
        else q.find? tag := by
  have hperm := perm_eraseRun run q
  generalize (q.rows.drop first).take (last + 1 - first) = gone at hperm ⊢
  have h' : (q.eraseRun first last).tags.Nodup := h.sublist ((sublist_eraseRun run q).map Row.tag)
  split
  · rename_i hgone
    have hdisjoint := (hperm.map Row.tag).nodup_iff.1 h
    rw [List.map_append, List.nodup_append] at hdisjoint
    exact find?_eq_none_iff.2 fun hleft => hdisjoint.2.2 tag hgone tag hleft rfl
  · rename_i hkept
    refine Option.ext fun row => ?_
    rw [find?_eq_some_iff h, find?_eq_some_iff h', hperm.mem_iff, List.mem_append]
    constructor
    · exact fun hrow => ⟨.inr hrow.1, hrow.2⟩
    · rintro ⟨hrow | hrow, rfl⟩
      · exact absurd (List.mem_map_of_mem hrow) hkept
      · exact ⟨hrow, rfl⟩

namespace Tables

/-- The tables without a transfer. -/
def empty : Tables := ⟨∅, [], .empty, ∅, ∅, 0⟩

/-- The row number of a transfer. -/
def rowOf? (t : Tables) (tag : Tag) : Option Nat := t.order.findIdx? (· == tag)

/-- The entry that is shown at a row. -/
def entryAt? (t : Tables) (n : Nat) : Option Entry := t.order[n]?.bind (t.entries[·]?)

/-- The entries of all rows, in their order. -/
def records (t : Tables) : List Entry := t.order.filterMap (t.entries[·]?)

/-- Whether a report with this number is late. -/
def hasSeen (t : Tables) (number : UInt64) : Bool := number ≤ t.watermark

/-- The outcome of an operation that leaves the tables as they are and says no. -/
def refuse (t : Tables) : Outcome Tables (Except Overflow Bool) := ⟨t, .ok false, [], []⟩

/-- What observers are told when no row is left and there had been rows. -/
def emptied (hadRows : Bool) (t : Tables) : List Change :=
  if hadRows && t.order.isEmpty then [.presence false] else []

/-! ## The tables and the rows -/

/-- The tables hold what the rows of a queue hold. -/
structure Represents (t : Tables) (q : Queue) : Prop where
  /-- No transfer has two rows. -/
  nodup : q.tags.Nodup
  /-- The sequence has the transfers of the rows, in their order. -/
  order : t.order = q.tags
  /-- An entry is held for exactly the transfers that have a row. -/
  entries : ∀ tag, t.entries[tag]? = (q.find? tag).map Row.entry
  /-- A report of a failure is held where a row keeps one. -/
  retained : ∀ tag, t.retained[tag]? = (q.find? tag).bind Row.retained
  /-- A pace is held where a row has one. -/
  paces : ∀ tag, t.paces[tag]? = (q.find? tag).bind Row.pace
  /-- The tallies are the same. -/
  tally : t.tally = q.tally
  /-- The watermarks are the same. -/
  watermark : t.watermark = q.watermark

theorem represents_empty : empty.Represents .empty where
  nodup := .nil
  order := rfl
  entries _ := Std.HashMap.getElem?_empty
  retained _ := Std.HashMap.getElem?_empty
  paces _ := Std.HashMap.getElem?_empty
  tally := rfl
  watermark := rfl

namespace Represents

variable {t t' : Tables} {q q' : Queue} {tag : Tag} {row : Row} {place : Nat}

theorem rowOf?_eq (h : t.Represents q) (tag : Tag) : t.rowOf? tag = q.place? tag := by
  rw [rowOf?, h.order, Queue.tags, List.findIdx?_map]
  rfl

theorem length_order (h : t.Represents q) : t.order.length = q.size := by
  rw [h.order, Queue.tags, List.length_map, Queue.size]

theorem isEmpty_order (h : t.Represents q) : t.order.isEmpty = q.rows.isEmpty := by
  rw [h.order, Queue.tags, List.isEmpty_map]

theorem contains_eq (h : t.Represents q) (tag : Tag) : t.entries.contains tag = q.contains tag := by
  rw [Std.HashMap.contains_eq_isSome_getElem?, h.entries, Option.isSome_map,
    Queue.contains_eq_isSome_find?]

theorem hasSeen_eq (h : t.Represents q) (number : UInt64) :
    t.hasSeen number = q.hasSeen number := by
  rw [hasSeen, h.watermark, Queue.hasSeen]

/-- The row of a transfer holds what the tables hold for it. -/
theorem entry_of_mem (h : t.Represents q) (hrow : row ∈ q.rows) :
    t.entries[row.tag]? = some row.entry := by
  rw [h.entries, (Queue.find?_eq_some_iff h.nodup).2 ⟨hrow, rfl⟩]
  rfl

theorem entryAt?_eq (h : t.Represents q) (n : Nat) :
    t.entryAt? n = q.rows[n]?.map Row.entry := by
  rw [entryAt?, h.order, Queue.tags, List.getElem?_map]
  rcases hrow : q.rows[n]? with _ | row
  · rfl
  · exact h.entry_of_mem (List.mem_of_getElem? hrow)

theorem records_eq (h : t.Represents q) : t.records = q.entries := by
  have hentries : ∀ row ∈ q.rows, t.entries[row.tag]? = some row.entry :=
    fun _ hrow => h.entry_of_mem hrow
  rw [records, h.order, Queue.tags, List.filterMap_map, Queue.entries, ← List.filterMap_eq_map]
  exact List.filterMap_congr hentries

theorem emptied_eq {hadRows : Bool} (h : t'.Represents q') (hrows : hadRows = !q.rows.isEmpty) :
    t'.emptied hadRows = Queue.emptied q q' := by
  rw [emptied, Queue.emptied, h.isEmpty_order, hrows]

/-- The watermark bears on no table. -/
theorem note (h : t.Represents q) (number : UInt64) :
    ({ t with watermark := number } : Tables).Represents { q with watermark := number } :=
  ⟨h.nodup, h.order, h.entries, h.retained, h.paces, h.tally, rfl⟩

/-! ### Rows that come or change -/

/-- A row has come or changed, and in each table the transfer of the row has been given what the row
holds. -/
theorem revise (h : t.Represents q) (hrevises : Queue.Revises q row q') (hnodup : q'.tags.Nodup)
    (horder : t'.order = q'.tags) (hentries : Sets t.entries row.tag (some row.entry) t'.entries)
    (hretained : Sets t.retained row.tag row.retained t'.retained)
    (hpaces : Sets t.paces row.tag row.pace t'.paces) (htally : t'.tally = q'.tally)
    (hwatermark : t'.watermark = q'.watermark) : t'.Represents q' where
  nodup := hnodup
  order := horder
  entries tag := by
    rw [hentries, hrevises, h.entries]
    split <;> rfl
  retained tag := by
    rw [hretained, hrevises, h.retained]
    split <;> rfl
  paces tag := by
    rw [hpaces, hrevises, h.paces]
    split <;> rfl
  tally := htally
  watermark := hwatermark

end Represents

/-! ## Rows that go -/

/-- Forget a transfer that has lost its row: whatever the tables hold for it goes. -/
def forget (t : Tables) (tag : Tag) : Tables :=
  { t with
    entries := t.entries.erase tag
    tally :=
      match t.entries[tag]? with
      | some e => t.tally.remove e
      | none => t.tally
    retained := t.retained.erase tag
    paces := t.paces.erase tag }

theorem tally_forget {t : Tables} {tag : Tag} {e : Entry} (h : t.entries[tag]? = some e) :
    (t.forget tag).tally = t.tally.remove e := by
  rw [forget, h]

/-- The tables without `count` rows from the row `first` on. -/
def removeRange (first count : Nat) (t : Tables) : Tables :=
  ((t.order.drop first).take count).foldl forget
    { t with order := t.order.take first ++ t.order.drop (first + count) }

/-- From `t` to `t'` transfers have been forgotten. -/
structure Forgets (t : Tables) (tags : List Tag) (t' : Tables) : Prop where
  order : t'.order = t.order
  entries : Lacks t.entries tags t'.entries
  retained : Lacks t.retained tags t'.retained
  paces : Lacks t.paces tags t'.paces
  watermark : t'.watermark = t.watermark

theorem forgets_foldl (tags : List Tag) (t : Tables) : t.Forgets tags (tags.foldl forget t) := by
  induction tags generalizing t with
  | nil => exact ⟨rfl, .nil _, .nil _, .nil _, rfl⟩
  | cons tag tags ih =>
    have hrest := ih (t.forget tag)
    exact ⟨hrest.order, .erase hrest.entries, .erase hrest.retained, .erase hrest.paces,
      hrest.watermark⟩

/-- When transfers are forgotten one after the other, the entry of each is still there when its turn
comes, so each of them is taken out of the tally. -/
theorem tally_foldl_forget {rows : List Row} {t : Tables} (h : (rows.map Row.tag).Nodup)
    (hentries : ∀ row ∈ rows, t.entries[row.tag]? = some row.entry) :
    ((rows.map Row.tag).foldl forget t).tally
      = rows.foldl (fun tally row => tally.remove row.entry) t.tally := by
  induction rows generalizing t with
  | nil => rfl
  | cons row rows ih =>
    obtain ⟨hnew, h⟩ := List.nodup_cons.1 h
    obtain ⟨hrow, hentries⟩ := List.forall_mem_cons.1 hentries
    rw [List.map_cons, List.foldl_cons, List.foldl_cons, ← tally_forget hrow]
    refine ih h fun other hother => ?_
    have hne : other.tag ≠ row.tag := fun heq => hnew (heq ▸ List.mem_map_of_mem hother)
    refine (sets_erase t.entries row.tag other.tag).trans ?_
    rw [if_neg hne.symm]
    exact hentries other hother

namespace Represents

variable {t t' : Tables} {q : Queue} {first last : Nat}

/-- A run of rows has gone, and in each table nothing is left for their transfers. -/
theorem drop (h : t.Represents q) (run : first ≤ last) {gone : List Row}
    (hgone : gone = (q.rows.drop first).take (last + 1 - first))
    (horder : t'.order = t.order.take first ++ t.order.drop (last + 1))
    (hentries : Lacks t.entries (gone.map Row.tag) t'.entries)
    (hretained : Lacks t.retained (gone.map Row.tag) t'.retained)
    (hpaces : Lacks t.paces (gone.map Row.tag) t'.paces)
    (htally : t'.tally = gone.foldl (fun tally row => tally.remove row.entry) t.tally)
    (hwatermark : t'.watermark = t.watermark) : t'.Represents (q.eraseRun first last) where
  nodup := h.nodup.sublist ((Queue.sublist_eraseRun run q).map Row.tag)
  order := by rw [horder, h.order, Queue.tags_eraseRun]
  entries tag := by
    rw [hentries, Queue.find?_eraseRun h.nodup run, h.entries, ← hgone]
    split <;> rfl
  retained tag := by
    rw [hretained, Queue.find?_eraseRun h.nodup run, h.retained, ← hgone]
    split <;> rfl
  paces tag := by
    rw [hpaces, Queue.find?_eraseRun h.nodup run, h.paces, ← hgone]
    split <;> rfl
  tally := by rw [htally, hgone, h.tally, Queue.eraseRun]
  watermark := hwatermark.trans h.watermark

theorem removeRange (h : t.Represents q) (run : first ≤ last) :
    (t.removeRange first (last + 1 - first)).Represents (q.eraseRun first last) := by
  have hgone : (t.order.drop first).take (last + 1 - first)
      = ((q.rows.drop first).take (last + 1 - first)).map Row.tag := by
    rw [h.order, Queue.tags, List.map_take, List.map_drop]
  rw [Tables.removeRange, hgone, Nat.add_sub_cancel' (Nat.le_succ_of_le run)]
  have hforgets := forgets_foldl (((q.rows.drop first).take (last + 1 - first)).map Row.tag)
    { t with order := t.order.take first ++ t.order.drop (last + 1) }
  refine h.drop run rfl hforgets.order hforgets.entries hforgets.retained hforgets.paces ?_
    hforgets.watermark
  refine tally_foldl_forget ?_ fun row hrow => h.entry_of_mem ?_
  · exact h.nodup.sublist (((List.take_sublist _ _).trans (List.drop_sublist _ _)).map Row.tag)
  · exact List.mem_of_mem_drop (List.mem_of_mem_take hrow)

end Represents

/-! ## Agreement -/

/-- The tables agree, and the tally is what a recount would give. -/
structure Consistent (t : Tables) : Prop where
  /-- No transfer has two rows. -/
  nodup : t.order.Nodup
  /-- There is an entry for exactly the transfers of the sequence. -/
  keys : t.entries.keys.Perm t.order
  /-- An entry is held for the transfer that it is the entry of. -/
  own : ∀ (tag : Tag) (e : Entry), t.entries[tag]? = some e → e.tag = tag
  /-- Which row a transfer has, and which transfer a row is of, are inverse to each other. -/
  row : ∀ tag n, t.rowOf? tag = some n ↔ t.order[n]? = some tag
  /-- There is one entry for each row. -/
  records : t.records.length = t.order.length
  /-- The entries in each phase are counted. -/
  inPhase : ∀ phase, t.tally.inPhase phase = t.records.countP fun e => e.phase = phase
  /-- The unfinished entries of each direction are counted. -/
  unfinishedGoing : ∀ direction, t.tally.unfinishedGoing direction
    = t.records.countP fun e => e.lane.direction = direction ∧ e.phase.isFinished = false
  /-- The entries of each kind of file are counted. -/
  ofKind : ∀ kind, t.tally.ofKind kind = t.records.countP fun e => e.kind = kind
  /-- The finished entries of each kind of file are counted. -/
  finishedOfKind : ∀ kind, t.tally.finishedOfKind kind
    = t.records.countP fun e => e.kind = kind ∧ e.phase.isFinished = true
  /-- Together the phases account for all rows. -/
  size : t.tally.size = t.order.length
  /-- No counter was ever lowered when it was zero. -/
  sound : t.tally.underflow = false

/-- The entry of a transfer that the tables hold is that of its row. -/
theorem Represents.exists_row {t : Tables} {q : Queue} {tag : Tag} {e : Entry}
    (h : t.Represents q) (he : t.entries[tag]? = some e) :
    ∃ row, q.find? tag = some row ∧ row.entry = e ∧ e.tag = tag := by
  rw [h.entries] at he
  obtain ⟨row, hfound, rfl⟩ := Option.map_eq_some_iff.1 he
  exact ⟨row, hfound, rfl, ((Queue.find?_eq_some_iff h.nodup).1 hfound).2⟩

/-- Tables that hold what consistent rows hold are consistent. -/
theorem Represents.consistent {t : Tables} {q : Queue} (h : t.Represents q) (hq : q.Consistent) :
    t.Consistent where
  nodup := by
    rw [h.order]
    exact h.nodup
  keys := by
    refine (List.perm_ext_iff_of_nodup Std.HashMap.nodup_keys (h.order ▸ h.nodup)).2 fun tag => ?_
    rw [Std.HashMap.mem_keys, ← Std.HashMap.contains_iff_mem, h.contains_eq, hq.contains, h.order]
  own tag e he := by
    obtain ⟨-, -, -, htag⟩ := h.exists_row he
    exact htag
  row tag n := by rw [h.rowOf?_eq, hq.place, h.order]
  records := by rw [h.records_eq, hq.entries, h.length_order]
  inPhase := by
    rw [h.records_eq, h.tally]
    exact hq.inPhase
  unfinishedGoing := by
    rw [h.records_eq, h.tally]
    exact hq.unfinishedGoing
  ofKind := by
    rw [h.records_eq, h.tally]
    exact hq.ofKind
  finishedOfKind := by
    rw [h.records_eq, h.tally]
    exact hq.finishedOfKind
  size := by rw [h.tally, hq.size, h.length_order]
  sound := by rw [h.tally, hq.sound]

end Tables

end TransferQueue
