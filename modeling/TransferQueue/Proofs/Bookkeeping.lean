import TransferQueue.Proofs.Walks

/-!
# The books are right

The tally is never counted anew, so every operation has to raise and lower the right counters.
Each of the four groups of counters counts the rows in the same way: an entry bears on one counter
of the group, or on none.  What is true of such counters is said once, for any list of things.

The tally and the sequence of the rows do not depend on each other: rows that come, go or change
bear on the tally wherever they stand.  So the rows matter only up to their order.

* `Counters.Counts`: counters that count a list, and were never lowered at zero;
* `Queue.Balanced`: no transfer has two rows, and the tally counts the rows;
* `Queue.Step.balanced`: every step keeps the balance;
* `Queue.Balanced.consistent`: what follows from it.
-/

namespace TransferQueue

/-! ## Counters -/

namespace Counters

/-- The counters count a list of things, of which each bears on the counter that `f` gives, or on
none. -/
structure Counts {α : Type} {n : Nat} (c : Counters n) (f : α → Option (Fin n)) (as : List α) :
    Prop where
  /-- No counter was lowered when it was zero. -/
  sound : c.underflow = false
  /-- Each counter has the number of things that bear on it. -/
  get : ∀ i, c.get i = as.countP fun a => f a = some i

namespace Counts

variable {α : Type} {n : Nat} {c : Counters n} {f : α → Option (Fin n)} {a b : α} {as bs : List α}
  {i : Fin n}

theorem nil : (zero n).Counts f [] := ⟨rfl, fun i => by simp⟩

/-- The order does not matter. -/
theorem perm (h : c.Counts f as) (hperm : as.Perm bs) : c.Counts f bs :=
  ⟨h.sound, fun i => (h.get i).trans (hperm.countP_eq _)⟩

/-- Things that bear on the same counter may stand for each other. -/
theorem congr (h : c.Counts f (a :: as)) (hf : f b = f a) : c.Counts f (b :: as) := by
  refine ⟨h.sound, fun i => ?_⟩
  rw [h.get i, List.countP_cons, List.countP_cons, hf]

theorem skip (h : c.Counts f as) (hf : f a = none) : c.Counts f (a :: as) := by
  refine ⟨h.sound, fun i => ?_⟩
  rw [h.get i, List.countP_cons, hf]
  simp

theorem unskip (h : c.Counts f (a :: as)) (hf : f a = none) : c.Counts f as := by
  refine ⟨h.sound, fun i => ?_⟩
  rw [h.get i, List.countP_cons, hf]
  simp

theorem raise (h : c.Counts f as) (hf : f a = some i) : (c.raise i).Counts f (a :: as) := by
  refine ⟨h.sound, fun j => ?_⟩
  rw [get_raise, h.get j, List.countP_cons, hf]
  simp

/-- A thing that is counted can be taken out, because its counter is not zero. -/
theorem lower (h : c.Counts f (a :: as)) (hf : f a = some i) : (c.lower i).Counts f as := by
  have hget : ∀ j, c.get j = as.countP (fun b => f b = some j) + if i = j then 1 else 0 := by
    intro j
    rw [h.get j, List.countP_cons, hf]
    simp
  constructor
  · -- its counter counts the thing itself, so it is not zero
    have hi := hget i
    rw [if_pos rfl] at hi
    rw [underflow_lower, h.sound, hi]
    rfl
  · intro j
    rw [get_lower, hget j, Nat.add_sub_cancel]

end Counts

end Counters

/-! ## Indices -/

theorem Phase.index_inj {phase phase' : Phase} : phase.index = phase'.index ↔ phase = phase' := by
  cases phase <;> cases phase' <;> decide

theorem Direction.index_inj {direction direction' : Direction} :
    direction.index = direction'.index ↔ direction = direction' := by
  cases direction <;> cases direction' <;> decide

theorem FileKind.index_inj {kind kind' : FileKind} : kind.index = kind'.index ↔ kind = kind' := by
  cases kind <;> cases kind' <;> decide

namespace Entry

/-- The counter of its phase. -/
def phaseCounter (e : Entry) : Option (Fin 8) := some e.phase.index

/-- The counter of its direction while it is unfinished. -/
def unfinishedCounter (e : Entry) : Option (Fin 2) :=
  if e.phase.isFinished then none else some e.lane.direction.index

/-- The counter of its kind of file. -/
def kindCounter (e : Entry) : Option (Fin 7) := some e.kind.index

/-- The counter of its kind of file once it is finished. -/
def finishedKindCounter (e : Entry) : Option (Fin 7) :=
  if e.phase.isFinished then some e.kind.index else none

end Entry

/-! ## The tally -/

namespace Tally

/-- The tally counts entries. -/
structure Counts (t : Tally) (es : List Entry) : Prop where
  phases : t.phases.Counts Entry.phaseCounter es
  unfinished : t.unfinished.Counts Entry.unfinishedCounter es
  kinds : t.kinds.Counts Entry.kindCounter es
  finishedKinds : t.finishedKinds.Counts Entry.finishedKindCounter es

namespace Counts

variable {t : Tally} {e e' : Entry} {es es' : List Entry}

theorem nil : Counts .empty [] := ⟨.nil, .nil, .nil, .nil⟩

theorem perm (h : t.Counts es) (hperm : es.Perm es') : t.Counts es' :=
  ⟨h.phases.perm hperm, h.unfinished.perm hperm, h.kinds.perm hperm, h.finishedKinds.perm hperm⟩

theorem add (h : t.Counts es) (e : Entry) : (t.add e).Counts (e :: es) := by
  refine ⟨h.phases.raise rfl, ?_, h.kinds.raise rfl, ?_⟩
  · -- a finished row does not bear on its direction
    simp only [Tally.add]
    split
    · exact h.unfinished.skip (if_pos ‹_›)
    · exact h.unfinished.raise (if_neg ‹_›)
  · simp only [Tally.add]
    split
    · exact h.finishedKinds.raise (if_pos ‹_›)
    · exact h.finishedKinds.skip (if_neg ‹_›)

theorem remove (h : t.Counts (e :: es)) : (t.remove e).Counts es := by
  refine ⟨h.phases.lower rfl, ?_, h.kinds.lower rfl, ?_⟩
  · simp only [Tally.remove]
    split
    · exact h.unfinished.unskip (if_pos ‹_›)
    · exact h.unfinished.lower (if_neg ‹_›)
  · simp only [Tally.remove]
    split
    · exact h.finishedKinds.lower (if_pos ‹_›)
    · exact h.finishedKinds.unskip (if_neg ‹_›)

/-- An entry that changes its phase, but neither its lane nor its kind. -/
theorem shift (h : t.Counts (e :: es)) (hlane : e'.lane = e.lane) (hkind : e'.kind = e.kind) :
    (t.shift e.phase e').Counts (e' :: es) := by
  have hkindCounter : e'.kindCounter = e.kindCounter := by
    simp only [Entry.kindCounter, hkind]
  simp only [Tally.shift]
  split
  · rename_i hphase
    have hphases : e'.phaseCounter = e.phaseCounter := by
      simp only [Entry.phaseCounter, ← hphase]
    have hunfinished : e'.unfinishedCounter = e.unfinishedCounter := by
      simp only [Entry.unfinishedCounter, ← hphase, hlane]
    have hfinished : e'.finishedKindCounter = e.finishedKindCounter := by
      simp only [Entry.finishedKindCounter, ← hphase, hkind]
    exact ⟨h.phases.congr hphases, h.unfinished.congr hunfinished,
      h.kinds.congr hkindCounter, h.finishedKinds.congr hfinished⟩
  · -- the last two groups change only where the row becomes finished, or is finished no more
    refine ⟨(h.phases.lower rfl).raise rfl, ?_, h.kinds.congr hkindCounter, ?_⟩
    · cases hbefore : e.phase.isFinished <;> cases hafter : e'.phase.isFinished
      · exact h.unfinished.congr (by simp [Entry.unfinishedCounter, hbefore, hafter, hlane])
      · exact (h.unfinished.lower (by simp [Entry.unfinishedCounter, hbefore, hlane])).skip
          (by simp [Entry.unfinishedCounter, hafter])
      · exact (h.unfinished.unskip (by simp [Entry.unfinishedCounter, hbefore])).raise
          (by simp [Entry.unfinishedCounter, hafter])
      · exact h.unfinished.congr (by simp [Entry.unfinishedCounter, hbefore, hafter])
    · cases hbefore : e.phase.isFinished <;> cases hafter : e'.phase.isFinished
      · exact h.finishedKinds.congr (by simp [Entry.finishedKindCounter, hbefore, hafter])
      · exact (h.finishedKinds.unskip (by simp [Entry.finishedKindCounter, hbefore])).raise
          (by simp [Entry.finishedKindCounter, hafter])
      · exact (h.finishedKinds.lower (by simp [Entry.finishedKindCounter, hbefore, hkind])).skip
          (by simp [Entry.finishedKindCounter, hafter])
      · exact h.finishedKinds.congr (by simp [Entry.finishedKindCounter, hbefore, hafter, hkind])

end Counts

end Tally

/-! ## Queues -/

namespace Queue

/-- No transfer has two rows, and the tally counts the rows. -/
structure Balanced (tally : Tally) (rows : List Row) : Prop where
  nodup : (rows.map Row.tag).Nodup
  counts : tally.Counts (rows.map Row.entry)

namespace Balanced

variable {tally : Tally} {row row' : Row} {rows rows' : List Row}

theorem nil : Balanced .empty [] := ⟨List.Pairwise.nil, .nil⟩

theorem perm (h : Balanced tally rows) (hperm : rows.Perm rows') : Balanced tally rows' :=
  ⟨(hperm.map Row.tag).nodup_iff.1 h.nodup, h.counts.perm (hperm.map Row.entry)⟩

/-- A row of a transfer that had none. -/
theorem add (h : Balanced tally rows) (hnew : row.tag ∉ rows.map Row.tag) :
    Balanced (tally.add row.entry) (row :: rows) :=
  ⟨List.nodup_cons.2 ⟨hnew, h.nodup⟩, h.counts.add row.entry⟩

theorem remove (h : Balanced tally (row :: rows)) : Balanced (tally.remove row.entry) rows :=
  ⟨(List.nodup_cons.1 h.nodup).2, h.counts.remove⟩

/-- Rows that are taken out one after the other. -/
theorem removeAll (h : Balanced tally (rows ++ rows')) :
    Balanced (rows.foldl (fun t row => t.remove row.entry) tally) rows' := by
  induction rows generalizing tally with
  | nil => exact h
  | cons row rows ih => exact ih h.remove

/-- A row of the same transfer takes the place of one that was found. -/
theorem shift (h : Balanced tally (row :: rows)) (htag : row'.entry.tag = row.entry.tag)
    (hlane : row'.entry.lane = row.entry.lane) (hkind : row'.entry.kind = row.entry.kind) :
    Balanced (tally.shift row.entry.phase row'.entry) (row' :: rows) := by
  refine ⟨?_, h.counts.shift hlane hkind⟩
  have hnodup : (row.tag :: rows.map Row.tag).Nodup := h.nodup
  rw [← show row'.tag = row.tag from htag] at hnodup
  exact hnodup

end Balanced

variable {placed : Prop} {q q' : Queue} {cs : List Change} {row row' : Row}

theorem balanced_insertRow {place : Nat} (h : Balanced q.tally q.rows) (bound : place ≤ q.size)
    (hnew : row.tag ∉ q.tags) :
    Balanced (q.insertRow place row).tally (q.insertRow place row).rows :=
  (h.add hnew).perm (List.perm_insertIdx row q.rows bound).symm

theorem balanced_replaceRow {tag : Tag} {place : Nat} (h : Balanced q.tally q.rows)
    (located : q.locate? tag = some (place, row)) (htag : row'.entry.tag = row.entry.tag)
    (hlane : row'.entry.lane = row.entry.lane) (hkind : row'.entry.kind = row.entry.kind) :
    Balanced (q.replaceRow place row.entry.phase row').tally
      (q.replaceRow place row.entry.phase row').rows := by
  obtain ⟨before, after, hrows, -, hrows'⟩ := replaceRow_split located row.entry.phase row'
  have hfront : Balanced q.tally (row :: (before ++ after)) := by
    rw [hrows] at h
    exact h.perm List.perm_middle
  rw [hrows']
  exact (hfront.shift htag hlane hkind).perm List.perm_middle.symm

/-- To go where it belongs bears on no counter. -/
theorem balanced_settle {place : Nat} {priority : UInt64} (h : Balanced q.tally q.rows)
    (hrow : q.rows[place]? = some row) :
    Balanced (q.settle place priority row).state.tally (q.settle place priority row).state.rows := by
  have htally : (q.settle place priority row).state.tally = q.tally := by
    simp only [settle]
    split <;> rfl
  rw [htally]
  exact h.perm (perm_settle hrow).symm

/-- The rows of a run and the rows that are left when it goes. -/
theorem perm_eraseRun {first last : Nat} (run : first ≤ last) (q : Queue) :
    q.rows.Perm ((q.rows.drop first).take (last + 1 - first) ++ (q.eraseRun first last).rows) := by
  have hdrop : (q.rows.drop first).drop (last + 1 - first) = q.rows.drop (last + 1) := by
    rw [List.drop_drop, Nat.add_sub_cancel' (Nat.le_succ_of_le run)]
  calc q.rows
      = q.rows.take first ++ q.rows.drop first := (List.take_append_drop first q.rows).symm
    _ = q.rows.take first ++ ((q.rows.drop first).take (last + 1 - first)
          ++ (q.rows.drop first).drop (last + 1 - first)) := by
        rw [List.take_append_drop (last + 1 - first)]
    _ = q.rows.take first ++ ((q.rows.drop first).take (last + 1 - first)
          ++ q.rows.drop (last + 1)) := by rw [hdrop]
    List.Perm _ _ := List.perm_append_comm_assoc _ _ _

theorem balanced_eraseRun {first last : Nat} (h : Balanced q.tally q.rows) (run : first ≤ last) :
    Balanced (q.eraseRun first last).tally (q.eraseRun first last).rows :=
  Balanced.removeAll (h.perm (perm_eraseRun run q))

/-- Every step keeps the balance. -/
theorem Step.balanced (step : Step placed q cs q') (h : Balanced q.tally q.rows) :
    Balanced q'.tally q'.rows := by
  cases step with
  | note => exact h
  | come new bound made fits =>
    obtain ⟨timeLeft, hentry⟩ := Row.entry_ofReport made
    refine balanced_insertRow h bound ?_
    rw [Row.tag, hentry]
    exact contains_eq_false_iff.1 new
  | observe located made =>
    obtain ⟨pace, rfl⟩ := Row.refresh_eq_error made
    exact balanced_replaceRow h located rfl rfl rfl
  | refresh located made =>
    obtain ⟨timeLeft, pace, rfl⟩ := Row.refresh_eq_ok made
    exact balanced_replaceRow h located rfl rfl rfl
  | settle located made =>
    obtain ⟨timeLeft, pace, rfl⟩ := Row.refresh_eq_ok made
    obtain ⟨before, after, -, rfl, hrows'⟩ := replaceRow_split located _ _
    refine balanced_settle (balanced_replaceRow h located rfl rfl rfl) ?_
    rw [hrows']
    simp
  | finish located => exact balanced_replaceRow h located rfl rfl rfl
  | erase run bound => exact balanced_eraseRun h run

theorem Walk.balanced (walk : Walk placed q cs q') (h : Balanced q.tally q.rows) :
    Balanced q'.tally q'.rows :=
  walk.keeps (P := fun q => Balanced q.tally q.rows) Step.balanced h

/-! ## What the balance means -/

/-- Transfers and rows belong together one by one, and the tally is what a recount would give. -/
structure Consistent (q : Queue) : Prop where
  /-- No transfer has two rows. -/
  nodup : q.tags.Nodup
  /-- A transfer that has a row is found, with the row that is its own, and no other is found. -/
  find : ∀ tag row, q.find? tag = some row ↔ row ∈ q.rows ∧ row.tag = tag
  /-- Exactly the transfers of the rows are contained. -/
  contains : ∀ tag, q.contains tag = true ↔ tag ∈ q.tags
  /-- Which row a transfer has, and which transfer a row is of, are inverse to each other. -/
  place : ∀ tag place, q.place? tag = some place ↔ q.tags[place]? = some tag
  /-- There is one entry for each row. -/
  entries : q.entries.length = q.size
  /-- The rows in each phase are counted. -/
  inPhase : ∀ phase, q.tally.inPhase phase = q.entries.countP fun e => e.phase = phase
  /-- The unfinished rows of each direction are counted. -/
  unfinishedGoing : ∀ direction, q.tally.unfinishedGoing direction
    = q.entries.countP fun e => e.lane.direction = direction ∧ e.phase.isFinished = false
  /-- The rows of each kind of file are counted. -/
  ofKind : ∀ kind, q.tally.ofKind kind = q.entries.countP fun e => e.kind = kind
  /-- The finished rows of each kind of file are counted. -/
  finishedOfKind : ∀ kind, q.tally.finishedOfKind kind
    = q.entries.countP fun e => e.kind = kind ∧ e.phase.isFinished = true
  /-- Together the phases account for all rows. -/
  size : q.tally.size = q.size
  /-- No counter was ever lowered when it was zero. -/
  sound : q.tally.underflow = false

/-- Every entry is in one phase. -/
theorem foldr_countP_phase (es : List Entry) :
    Phase.all.foldr (fun phase n => es.countP (fun e => e.phase = phase) + n) 0 = es.length := by
  induction es with
  | nil => rfl
  | cons e es ih =>
    simp only [List.countP_cons, Phase.all, List.foldr_cons, List.foldr_nil, List.length_cons]
      at ih ⊢
    cases e.phase <;> simp <;> omega

/-- Before a row there is no other row of its transfer. -/
theorem tag_ne_of_split {before after : List Row} (h : q.tags.Nodup)
    (hrows : q.rows = before ++ row :: after) : ∀ a ∈ before, a.tag ≠ row.tag := by
  simp only [tags, hrows, List.map_append, List.map_cons, List.nodup_append] at h
  intro a ha
  exact h.2.2 _ (List.mem_map_of_mem ha) _ List.mem_cons_self

theorem place?_eq_some_iff (h : q.tags.Nodup) {tag : Tag} {place : Nat} :
    q.place? tag = some place ↔ q.tags[place]? = some tag := by
  constructor
  · intro hplace
    obtain ⟨before, row, after, hrows, rfl, htag, -⟩ := exists_split_of_findIdx? hplace
    simp [tags, hrows, eq_of_beq htag]
  · intro htag
    obtain ⟨row, hrow, rfl⟩ : ∃ row, q.rows[place]? = some row ∧ row.tag = tag := by
      simpa [tags] using htag
    obtain ⟨before, after, hrows, rfl⟩ := exists_split_of_getElem? hrow
    have hbefore : before.findIdx? (fun a => a.tag == row.tag) = none :=
      List.findIdx?_eq_none_iff.2 (by simpa using tag_ne_of_split h hrows)
    rw [place?, hrows, List.findIdx?_append, hbefore]
    simp [List.findIdx?_cons]

theorem find?_eq_some_iff (h : q.tags.Nodup) {tag : Tag} {row : Row} :
    q.find? tag = some row ↔ row ∈ q.rows ∧ row.tag = tag := by
  constructor
  · intro hfind
    exact ⟨List.mem_of_find?_eq_some hfind, by simpa using List.find?_some hfind⟩
  · rintro ⟨hmem, rfl⟩
    obtain ⟨before, after, hrows⟩ := List.append_of_mem hmem
    have hbefore : before.find? (fun a => a.tag == row.tag) = none :=
      List.find?_eq_none.2 (by simpa using tag_ne_of_split h hrows)
    rw [find?, hrows, List.find?_append, hbefore]
    simp

theorem Balanced.inPhase_eq (h : Balanced q.tally q.rows) (phase : Phase) :
    q.tally.inPhase phase = q.entries.countP fun e => e.phase = phase := by
  rw [Tally.inPhase, h.counts.phases.get]
  simp only [Entry.phaseCounter, Option.some.injEq, Phase.index_inj]
  rfl

theorem Balanced.consistent (h : Balanced q.tally q.rows) : q.Consistent where
  nodup := h.nodup
  find _ _ := find?_eq_some_iff h.nodup
  contains tag := by simp [Queue.contains, tags]
  place _ _ := place?_eq_some_iff h.nodup
  entries := List.length_map Row.entry
  inPhase := h.inPhase_eq
  unfinishedGoing direction := by
    rw [Tally.unfinishedGoing, h.counts.unfinished.get]
    refine List.countP_congr ?_
    intro e _
    cases hphase : e.phase.isFinished <;>
      simp [Entry.unfinishedCounter, hphase, Direction.index_inj]
  ofKind kind := by
    rw [Tally.ofKind, h.counts.kinds.get]
    simp only [Entry.kindCounter, Option.some.injEq, FileKind.index_inj]
    rfl
  finishedOfKind kind := by
    rw [Tally.finishedOfKind, h.counts.finishedKinds.get]
    refine List.countP_congr ?_
    intro e _
    cases hphase : e.phase.isFinished <;>
      simp [Entry.finishedKindCounter, hphase, FileKind.index_inj]
  size := by
    simp only [Tally.size, h.inPhase_eq]
    exact (foldr_countP_phase q.entries).trans (List.length_map Row.entry)
  sound := by
    simp [Tally.underflow, h.counts.phases.sound, h.counts.unfinished.sound, h.counts.kinds.sound,
      h.counts.finishedKinds.sound]

end Queue

end TransferQueue
