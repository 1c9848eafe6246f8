import TransferQueue.Proofs.Course
import TransferQueue.Proofs.Mirror

/-!
# What observers are told beside the rows

Most changes are about rows.  Two kinds are not: observers are told when a queue has got its first row
or has lost its last, and when the general pause is set or ends.  These are *signals*.

Each operation on a queue finds out in its own way whether presence is to be told: an insertion by the
size of the queue behind it, a chunk and a removal by what was there before.  They all come to the same:
presence is told when, and only when, it has changed.  Of the general pause a queue knows nothing.

* `Queue.crossing`: what is to be told of presence when one queue becomes another;
* `Queue.Signals`: changes that tell this, and nothing of the general pause;
* `Queue.signals_insert`, `Queue.signals_start` and so on: the operations of a queue;
* `Board.perform_cases`: an action has nothing to do with the general pause, or decides on it, or writes
  the preference.
-/

namespace TransferQueue

/-! ## Signals -/

namespace Change

/-- What a change tells of presence, if it does. -/
def presence? : Change → Option Bool
  | .presence present => some present
  | _ => none

/-- What changes tell of presence, in order. -/
def presences (cs : List Change) : List Bool := cs.filterMap presence?

/-- What a change tells of the general pause, if it does. -/
def pausing? : Change → Option Bool
  | .pausing paused => some paused
  | _ => none

/-- What changes tell of the general pause, in order. -/
def pausings (cs : List Change) : List Bool := cs.filterMap pausing?

/-- A change is about rows. -/
def OfRows (c : Change) : Prop := c.presence? = none ∧ c.pausing? = none

theorem presences_append (cs ds : List Change) :
    presences (cs ++ ds) = presences cs ++ presences ds :=
  List.filterMap_append

theorem pausings_append (cs ds : List Change) :
    pausings (cs ++ ds) = pausings cs ++ pausings ds :=
  List.filterMap_append

theorem presences_of_ofRows {cs : List Change} (h : ∀ c ∈ cs, c.OfRows) : presences cs = [] :=
  List.filterMap_eq_nil_iff.2 fun c hc => (h c hc).1

theorem pausings_of_ofRows {cs : List Change} (h : ∀ c ∈ cs, c.OfRows) : pausings cs = [] :=
  List.filterMap_eq_nil_iff.2 fun c hc => (h c hc).2

theorem ofRows_of_closes {c : Change} (h : c.closes = true) : c.OfRows := by
  cases c with
  | removed first last => exact ⟨rfl, rfl⟩
  | _ => simp [closes] at h

end Change

open Change (presences pausings)

/-! ## Operations on a queue -/

namespace Queue

variable {placed told told' : Prop} {weight : Float} {q q' q'' : Queue} {cs ds : List Change}

/-- What is to be told of presence when one queue becomes another. -/
def crossing (q q' : Queue) : List Bool :=
  if q.rows.isEmpty = q'.rows.isEmpty then [] else [!q'.rows.isEmpty]

theorem crossing_of_rows_eq (h : q'.rows = q.rows) : q.crossing q' = [] := by
  rw [crossing, h, if_pos rfl]

/-- One queue has become another.  The changes tell of its presence what is to be told, if `told` holds,
and they tell nothing of the general pause. -/
structure Signals (told : Prop) (q : Queue) (cs : List Change) (q' : Queue) : Prop where
  presences : told → presences cs = q.crossing q'
  pausings : pausings cs = []

namespace Signals

theorem mono (h : Signals told q cs q') (himp : told' → told) : Signals told' q cs q' :=
  ⟨fun ht => h.presences (himp ht), h.pausings⟩

/-- Where presence is the same as before, nothing is to be told. -/
theorem of_same (h : q.rows.isEmpty = q'.rows.isEmpty) (hcs : ∀ c ∈ cs, c.OfRows) :
    Signals told q cs q' where
  presences _ := by rw [crossing, if_pos h, Change.presences_of_ofRows hcs]
  pausings := Change.pausings_of_ofRows hcs

theorem of_rows_eq (h : q'.rows = q.rows) (hcs : ∀ c ∈ cs, c.OfRows) : Signals told q cs q' :=
  of_same (by rw [h]) hcs

/-- Nothing has happened. -/
theorem refl (q : Queue) : Signals told q [] q :=
  of_rows_eq rfl (by simp)

/-- Changes of rows, and behind them what is to be told. -/
theorem of_append (hcs : ∀ c ∈ cs, c.OfRows)
    (h : ds = if q.rows.isEmpty = q'.rows.isEmpty then [] else [.presence (!q'.rows.isEmpty)]) :
    Signals told q (cs ++ ds) q' where
  presences _ := by
    rw [Change.presences_append, Change.presences_of_ofRows hcs, List.nil_append, h, crossing]
    split <;> rfl
  pausings := by
    rw [Change.pausings_append, Change.pausings_of_ofRows hcs, List.nil_append, h]
    split <;> rfl

/-- A queue that has got rows does not lose them, so it does not get them twice. -/
theorem trans (h : Signals told q cs q') (h' : Signals told' q' ds q'')
    (hfirst : q'.rows.isEmpty = true → q.rows.isEmpty = true)
    (hsecond : q''.rows.isEmpty = true → q'.rows.isEmpty = true) :
    Signals (told ∧ told') q (cs ++ ds) q'' where
  presences := fun ht => by
    rw [Change.presences_append, h.presences ht.1, h'.presences ht.2]
    simp only [crossing]
    cases hq : q.rows.isEmpty <;> cases hq' : q'.rows.isEmpty <;> cases hq'' : q''.rows.isEmpty
      <;> simp_all
  pausings := by rw [Change.pausings_append, h.pausings, h'.pausings, List.append_nil]

end Signals

/-- A walk that closes no rows does not empty the queue. -/
theorem IsWalk.stays (h : IsWalk placed told (·.closes = false) q cs q')
    (hempty : q'.rows.isEmpty = true) : q.rows.isEmpty = true := by
  obtain ⟨ds, hwalk, hkind, -⟩ := h
  have hsub := (hwalk.told_of_closes hkind).2
  rw [List.isEmpty_iff] at hempty ⊢
  have hnil : q.tags = [] := List.subset_nil.1 (by simpa [tags, hempty] using hsub)
  simpa [tags] using hnil

/-! ### Rows that come -/

theorem signals_arrived {place : Nat} {row : Row} (bound : place ≤ q.size)
    (hrows : q'.rows = (q.insertRow place row).rows) :
    Signals told q ((q.insertRow place row).arrived place) q' := by
  have hsize : (q.insertRow place row).rows.length = q.rows.length + 1 := size_insertRow bound row
  have hsome : (q.insertRow place row).rows.isEmpty = false := by
    rw [List.isEmpty_eq_false_iff, ← List.length_pos_iff]
    omega
  have hfirst : ∀ c ∈ [Change.inserted place place], c.OfRows :=
    List.forall_mem_singleton.2 ⟨rfl, rfl⟩
  refine .of_append hfirst ?_
  -- a queue that has one row now had none
  show (if (q.insertRow place row).rows.length = 1 then _ else _) = _
  rw [hrows, hsize, hsome]
  rcases q.rows with _ | ⟨first, rest⟩ <;> simp

theorem signals_insert (weight : Float) (r : Report) (place : Nat) (q : Queue) :
    Signals told q (q.insert weight r place).changes (q.insert weight r place).state := by
  rw [insert]
  split
  · exact .refl q
  · exact .refl q
  · rename_i q' hadd
    obtain ⟨row, hrow, rfl, hnew, bound⟩ := add_eq_ok_some hadd
    exact signals_arrived bound rfl

theorem signals_start (weight : Float) (r : Report) (q : Queue) :
    Signals told q (q.start weight r).changes (q.start weight r).state := by
  simp only [start]
  split
  · exact .refl q
  · split
    · exact .refl q
    · exact .of_rows_eq rfl (by simp [refuse])
    · rename_i q' hadd
      obtain ⟨row, hrow, rfl, hnew, bound⟩ := add_eq_ok_some hadd
      exact signals_arrived bound rfl

/-! ### Reports on shown transfers -/

/-- A report on a shown transfer is no matter of presence, for there is a row before and after. -/
theorem signals_takeIn {r : Report} {act : Queue → Nat → Row → Outcome Queue (Except Overflow Bool)}
    (htakes : Takes False q (takeIn r act q))
    (hact : ∀ q place row, ∀ c ∈ (act q place row).changes, c.OfRows) :
    Signals told q (takeIn r act q).changes (takeIn r act q).state := by
  have hstays := htakes.stays
  revert hstays
  rw [takeIn]
  split
  · exact fun _ => .refl q
  · simp only
    split
    · exact fun _ => .of_rows_eq rfl (by simp [refuse])
    · rename_i place row hloc
      intro hstays
      have hsome : q.rows.isEmpty = false := by
        obtain ⟨before, after, hrows, -, -⟩ := locate?_eq_some hloc
        have hrows' : q.rows = before ++ row :: after := hrows
        simp [hrows']
      refine .of_same ?_ (hact _ place row)
      rw [hsome]
      exact (Bool.eq_false_iff.2 fun hempty => by simp [hstays hempty] at hsome).symm

theorem ofRows_updated (n : Nat) : (Change.updated n).OfRows := ⟨rfl, rfl⟩

theorem ofRows_movedOrUpdated (place target : Nat) : (movedOrUpdated place target).OfRows := by
  rw [movedOrUpdated]
  split <;> exact ⟨rfl, rfl⟩

theorem ofRows_settle (q : Queue) (place : Nat) (before : UInt64) (row : Row) :
    ∀ c ∈ (q.settle place before row).changes, c.OfRows := by
  simp only [settle]
  split
  · exact List.forall_mem_singleton.2 (ofRows_updated place)
  · exact List.forall_mem_singleton.2 (ofRows_movedOrUpdated _ _)

theorem signals_update (weight : Float) (r : Report) (q : Queue) :
    Signals told q (q.update weight r).changes (q.update weight r).state := by
  refine signals_takeIn takes_update fun q place row => ?_
  split
  · simp [refuse]
  · split
    · simp [overflow]
    · exact ofRows_settle _ _ _ _

theorem signals_hinder (weight : Float) (r : Report) (fault : Option Fault) (q : Queue) :
    Signals told q (q.hinder weight r fault).changes (q.hinder weight r fault).state := by
  refine signals_takeIn takes_hinder fun q place row => ?_
  split
  · simp [overflow]
  · exact List.forall_mem_singleton.2 (ofRows_updated place)

theorem signals_finish (now : Instant) (r : Report) (fault : Option Fault) (q : Queue) :
    Signals told q (q.finish now r fault).changes (q.finish now r fault).state :=
  signals_takeIn takes_finish fun _ place _ => List.forall_mem_singleton.2 (ofRows_updated place)

/-! ### Loading -/

namespace Load

variable {s : Load}

theorem ofRows_flush (h : ∀ c ∈ s.changes, c.OfRows) : ∀ c ∈ s.flush.changes, c.OfRows := by
  rw [flush]
  split
  · exact h
  · exact List.forall_mem_append.2 ⟨h, List.forall_mem_singleton.2 ⟨rfl, rfl⟩⟩

theorem ofRows_prepare (h : ∀ c ∈ s.changes, c.OfRows) (place : Nat) :
    ∀ c ∈ (s.prepare place).changes, c.OfRows := by
  rw [prepare]
  split
  · exact h
  · split
    · exact h
    · exact ofRows_flush h

/-- While rows are loaded, only insertions are told. -/
theorem ofRows_run (h : ∀ c ∈ s.changes, c.OfRows) (rs : List Report) :
    ∀ c ∈ (run weight rs s).1.changes, c.OfRows := by
  induction rs generalizing s with
  | nil => exact h
  | cons r rs ih =>
    have hprepared := ofRows_prepare h (placeLoading r.lane r.priority s.queue.rows)
    simp only [run]
    split
    · exact hprepared
    · exact ih hprepared
    · exact ih hprepared

end Load

theorem signals_loadChunk (weight : Float) (number : UInt64) (chunk : List Report) (q : Queue) :
    Signals ((q.loadChunk weight number chunk).answer ≠ .error .tooLong) q
      (q.loadChunk weight number chunk).changes (q.loadChunk weight number chunk).state := by
  have htakes : Takes False q (q.loadChunk weight number chunk) := takes_loadChunk
  have hstays := htakes.stays
  have hrun : ∀ c ∈ (Load.run weight chunk ⟨q.noting number, none, 0, []⟩).1.changes, c.OfRows :=
    Load.ofRows_run (by simp) chunk
  revert hstays
  rw [loadChunk_def]
  dsimp only
  split
  · -- rows may have come of which nothing is told, but then the answer says so
    exact fun _ => ⟨fun htold => absurd rfl htold, Change.pausings_of_ofRows hrun⟩
  · intro hstays
    refine .of_append (Load.ofRows_flush hrun) ?_
    dsimp only at hstays ⊢
    revert hstays
    generalize (Load.run weight chunk ⟨q.noting number, none, 0, []⟩).1.queue = q'
    cases hq : q.rows.isEmpty <;> cases hq' : q'.rows.isEmpty <;> simp

theorem signals_loadChunks (weight : Float) (number : UInt64) (parts : List (List Report))
    (q : Queue) :
    Signals ((q.loadChunks weight number parts).answer ≠ .error .tooLong) q
      (q.loadChunks weight number parts).changes (q.loadChunks weight number parts).state := by
  induction parts generalizing q with
  | nil => exact .refl q
  | cons chunk parts ih =>
    have hfirst := signals_loadChunk weight number chunk q
    have hstays : Takes False q (q.loadChunk weight number chunk) := takes_loadChunk
    simp only [loadChunks]
    split
    · exact hfirst
    · rename_i added hanswer
      have hrest : Takes False (q.loadChunk weight number chunk).state
          ((q.loadChunk weight number chunk).state.loadChunks weight number parts) := takes_loadChunks
      refine (hfirst.trans (ih _) hstays.stays hrest.stays).mono fun ht =>
        ⟨by simp [hanswer], fun herror => ht ?_⟩
      simp [Outcome.mapAnswer, Outcome.after, herror, Except.map]

theorem signals_loadListing (weight : Float) (size : Nat) (listing : Listing) (q : Queue) :
    Signals ((q.loadListing weight size listing).answer ≠ .error .tooLong) q
      (q.loadListing weight size listing).changes (q.loadListing weight size listing).state := by
  rw [loadListing]
  split
  · exact signals_loadChunk weight listing.number [] q
  · exact signals_loadChunks weight listing.number _ q

/-! ### Rows that go -/

/-- When rows go, what is told of presence is that none are left. -/
theorem signals_emptied (hcs : ∀ c ∈ cs, c.OfRows) (hsub : q'.rows.Sublist q.rows) :
    Signals told q (cs ++ emptied q q') q' := by
  refine .of_append hcs ?_
  have hempty : q.rows.isEmpty = true → q'.rows.isEmpty = true := by
    intro h
    rw [List.isEmpty_iff] at h ⊢
    exact List.sublist_nil.1 (h ▸ hsub)
  rw [emptied]
  cases hq : q.rows.isEmpty <;> cases hq' : q'.rows.isEmpty <;> simp_all

theorem signals_eraseRows (rows : List Nat) (q : Queue) :
    Signals told q (q.eraseRows rows).changes (q.eraseRows rows).state :=
  signals_emptied (List.forall_mem_map.2 fun _ _ => ⟨rfl, rfl⟩) (sublist_eraseRows rows q)

theorem signals_eraseRange (first count : Nat) (q : Queue) :
    Signals told q (q.eraseRange first count).changes (q.eraseRange first count).state := by
  have hsub := sublist_eraseRange first count q
  rw [eraseRange] at hsub ⊢
  split
  · exact .refl q
  · rw [if_neg ‹_›] at hsub
    exact signals_emptied (List.forall_mem_singleton.2 ⟨rfl, rfl⟩) hsub

theorem signals_restart (tag : Tag) (q : Queue) :
    Signals told q (q.restart tag).changes (q.restart tag).state := by
  rw [restart]
  split
  · exact .refl q
  · split
    · exact .refl q
    · exact signals_emptied (List.forall_mem_singleton.2 ⟨rfl, rfl⟩)
        (sublist_eraseRun (Nat.le_refl _) q)

theorem signals_dismiss (rows : List Nat) (cancel clear : Bool) (q : Queue) :
    Signals told q (q.dismiss rows cancel clear).changes (q.dismiss rows cancel clear).state := by
  have hsub := sublist_dismiss rows cancel clear q
  simp only [dismiss] at hsub ⊢
  split
  · rw [if_pos ‹_›] at hsub
    have hstart : Sweep.Sound False q q.size ⟨q, none, [], []⟩ := ⟨.refl q, by simp, by simp⟩
    obtain ⟨bound, hend⟩ := hstart.foldl cancel (descending_selection q.size rows)
      lt_of_mem_reverse_selection
    have hflush : Sweep.Sound False q bound _ := hend.flush
    exact signals_emptied (fun c hc => Change.ofRows_of_closes (hflush.closes c hc)) hsub
  · split <;> exact .refl q

theorem signals_moveRange (first count destination : Nat) (q : Queue) :
    Signals told q (q.moveRange first count destination).changes
      (q.moveRange first count destination).state := by
  rw [moveRange]
  split <;> exact .refl q

end Queue

/-! ## Actions on a board -/

namespace Board

open Queue (Signals)

variable {α : Type} {told : Prop} {b : Board}

/-- An outcome that has nothing to do with the general pause. -/
structure Abides (told : Prop) (b : Board) (o : Outcome Board α) : Prop where
  flag : o.state.allPaused = b.allPaused
  wish : o.state.preference = b.preference
  signals : Signals told b.queue o.changes o.state.queue

/-- An outcome after which the general pause holds or not, as `paused` says, and everybody knows. -/
structure Decides (paused : Bool) (b : Board) (o : Outcome Board α) : Prop where
  flag : o.state.allPaused = paused
  wish : o.state.preference.isPaused = paused
  queue : o.state.queue = b.queue
  silent : presences o.changes = []
  told : pausings o.changes = if b.allPaused = paused then [] else [paused]

namespace Abides

theorem refl (answer : α) (commands : List Command) : Abides told b ⟨b, answer, [], commands⟩ :=
  ⟨rfl, rfl, .refl b.queue⟩

theorem onQueue {op : Queue → Outcome Queue α}
    (h : Signals told b.queue (op b.queue).changes (op b.queue).state) :
    Abides told b (b.onQueue op) :=
  ⟨rfl, rfl, h⟩

theorem mapAnswer {β : Type} {o : Outcome Board α} (h : Abides told b o) (f : α → β) :
    Abides told b (o.mapAnswer f) :=
  ⟨h.flag, h.wish, h.signals⟩

end Abides

theorem abides_start (r : Report) (b : Board) : Abides told b (b.start r) := by
  have hstart : Abides told b (b.onQueue (Queue.start b.config.paceWeight r)) :=
    .onQueue (Queue.signals_start _ r _)
  simp only [start]
  split
  · -- the pause of the new transfer is a command and changes nothing
    split
    · exact ⟨hstart.flag, hstart.wish, hstart.signals⟩
    · exact hstart
  · exact hstart

theorem abides_takeIn (now : Instant) (event : Event) (b : Board) :
    Abides told b (b.takeIn now event) := by
  cases event with
  | started r => exact abides_start r b
  | updated r => exact .onQueue (Queue.signals_update _ r _)
  | hindered r fault => exact .onQueue (Queue.signals_hinder _ r fault _)
  | finished r fault => exact .onQueue (Queue.signals_finish now r fault _)

theorem abides_hear (now : Instant) (event : Event) (b : Board) :
    Abides told b (b.hear now event) := by
  rw [hear]
  split
  · exact abides_takeIn now event b
  · exact .refl _ _

theorem abides_hearAll (now : Instant) (events : List Event) (b : Board) :
    Abides told b (hearAll now events b) := by
  induction events generalizing b with
  | nil => exact .refl _ _
  | cons event events ih =>
    have hfirst : Abides told b (b.hear now event) := abides_hear now event b
    have hstays : Takes False b (b.hear now event) := takes_hear
    simp only [hearAll]
    split
    · exact hfirst.mapAnswer _
    · have hrest := ih (b.hear now event).state
      have hstays' : Takes False (b.hear now event).state
          (hearAll now events (b.hear now event).state) := takes_hearAll
      exact ⟨hrest.flag.trans hfirst.flag, hrest.wish.trans hfirst.wish,
        (hfirst.signals.trans hrest.signals hstays.stays hstays'.stays).mono fun ht => ⟨ht, ht⟩⟩

theorem decides_pauseAll (paused : Bool) (b : Board) : Decides paused b (b.pauseAll paused) where
  flag := rfl
  wish := Preference.isPaused_set paused b.preference
  queue := rfl
  silent := by
    simp only [pauseAll]
    split <;> rfl
  told := by
    simp only [pauseAll]
    split <;> rfl

/-- An action has nothing to do with the general pause, or decides on it, or writes the preference. -/
theorem perform_cases (b : Board) (action : Action) :
    Abides ((b.perform action).answer ≠ .overflow) b (b.perform action)
      ∨ (∃ paused, Decides paused b (b.perform action))
      ∨ ∃ paused, action = .overwritePreference paused := by
  cases action with
  | hear now event => exact .inl ((abides_hear now event b).mapAnswer (Answer.ofExcept .flag))
  | hearAll now events =>
    exact .inl ((abides_hearAll now events b).mapAnswer (Answer.ofExcept fun _ => .done))
  | takeIn now event => exact .inl ((abides_takeIn now event b).mapAnswer (Answer.ofExcept .flag))
  | load size listing =>
    have h : Abides _ b (b.load size listing) :=
      .onQueue (Queue.signals_loadListing _ size listing b.queue)
    exact .inl ⟨h.flag, h.wish, h.signals.mono ne_tooLong_of_ofExcept⟩
  | insert r place =>
    exact .inl (.mapAnswer (.onQueue (Queue.signals_insert _ r place _)) (Answer.ofExcept .flag))
  | eraseRows rows => exact .inl (.mapAnswer (.onQueue (Queue.signals_eraseRows rows _)) _)
  | eraseRange first count =>
    exact .inl (.mapAnswer (.onQueue (Queue.signals_eraseRange first count _)) _)
  | moveRange first count destination =>
    exact .inl (.mapAnswer (.onQueue (Queue.signals_moveRange first count destination _)) _)
  | dismiss rows cancel clear =>
    exact .inl (.mapAnswer (.onQueue (Queue.signals_dismiss rows cancel clear _)) fun _ => Answer.done)
  | restart tag => exact .inl (.mapAnswer (.onQueue (Queue.signals_restart tag _)) _)
  | moveSelection rows destination => exact .inl (.refl _ _)
  | pauseOne tag paused => exact .inl (.refl _ _)
  | cancelEverything => exact .inl (.refl _ _)
  | pauseAll paused =>
    have h := decides_pauseAll paused b
    exact .inr (.inl ⟨paused, h.flag, h.wish, h.queue, h.silent, h.told⟩)
  | flipPause =>
    have h := decides_pauseAll (!b.allPaused) b
    exact .inr (.inl ⟨!b.allPaused, h.flag, h.wish, h.queue, h.silent, h.told⟩)
  | adoptPreference =>
    simp only [perform, adoptPreference]
    -- nothing is done if flag and preference agree already
    split
    · exact .inl (.refl _ _)
    · have h := decides_pauseAll b.preference.isPaused b
      exact .inr (.inl ⟨b.preference.isPaused, h.flag, h.wish, h.queue, h.silent, h.told⟩)
  | pauseSelection rows paused =>
    simp only [perform, pauseSelection]
    -- to resume some rows ends the general pause, if it holds
    split
    · rename_i hends
      have hpaused : b.allPaused = true := (Bool.and_eq_true_iff.1 hends).2
      refine .inr (.inl ⟨false, rfl, Preference.isPaused_set false b.preference, rfl, rfl, ?_⟩)
      rw [hpaused]
      rfl
    · exact .inl (.refl _ _)
  | overwritePreference paused => exact .inr (.inr ⟨paused, rfl⟩)

end Board

end TransferQueue
