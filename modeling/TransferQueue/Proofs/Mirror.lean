import TransferQueue.Hub
import TransferQueue.Proofs.Walks

/-!
# Observers keep up with the rows

An observer that replays what it is told, and reads the rows again that it is told of, has the rows
as they are.  Most steps are told as they are made, but the rows of a listing are told late and in
runs, and rows are erased from the last to the first, so what counts is the replay of all changes
of an operation.

The marks of a replay say what an observer knows of a row: a row that is not marked has not
changed, a marked one is still of the same transfer, and a row that was opened is of a transfer
that had none.  For the last of these, operations that take rows in and operations that erase rows
have to be told apart: a transfer that goes and comes back within one operation would be opened and
not new.

* `Queue.Told.trans`: changes that are told one after the other;
* `Queue.Step.told`: the change that a step makes;
* `Board.told_perform`: the changes of an action;
* `Hub.observer_keeps_up`: the changes of an action, and observers in a run.
-/

namespace TransferQueue

variable {tags tags' : List Tag}

/-- What a mark says of the entry of a row, when `tags` had rows before. -/
def Cell.Shows (tags : List Tag) : Cell Entry → Entry → Prop
  | .known a, e => e = a
  | .told a, e => e.tag = a.tag
  | .fresh, e => e.tag ∉ tags

namespace Cell.Shows

variable {cell : Cell Entry} {e e' : Entry}

/-- A marked row may hold another entry of the same transfer. -/
theorem touch (h : cell.Shows tags e) (htag : e'.tag = e.tag) : cell.touch.Shows tags e' := by
  cases cell with
  | known a => exact htag.trans (congrArg Entry.tag h)
  | told a => exact htag.trans h
  | fresh =>
    show e'.tag ∉ tags
    rw [htag]
    exact h

theorem mono (h : cell.Shows tags e) (hsub : tags' ⊆ tags) : cell.Shows tags' e := by
  cases cell with
  | known a => exact h
  | told a => exact h
  | fresh => exact fun hmem => h (hsub hmem)

end Cell.Shows

namespace Queue

/-- From the entries `old`, the replay of the changes leads to the entries `new`. -/
def Told (tags : List Tag) (old : List Entry) (cs : List Change) (new : List Entry) : Prop :=
  ∃ cells, Change.replay? cs (old.map .known) = some cells
    ∧ List.Forall₂ (Cell.Shows tags) cells new

namespace Told

variable {old mid new : List Entry} {cs ds : List Change}

theorem shows_known (es : List Entry) : List.Forall₂ (Cell.Shows tags) (es.map .known) es := by
  rw [List.forall₂_map_left_iff, List.forall₂_same]
  exact fun e _ => rfl

theorem refl (es : List Entry) : Told tags es [] es := ⟨_, rfl, shows_known es⟩

theorem mono (h : Told tags old cs new) (hsub : tags' ⊆ tags) : Told tags' old cs new := by
  obtain ⟨cells, hreplay, hshows⟩ := h
  exact ⟨cells, hreplay, hshows.imp fun _ _ hcell => hcell.mono hsub⟩

/-- The same may be told in another way. -/
theorem retell (h : Told tags old cs new) (same : Change.SameReplay ds cs) :
    Told tags old ds new := by
  obtain ⟨cells, hreplay, hshows⟩ := h
  exact ⟨cells, (same Entry _).trans hreplay, hshows⟩

/-- Marks that say at least as much as other marks, row by row. -/
theorem shows_trans {cells cells' : List (Cell Entry)}
    (h : List.Forall₂ (fun x y => ∀ e, Cell.Shows tags y e → Cell.Shows tags x e) cells cells')
    (h' : List.Forall₂ (Cell.Shows tags) cells' new) :
    List.Forall₂ (Cell.Shows tags) cells new := by
  induction h generalizing new with
  | nil => exact h'
  | cons hxy _ ih =>
    cases h' with
    | cons hye hrest => exact .cons (hxy _ hye) (ih hrest)

/-- The second replay starts with marks of the first one, but a replay does not look into the
rows. -/
theorem trans (h : Told tags old cs mid) (h' : Told tags mid ds new) :
    Told tags old (cs ++ ds) new := by
  obtain ⟨cells, hcs, hmid⟩ := h
  obtain ⟨cells', hds, hnew⟩ := h'
  have hstart : List.Forall₂ (fun x y => ∀ e, Cell.Shows tags y e → Cell.Shows tags x e)
      cells (mid.map .known) := by
    rw [List.forall₂_map_right_iff]
    exact hmid.imp fun x m hx e he => by
      rw [show e = m from he]
      exact hx
  -- rows that are marked again after a mark say no more than before
  have htouch : ∀ x y : Cell Entry, (∀ e, y.Shows tags e → x.Shows tags e) →
      ∀ e, y.touch.Shows tags e → x.touch.Shows tags e := by
    intro x y hxy e he
    cases y with
    | known m => exact (hxy m rfl).touch he
    | told m => exact (hxy e he).touch rfl
    | fresh => exact (hxy e he).touch rfl
  obtain ⟨cells'', hboth, hend⟩ := Change.replay?_rel htouch (fun _ he => he) hstart hds
  refine ⟨cells'', ?_, shows_trans hend hnew⟩
  rw [Change.replay?_append, hcs]
  exact hboth

end Told

/-! ## Steps -/

section Steps

variable {q q' : Queue} {cs : List Change} {row row' : Row} {before after : List Row}

/-- A row between rows that are left alone. -/
theorem shows_between {low high : List Entry} {e : Entry} (cell : Cell Entry)
    (h : cell.Shows tags e) :
    List.Forall₂ (Cell.Shows tags) (low.map .known ++ cell :: high.map .known)
      (low ++ e :: high) :=
  List.rel_append (Told.shows_known low) (.cons h (Told.shows_known high))

/-- A row comes of a transfer that had none. -/
theorem told_insertRow {place : Nat} (bound : place ≤ q.size) (hnew : row.tag ∉ tags) :
    Told tags q.entries [.inserted place place] (q.insertRow place row).entries := by
  obtain ⟨before, after, hrows, rfl⟩ := exists_append_of_le bound
  simp only [entries, insertRow, hrows, insertIdx_append_length, List.map_append, List.map_cons]
  refine ⟨_, ?_, shows_between .fresh hnew⟩
  rw [Change.replay?_singleton]
  simpa using Change.play?_inserted ((before.map Row.entry).map .known)
    ((after.map Row.entry).map .known)

/-- A row keeps its place. -/
theorem told_updated (hrows : q.rows = before ++ row :: after)
    (hrows' : q'.rows = before ++ row' :: after) (htag : row'.tag = row.tag) :
    Told tags q.entries [.updated before.length] q'.entries := by
  simp only [entries, hrows, hrows', List.map_append, List.map_cons]
  refine ⟨_, ?_, shows_between (.told row.entry) htag⟩
  rw [Change.replay?_singleton]
  simpa using Change.play?_updated ((before.map Row.entry).map .known)
    ((after.map Row.entry).map .known) (.known row.entry)

/-- A row goes to another place among the other rows. -/
theorem told_moved {target : Nat} (hrows : q.rows = before ++ row :: after)
    (hrows' : q'.rows = (before ++ after).insertIdx target row')
    (bound : target ≤ (before ++ after).length) (htag : row'.tag = row.tag) :
    Told tags q.entries [movedOrUpdated before.length target] q'.entries := by
  rw [movedOrUpdated]
  split
  · -- the row comes back to its own place
    rename_i hsame
    subst hsame
    rw [insertIdx_append_length] at hrows'
    exact told_updated hrows hrows' htag
  · obtain ⟨low, high, hrest, rfl⟩ := exists_append_of_le bound
    rw [hrest, insertIdx_append_length] at hrows'
    simp only [entries, hrows, hrows', List.map_append, List.map_cons]
    refine ⟨_, ?_, shows_between (.told row.entry) htag⟩
    have hcells := congrArg (List.map fun row => Cell.known row.entry) hrest
    rw [List.map_append, List.map_append] at hcells
    rw [Change.replay?_singleton]
    simpa [Function.comp_def] using Change.play?_moved _ _ (.known row.entry) hcells

/-- A run of rows goes. -/
theorem told_eraseRun {first last : Nat} (run : first ≤ last) (bound : last < q.size) :
    Told tags q.entries [.removed first last] (q.eraseRun first last).entries := by
  refine ⟨(q.entries.take first).map .known ++ (q.entries.drop (last + 1)).map .known, ?_, ?_⟩
  · have hrange : first ≤ last ∧ last < (q.entries.map Cell.known).length := by
      simpa [entries] using ⟨run, bound⟩
    rw [Change.replay?_singleton, Change.play?, if_pos hrange, List.map_take, List.map_drop]
  · simp only [entries, eraseRun, List.map_append]
    rw [← List.map_take, ← List.map_drop]
    exact List.rel_append (Told.shows_known _) (Told.shows_known _)

/-- What is not shown of a row may change without being told. -/
theorem told_replaceRow {tag : Tag} {place : Nat} (located : q.locate? tag = some (place, row))
    (phase : Phase) (hentry : row'.entry = row.entry) :
    Told tags q.entries [] (q.replaceRow place phase row').entries := by
  obtain ⟨before, after, hrows, rfl, hrows'⟩ := replaceRow_split located phase row'
  have hentries : (q.replaceRow before.length phase row').entries = q.entries := by
    simp only [entries, hrows, hrows', List.map_append, List.map_cons, hentry]
  rw [hentries]
  exact .refl _

variable {placed : Prop}

/-- What a step changes is told, and what it opens is new if the transfers in question still have
rows. -/
theorem Step.told (step : Step placed q cs q')
    (hnew : (∀ c ∈ cs, c.opens = false) ∨ tags ⊆ q.tags) : Told tags q.entries cs q'.entries := by
  cases step with
  | note => exact .refl _
  | come new bound made fits =>
    rename_i weight r place row
    obtain ⟨timeLeft, hentry⟩ := Row.entry_ofReport made
    have htag : row.tag = r.tag := by rw [Row.tag, hentry]; rfl
    refine told_insertRow bound ?_
    intro hmem
    rcases hnew with hnone | hsub
    · exact absurd (hnone _ List.mem_cons_self) (by simp [Change.opens])
    · exact contains_eq_false_iff.1 new (htag ▸ hsub hmem)
  | observe located made =>
    obtain ⟨pace, rfl⟩ := Row.refresh_eq_error made
    exact told_replaceRow located _ rfl
  | refresh located made =>
    obtain ⟨timeLeft, pace, rfl⟩ := Row.refresh_eq_ok made
    obtain ⟨before, after, hrows, rfl, hrows'⟩ := replaceRow_split located _ _
    exact told_updated hrows hrows' rfl
  | settle located made =>
    obtain ⟨timeLeft, pace, rfl⟩ := Row.refresh_eq_ok made
    obtain ⟨before, after, hrows, rfl, hrows'⟩ := replaceRow_split located _ _
    rcases settle_eq _ hrows' with ⟨-, heq⟩ | ⟨target, bound, -, heq⟩
    · rw [heq]
      exact told_updated hrows hrows' rfl
    · rw [heq]
      exact told_moved hrows rfl bound rfl
  | finish located =>
    obtain ⟨before, after, hrows, rfl, hrows'⟩ := replaceRow_split located _ _
    exact told_updated hrows hrows' rfl
  | erase run bound => exact told_eraseRun run bound

theorem tags_subset_insertRow {place : Nat} (bound : place ≤ q.size) (row : Row) :
    q.tags ⊆ (q.insertRow place row).tags := by
  have hperm := (List.perm_insertIdx row q.rows bound).map Row.tag
  exact fun tag htag => hperm.mem_iff.2 (List.mem_cons_of_mem _ htag)

theorem tags_subset_replaceRow {tag : Tag} {place : Nat}
    (located : q.locate? tag = some (place, row)) (phase : Phase) (htag : row'.tag = row.tag) :
    q.tags ⊆ (q.replaceRow place phase row').tags := by
  obtain ⟨before, after, hrows, rfl, hrows'⟩ := replaceRow_split located phase row'
  simp only [tags, hrows, hrows', List.map_append, List.map_cons, htag]
  exact List.Subset.refl _

theorem tags_subset_settle {place : Nat} {priority : UInt64} (hrow : q.rows[place]? = some row) :
    q.tags ⊆ (q.settle place priority row).state.tags :=
  fun _ htag => ((perm_settle hrow).map Row.tag).mem_iff.2 htag

/-- A step that closes no rows keeps the transfers that have rows. -/
theorem Step.tags_subset (step : Step placed q cs q') (hkeep : ∀ c ∈ cs, c.closes = false) :
    q.tags ⊆ q'.tags := by
  cases step with
  | note => exact List.Subset.refl _
  | come new bound made fits => exact tags_subset_insertRow bound _
  | observe located made =>
    obtain ⟨pace, rfl⟩ := Row.refresh_eq_error made
    exact tags_subset_replaceRow located _ rfl
  | refresh located made =>
    obtain ⟨timeLeft, pace, rfl⟩ := Row.refresh_eq_ok made
    exact tags_subset_replaceRow located _ rfl
  | settle located made =>
    obtain ⟨timeLeft, pace, rfl⟩ := Row.refresh_eq_ok made
    obtain ⟨before, after, -, rfl, hrows'⟩ := replaceRow_split located _ _
    intro tag htag
    refine tags_subset_settle ?_ ?_
    · rw [hrows']
      simp
    · exact tags_subset_replaceRow located _ (by rfl) htag
  | finish located => exact tags_subset_replaceRow located _ rfl
  | erase run bound => exact absurd (hkeep _ List.mem_cons_self) (by simp [Change.closes])

end Steps

/-! ## Walks -/

variable {placed told : Prop} {q q' : Queue} {cs changes : List Change}

/-- A walk that closes no rows is told. -/
theorem Walk.told_of_closes (walk : Walk placed q cs q') (hkeep : ∀ c ∈ cs, c.closes = false) :
    Told q.tags q.entries cs q'.entries ∧ q.tags ⊆ q'.tags := by
  induction walk with
  | refl => exact ⟨.refl _, List.Subset.refl _⟩
  | tail walk step ih =>
    obtain ⟨htold, hsub⟩ := ih fun c hc => hkeep c (List.mem_append_left _ hc)
    have hkeep' := fun c hc => hkeep c (List.mem_append_right _ hc)
    exact ⟨htold.trans (step.told (.inr hsub)), List.Subset.trans hsub (step.tags_subset hkeep')⟩

/-- A walk that opens no rows is told. -/
theorem Walk.told_of_opens (walk : Walk placed q cs q') (hnone : ∀ c ∈ cs, c.opens = false) :
    Told tags q.entries cs q'.entries := by
  induction walk with
  | refl => exact .refl _
  | tail walk step ih =>
    have htold := ih fun c hc => hnone c (List.mem_append_left _ hc)
    exact htold.trans (step.told (.inl fun c hc => hnone c (List.mem_append_right _ hc)))

end Queue

namespace Board

/-- What an action changes is told, unless a time cannot be expressed. -/
theorem told_perform {b : Board} {action : Action} (h : (b.perform action).answer ≠ .overflow) :
    Queue.Told b.queue.tags b.queue.entries (b.perform action).changes
      (b.perform action).state.queue.entries := by
  rcases isWalk_perform (False.elim : False → b.Places action) with
    ⟨cs, hwalk, hkind, hsame⟩ | ⟨cs, hwalk, hkind, hsame⟩
  · exact (hwalk.told_of_closes hkind).1.retell (hsame h)
  · exact (hwalk.told_of_opens fun c hc => Change.opens_of_closes (hkind c hc)).retell (hsame trivial)

end Board

/-! ## Mirrors -/

/-- What an observer reads of a row that has the entry `now`: it reads only rows that are marked. -/
def Cell.read {α : Type} (now : α) : Cell α → α
  | .known a => a
  | _ => now

/-- What an observer has that had `mirror`, replays changes, and then reads the marked rows. -/
def Change.reread? (cs : List Change) (mirror now : List Entry) : Option (List Entry) :=
  (replay? cs (mirror.map .known)).bind fun cells =>
    if cells.length = now.length then some (List.zipWith Cell.read now cells) else none

/-- Reading the marked rows, an observer that was told has all rows as they are. -/
theorem Queue.Told.reread?_eq {cs : List Change} {old new : List Entry}
    (h : Queue.Told tags old cs new) : Change.reread? cs old new = some new := by
  obtain ⟨cells, hreplay, hshows⟩ := h
  have hread : List.zipWith Cell.read new cells = new := by
    clear hreplay
    induction hshows with
    | nil => rfl
    | @cons cell e cells new hcell _ ih =>
      rw [List.zipWith_cons_cons, ih]
      cases cell with
      | known a => rw [show e = a from hcell]; rfl
      | told a => rfl
      | fresh => rfl
  rw [Change.reread?, hreplay, Option.bind_some, if_pos hshows.length_eq, hread]

/-- Something that happens to a hub. -/
inductive Happening where
  /-- An action. -/
  | act (action : Action)
  /-- Another observer comes. -/
  | join
  /-- An observer goes. -/
  | leave (observer : Nat)
  /-- An observer asks what it has been told. -/
  | collect (observer : Nat)

namespace Hub

/-- The hub after something has happened. -/
def happen (hub : Hub) : Happening → Hub
  | .act action => (hub.perform action).state
  | .join => hub.join.2
  | .leave observer => (hub.leave observer).2
  | .collect observer => (hub.collect observer).2

/-- What an observer has after all this has happened, if each time it asks what it has been told it
replays the changes and reads the marked rows. -/
def watch? (observer : Nat) : List Happening → Hub → List Entry → Option (List Entry)
  | [], _, mirror => some mirror
  | .collect other :: rest, hub, mirror =>
    if other = observer then
      (hub.collect observer).1.bind fun told =>
        (Change.reread? told mirror hub.board.queue.entries).bind
          (watch? observer rest (hub.happen (.collect other)))
    else watch? observer rest (hub.happen (.collect other)) mirror
  | happening :: rest, hub, mirror => watch? observer rest (hub.happen happening) mirror

/-- The observer stays, and no action fails because a time cannot be expressed. -/
def Undisturbed (observer : Nat) : List Happening → Hub → Prop
  | [], _ => True
  | .act action :: rest, hub =>
    (hub.board.perform action).answer ≠ .overflow
      ∧ Undisturbed observer rest (hub.happen (.act action))
  | .leave other :: rest, hub =>
    other ≠ observer ∧ Undisturbed observer rest (hub.happen (.leave other))
  | happening :: rest, hub => Undisturbed observer rest (hub.happen happening)

/-- What an observer has been told since it last asked would bring it up to date. -/
def Mirrors (hub : Hub) (observer : Nat) (mirror : List Entry) : Prop :=
  ∃ told, hub.observers[observer]? = some (some told)
    ∧ Queue.Told [] mirror told hub.board.queue.entries

variable {hub : Hub} {observer other : Nat} {mirror : List Entry}

/-- Every observer that is there is told of the changes. -/
theorem observers_perform {told : List Change} (hbox : hub.observers[observer]? = some (some told))
    (action : Action) :
    (hub.perform action).state.observers[observer]?
      = some (some (told ++ (hub.perform action).changes)) := by
  show (hub.observers.map _)[observer]? = _
  rw [List.getElem?_map, hbox]
  rfl

theorem Mirrors.act {action : Action} (h : hub.Mirrors observer mirror)
    (hanswer : (hub.board.perform action).answer ≠ .overflow) :
    (hub.happen (.act action)).Mirrors observer mirror := by
  obtain ⟨told, hbox, htold⟩ := h
  have hnext := (Board.told_perform hanswer).mono (List.nil_subset _)
  exact ⟨told ++ (hub.perform action).changes, observers_perform hbox action, htold.trans hnext⟩

theorem Mirrors.join (h : hub.Mirrors observer mirror) :
    (hub.happen .join).Mirrors observer mirror := by
  obtain ⟨told, hbox, htold⟩ := h
  refine ⟨told, ?_, htold⟩
  show (hub.observers ++ [some []])[observer]? = _
  rw [List.getElem?_append_left (List.getElem?_eq_some_iff.1 hbox).1, hbox]

theorem Mirrors.leave (h : hub.Mirrors observer mirror) (hne : other ≠ observer) :
    (hub.happen (.leave other)).Mirrors observer mirror := by
  obtain ⟨told, hbox, htold⟩ := h
  simp only [happen, Hub.leave]
  split
  · exact ⟨told, by rw [List.getElem?_set_ne hne, hbox], htold⟩
  · exact ⟨told, hbox, htold⟩

theorem Mirrors.collect_other (h : hub.Mirrors observer mirror) (hne : other ≠ observer) :
    (hub.happen (.collect other)).Mirrors observer mirror := by
  obtain ⟨told, hbox, htold⟩ := h
  simp only [happen, Hub.collect]
  split
  · exact ⟨told, by rw [List.getElem?_set_ne hne, hbox], htold⟩
  · exact ⟨told, hbox, htold⟩

/-- When it asks, the observer gets what brings it up to date. -/
theorem Mirrors.collect (h : hub.Mirrors observer mirror) :
    ∃ told, (hub.collect observer).1 = some told
      ∧ Change.reread? told mirror hub.board.queue.entries = some hub.board.queue.entries
      ∧ (hub.happen (.collect observer)).Mirrors observer hub.board.queue.entries := by
  obtain ⟨told, hbox, htold⟩ := h
  have hcollect : hub.collect observer
      = (some told, { hub with observers := hub.observers.set observer (some []) }) := by
    rw [Hub.collect, hbox]
  refine ⟨told, by rw [hcollect], htold.reread?_eq, [], ?_, ?_⟩
  · rw [happen, hcollect]
    exact List.getElem?_set_self (List.getElem?_eq_some_iff.1 hbox).1
  · rw [happen, hcollect]
    exact .refl _

/-- Whenever an observer asks that has not gone, it is up to date afterwards. -/
theorem Mirrors.watch?_eq {happenings : List Happening} (h : hub.Mirrors observer mirror)
    (undisturbed : Undisturbed observer happenings hub) :
    watch? observer (happenings ++ [.collect observer]) hub mirror
      = some (happenings.foldl happen hub).board.queue.entries := by
  induction happenings generalizing hub mirror with
  | nil =>
    obtain ⟨told, htold, hread, -⟩ := h.collect
    rw [List.nil_append, watch?, if_pos rfl, htold, Option.bind_some, hread]
    rfl
  | cons happening rest ih =>
    cases happening with
    | act action => exact ih (h.act undisturbed.1) undisturbed.2
    | join => exact ih h.join undisturbed
    | leave other => exact ih (h.leave undisturbed.1) undisturbed.2
    | collect other =>
      by_cases hother : other = observer
      · subst hother
        obtain ⟨told, htold, hread, hnext⟩ := h.collect
        rw [List.cons_append, watch?, if_pos rfl, htold, Option.bind_some, hread]
        exact ih hnext undisturbed
      · rw [List.cons_append, watch?, if_neg hother]
        exact ih (h.collect_other hother) undisturbed

/-- What an action tells the observers that are there leads from the rows before it to the rows after
it: rows that are not touched are as they were, and rows that are opened are of transfers that had
none.  So an observer that comes, and reads the rows again that it is told of whenever it asks, has
them as they are, whatever else happens meanwhile, and whoever else comes and goes. -/
theorem observer_keeps_up :
    (∀ (hub : Hub) (action : Action), (hub.perform action).answer ≠ .overflow →
      Queue.Told hub.board.queue.tags hub.board.queue.entries (hub.perform action).changes
          (hub.perform action).state.board.queue.entries
        ∧ ∀ (observer : Nat) (told : List Change), hub.observers[observer]? = some (some told) →
          (hub.perform action).state.observers[observer]?
            = some (some (told ++ (hub.perform action).changes)))
    ∧ ∀ (hub : Hub) (happenings : List Happening),
      Undisturbed hub.join.1 happenings hub.join.2 →
        watch? hub.join.1 (happenings ++ [.collect hub.join.1]) hub.join.2 hub.board.queue.entries
          = some (happenings.foldl happen hub.join.2).board.queue.entries := by
  constructor
  · intro hub action hanswer
    refine ⟨Board.told_perform hanswer, ?_⟩
    intro observer told hbox
    exact observers_perform hbox action
  · intro hub happenings undisturbed
    have hstart : hub.join.2.Mirrors hub.join.1 hub.board.queue.entries := by
      refine ⟨[], ?_, .refl _⟩
      show (hub.observers ++ [some []])[hub.observers.length]? = some (some [])
      rw [List.getElem?_append_right (Nat.le_refl _), Nat.sub_self]
      rfl
    exact hstart.watch?_eq undisturbed

/-- While the first observer watches, a row overtakes another one and then goes, and a second
observer comes and goes. -/
def overtaking : List Happening :=
  [.act (.hear .epoch (.started (.bare 1 .download 5 1))), .join,
    .act (.hear .epoch (.started (.bare 2 .download 6 2))), .collect 0,
    .act (.hear .epoch (.updated (.bare 2 .download 2 3))), .leave 1,
    .act (.eraseRows [0])]

theorem keeps_up_while_overtaking :
    Queue.Told [] [] [.inserted 0 0, .presence true]
      ((new (.new {} (.memory false)) none).perform
        (.hear .epoch (.started (.bare 1 .download 5 1)))).state.board.queue.entries
    ∧ watch? 0 (overtaking ++ [.collect 0]) (new (.new {} (.memory false)) none).join.2 []
      = some (overtaking.foldl happen
          (new (.new {} (.memory false)) none).join.2).board.queue.entries := by
  constructor
  · exact (observer_keeps_up.1 (new (.new {} (.memory false)) none)
      (.hear .epoch (.started (.bare 1 .download 5 1))) (by decide +kernel)).1
  · exact observer_keeps_up.2 (new (.new {} (.memory false)) none) overtaking
      ⟨by decide +kernel, by decide +kernel, by decide +kernel, by decide +kernel,
        by decide +kernel, trivial⟩

end Hub

end TransferQueue
