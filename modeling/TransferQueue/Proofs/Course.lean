import TransferQueue.Proofs.Arrivals

/-!
# The course of a transfer

Everything that happens to a board happens to some transfers and not to others.  What happens to one
of them is its *course*: its row comes, hears events, goes, and may come again.  The course says
which of these turns a run has for a transfer, and the row of the transfer can be told from the
course alone, whatever else the run does.

* `Turn`: what can happen to the row of one transfer;
* `Board.turns`, `Board.course`: the turns that an action and a run have for a transfer;
* `Board.find?_perform`, `Board.find?_run`: the row after an action, and after a run, is the one to
  which the turns lead;
* `Board.course_of_keeps`: a row that stays does nothing but hear events.
-/

namespace TransferQueue

/-! ## Turns -/

/-- Something that happens to the row of one transfer. -/
inductive Turn where
  /-- The row comes, made of a report. -/
  | come (report : Report)
  /-- The row takes in an event at the moment `now`. -/
  | hear (now : Instant) (event : Event)
  /-- The row goes. -/
  | go
deriving DecidableEq, Repr

/-- The row of a transfer after a turn, if it has one. -/
def Turn.apply (weight : Float) (row : Option Row) : Turn → Option Row
  | .come r => (Row.ofReport weight r).toOption
  | .hear now event => row.map (Row.hear weight now event)
  | .go => none

/-- The moment of an event as far as it counts: only an end needs one, so for any other event the epoch
stands for it. -/
def Event.moment (now : Instant) : Event → Instant
  | .finished _ _ => now
  | _ => .epoch

theorem Row.hear_moment (weight : Float) (now : Instant) (event : Event) :
    Row.hear weight (event.moment now) event = Row.hear weight now event := by
  cases event <;> rfl

/-- The events that an action brings. -/
def Action.events : Action → List Event
  | .hear _ event | .takeIn _ event => [event]
  | .hearAll _ events => events
  | _ => []

namespace Queue

variable {search : Search} {weight : Float} {q q' : Queue} {r : Report} {tag : Tag}

theorem find?_eq_none_of_contains (h : q.contains tag = false) : q.find? tag = none :=
  find?_eq_none_iff.2 (contains_eq_false_iff.1 h)

/-! ### Rows that go -/

/-- When rows go, those that are left are found as before. -/
theorem find?_eq_ite_of_sublist (h : q.tags.Nodup) (hsub : q'.rows.Sublist q.rows) :
    q'.find? tag = if q'.contains tag then q.find? tag else none := by
  split
  · rename_i hleft
    obtain ⟨row, hfound⟩ := Option.isSome_iff_exists.1 (contains_eq_isSome_find? q' tag ▸ hleft)
    rw [hfound, find?_of_sublist h hsub hfound]
  · rename_i hgone
    exact find?_eq_none_of_contains (by simpa using hgone)

theorem sublist_eraseRuns {runs : List Run} {bound : Nat} (h : Stacked bound runs) (q : Queue) :
    (q.eraseRuns runs).rows.Sublist q.rows := by
  induction runs generalizing bound q with
  | nil => exact .refl _
  | cons run runs ih =>
    obtain ⟨hle, -, hrest⟩ := h
    exact (ih hrest _).trans (sublist_eraseRun hle q)

theorem sublist_eraseRows (rows : List Nat) (q : Queue) :
    (q.eraseRows rows).state.rows.Sublist q.rows :=
  sublist_eraseRuns (stacked_ofDescending (descending_selection q.size rows)
    lt_of_mem_reverse_selection) q

theorem sublist_eraseRange (first count : Nat) (q : Queue) :
    (q.eraseRange first count).state.rows.Sublist q.rows := by
  rw [eraseRange]
  split
  · exact .refl _
  · exact sublist_eraseRun (by omega) q

theorem sublist_restart (tag : Tag) (q : Queue) : (q.restart tag).state.rows.Sublist q.rows := by
  rw [restart]
  split
  · exact .refl _
  · split
    · exact .refl _
    · exact sublist_eraseRun (Nat.le_refl _) q

/-- To visit a row erases the pending run, or nothing. -/
theorem Sweep.queue_visit (cancel : Bool) (s : Sweep) (n : Nat) :
    (s.visit cancel n).queue = s.queue ∨ (s.visit cancel n).queue = s.flush.queue := by
  rw [Sweep.visit]
  split
  · exact .inl rfl
  · split
    · split
      · split
        · exact .inl rfl
        · exact .inr rfl
      · exact .inl rfl
    · split <;> exact .inr rfl

theorem Sweep.Sound.sublist_flush {placed : Prop} {bound : Nat} {s : Sweep}
    (h : Sound placed q bound s) : s.flush.queue.rows.Sublist s.queue.rows := by
  rw [Sweep.flush]
  rcases hpending : s.pending with _ | run
  · exact .refl _
  · exact sublist_eraseRun (h.pending run hpending).1 s.queue

theorem Sweep.Sound.sublist_foldl {placed : Prop} {bound : Nat} {s : Sweep} {ns : List Nat}
    (cancel : Bool) (h : Sound placed q bound s) (hdesc : ns.Pairwise (· > ·))
    (hbound : ∀ n ∈ ns, n < bound) :
    (ns.foldl (Sweep.visit cancel) s).queue.rows.Sublist s.queue.rows := by
  induction ns generalizing bound s with
  | nil => exact .refl _
  | cons n ns ih =>
    rw [List.pairwise_cons] at hdesc
    have hvisit : (s.visit cancel n).queue.rows.Sublist s.queue.rows := by
      rcases s.queue_visit cancel n with hqueue | hqueue
      · rw [hqueue]
      · rw [hqueue]
        exact h.sublist_flush
    exact (ih (h.visit (hbound n List.mem_cons_self)) hdesc.2 hdesc.1).trans hvisit

theorem sublist_dismiss (rows : List Nat) (cancel clear : Bool) (q : Queue) :
    (q.dismiss rows cancel clear).state.rows.Sublist q.rows := by
  simp only [dismiss]
  split
  · have hstart : Sweep.Sound False q q.size ⟨q, none, [], []⟩ := ⟨.refl q, by simp, by simp⟩
    have hdesc := descending_selection q.size rows
    obtain ⟨bound, hend⟩ := hstart.foldl cancel hdesc lt_of_mem_reverse_selection
    exact hend.sublist_flush.trans
      (hstart.sublist_foldl cancel hdesc lt_of_mem_reverse_selection)
  · split <;> exact .refl _

/-! ### Rows that come -/

/-- Whether a transfer has a row in the second queue and had none in the first. -/
def gains (q q' : Queue) (tag : Tag) : Bool := !q.contains tag && q'.contains tag

/-- Whether a transfer had a row in the first queue and has none in the second. -/
def loses (q q' : Queue) (tag : Tag) : Bool := q.contains tag && !q'.contains tag

/-- The turn of a transfer whose row comes, if it does: the row is made of the first of the offered
reports that is about the transfer. -/
def comes (q q' : Queue) (tag : Tag) (offered : List Report) : List Turn :=
  if q.gains q' tag then ((offered.find? fun r => r.tag == tag).map .come).toList else []

theorem comes_eq_nil (h : q.gains q' tag = false) (offered : List Report) :
    q.comes q' tag offered = [] := by
  simp [comes, h]

/-- No row comes for a transfer that has one. -/
theorem comes_of_contains (h : q.contains tag = true) (offered : List Report) :
    q.comes q' tag offered = [] :=
  comes_eq_nil (by simp [gains, h]) offered

/-- No row comes for a transfer of which no report is offered. -/
theorem comes_of_forall_ne {offered : List Report} (h : ∀ r ∈ offered, r.tag ≠ tag) :
    q.comes q' tag offered = [] := by
  have hnone : offered.find? (fun r => r.tag == tag) = none :=
    List.find?_eq_none.2 fun r hr => by simpa using h r hr
  rw [comes, hnone]
  split <;> rfl

/-- Only the transfer of a new row gets one. -/
theorem find?_of_add {place : Nat} (h : q.add weight r place = .ok (some q')) :
    q'.find? tag = (q.comes q' tag [r]).foldl (Turn.apply weight) (q.find? tag) := by
  obtain ⟨row, hmade, rfl, hnew, bound⟩ := add_eq_ok_some h
  have htag := (Row.ofReport_eq_ok hmade).1
  rw [find?_insertRow bound (by rwa [htag, ← contains_eq_false_iff])]
  simp only [comes, gains, contains_insertRow bound, htag]
  by_cases heq : r.tag = tag
  · subst heq
    simp [hnew, Turn.apply, hmade, Except.toOption]
  · cases q.contains tag <;> simp [heq]

/-- A row that has come is the one that is found when all reports have been inserted. -/
theorem find?_addAll_insertRow {place : Nat} {row : Row} (bound : place ≤ q.size)
    (h : q.tags.Nodup) (hnew : q.contains row.tag = false) (rs : List Report) :
    (addAll search weight rs (q.insertRow place row)).1.find? row.tag = some row := by
  rw [find?_addAll_of_contains (nodup_insertRow bound h hnew) (by simp [contains_insertRow bound]),
    find?_insertRow bound (contains_eq_false_iff.1 hnew), if_pos rfl]

/-- Of the reports that are inserted one after the other, the first one about a transfer is that of
its row. -/
theorem find?_addAll (h : q.tags.Nodup) (rs : List Report) :
    (addAll search weight rs q).1.find? tag
      = (q.comes (addAll search weight rs q).1 tag rs).foldl (Turn.apply weight) (q.find? tag) := by
  rcases hold : q.contains tag with _ | _
  · rw [find?_eq_none_of_contains hold]
    induction rs generalizing q with
    | nil => simp [addAll, comes, gains, hold, find?_eq_none_of_contains hold]
    | cons r rs ih =>
      -- a report about another transfer is not the one that is looked for
      have hskip : r.tag ≠ tag → ∀ q', q.comes q' tag (r :: rs) = q.comes q' tag rs := by
        intro hne q'
        rw [comes, List.find?_cons_of_neg (by simpa using hne), comes]
      rw [addAll]
      split
      · rename_i hknown
        rw [hskip (by rintro rfl; simp [hold] at hknown)]
        exact ih h hold
      · rename_i hnew
        split
        · simp [comes, gains, hold, find?_eq_none_of_contains hold]
        · rename_i row hmade
          have bound := search.le r.lane r.priority q.rows
          have htag := (Row.ofReport_eq_ok hmade).1
          rw [Bool.not_eq_true, ← htag] at hnew
          by_cases heq : r.tag = tag
          · -- the row has come, and no later report bears on it
            rw [← heq, ← htag, find?_addAll_insertRow bound h hnew, comes, gains, hnew,
              contains_eq_isSome_find?, find?_addAll_insertRow bound h hnew]
            simp [htag, Turn.apply, hmade, Except.toOption]
          · have hold' : (q.insertRow (search.place r.lane r.priority q.rows) row).contains tag
                = false := by
              rw [contains_insertRow bound, hold, htag]
              simpa using heq
            rw [hskip heq, ih (nodup_insertRow bound h hnew) hold']
            simp only [comes, gains, hold, hold']
  · rw [find?_addAll_of_contains h hold, comes_of_contains hold]
    rfl

/-- When the rows stay as they are, no row has come. -/
theorem find?_of_rows_eq (h : q'.rows = q.rows) (weight : Float) (offered : List Report) :
    q'.find? tag = (q.comes q' tag offered).foldl (Turn.apply weight) (q.find? tag) := by
  have hcontains : q'.contains tag = q.contains tag := by rw [contains, contains, h]
  rw [comes_eq_nil (by simp [gains, hcontains]), find?_congr h]
  rfl

theorem find?_insert (weight : Float) (r : Report) (place : Nat) (q : Queue) (tag : Tag) :
    (q.insert weight r place).state.find? tag
      = (q.comes (q.insert weight r place).state tag [r]).foldl (Turn.apply weight)
          (q.find? tag) := by
  rw [insert]
  split
  · exact find?_of_rows_eq rfl weight [r]
  · exact find?_of_rows_eq rfl weight [r]
  · rename_i q' hadd
    exact find?_of_add hadd

theorem find?_start (weight : Float) (r : Report) (q : Queue) (tag : Tag) :
    (q.start weight r).state.find? tag
      = (q.comes (q.start weight r).state tag [r]).foldl (Turn.apply weight) (q.find? tag) := by
  simp only [start]
  split
  · exact find?_of_rows_eq rfl weight [r]
  · split
    · exact find?_of_rows_eq rfl weight [r]
    · exact find?_of_rows_eq rfl weight [r]
    · rename_i q' hadd
      show q'.find? tag = (q.comes q' tag [r]).foldl (Turn.apply weight) (q.find? tag)
      exact find?_of_add hadd

end Queue

namespace Board

variable {b : Board} {now : Instant} {event : Event} {tag : Tag}

/-! ## The turns of an action -/

/-- The turn of a transfer when an event is taken in, if it has one: its row comes with the news of
the start, and hears any other news about its transfer that is not late. -/
def turnsTakingIn (tag : Tag) (now : Instant) (event : Event) (b : Board) : List Turn :=
  match event with
  | .started r => b.queue.comes (b.takeIn now event).state.queue tag [r]
  | event =>
    if event.report.tag = tag ∧ b.queue.contains tag = true
        ∧ b.queue.hasSeen event.report.number = false then [.hear (event.moment now) event]
    else []

/-- The turn of a transfer when an event arrives, if it has one. -/
def turnsHearing (tag : Tag) (now : Instant) (event : Event) (b : Board) : List Turn :=
  if event.report.isShown then b.turnsTakingIn tag now event else []

/-- The turns of a transfer when events arrive one after the other. -/
def turnsHearingAll (tag : Tag) (now : Instant) : List Event → Board → List Turn
  | [], _ => []
  | event :: events, b =>
    let first := b.hear now event
    b.turnsHearing tag now event
      ++ match first.answer with
        | .error _ => []
        | .ok _ => turnsHearingAll tag now events first.state

/-- The turns that an action has for a transfer. -/
def turns (tag : Tag) (b : Board) (action : Action) : List Turn :=
  match action with
  | .hear now event => b.turnsHearing tag now event
  | .hearAll now events => turnsHearingAll tag now events b
  | .takeIn now event => b.turnsTakingIn tag now event
  | .load _ listing => b.queue.comes (b.perform action).state.queue tag listing.toLoad
  | .insert r _ => b.queue.comes (b.perform action).state.queue tag [r]
  | _ => if b.queue.loses (b.perform action).state.queue tag then [.go] else []

/-- The turns that a run has for a transfer, in order. -/
def course (tag : Tag) (b : Board) : List Action → List Turn
  | [] => []
  | action :: actions => b.turns tag action ++ course tag (b.perform action).state actions

/-! ### Where the turns lead -/

theorem find?_turnsTakingIn (h : b.queue.tags.Nodup) (now : Instant) (event : Event) (tag : Tag) :
    (b.takeIn now event).state.queue.find? tag
      = (b.turnsTakingIn tag now event).foldl (Turn.apply b.config.paceWeight)
          (b.queue.find? tag) := by
  by_cases hstart : ∃ r, event = .started r
  · obtain ⟨r, rfl⟩ := hstart
    simp only [turnsTakingIn, takeIn, (b.start_state_answer r).1]
    exact Queue.find?_start b.config.paceWeight r b.queue tag
  · rw [not_exists] at hstart
    have hturns : b.turnsTakingIn tag now event
        = if event.report.tag = tag ∧ b.queue.contains tag = true
            ∧ b.queue.hasSeen event.report.number = false then [.hear (event.moment now) event]
          else [] := by
      cases event <;> first | rfl | exact absurd rfl (hstart _)
    rw [hturns]
    rcases hseen : b.queue.hasSeen event.report.number with _ | _
    · rw [find?_takeIn h hstart hseen]
      by_cases htag : event.report.tag = tag
      · rcases hold : b.queue.contains tag with _ | _
        · simp [Queue.find?_eq_none_of_contains hold]
        · simp [htag, Turn.apply, Row.hear_moment]
      · simp [htag]
    · rw [takeIn_of_hasSeen hseen]
      simp

theorem find?_turnsHearing (h : b.queue.tags.Nodup) (now : Instant) (event : Event) (tag : Tag) :
    (b.hear now event).state.queue.find? tag
      = (b.turnsHearing tag now event).foldl (Turn.apply b.config.paceWeight)
          (b.queue.find? tag) := by
  rw [hear, turnsHearing]
  split
  · exact find?_turnsTakingIn h now event tag
  · rfl

theorem config_takeIn (b : Board) (now : Instant) (event : Event) :
    (b.takeIn now event).state.config = b.config := by
  cases event with
  | started r =>
    rw [takeIn, (b.start_state_answer r).1]
    rfl
  | _ => rfl

theorem config_hear (b : Board) (now : Instant) (event : Event) :
    (b.hear now event).state.config = b.config := by
  rw [hear]
  split
  · exact config_takeIn b now event
  · rfl

theorem config_hearAll (b : Board) (now : Instant) (events : List Event) :
    (hearAll now events b).state.config = b.config := by
  induction events generalizing b with
  | nil => rfl
  | cons event events ih =>
    rw [hearAll]
    split
    · exact config_hear b now event
    · exact (ih _).trans (config_hear b now event)

/-- No action changes the configuration that a board was made with. -/
theorem config_perform (b : Board) (action : Action) :
    (b.perform action).state.config = b.config := by
  cases action with
  | hear now event => exact config_hear b now event
  | hearAll now events => exact config_hearAll b now events
  | takeIn now event => exact config_takeIn b now event
  | pauseSelection rows paused =>
    simp only [perform, Outcome.mapAnswer, pauseSelection]
    split <;> rfl
  | adoptPreference =>
    simp only [perform, Outcome.mapAnswer, adoptPreference]
    split <;> rfl
  | _ => rfl

theorem find?_turnsHearingAll (h : Queue.Balanced b.queue.tally b.queue.rows) (now : Instant)
    (events : List Event) (tag : Tag) :
    (hearAll now events b).state.queue.find? tag
      = (turnsHearingAll tag now events b).foldl (Turn.apply b.config.paceWeight)
          (b.queue.find? tag) := by
  induction events generalizing b with
  | nil => rfl
  | cons event events ih =>
    have hfirst := find?_turnsHearing h.nodup now event tag
    rw [turnsHearingAll, hearAll, List.foldl_append, ← hfirst]
    rcases hanswer : (b.hear now event).answer with e | heard
    · -- the events behind it are not heard
      rfl
    · obtain ⟨cs, hwalk, -⟩ : Takes False b (b.hear now event) := takes_hear
      rw [← config_hear b now event]
      exact ih (hwalk.balanced h)

/-- When rows go, a transfer either loses its row or keeps it as it is. -/
theorem find?_of_sublist {q q' : Queue} (h : q.tags.Nodup) (hsub : q'.rows.Sublist q.rows)
    (weight : Float) (tag : Tag) :
    q'.find? tag
      = (if q.loses q' tag then [Turn.go] else []).foldl (Turn.apply weight) (q.find? tag) := by
  rw [Queue.find?_eq_ite_of_sublist h hsub, Queue.loses]
  rcases hold : q.contains tag with _ | _
  · simp [Queue.find?_eq_none_of_contains hold]
  · cases q'.contains tag <;> simp [Turn.apply]

/-- The row of a transfer after an action is the one to which its turns lead. -/
theorem find?_perform (h : Queue.Balanced b.queue.tally b.queue.rows) (action : Action)
    (tag : Tag) :
    (b.perform action).state.queue.find? tag
      = (b.turns tag action).foldl (Turn.apply b.config.paceWeight) (b.queue.find? tag) := by
  have rests : ∀ q : Queue, q.rows = b.queue.rows → q.rows.Sublist b.queue.rows := by
    intro q hrows
    rw [hrows]
  cases action with
  | hear now event => exact find?_turnsHearing h.nodup now event tag
  | hearAll now events => exact find?_turnsHearingAll h now events tag
  | takeIn now event => exact find?_turnsTakingIn h.nodup now event tag
  | insert r place => exact Queue.find?_insert b.config.paceWeight r place b.queue tag
  | load size listing =>
    have hstate : (b.perform (.load size listing)).state.queue = _ :=
      (Queue.loadListing_eq b.config.paceWeight size listing b.queue).1
    rw [turns, hstate]
    exact Queue.find?_addAll (q := b.queue.noting listing.number) h.nodup listing.toLoad
  | eraseRows rows => exact find?_of_sublist h.nodup (Queue.sublist_eraseRows rows b.queue) _ tag
  | eraseRange first count =>
    exact find?_of_sublist h.nodup (Queue.sublist_eraseRange first count b.queue) _ tag
  | dismiss rows cancel clear =>
    exact find?_of_sublist h.nodup (Queue.sublist_dismiss rows cancel clear b.queue) _ tag
  | restart restarted =>
    exact find?_of_sublist h.nodup (Queue.sublist_restart restarted b.queue) _ tag
  | moveRange first count destination =>
    exact find?_of_sublist h.nodup (rests _ (congrArg _ rests_moveRange.queue)) _ tag
  | pauseSelection rows paused =>
    exact find?_of_sublist h.nodup (rests _ (congrArg _ rests_pauseSelection.queue)) _ tag
  | adoptPreference =>
    exact find?_of_sublist h.nodup (rests _ (congrArg _ rests_adoptPreference.queue)) _ tag
  | _ => exact find?_of_sublist h.nodup (rests _ rfl) _ tag

/-- The row of a transfer after a run is the one to which its course leads. -/
theorem find?_run (h : Queue.Balanced b.queue.tally b.queue.rows) (actions : List Action)
    (tag : Tag) :
    (b.run actions).state.queue.find? tag
      = (course tag b actions).foldl (Turn.apply b.config.paceWeight) (b.queue.find? tag) := by
  induction actions generalizing b with
  | nil => rfl
  | cons action actions ih =>
    obtain ⟨cs, hwalk⟩ : ∃ cs, Queue.Walk False b.queue cs (b.perform action).state.queue :=
      walk_perform False.elim
    rw [course, List.foldl_append, ← find?_perform h, ← config_perform b action]
    exact ih (hwalk.balanced h)

/-! ### Rows that stay -/

/-- The transfer has a row before the run and after each of its actions. -/
def Keeps (tag : Tag) (b : Board) : List Action → Prop
  | [] => b.queue.contains tag = true
  | action :: actions => b.queue.contains tag = true ∧ (b.perform action).state.Keeps tag actions

instance decidableKeeps (tag : Tag) :
    (b : Board) → (actions : List Action) → Decidable (b.Keeps tag actions)
  | b, [] => inferInstanceAs (Decidable (b.queue.contains tag = true))
  | b, action :: actions =>
    have := decidableKeeps tag (b.perform action).state actions
    inferInstanceAs (Decidable (_ ∧ _))

theorem Keeps.contains {actions : List Action} (h : b.Keeps tag actions) :
    b.queue.contains tag = true := by
  cases actions with
  | nil => exact h
  | cons action actions => exact h.1

/-- The turns are those of a row that hears events of a list, all of them about its transfer. -/
def Hears (tag : Tag) (events : List Event) (turns : List Turn) : Prop :=
  ∃ heard : List (Instant × Event), turns = heard.map (fun x => .hear x.1 x.2)
    ∧ ∀ x ∈ heard, x.2 ∈ events ∧ x.2.report.tag = tag

namespace Hears

variable {events events' : List Event} {turns turns' : List Turn}

theorem nil (tag : Tag) (events : List Event) : Hears tag events [] := ⟨[], rfl, by simp⟩

theorem append (h : Hears tag events turns) (h' : Hears tag events' turns') :
    Hears tag (events ++ events') (turns ++ turns') := by
  obtain ⟨heard, rfl, hmem⟩ := h
  obtain ⟨heard', rfl, hmem'⟩ := h'
  refine ⟨heard ++ heard', List.map_append.symm, fun x hx => ?_⟩
  rcases List.mem_append.1 hx with hx | hx
  · exact ⟨List.mem_append_left _ (hmem x hx).1, (hmem x hx).2⟩
  · exact ⟨List.mem_append_right _ (hmem' x hx).1, (hmem' x hx).2⟩

/-- What the row becomes that hears the events. -/
theorem foldl_apply {heard : List (Instant × Event)} (weight : Float) (row : Row) :
    (heard.map fun x => Turn.hear x.1 x.2).foldl (Turn.apply weight) (some row)
      = some (heard.foldl (fun row x => row.hear weight x.1 x.2) row) := by
  induction heard generalizing row with
  | nil => rfl
  | cons x heard ih => exact ih _

/-- A row that hears events is still there. -/
theorem isSome_foldl (h : Hears tag events turns) (weight : Float) {row : Option Row}
    (hrow : row.isSome = true) : (turns.foldl (Turn.apply weight) row).isSome = true := by
  obtain ⟨heard, rfl, -⟩ := h
  obtain ⟨row, rfl⟩ := Option.isSome_iff_exists.1 hrow
  rw [foldl_apply]
  rfl

end Hears

theorem hears_turnsTakingIn (h : b.queue.contains tag = true) (now : Instant) (event : Event) :
    Hears tag [event] (b.turnsTakingIn tag now event) := by
  unfold turnsTakingIn
  split
  · rw [Queue.comes_of_contains h]
    exact .nil tag _
  · split
    · rename_i hevent
      exact ⟨[(event.moment now, event)], rfl, by simpa using hevent.1⟩
    · exact .nil tag _

theorem hears_turnsHearing (h : b.queue.contains tag = true) (now : Instant) (event : Event) :
    Hears tag [event] (b.turnsHearing tag now event) := by
  rw [turnsHearing]
  split
  · exact hears_turnsTakingIn h now event
  · exact .nil tag _

theorem hears_turnsHearingAll (h : Queue.Balanced b.queue.tally b.queue.rows)
    (hrow : b.queue.contains tag = true) (now : Instant) (events : List Event) :
    Hears tag events (turnsHearingAll tag now events b) := by
  induction events generalizing b with
  | nil => exact .nil tag []
  | cons event events ih =>
    have hfirst := hears_turnsHearing hrow now event
    rw [turnsHearingAll]
    refine hfirst.append ?_
    split
    · exact .nil tag events
    · -- the row is still there when the next event arrives
      obtain ⟨cs, hwalk, -⟩ : Takes False b (b.hear now event) := takes_hear
      refine ih (hwalk.balanced h) ?_
      rw [Queue.contains_eq_isSome_find?] at hrow ⊢
      rw [find?_turnsHearing h.nodup]
      exact hfirst.isSome_foldl _ hrow

/-- A row that is there before an action and after it does nothing but hear events. -/
theorem hears_turns (h : Queue.Balanced b.queue.tally b.queue.rows)
    (hrow : b.queue.contains tag = true) {action : Action}
    (hrow' : (b.perform action).state.queue.contains tag = true) :
    Hears tag action.events (b.turns tag action) := by
  have hstays : b.queue.loses (b.perform action).state.queue tag = false := by
    simp [Queue.loses, hrow']
  cases action with
  | hear now event => exact hears_turnsHearing hrow now event
  | hearAll now events => exact hears_turnsHearingAll h hrow now events
  | takeIn now event => exact hears_turnsTakingIn hrow now event
  | insert r place =>
    rw [turns, Queue.comes_of_contains hrow]
    exact .nil tag _
  | load size listing =>
    rw [turns, Queue.comes_of_contains hrow]
    exact .nil tag _
  | _ =>
    simp only [turns, hstays]
    exact .nil tag _

/-- A row that stays does nothing but hear events. -/
theorem course_of_keeps (h : Queue.Balanced b.queue.tally b.queue.rows) {actions : List Action}
    (keeps : b.Keeps tag actions) :
    Hears tag (actions.flatMap Action.events) (course tag b actions) := by
  induction actions generalizing b with
  | nil => exact .nil tag []
  | cons action actions ih =>
    obtain ⟨cs, hwalk⟩ : ∃ cs, Queue.Walk False b.queue cs (b.perform action).state.queue :=
      walk_perform False.elim
    obtain ⟨hrow, hrest⟩ := keeps
    exact (hears_turns h hrow hrest.contains).append (ih (hwalk.balanced h) hrest)

end Board

end TransferQueue
