import TransferQueue.Proofs.Lifetime

/-!
# Stays

A transfer may come to the queue more than once.  Each time it *stays* for a while: its row is made of a
report, hears events, and goes.  Nothing of an earlier stay is left when the row comes again, so the row
that a run leads to can be told from the last stay alone: from the report that it was made of and from
the events that it has heard since.

* `Stay`, `Board.stay?`: the stay in which a run leaves a transfer;
* `Board.find?_run_new`: the row is what the stay makes of it;
* `Board.about_course`: a stay is made of the reports and events that are about its transfer;
* `Board.Reached.forall_rows`: what holds of a row that comes, and is kept when it hears an event, holds
  of every row of a board that is reached.
-/

namespace TransferQueue

/-- Whether an event is the end of a transfer. -/
def Event.isEnd : Event → Bool
  | .finished _ _ => true
  | _ => false

/-- Only an end takes a row into a finished phase or out of one. -/
theorem Row.isFinished_hear_of_not_isEnd {event : Event} (h : event.isEnd = false) (weight : Float)
    (now : Instant) (row : Row) :
    (row.hear weight now event).entry.phase.isFinished = row.entry.phase.isFinished := by
  have hends : event.ends event.report.tag = false := by
    cases event with
    | finished r fault => cases h
    | _ => rfl
  exact (goesOn_hear rfl hends weight now row).isFinished

/-- What a row has been through since it came. -/
structure Stay where
  /-- The report that the row was made of. -/
  report : Report
  /-- The events that it has heard since, in order, each with its moment. -/
  heard : List (Instant × Event)
deriving DecidableEq, Repr

namespace Stay

/-- The stay of a row that has heard one more event. -/
def hear (now : Instant) (event : Event) (s : Stay) : Stay :=
  { s with heard := s.heard ++ [(now, event)] }

/-- The row that a stay leads to. -/
def row? (weight : Float) (s : Stay) : Option Row :=
  (Row.ofReport weight s.report).toOption.map fun row =>
    s.heard.foldl (fun row x => row.hear weight x.1 x.2) row

variable {weight : Float} {s : Stay} {row : Row}

theorem row?_hear (weight : Float) (now : Instant) (event : Event) (s : Stay) :
    (s.hear now event).row? weight = (s.row? weight).map (Row.hear weight now event) := by
  simp only [row?, hear, List.foldl_append, Option.map_map]
  rfl

theorem row?_eq_some (h : s.row? weight = some row) :
    ∃ made, Row.ofReport weight s.report = .ok made
      ∧ s.heard.foldl (fun row x => row.hear weight x.1 x.2) made = row := by
  obtain ⟨made, hmade, hrow⟩ := Option.map_eq_some_iff.1 h
  refine ⟨made, ?_, hrow⟩
  rcases hof : Row.ofReport weight s.report with failed | row'
  · rw [hof] at hmade
    cases hmade
  · rw [hof] at hmade
    rw [← Option.some.inj hmade]

end Stay

/-- The stay of a transfer after a turn, if it has one. -/
def Turn.follow (stay : Option Stay) : Turn → Option Stay
  | .come r => some ⟨r, []⟩
  | .hear now event => stay.map (Stay.hear now event)
  | .go => none

namespace Turn

/-- A turn does to the row what it does to the stay. -/
theorem row?_follow (weight : Float) (stay : Option Stay) (turn : Turn) :
    (turn.follow stay).bind (Stay.row? weight) = turn.apply weight (stay.bind (Stay.row? weight)) := by
  cases turn with
  | come r =>
    show (Row.ofReport weight r).toOption.map id = (Row.ofReport weight r).toOption
    exact congrFun Option.map_id _
  | hear now event =>
    cases stay with
    | none => rfl
    | some s => exact s.row?_hear weight now event
  | go => rfl

theorem row?_foldl_follow (weight : Float) (turns : List Turn) (stay : Option Stay) :
    (turns.foldl follow stay).bind (Stay.row? weight)
      = turns.foldl (apply weight) (stay.bind (Stay.row? weight)) := by
  induction turns generalizing stay with
  | nil => rfl
  | cons turn turns ih =>
    rw [List.foldl_cons, List.foldl_cons, ih, row?_follow]

/-- What a turn tells of a transfer comes from a list of events, and it is about the transfer. -/
def About (tag : Tag) (events : List Event) : Turn → Prop
  | .come r => r.tag = tag
  | .hear _ event => event ∈ events ∧ event.report.tag = tag
  | .go => True

theorem About.mono {tag : Tag} {events events' : List Event} (hsub : events ⊆ events') {turn : Turn}
    (h : turn.About tag events) : turn.About tag events' := by
  cases turn with
  | come r => exact h
  | hear now event => exact ⟨hsub h.1, h.2⟩
  | go => trivial

/-- A stay is about the transfer of its turns. -/
theorem about_follow {tag : Tag} {events : List Event} {turns : List Turn}
    (h : ∀ turn ∈ turns, turn.About tag events) {stay : Option Stay}
    (hstay : ∀ s ∈ stay, s.report.tag = tag
      ∧ ∀ x ∈ s.heard, x.2 ∈ events ∧ x.2.report.tag = tag) :
    ∀ s ∈ turns.foldl follow stay, s.report.tag = tag
      ∧ ∀ x ∈ s.heard, x.2 ∈ events ∧ x.2.report.tag = tag := by
  induction turns generalizing stay with
  | nil => exact hstay
  | cons turn turns ih =>
    obtain ⟨hturn, hturns⟩ := List.forall_mem_cons.1 h
    refine ih hturns ?_
    intro s hs
    cases turn with
    | come r =>
      obtain rfl : ⟨r, []⟩ = s := Option.some.inj hs
      exact ⟨hturn, fun x hx => absurd hx List.not_mem_nil⟩
    | hear now event =>
      obtain ⟨before, hbefore, rfl⟩ := Option.map_eq_some_iff.1 hs
      obtain ⟨htag, hheard⟩ := hstay before hbefore
      refine ⟨htag, fun x hx => ?_⟩
      rcases List.mem_append.1 hx with hx | hx
      · exact hheard x hx
      · rw [List.mem_singleton.1 hx]
        exact hturn
    | go => cases hs

end Turn

namespace Board

variable {b : Board} {tag : Tag}

/-- The stay in which a run from a board without rows leaves a transfer, if it has a row then. -/
def stay? (tag : Tag) (b : Board) (actions : List Action) : Option Stay :=
  (course tag b actions).foldl Turn.follow none

/-- The row of a transfer after a run is what its stay makes of it. -/
theorem find?_run_new (config : Config) (preference : Preference) (actions : List Action)
    (tag : Tag) :
    ((new config preference).run actions).state.queue.find? tag
      = ((new config preference).stay? tag actions).bind (Stay.row? config.paceWeight) := by
  rw [find?_run .nil, stay?, Turn.row?_foldl_follow]
  rfl

/-! ## What a stay is made of -/

theorem about_comes {q q' : Queue} (offered : List Report) (events : List Event) :
    ∀ turn ∈ q.comes q' tag offered, turn.About tag events := by
  intro turn hturn
  rw [Queue.comes] at hturn
  split at hturn
  · obtain ⟨r, hr, rfl⟩ := Option.map_eq_some_iff.1 (Option.mem_toList.1 hturn)
    have htag := List.find?_some hr
    exact eq_of_beq htag
  · exact absurd hturn List.not_mem_nil

theorem about_turnsTakingIn (tag : Tag) (now : Instant) (event : Event) (b : Board) :
    ∀ turn ∈ b.turnsTakingIn tag now event, turn.About tag [event] := by
  unfold turnsTakingIn
  split
  · exact about_comes _ _
  · split
    · rename_i hevent
      intro turn hturn
      rw [List.mem_singleton.1 hturn]
      exact ⟨List.mem_singleton_self _, hevent.1⟩
    · exact fun turn hturn => absurd hturn List.not_mem_nil

theorem about_turnsHearing (tag : Tag) (now : Instant) (event : Event) (b : Board) :
    ∀ turn ∈ b.turnsHearing tag now event, turn.About tag [event] := by
  rw [turnsHearing]
  split
  · exact about_turnsTakingIn tag now event b
  · exact fun turn hturn => absurd hturn List.not_mem_nil

theorem about_turnsHearingAll (tag : Tag) (now : Instant) (events : List Event) (b : Board) :
    ∀ turn ∈ turnsHearingAll tag now events b, turn.About tag events := by
  induction events generalizing b with
  | nil => exact fun turn hturn => absurd hturn List.not_mem_nil
  | cons event events ih =>
    intro turn hturn
    rw [turnsHearingAll] at hturn
    rcases List.mem_append.1 hturn with hturn | hturn
    · exact (about_turnsHearing tag now event b turn hturn).mono (by simp)
    · split at hturn
      · exact absurd hturn List.not_mem_nil
      · exact (ih _ turn hturn).mono (List.subset_cons_self event events)

/-- The turns that an action has for a transfer are about the transfer, and bring the events of the
action. -/
theorem about_turns (tag : Tag) (b : Board) (action : Action) :
    ∀ turn ∈ b.turns tag action, turn.About tag action.events := by
  cases action with
  | hear now event => exact about_turnsHearing tag now event b
  | hearAll now events => exact about_turnsHearingAll tag now events b
  | takeIn now event => exact about_turnsTakingIn tag now event b
  | load size listing => exact about_comes _ _
  | insert r place => exact about_comes _ _
  | _ =>
    intro turn hturn
    simp only [turns] at hturn
    split at hturn
    · rw [List.mem_singleton.1 hturn]
      trivial
    · exact absurd hturn List.not_mem_nil

/-- The course of a transfer is about the transfer, and brings the events of the run. -/
theorem about_course (tag : Tag) (b : Board) (actions : List Action) :
    ∀ turn ∈ course tag b actions, turn.About tag (actions.flatMap Action.events) := by
  induction actions generalizing b with
  | nil => exact fun turn hturn => absurd hturn List.not_mem_nil
  | cons action actions ih =>
    intro turn hturn
    rw [course] at hturn
    rw [List.flatMap_cons]
    rcases List.mem_append.1 hturn with hturn | hturn
    · exact (about_turns tag b action turn hturn).mono (List.subset_append_left _ _)
    · exact (ih _ turn hturn).mono (List.subset_append_right _ _)

/-- The row of a stay was made of a report about its transfer, and has heard events of the run that are
about its transfer. -/
theorem about_stay {actions : List Action} {s : Stay} (h : b.stay? tag actions = some s) :
    s.report.tag = tag
      ∧ ∀ x ∈ s.heard, x.2 ∈ actions.flatMap Action.events ∧ x.2.report.tag = tag :=
  Turn.about_follow (about_course tag b actions) (fun s hs => by cases hs) s h

/-- A transfer that has failed and starts again stays anew. -/
example : (new {} (.memory false)).stay? 1
    [.hear .epoch (.started (.bare 1 .upload 5 1)),
      .hear .epoch (.finished { Report.bare 1 .upload 5 2 with phase := .failed } none),
      .restart 1, .hear .epoch (.started (.bare 1 .upload 5 3))]
      = some ⟨.bare 1 .upload 5 3, []⟩ := by
  decide +kernel

/-! ## What holds of all rows -/

/-- What holds of a row that comes, and is kept when it hears an event, holds of every row. -/
theorem Reached.forall_rows (h : b.Reached) {P : Row → Prop}
    (come : ∀ weight r row, Row.ofReport weight r = .ok row → P row)
    (hear : ∀ weight now event row, P row → P (Row.hear weight now event row)) :
    ∀ row ∈ b.queue.rows, P row := by
  intro row hmem
  have hfound : b.queue.find? row.tag = some row :=
    (Queue.find?_eq_some_iff h.balanced.nodup).2 ⟨hmem, rfl⟩
  obtain ⟨config, preference, actions, rfl⟩ := h
  rw [find?_run_new] at hfound
  obtain ⟨s, -, hrow⟩ := Option.bind_eq_some_iff.1 hfound
  obtain ⟨made, hmade, rfl⟩ := Stay.row?_eq_some hrow
  -- by induction on the events that the row has heard
  have hholds : ∀ (heard : List (Instant × Event)) (row : Row), P row →
      P (heard.foldl (fun row x => row.hear config.paceWeight x.1 x.2) row) := by
    intro heard
    induction heard with
    | nil => exact fun _ hrow => hrow
    | cons x heard ih => exact fun row hrow => ih _ (hear _ x.1 x.2 row hrow)
  exact hholds s.heard made (come _ _ made hmade)

end Board

end TransferQueue
