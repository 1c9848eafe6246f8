import TransferQueue.Proofs.Dismissing

/-!
# Events and the boards that they meet

While a run goes on, events come one by one or several at once, and each of them finds the board as
the one before has left it.  An *encounter* is an event together with the board that it meets and what
comes of it.  Statements about every event of a run are statements about its encounters.

* `Board.encounters`, `Board.encountersIn`: the encounters of an action and of a run;
* `Board.perform_eq_encounters`: what an action that brings events does is what its encounters do;
* `Board.mem_encountersIn`: a board that is met in a run is one to which a run leads.
-/

namespace TransferQueue

/-- An event that comes to a board. -/
structure Encounter where
  /-- The board as the event finds it. -/
  board : Board
  /-- The event. -/
  event : Event
  /-- What comes of it. -/
  outcome : Outcome Board (Except Overflow Bool)

/-- The outcome is that of the event on the board, be it passed on whatever its transfer is or only if
its transfer is of a kind that is shown. -/
def Encounter.Genuine (e : Encounter) : Prop :=
  ∃ now, e.outcome = e.board.hear now e.event ∨ e.outcome = e.board.takeIn now e.event

namespace Board

/-- The encounters when events come one after the other.  Those behind one that fails do not come. -/
def encountersHearing (now : Instant) : List Event → Board → List Encounter
  | [], _ => []
  | event :: events, b =>
    let first := b.hear now event
    ⟨b, event, first⟩ ::
      match first.answer with
      | .error _ => []
      | .ok _ => encountersHearing now events first.state

/-- The encounters of an action. -/
def encounters (b : Board) : Action → List Encounter
  | .hear now event => [⟨b, event, b.hear now event⟩]
  | .hearAll now events => encountersHearing now events b
  | .takeIn now event => [⟨b, event, b.takeIn now event⟩]
  | _ => []

/-- The encounters of a run. -/
def encountersIn (b : Board) : List Action → List Encounter
  | [] => []
  | action :: actions => b.encounters action ++ encountersIn (b.perform action).state actions

variable {b : Board} {e : Encounter}

/-! ## Actions that bring events -/

theorem hearAll_eq_encounters (now : Instant) (events : List Event) (b : Board) :
    (hearAll now events b).state
        = ((encountersHearing now events b).getLast?.map (·.outcome.state)).getD b
      ∧ (hearAll now events b).changes
        = (encountersHearing now events b).flatMap (·.outcome.changes)
      ∧ (hearAll now events b).commands
        = (encountersHearing now events b).flatMap (·.outcome.commands) := by
  induction events generalizing b with
  | nil => exact ⟨rfl, rfl, rfl⟩
  | cons event events ih =>
    rw [encountersHearing, hearAll]
    rcases hanswer : (b.hear now event).answer with failed | heard
    · exact ⟨rfl, (List.append_nil _).symm, (List.append_nil _).symm⟩
    · obtain ⟨hstate, hchanges, hcommands⟩ := ih (b.hear now event).state
      refine ⟨?_, congrArg _ hchanges, congrArg _ hcommands⟩
      -- if no other event comes, the state is the one that the first has left
      show (hearAll now events (b.hear now event).state).state = _
      rw [hstate, List.getLast?_cons, Option.map_some, Option.getD_some]
      cases (encountersHearing now events (b.hear now event).state).getLast? <;> rfl

/-- What an action that brings events does is what its encounters do, one after the other. -/
theorem perform_eq_encounters {action : Action} (h : action.events ≠ []) :
    (b.perform action).state
        = ((b.encounters action).getLast?.map (·.outcome.state)).getD b
      ∧ (b.perform action).changes = (b.encounters action).flatMap (·.outcome.changes)
      ∧ (b.perform action).commands = (b.encounters action).flatMap (·.outcome.commands) := by
  cases action with
  | hear now event => exact ⟨rfl, (List.append_nil _).symm, (List.append_nil _).symm⟩
  | takeIn now event => exact ⟨rfl, (List.append_nil _).symm, (List.append_nil _).symm⟩
  | hearAll now events => exact hearAll_eq_encounters now events b
  | _ => exact absurd rfl h

/-! ## The boards that are met -/

theorem Reached.perform (h : b.Reached) (action : Action) : (b.perform action).state.Reached :=
  h.run [action]

theorem mem_encountersHearing {now : Instant} {events : List Event} (h : b.Reached)
    (he : e ∈ encountersHearing now events b) : e.board.Reached ∧ e.Genuine := by
  induction events generalizing b with
  | nil => cases he
  | cons event events ih =>
    rw [encountersHearing] at he
    rcases List.mem_cons.1 he with rfl | he
    · exact ⟨h, now, .inl rfl⟩
    · split at he
      · cases he
      · exact ih (h.perform (.hear now event)) he

theorem mem_encounters {action : Action} (h : b.Reached) (he : e ∈ b.encounters action) :
    e.board.Reached ∧ e.Genuine := by
  cases action with
  | hear now event =>
    obtain rfl := List.mem_singleton.1 he
    exact ⟨h, now, .inl rfl⟩
  | takeIn now event =>
    obtain rfl := List.mem_singleton.1 he
    exact ⟨h, now, .inr rfl⟩
  | hearAll now events => exact mem_encountersHearing h he
  | _ => cases he

/-- The boards that events meet in a run are boards to which runs lead. -/
theorem mem_encountersIn {actions : List Action} (h : b.Reached)
    (he : e ∈ b.encountersIn actions) : e.board.Reached ∧ e.Genuine := by
  induction actions generalizing b with
  | nil => cases he
  | cons action actions ih =>
    rcases List.mem_append.1 he with he | he
    · exact mem_encounters h he
    · exact ih (h.perform action) he

end Board

end TransferQueue
