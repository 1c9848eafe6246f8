import TransferQueue.Proofs.Signals

/-!
# The presence signal

Presence is told when, and only when, it has changed.  So the signals of a run alternate, and the last
of them says whether there are rows.

* `Board.presences_perform`: what an action tells of presence;
* `Board.alternates_run`: the signals of a run from any board on;
* `Board.presence_alternates`: those of a run from a board without rows.
-/

namespace TransferQueue

namespace Board

open Change (presences)
open Queue (crossing)

variable {b : Board}

/-- Unless a time cannot be expressed, an action tells of presence exactly what has changed of it. -/
theorem presences_perform {action : Action} (h : (b.perform action).answer ≠ .overflow) :
    presences (b.perform action).changes
      = b.queue.crossing (b.perform action).state.queue := by
  rcases perform_cases b action with habides | ⟨paused, hdecides⟩ | ⟨paused, rfl⟩
  · exact habides.signals.presences h
  · rw [hdecides.silent, Queue.crossing_of_rows_eq (congrArg Queue.rows hdecides.queue)]
  · exact (Queue.crossing_of_rows_eq rfl).symm

/-! ## Runs -/

/-- Signals that alternate, the first of them being `first`. -/
def Alternates : Bool → List Bool → Prop
  | _, [] => True
  | first, signal :: signals => signal = first ∧ Alternates (!first) signals

/-- From any board on, the signals of a run alternate, and the last of them says whether there are
rows.  If there is none, that is as it was. -/
theorem alternates_run {actions : List Action} (h : .overflow ∉ (b.run actions).answer) :
    Alternates b.queue.rows.isEmpty (presences (b.run actions).changes)
      ∧ (presences (b.run actions).changes).getLast?.getD (!b.queue.rows.isEmpty)
        = !(b.run actions).state.queue.rows.isEmpty := by
  induction actions generalizing b with
  | nil => exact ⟨trivial, rfl⟩
  | cons action actions ih =>
    obtain ⟨hfirst, hrest⟩ := not_overflow_of_run_cons h
    obtain ⟨halternates, hlast⟩ := ih hrest
    have hchanges : (b.run (action :: actions)).changes
        = (b.perform action).changes ++ ((b.perform action).state.run actions).changes := rfl
    have hstate : (b.run (action :: actions)).state = ((b.perform action).state.run actions).state :=
      rfl
    rw [hchanges, hstate, Change.presences_append, presences_perform hfirst, crossing]
    split
    · -- the action tells nothing
      rename_i hsame
      rw [hsame]
      exact ⟨halternates, hlast⟩
    · rename_i hchanged
      have hnot : b.queue.rows.isEmpty = !(b.perform action).state.queue.rows.isEmpty :=
        Bool.eq_not.2 hchanged
      refine ⟨⟨hnot.symm, ?_⟩, ?_⟩
      · rwa [hnot, Bool.not_not]
      · rwa [List.singleton_append, List.getLast?_cons, Option.getD_some]

/-- In a run from a board without rows, the signals alternate and begin with the presence of rows.
After it, the last of them, or else absence, says whether there are rows; and whatever is done next
tells of presence if and only if there are rows where there were none, or the other way round. -/
theorem presence_alternates (config : Config) (preference : Preference) {actions : List Action}
    (h : .overflow ∉ ((new config preference).run actions).answer) :
    let o := (new config preference).run actions
    Alternates true (presences o.changes)
      ∧ (presences o.changes).getLast?.getD false = !o.state.queue.rows.isEmpty
      ∧ ∀ action, (o.state.perform action).answer ≠ .overflow →
          presences (o.state.perform action).changes
            = if o.state.queue.rows.isEmpty = (o.state.perform action).state.queue.rows.isEmpty then []
              else [!(o.state.perform action).state.queue.rows.isEmpty] := by
  intro o
  obtain ⟨halternates, hlast⟩ := alternates_run h
  exact ⟨halternates, hlast, fun action hanswer => presences_perform hanswer⟩

/-- A transfer that comes and goes, and then fails and is tried again. -/
def comingAndGoing : List Action :=
  [.eraseRows [0], .hear .epoch (.started (.bare 1 .download 5 1)), .eraseRange 0 1,
    .insert { Report.bare 2 .upload 5 2 with phase := .failed } 0,
    .insert (.bare 1 .download 5 3) 1, .restart 2, .dismiss [0] true true,
    .hear .epoch (.finished { Report.bare 1 .download 5 4 with phase := .completed } none)]

theorem presence_while_coming_and_going :
    .overflow ∉ ((new {} (.memory false)).run comingAndGoing).answer
      ∧ Alternates true (presences ((new {} (.memory false)).run comingAndGoing).changes)
      ∧ (presences ((new {} (.memory false)).run comingAndGoing).changes).getLast? = some true
      ∧ presences ((((new {} (.memory false)).run comingAndGoing).state.perform
          (.dismiss [0] true true)).changes) = [false] := by
  have h : .overflow ∉ ((new {} (.memory false)).run comingAndGoing).answer := by decide +kernel
  obtain ⟨halternates, hlast, hnext⟩ := presence_alternates {} (.memory false) h
  have hrows : ((new {} (.memory false)).run comingAndGoing).state.queue.rows.isEmpty = false := by
    decide +kernel
  refine ⟨h, halternates, ?_, ?_⟩
  · rw [hrows] at hlast
    rcases hsignals : (presences ((new {} (.memory false)).run comingAndGoing).changes).getLast?
      with _ | signal
    · simp [hsignals] at hlast
    · simpa [hsignals] using hlast
  · rw [hnext _ (by decide +kernel)]
    decide +kernel

end Board

end TransferQueue
