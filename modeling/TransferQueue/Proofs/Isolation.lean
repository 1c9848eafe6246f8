import TransferQueue.Proofs.Course

/-!
# Isolation of transfers

The rows of a board share a queue, a watermark and a tally, and still no transfer is the worse for
another one.  An action that neither brings a transfer nor takes it away, and tells nothing about it,
leaves its row alone.  What is more, two runs that treat a transfer alike end with the same row of it,
however they treat all others.

* `Board.turns_eq_nil`: when an action has no turn for a transfer;
* `Board.isolation`: the row of a transfer after one action, and after two runs.
-/

namespace TransferQueue

namespace Board

variable {b : Board} {now : Instant} {event : Event} {events : List Event} {tag : Tag}

theorem turnsTakingIn_eq_nil (h : event.report.tag ≠ tag) : b.turnsTakingIn tag now event = [] := by
  cases event with
  | started r => exact Queue.comes_of_forall_ne (List.forall_mem_singleton.2 h)
  | _ => exact if_neg fun hevent => h hevent.1

theorem turnsHearing_eq_nil (h : event.report.tag ≠ tag) : b.turnsHearing tag now event = [] := by
  rw [turnsHearing, turnsTakingIn_eq_nil h, ite_self]

theorem turnsHearingAll_eq_nil (h : ∀ event ∈ events, event.report.tag ≠ tag) :
    turnsHearingAll tag now events b = [] := by
  induction events generalizing b with
  | nil => rfl
  | cons event events ih =>
    rw [List.forall_mem_cons] at h
    rw [turnsHearingAll, turnsHearing_eq_nil h.1]
    split
    · rfl
    · exact ih h.2

/-- An action that neither brings a transfer nor takes it away, and tells nothing about it, has no
turn for it. -/
theorem turns_eq_nil {action : Action}
    (hcontains : (b.perform action).state.queue.contains tag = b.queue.contains tag)
    (hevents : ∀ event ∈ action.events, event.report.tag ≠ tag) : b.turns tag action = [] := by
  have hgains : b.queue.gains (b.perform action).state.queue tag = false := by
    simp [Queue.gains, hcontains]
  have hloses : b.queue.loses (b.perform action).state.queue tag = false := by
    simp [Queue.loses, hcontains]
  cases action with
  | hear now event => exact turnsHearing_eq_nil (hevents event (List.mem_singleton_self event))
  | hearAll now events => exact turnsHearingAll_eq_nil hevents
  | takeIn now event => exact turnsTakingIn_eq_nil (hevents event (List.mem_singleton_self event))
  | insert r place => exact Queue.comes_eq_nil hgains [r]
  | load size listing => exact Queue.comes_eq_nil hgains listing.toLoad
  | _ => simp only [turns, hloses, Bool.false_eq_true, if_false]

/-- An action changes no row but those of the transfers that it brings, takes away or tells about.
Two runs end with the same row of a transfer, or both without one, if they have the same turns for it
and weigh its speeds alike. -/
theorem isolation (tag : Tag) :
    (∀ (b : Board) (action : Action), b.Reached →
        (b.perform action).state.queue.contains tag = b.queue.contains tag →
        (∀ event ∈ action.events, event.report.tag ≠ tag) →
        (b.perform action).state.queue.find? tag = b.queue.find? tag)
      ∧ ∀ (config config' : Config) (preference preference' : Preference)
          (actions actions' : List Action), config.paceWeight = config'.paceWeight →
          course tag (new config preference) actions = course tag (new config' preference') actions' →
          ((new config preference).run actions).state.queue.find? tag
            = ((new config' preference').run actions').state.queue.find? tag := by
  constructor
  · intro b action hb hcontains hevents
    rw [find?_perform hb.balanced, turns_eq_nil hcontains hevents]
    rfl
  · intro config config' preference preference' actions actions' hweight hcourse
    rw [find?_run .nil, find?_run .nil, hcourse]
    show _ = List.foldl (Turn.apply config'.paceWeight) none _
    rw [← hweight]
    rfl

/-- A transfer comes and is heard of, amid the news of another one that is cleared in the end. -/
def amongOthers : List Action :=
  [.hear .epoch (.started (.bare 2 .download 5 1)), .hear .epoch (.started (.bare 1 .download 5 2)),
    .hear .epoch (.finished { Report.bare 2 .download 5 3 with phase := .completed } none),
    .hear .epoch (.updated { Report.bare 1 .download 4 5 with doneBytes := 300, speed := 70 }),
    .hear .epoch (.updated { Report.bare 1 .download 3 4 with doneBytes := 900 }),
    .hear .epoch (.hindered { Report.bare 1 .download 3 6 with phase := .retrying, speed := 10 } none),
    .dismiss [0, 1] true true]

/-- The same transfer without the other one. -/
def alone : List Action :=
  [.insert (.bare 1 .download 5 2) 0,
    .hear .epoch (.updated { Report.bare 1 .download 4 5 with doneBytes := 300, speed := 70 }),
    .pauseAll true,
    .hear .epoch (.hindered { Report.bare 1 .download 3 6 with phase := .retrying, speed := 10 } none)]

theorem isolation_among_others :
    ((new {} (.memory false)).run amongOthers).state.queue.find? 1
        = ((new { rowsPerChunk := 1 } (.memory true)).run alone).state.queue.find? 1
      ∧ (((new {} (.memory false)).run alone).state.perform
          (.hear .epoch (.started (.bare 2 .download 5 7)))).state.queue.find? 1
        = ((new {} (.memory false)).run alone).state.queue.find? 1 :=
  ⟨(isolation 1).2 {} { rowsPerChunk := 1 } (.memory false) (.memory true) amongOthers alone rfl
      (by decide +kernel),
    (isolation 1).1 _ _ ⟨{}, .memory false, alone, rfl⟩ (by decide +kernel) (by decide +kernel)⟩

end Board

end TransferQueue
