import TransferQueue.Proofs.Walks

/-!
# Late events have no effect

The engine may tell something twice, or late.  What the board does then is compared with what it does
when nothing of the kind is told: the late events are taken out of a run, and state, changes and
commands stay the same.

Whether an event is late is said without looking into the board, by the numbers that have come
before it.  So the proof has to show that the watermark is always the greatest of these numbers,
whatever comes of the reports that bear them.

* `Board.watermark_perform`: the watermark after an action;
* `Board.perform_of_isLate`: what late events do;
* `Board.late_events_vanish`: runs without their late events.
-/

namespace TransferQueue

namespace Outcome

variable {σ τ α β γ δ : Type}

/-- What an operation does besides answering. -/
def effect (o : Outcome σ α) : σ × List Change × List Command := (o.state, o.changes, o.commands)

@[simp] theorem effect_mapAnswer (f : α → β) (o : Outcome σ α) :
    (o.mapAnswer f).effect = o.effect := rfl

/-- Outcomes with the same effects have the same effect one after the other. -/
theorem effect_after {o : Outcome σ α} {o' : Outcome σ β} {first : Outcome τ γ}
    {first' : Outcome τ δ} (h : o.effect = o'.effect) (hfirst : first.effect = first'.effect) :
    (o.after first).effect = (o'.after first').effect := by
  obtain ⟨hstate, hchanges, hcommands⟩ : o.state = o'.state ∧ o.changes = o'.changes
      ∧ o.commands = o'.commands := by simpa [effect] using h
  obtain ⟨-, hchanges', hcommands'⟩ : first.state = first'.state
      ∧ first.changes = first'.changes ∧ first.commands = first'.commands := by
    simpa [effect] using hfirst
  simp only [effect, after, hstate, hchanges, hcommands, hchanges', hcommands']

end Outcome

/-! ## The greater of two numbers -/

theorem max_of_le {m n : UInt64} (h : n ≤ m) : max m n = m := by
  show (if m ≤ n then n else m) = m
  split
  · exact UInt64.le_antisymm h ‹_›
  · rfl

theorem max_of_not_le {m n : UInt64} (h : ¬ n ≤ m) : max m n = n :=
  if_pos (UInt64.le_of_lt (UInt64.not_le.1 h))

theorem max_eq_ite (m n : UInt64) : max m n = if m < n then n else m := by
  by_cases h : n ≤ m
  · rw [max_of_le h, if_neg (UInt64.not_lt.2 h)]
  · rw [max_of_not_le h, if_pos (UInt64.not_le.1 h)]

theorem max_max (m n : UInt64) : max (max m n) n = max m n := by
  by_cases h : n ≤ m
  · rw [max_of_le h, max_of_le h]
  · rw [max_of_not_le h, max_of_le (UInt64.le_refl n)]

/-! ## What operations do to the watermark -/

namespace Queue

variable {weight : Float} {q : Queue}

/-- A late report does not have a greater number than the watermark. -/
theorem max_of_hasSeen {number : UInt64} (h : q.hasSeen number = true) :
    max q.watermark number = q.watermark :=
  max_of_le (by simpa [hasSeen] using h)

theorem max_of_not_hasSeen {number : UInt64} (h : ¬ q.hasSeen number = true) :
    max q.watermark number = number :=
  max_of_not_le (by simpa [hasSeen] using h)

/-- The start of a transfer raises the watermark, unless its time cannot be expressed. -/
theorem watermark_start {r : Report} (h : (q.start weight r).answer ≠ .error .tooLong) :
    (q.start weight r).state.watermark = max q.watermark r.number := by
  unfold start at h ⊢
  by_cases hseen : q.hasSeen r.number = true
  · rw [if_pos hseen, max_of_hasSeen hseen]
    rfl
  · rw [if_neg hseen] at h ⊢
    rw [max_of_not_hasSeen hseen]
    simp only at h ⊢
    split at h
    · exact absurd rfl h
    · rfl
    · rfl

/-- Reports on shown transfers raise the watermark, whatever else they do. -/
theorem watermark_takeIn {r : Report}
    {act : Queue → Nat → Row → Outcome Queue (Except Overflow Bool)}
    (hact : ∀ q place row, (act q place row).state.watermark = q.watermark) :
    (takeIn r act q).state.watermark = max q.watermark r.number := by
  rw [takeIn]
  by_cases hseen : q.hasSeen r.number = true
  · rw [if_pos hseen, max_of_hasSeen hseen]
    rfl
  · rw [if_neg hseen, max_of_not_hasSeen hseen]
    simp only
    split
    · rfl
    · exact hact _ _ _

theorem watermark_settle (q : Queue) (place : Nat) (priority : UInt64) (row : Row) :
    (q.settle place priority row).state.watermark = q.watermark := by
  simp only [settle]
  split <;> rfl

theorem watermark_update {r : Report} :
    (q.update weight r).state.watermark = max q.watermark r.number := by
  refine watermark_takeIn ?_
  intro q place row
  split
  · rfl
  · split
    · rfl
    · exact watermark_settle _ _ _ _

theorem watermark_hinder {r : Report} {fault : Option Fault} :
    (q.hinder weight r fault).state.watermark = max q.watermark r.number := by
  refine watermark_takeIn ?_
  intro q place row
  split <;> rfl

theorem watermark_finish {now : Instant} {r : Report} {fault : Option Fault} :
    (q.finish now r fault).state.watermark = max q.watermark r.number :=
  watermark_takeIn fun _ _ _ => rfl

theorem watermark_insert {r : Report} {place : Nat} :
    (q.insert weight r place).state.watermark = q.watermark := by
  rw [insert]
  split
  · rfl
  · rfl
  · rename_i q' hadd
    obtain ⟨row, -, rfl, -⟩ := add_eq_ok_some hadd
    rfl

/-! ### Loading -/

theorem watermark_loadRun (rs : List Report) (s : Load) :
    (Load.run weight rs s).1.queue.watermark = s.queue.watermark := by
  induction rs generalizing s with
  | nil => rfl
  | cons r rs ih =>
    simp only [Load.run]
    split
    · exact congrArg watermark (Load.queue_prepare s _)
    · rw [ih, Load.queue_prepare]
    · rename_i q' hadd
      obtain ⟨row, -, rfl, -⟩ := add_eq_ok_some hadd
      rw [ih]
      show (s.prepare _).queue.watermark = s.queue.watermark
      rw [Load.queue_prepare]

theorem watermark_loadChunk {number : UInt64} {chunk : List Report} :
    (q.loadChunk weight number chunk).state.watermark = max q.watermark number := by
  have hmax := max_eq_ite q.watermark number
  have hrun := @watermark_loadRun weight chunk
    ⟨{ q with watermark := if q.watermark < number then number else q.watermark }, none, 0, []⟩
  simp only [loadChunk]
  split
  · rename_i s heq
    rw [heq] at hrun
    exact hrun.trans hmax.symm
  · rename_i s heq
    rw [heq] at hrun
    exact (congrArg watermark (Load.queue_flush s)).trans (hrun.trans hmax.symm)

theorem watermark_loadChunks {number : UInt64} {chunk : List Report} {parts : List (List Report)} :
    (q.loadChunks weight number (chunk :: parts)).state.watermark = max q.watermark number := by
  induction parts generalizing q chunk with
  | nil =>
    simp only [loadChunks]
    split
    · exact watermark_loadChunk
    · exact watermark_loadChunk
  | cons next parts ih =>
    rw [loadChunks]
    split
    · exact watermark_loadChunk
    · show (loadChunks weight number (next :: parts) _).state.watermark = _
      rw [ih, watermark_loadChunk, max_max]

theorem watermark_loadListing {size : Nat} {listing : Listing} :
    (q.loadListing weight size listing).state.watermark = max q.watermark listing.number := by
  rw [loadListing]
  split
  · exact watermark_loadChunk
  · rename_i parts hparts
    rcases hchunks : chunks size listing.toLoad with _ | ⟨chunk, parts⟩
    · exact absurd hchunks hparts
    · exact watermark_loadChunks

/-- No step lowers the watermark. -/
theorem Step.watermark_le {placed : Prop} {q q' : Queue} {cs : List Change}
    (step : Step placed q cs q') : q.watermark ≤ q'.watermark := by
  cases step with
  | note rises => exact rises
  | settle located made =>
    rw [watermark_settle]
    exact UInt64.le_refl _
  | _ => exact UInt64.le_refl _

/-! ### Rows that go -/

theorem watermark_eraseRuns (runs : List Run) (q : Queue) :
    (q.eraseRuns runs).watermark = q.watermark := by
  induction runs generalizing q with
  | nil => rfl
  | cons run runs ih => exact ih _

theorem watermark_restart {tag : Tag} : (q.restart tag).state.watermark = q.watermark := by
  rw [restart]
  split
  · rfl
  · split <;> rfl

theorem watermark_eraseRange {first count : Nat} :
    (q.eraseRange first count).state.watermark = q.watermark := by
  rw [eraseRange]
  split <;> rfl

theorem watermark_flush (s : Sweep) : s.flush.queue.watermark = s.queue.watermark := by
  rw [Sweep.flush]
  split <;> rfl

theorem watermark_sweep (cancel : Bool) (ns : List Nat) (s : Sweep) :
    (ns.foldl (Sweep.visit cancel) s).queue.watermark = s.queue.watermark := by
  induction ns generalizing s with
  | nil => rfl
  | cons n ns ih =>
    rw [List.foldl_cons, ih]
    rw [Sweep.visit]
    split
    · rfl
    · split
      · split
        · split
          · rfl
          · exact watermark_flush s
        · rfl
      · split
        · exact watermark_flush s
        · exact watermark_flush s

theorem watermark_dismiss {rows : List Nat} {cancel clear : Bool} :
    (q.dismiss rows cancel clear).state.watermark = q.watermark := by
  simp only [dismiss]
  split
  · exact (watermark_flush _).trans (watermark_sweep cancel _ _)
  · split <;> rfl

end Queue

/-! ## Numbers of actions -/

namespace Action

/-- The number of the event that arrives, if one does. -/
def number? : Action → Option UInt64
  | .hear _ event | .takeIn _ event => some event.report.number
  | _ => none

/-- Whether an event arrives that has a number up to the latest one. -/
def isLate (latest : UInt64) (action : Action) : Bool := action.number?.any (· ≤ latest)

/-- The latest number after an event of a kind that is shown. -/
def latestHeard (latest : UInt64) (event : Event) : UInt64 :=
  if event.report.isShown then max latest event.report.number else latest

/-- The latest number after an action. -/
def latest (before : UInt64) : Action → UInt64
  | .hear _ event => latestHeard before event
  | .hearAll _ events => events.foldl latestHeard before
  | .takeIn _ event => max before event.report.number
  | .load _ listing => max before listing.number
  | _ => before

/-- An action that hears several events, event by event. -/
def single : Action → List Action
  | .hearAll now events => events.map (.hear now)
  | action => [action]

/-- A late event leaves the latest number as it is. -/
theorem latest_of_isLate {before : UInt64} {action : Action} (h : action.isLate before = true) :
    action.latest before = before := by
  cases action with
  | hear now event =>
    simp only [latest, latestHeard]
    split
    · exact max_of_le (by simpa [isLate, number?] using h)
    · rfl
  | takeIn now event => exact max_of_le (by simpa [isLate, number?] using h)
  | _ => simp [isLate, number?] at h

end Action

/-! ## Late events on a board -/

namespace Board

variable {b : Board}

/-- The general pause adds nothing but commands. -/
theorem start_state_answer (r : Report) :
    (b.start r).state = (b.onQueue (Queue.start b.config.paceWeight r)).state
      ∧ (b.start r).answer = (b.queue.start b.config.paceWeight r).answer := by
  simp only [start]
  split
  · split <;> exact ⟨rfl, rfl⟩
  · exact ⟨rfl, rfl⟩

theorem watermark_takeIn {now : Instant} {event : Event}
    (h : (b.takeIn now event).answer ≠ .error .tooLong) :
    (b.takeIn now event).state.queue.watermark = max b.queue.watermark event.report.number := by
  cases event with
  | started r =>
    obtain ⟨hstate, hanswer⟩ := b.start_state_answer r
    rw [takeIn] at h ⊢
    rw [hanswer] at h
    rw [hstate]
    exact Queue.watermark_start h
  | updated r => exact Queue.watermark_update
  | hindered r fault => exact Queue.watermark_hinder
  | finished r fault => exact Queue.watermark_finish

theorem watermark_hear {now : Instant} {event : Event}
    (h : (b.hear now event).answer ≠ .error .tooLong) :
    (b.hear now event).state.queue.watermark = Action.latestHeard b.queue.watermark event := by
  unfold hear Action.latestHeard at *
  by_cases hshown : event.report.isShown = true
  · rw [if_pos hshown] at h ⊢
    rw [if_pos hshown]
    exact watermark_takeIn h
  · rw [if_neg hshown, if_neg hshown]

theorem watermark_hearAll {now : Instant} {events : List Event}
    (h : (hearAll now events b).answer ≠ .error .tooLong) :
    (hearAll now events b).state.queue.watermark
      = events.foldl Action.latestHeard b.queue.watermark := by
  induction events generalizing b with
  | nil => rfl
  | cons event events ih =>
    rcases hanswer : (b.hear now event).answer with e | told
    · rw [hearAll, hanswer] at h
      exact absurd rfl h
    · have hfirst : (b.hear now event).state.queue.watermark
          = Action.latestHeard b.queue.watermark event := watermark_hear (by simp [hanswer])
      rw [hearAll, hanswer] at h ⊢
      rw [List.foldl_cons, ← hfirst]
      exact ih h

/-- An answer that is no overflow comes of one that is no error. -/
theorem ne_tooLong_of_ofExcept {α : Type} {f : α → Answer} {answer : Except Overflow α}
    (h : Answer.ofExcept f answer ≠ .overflow) : answer ≠ .error .tooLong := by
  rintro rfl
  exact h rfl

/-- Unless a time cannot be expressed, the watermark is the latest number after an action. -/
theorem watermark_perform {action : Action} (h : (b.perform action).answer ≠ .overflow) :
    (b.perform action).state.queue.watermark = action.latest b.queue.watermark := by
  cases action with
  | hear now event => exact watermark_hear (ne_tooLong_of_ofExcept h)
  | hearAll now events => exact watermark_hearAll (ne_tooLong_of_ofExcept h)
  | takeIn now event => exact watermark_takeIn (ne_tooLong_of_ofExcept h)
  | load size listing => exact Queue.watermark_loadListing
  | insert r place => exact Queue.watermark_insert
  | eraseRows rows => exact Queue.watermark_eraseRuns _ _
  | eraseRange first count => exact Queue.watermark_eraseRange
  | dismiss rows cancel clear => exact Queue.watermark_dismiss
  | restart tag => exact Queue.watermark_restart
  | moveRange first count destination => exact congrArg _ rests_moveRange.queue
  | pauseSelection rows paused => exact congrArg _ rests_pauseSelection.queue
  | adoptPreference => exact congrArg _ rests_adoptPreference.queue
  | _ => rfl

/-- What the queue says to a late report. -/
theorem takeIn_of_hasSeen {now : Instant} {event : Event}
    (h : b.queue.hasSeen event.report.number = true) :
    b.takeIn now event = ⟨b, .ok false, [], []⟩ := by
  cases event with
  | started r =>
    have hlate : b.queue.start b.config.paceWeight r = b.queue.refuse := if_pos h
    simp only [takeIn, start, onQueue, hlate]
    rfl
  | updated r =>
    have hlate : b.queue.update b.config.paceWeight r = b.queue.refuse := if_pos h
    simp only [takeIn, onQueue, hlate]
    rfl
  | hindered r fault =>
    have hlate : b.queue.hinder b.config.paceWeight r fault = b.queue.refuse := if_pos h
    simp only [takeIn, onQueue, hlate]
    rfl
  | finished r fault =>
    have hlate : b.queue.finish now r fault = b.queue.refuse := if_pos h
    simp only [takeIn, onQueue, hlate]
    rfl

/-- Events about folders and streams are not taken in. -/
theorem hear_of_not_isShown {now : Instant} {event : Event} (h : event.report.isShown = false) :
    b.hear now event = ⟨b, .ok false, [], []⟩ := by
  simp [hear, h]

/-- Late events have no effect. -/
theorem perform_of_isLate {action : Action} (h : action.isLate b.queue.watermark = true) :
    b.perform action = ⟨b, .flag false, [], []⟩ := by
  have hhear : ∀ {now event}, b.queue.hasSeen event.report.number = true →
      b.hear now event = ⟨b, .ok false, [], []⟩ := by
    intro now event hseen
    cases hshown : event.report.isShown with
    | false => exact hear_of_not_isShown hshown
    | true => rw [hear, if_pos hshown, takeIn_of_hasSeen hseen]
  cases action with
  | hear now event =>
    rw [perform, hhear (by simpa [Action.isLate, Action.number?, Queue.hasSeen] using h)]
    rfl
  | takeIn now event =>
    rw [perform, takeIn_of_hasSeen (by simpa [Action.isLate, Action.number?, Queue.hasSeen] using h)]
    rfl
  | _ => simp [Action.isLate, Action.number?] at h

/-! ## Runs -/

/-- Runs one after the other. -/
theorem run_append (b : Board) (first second : List Action) :
    b.run (first ++ second)
      = (((b.run first).state.run second).after (b.run first)).mapAnswer
          ((b.run first).answer ++ ·) := by
  induction first generalizing b with
  | nil => rfl
  | cons action first ih =>
    simp only [List.cons_append, run, ih]
    simp [Outcome.after, Outcome.mapAnswer]

theorem not_overflow_of_run_cons {action : Action} {rest : List Action}
    (h : .overflow ∉ (b.run (action :: rest)).answer) :
    (b.perform action).answer ≠ .overflow
      ∧ .overflow ∉ ((b.perform action).state.run rest).answer := by
  obtain ⟨hfirst, hrest⟩ := not_or.1 (mt List.mem_cons.2 h)
  exact ⟨fun heq => hfirst heq.symm, hrest⟩

/-- The watermark never goes down. -/
theorem watermark_le_run (b : Board) (actions : List Action) :
    b.queue.watermark ≤ (b.run actions).state.queue.watermark := by
  obtain ⟨cs, hwalk⟩ : ∃ cs, Queue.Walk False b.queue cs (b.run actions).state.queue :=
    walk_run False.elim
  exact hwalk.keeps (P := fun q => b.queue.watermark ≤ q.watermark)
    (fun hstep hle => UInt64.le_trans hle hstep.watermark_le) (UInt64.le_refl _)

/-- The events of a run that are late, when `latest` is the latest number so far. -/
def lateness (latest : UInt64) : List Action → List Bool
  | [] => []
  | action :: rest => action.isLate latest :: lateness (action.latest latest) rest

/-- A run without its late events. -/
def prune (latest : UInt64) : List Action → List Action
  | [] => []
  | action :: rest =>
    if action.isLate latest then prune latest rest
    else action :: prune (action.latest latest) rest

/-- The answers of a run in which late events say no, and the others have the given answers. -/
def weave : List Bool → List Answer → List Answer
  | true :: late, answers => .flag false :: weave late answers
  | false :: late, answer :: answers => answer :: weave late answers
  | _, answers => answers

/-- A run without its late events has the same effect, and the late events said no. -/
theorem run_prune {actions : List Action} (h : .overflow ∉ (b.run actions).answer) :
    (b.run (prune b.queue.watermark actions)).effect = (b.run actions).effect
      ∧ (b.run actions).answer = weave (lateness b.queue.watermark actions)
          (b.run (prune b.queue.watermark actions)).answer := by
  induction actions generalizing b with
  | nil => exact ⟨rfl, rfl⟩
  | cons action rest ih =>
    obtain ⟨hfirst, hrest⟩ := not_overflow_of_run_cons h
    by_cases hlate : action.isLate b.queue.watermark = true
    · have hperform := perform_of_isLate hlate
      rw [hperform] at hrest
      obtain ⟨heffect, hanswer⟩ := ih hrest
      rw [prune, if_pos hlate, lateness, hlate, Action.latest_of_isLate hlate, run, hperform]
      exact ⟨heffect, congrArg (Answer.flag false :: ·) hanswer⟩
    · -- what is late after the action is what the board then takes to be late
      obtain ⟨heffect, hanswer⟩ := ih hrest
      rw [watermark_perform hfirst] at heffect hanswer
      rw [Bool.not_eq_true] at hlate
      rw [prune, hlate, lateness, hlate]
      refine ⟨Outcome.effect_after heffect rfl, ?_⟩
      exact congrArg ((b.perform action).answer :: ·) hanswer

/-- To hear several events has the effect of hearing them one by one. -/
theorem run_hears {now : Instant} {events : List Event}
    (h : (hearAll now events b).answer ≠ .error .tooLong) :
    (b.run (events.map (.hear now))).effect = (hearAll now events b).effect
      ∧ .overflow ∉ (b.run (events.map (.hear now))).answer := by
  induction events generalizing b with
  | nil => exact ⟨rfl, List.not_mem_nil⟩
  | cons event events ih =>
    rcases hanswer : (b.hear now event).answer with e | told
    · rw [hearAll, hanswer] at h
      exact absurd rfl h
    · rw [hearAll, hanswer] at h ⊢
      obtain ⟨heffect, hcalm⟩ := ih h
      refine ⟨Outcome.effect_after heffect rfl, fun hmem => ?_⟩
      rcases List.mem_cons.1 hmem with heq | hmem
      · rw [perform, Outcome.mapAnswer, hanswer] at heq
        exact absurd heq (by simp [Answer.ofExcept])
      · exact hcalm hmem

theorem run_single {action : Action} (h : (b.perform action).answer ≠ .overflow) :
    (b.run action.single).effect = (b.perform action).effect
      ∧ .overflow ∉ (b.run action.single).answer := by
  have hone : (b.run [action]).effect = (b.perform action).effect
      ∧ .overflow ∉ (b.run [action]).answer := by
    constructor
    · simp [run, Outcome.effect, Outcome.after, Outcome.mapAnswer]
    · exact fun hmem => h (List.mem_singleton.1 hmem).symm
  cases action with
  | hearAll now events =>
    refine run_hears fun heq => h ?_
    rw [perform, Outcome.mapAnswer, heq]
    rfl
  | _ => exact hone

/-- A run in which events are heard one by one. -/
def spread (actions : List Action) : List Action := actions.flatMap Action.single

theorem run_spread {actions : List Action} (h : .overflow ∉ (b.run actions).answer) :
    (b.run (spread actions)).effect = (b.run actions).effect
      ∧ .overflow ∉ (b.run (spread actions)).answer := by
  induction actions generalizing b with
  | nil => exact ⟨rfl, List.not_mem_nil⟩
  | cons action rest ih =>
    obtain ⟨hfirst, hrest⟩ := not_overflow_of_run_cons h
    obtain ⟨hsingle, hcalm⟩ := run_single hfirst
    obtain ⟨hspread, hcalm'⟩ := ih hrest
    have hstate : (b.run action.single).state = (b.perform action).state :=
      congrArg Prod.fst hsingle
    -- the rest starts where the action ends, whichever way its events were heard
    have happend := run_append b action.single (spread rest)
    rw [hstate] at happend
    have hcons : spread (action :: rest) = action.single ++ spread rest := List.flatMap_cons
    rw [hcons, happend]
    refine ⟨?_, ?_⟩
    · rw [Outcome.effect_mapAnswer, run, Outcome.effect_mapAnswer]
      exact Outcome.effect_after hspread hsingle
    · exact fun hmem => (List.mem_append.1 hmem).elim hcalm hcalm'

/-- Events that come late have no effect: a run without them leaves the same board, and tells and
asks for the same, and each of them was answered with no.  Neither have events about folders and
streams. -/
theorem late_events_vanish (b : Board) (actions : List Action) :
    b.queue.watermark ≤ (b.run actions).state.queue.watermark
    ∧ (.overflow ∉ (b.run actions).answer →
      (b.run (prune b.queue.watermark (spread actions))).effect = (b.run actions).effect
        ∧ (b.run (spread actions)).answer = weave (lateness b.queue.watermark (spread actions))
          (b.run (prune b.queue.watermark (spread actions))).answer)
    ∧ ∀ now event, event.report.isShown = false → b.hear now event = ⟨b, .ok false, [], []⟩ := by
  refine ⟨watermark_le_run b actions, ?_, ?_⟩
  · intro h
    obtain ⟨hspread, hcalm⟩ := run_spread h
    obtain ⟨hprune, hanswer⟩ := run_prune hcalm
    exact ⟨hprune.trans hspread, hanswer⟩
  · intro now event hshown
    exact hear_of_not_isShown hshown

/-- A run in which the engine repeats an event, and in which a listing has overtaken others. -/
def repeatingRun : List Action :=
  [.hear .epoch (.started (.bare 1 .download 5 3)),
    .hear .epoch (.started (.bare 1 .download 5 3)),
    .hearAll .epoch
      [.updated (.bare 1 .download 4 2), .started (.bare 2 .download 4 4)],
    .load 10 ⟨[], 8⟩,
    .takeIn .epoch (.updated (.bare 1 .download 2 8)),
    .takeIn .epoch (.updated (.bare 1 .download 2 9))]

theorem repetitions_vanish :
    .overflow ∉ ((new {} (.memory true)).run repeatingRun).answer
    ∧ ((new {} (.memory true)).run (prune 0 (spread repeatingRun))).effect
      = ((new {} (.memory true)).run repeatingRun).effect :=
  have h : .overflow ∉ ((new {} (.memory true)).run repeatingRun).answer := by decide +kernel
  ⟨h, ((late_events_vanish (new {} (.memory true)) repeatingRun).2.1 h).1⟩

end Board

end TransferQueue
