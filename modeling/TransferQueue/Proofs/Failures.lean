import TransferQueue.Proofs.Accounts

/-!
# The failures of a run

Transfers that have failed are tried again when that is asked for.  Whatever happens in between, the
engine gets each failure back at most once, and what it gets back is the latest failure.

* `Board.failures`: the failures that an action brings, and `Board.failuresIn`: those of a run;
* `Board.unrepeating_perform`: only the action that asks for another try gives such commands;
* `Board.accounts_perform`, `Board.accounts_run`: the accounts of actions and runs.
-/

namespace TransferQueue

/-! ## The history -/

/-- The report of the transfer that is to be tried again. -/
def Command.restarted? : Command → Option Report
  | .restart report => some report
  | _ => none

namespace Board

/-- The failures among events that arrive one after the other. -/
def failuresHeard (now : Instant) : List Event → Board → List Report
  | [], _ => []
  | event :: events, b =>
    let first := b.hear now event
    match first.answer with
    | .error _ => []
    | .ok _ => event.failures first.answer ++ failuresHeard now events first.state

/-- The failures that an action brings: transfers that get a row as failed ones, and transfers with a
row that finish as failed ones. -/
def failures (b : Board) : Action → List Report
  | .hear now event => event.failures (b.hear now event).answer
  | .hearAll now events => failuresHeard now events b
  | .takeIn now event => event.failures (b.takeIn now event).answer
  | .insert r place =>
    (Event.started r).failures (b.queue.insert b.config.paceWeight r place).answer
  | .load size listing =>
    (b.queue.fresh listing.toLoad).filter fun r =>
      (b.load size listing).state.queue.contains r.tag && r.phase == .failed
  | _ => []

/-- The failures that a run brings. -/
def failuresIn (b : Board) : List Action → List Report
  | [] => []
  | action :: actions => b.failures action ++ failuresIn (b.perform action).state actions

/-! ## Actions and runs -/

variable {b : Board} {now : Instant} {event : Event} {tag : Tag}

theorem failures_of_failure?_eq_none {event : Event} (h : event.failure? = none)
    (answer : Except Overflow Bool) : event.failures answer = [] := by
  rcases answer with _ | _ | _ <;> simp [Event.failures, h]

theorem accounts_takeIn (h : b.queue.tags.Nodup) (now : Instant) (event : Event) (tag : Tag) :
    Queue.Accounts b.queue (event.failures (b.takeIn now event).answer) []
      (b.takeIn now event).state.queue tag := by
  cases event with
  | started r =>
    obtain ⟨hstate, hanswer⟩ := b.start_state_answer r
    rw [takeIn, hstate, hanswer]
    exact Queue.accounts_start _ r b.queue tag
  | updated r =>
    rw [failures_of_failure?_eq_none rfl]
    exact Queue.accounts_update h tag
  | hindered r fault =>
    rw [failures_of_failure?_eq_none rfl]
    exact Queue.accounts_hinder h tag
  | finished r fault => exact Queue.accounts_finish h tag

theorem accounts_hear (h : b.queue.tags.Nodup) (now : Instant) (event : Event) (tag : Tag) :
    Queue.Accounts b.queue (event.failures (b.hear now event).answer) []
      (b.hear now event).state.queue tag := by
  rw [hear]
  split
  · exact accounts_takeIn h now event tag
  · exact .refl b.queue tag

theorem accounts_hearAll (h : Queue.Balanced b.queue.tally b.queue.rows) (now : Instant)
    (events : List Event) (tag : Tag) :
    Queue.Accounts b.queue (failuresHeard now events b) []
      (hearAll now events b).state.queue tag := by
  induction events generalizing b with
  | nil => exact .refl b.queue tag
  | cons event events ih =>
    have hfirst := accounts_hear h.nodup now event tag
    rw [failuresHeard, hearAll]
    rcases hanswer : (b.hear now event).answer with e | heard
    · -- the events behind it are not heard
      rw [hanswer] at hfirst
      exact hfirst
    · obtain ⟨cs, hwalk, -⟩ : Takes False b (b.hear now event) := takes_hear
      have hrest := ih (hwalk.balanced h)
      rw [hanswer] at hfirst
      exact hfirst.trans hrest

/-- An operation that does nothing but close rows. -/
theorem accounts_of_drops {α : Type} {o : Outcome Queue α}
    (h : Queue.Balanced b.queue.tally b.queue.rows) (drops : Queue.Drops False b.queue o)
    (tag : Tag) : Queue.Accounts b.queue [] [] o.state tag := by
  obtain ⟨cs, hwalk, hcloses, -⟩ := drops
  exact Queue.accounts_of_closes hwalk hcloses h tag

/-! ### Commands -/

/-- None of the commands asks for another try. -/
def Unrepeating (commands : List Command) : Prop := ∀ c ∈ commands, c.restarted? = none

theorem Unrepeating.append {commands commands' : List Command} (h : Unrepeating commands)
    (h' : Unrepeating commands') : Unrepeating (commands ++ commands') :=
  List.forall_mem_append.2 ⟨h, h'⟩

theorem unrepeating_nil : Unrepeating [] := by
  simp [Unrepeating]

theorem unrepeating_map {α : Type} {f : α → Command} (h : ∀ a, (f a).restarted? = none)
    (as : List α) : Unrepeating (as.map f) :=
  List.forall_mem_map.2 fun a _ => h a

theorem unrepeating_blockCommands (tags moving : List Tag) (destination : Nat) :
    Unrepeating (Queue.blockCommands tags moving destination) := by
  rw [Queue.blockCommands]
  split
  · exact unrepeating_map (fun _ => rfl) _
  · split <;> exact unrepeating_map (fun _ => rfl) _

theorem unrepeating_commandsToMove? {q : Queue} {first count destination : Nat}
    {commands : List Command} (h : q.commandsToMove? first count destination = some commands) :
    Unrepeating commands := by
  rw [Queue.commandsToMove?] at h
  split at h
  · simp at h
  · exact Option.some.inj h ▸ unrepeating_blockCommands _ _ _

theorem commands_start (weight : Float) (r : Report) (q : Queue) :
    (q.start weight r).commands = [] := by
  simp only [Queue.start]
  split
  · rfl
  · split <;> rfl

theorem commands_queueTakeIn {r : Report} {q : Queue}
    {act : Queue → Nat → Row → Outcome Queue (Except Overflow Bool)}
    (hact : ∀ q place row, (act q place row).commands = []) :
    (Queue.takeIn r act q).commands = [] := by
  rw [Queue.takeIn]
  split
  · rfl
  · simp only
    split
    · rfl
    · exact hact _ _ _

theorem commands_update (weight : Float) (r : Report) (q : Queue) :
    (q.update weight r).commands = [] := by
  refine commands_queueTakeIn fun q place row => ?_
  split
  · rfl
  · split
    · rfl
    · simp only [Queue.settle]
      split <;> rfl

theorem commands_hinder (weight : Float) (r : Report) (fault : Option Fault) (q : Queue) :
    (q.hinder weight r fault).commands = [] := by
  refine commands_queueTakeIn fun q place row => ?_
  split <;> rfl

theorem unrepeating_takeIn (now : Instant) (event : Event) (b : Board) :
    Unrepeating (b.takeIn now event).commands := by
  cases event with
  | started r =>
    have hqueue : (b.onQueue (Queue.start b.config.paceWeight r)).commands = [] :=
      commands_start _ r b.queue
    simp only [takeIn, start]
    split
    · split
      · rw [hqueue]
        simp [Unrepeating, Command.restarted?]
      · exact hqueue ▸ unrepeating_nil
    · exact hqueue ▸ unrepeating_nil
  | updated r =>
    have hqueue : (b.takeIn now (.updated r)).commands = [] := commands_update _ r b.queue
    exact hqueue ▸ unrepeating_nil
  | hindered r fault =>
    have hqueue : (b.takeIn now (.hindered r fault)).commands = [] :=
      commands_hinder _ r fault b.queue
    exact hqueue ▸ unrepeating_nil
  | finished r fault =>
    have hqueue : (b.takeIn now (.finished r fault)).commands = [] :=
      commands_queueTakeIn fun _ _ _ => rfl
    exact hqueue ▸ unrepeating_nil

theorem unrepeating_hear (now : Instant) (event : Event) (b : Board) :
    Unrepeating (b.hear now event).commands := by
  rw [hear]
  split
  · exact unrepeating_takeIn now event b
  · exact unrepeating_nil

theorem unrepeating_hearAll (now : Instant) (events : List Event) (b : Board) :
    Unrepeating (hearAll now events b).commands := by
  induction events generalizing b with
  | nil => exact unrepeating_nil
  | cons event events ih =>
    rw [hearAll]
    split
    · exact unrepeating_hear now event b
    · exact (unrepeating_hear now event b).append (ih _)

theorem commands_loadChunk (weight : Float) (number : UInt64) (chunk : List Report) (q : Queue) :
    (q.loadChunk weight number chunk).commands = [] := by
  simp only [Queue.loadChunk]
  split <;> rfl

theorem commands_loadListing (weight : Float) (size : Nat) (listing : Listing) (q : Queue) :
    (q.loadListing weight size listing).commands = [] := by
  have hchunks : ∀ (parts : List (List Report)) (q : Queue),
      (q.loadChunks weight listing.number parts).commands = [] := by
    intro parts
    induction parts with
    | nil => exact fun _ => rfl
    | cons chunk parts ih =>
      intro q
      simp only [Queue.loadChunks]
      split
      · exact commands_loadChunk weight _ chunk q
      · simp only [Outcome.mapAnswer, Outcome.after, ih, commands_loadChunk, List.append_nil]
  rw [Queue.loadListing]
  split
  · exact commands_loadChunk weight _ [] q
  · exact hchunks _ q

theorem unrepeating_pauseCommands (paused : Bool) (rows : List Row) :
    Unrepeating (pauseCommands paused rows) :=
  unrepeating_map (fun _ => rfl) _

theorem unrepeating_pauseAll (paused : Bool) (b : Board) :
    Unrepeating (b.pauseAll paused).commands := by
  simp only [pauseAll]
  split
  · exact List.forall_mem_cons.2 ⟨rfl, unrepeating_pauseCommands true _⟩
  · exact (unrepeating_pauseCommands false _).append (by simp [Unrepeating, Command.restarted?])

/-- Only the action that asks for another try gives such commands. -/
theorem unrepeating_perform (b : Board) {action : Action} (h : ∀ tag, action ≠ .restart tag) :
    Unrepeating (b.perform action).commands := by
  cases action with
  | hear now event => exact unrepeating_hear now event b
  | hearAll now events => exact unrepeating_hearAll now events b
  | takeIn now event => exact unrepeating_takeIn now event b
  | load size listing =>
    have hqueue : (b.perform (.load size listing)).commands = [] :=
      commands_loadListing _ size listing b.queue
    exact hqueue ▸ unrepeating_nil
  | insert r place =>
    have hqueue : (b.perform (.insert r place)).commands = [] := by
      simp only [perform, onQueue, Outcome.mapAnswer, Outcome.mapState, Queue.insert]
      split <;> rfl
    exact hqueue ▸ unrepeating_nil
  | eraseRows rows => exact unrepeating_nil
  | eraseRange first count =>
    have hqueue : (b.perform (.eraseRange first count)).commands = [] := by
      simp only [perform, onQueue, Outcome.mapAnswer, Outcome.mapState, Queue.eraseRange]
      split <;> rfl
    exact hqueue ▸ unrepeating_nil
  | moveRange first count destination =>
    simp only [perform, onQueue, Outcome.mapAnswer, Outcome.mapState, Queue.moveRange]
    split
    · exact unrepeating_nil
    · rename_i commands hcommands
      exact unrepeating_commandsToMove? hcommands
  | moveSelection rows destination =>
    simp only [perform, onQueue, Outcome.mapAnswer, Outcome.mapState, Queue.moveSelection]
    intro command hcommand
    obtain ⟨commands, hcommands, hmem⟩ := List.mem_flatten.1 hcommand
    obtain ⟨n, -, hn⟩ := List.mem_filterMap.1 hcommands
    exact unrepeating_commandsToMove? hn command hmem
  | pauseOne tag paused => exact unrepeating_pauseCommands _ _
  | pauseSelection rows paused =>
    simp only [perform, Outcome.mapAnswer, pauseSelection]
    split
    · exact (unrepeating_pauseCommands _ _).append (by simp [Unrepeating, Command.restarted?])
    · exact unrepeating_pauseCommands _ _
  | pauseAll paused => exact unrepeating_pauseAll paused b
  | flipPause => exact unrepeating_pauseAll _ b
  | adoptPreference =>
    simp only [perform, Outcome.mapAnswer, adoptPreference]
    split
    · exact unrepeating_nil
    · exact unrepeating_pauseAll _ b
  | overwritePreference paused => exact unrepeating_nil
  | dismiss rows cancel clear =>
    simp only [perform, onQueue, Outcome.mapAnswer, Outcome.mapState, Queue.dismiss]
    split
    · exact unrepeating_map (fun _ => rfl) _
    · split
      · exact unrepeating_map (fun _ => rfl) _
      · exact unrepeating_nil
  | cancelEverything => exact unrepeating_map (fun _ => rfl) _
  | restart tag => exact absurd rfl (h tag)

/-! ### What an action does -/

theorem accounts_perform (h : Queue.Balanced b.queue.tally b.queue.rows)
    (hkeeping : ∀ a ∈ b.queue.rows, a.Keeping) (action : Action) (tag : Tag) :
    Queue.Accounts b.queue (b.failures action)
      ((b.perform action).commands.filterMap Command.restarted?)
      (b.perform action).state.queue tag := by
  by_cases hrestart : ∃ restarted, action = .restart restarted
  · obtain ⟨restarted, rfl⟩ := hrestart
    have hcommands : (b.perform (.restart restarted)).commands.filterMap Command.restarted?
        = (b.queue.retained? restarted).toList := by
      show (b.queue.restart restarted).commands.filterMap _ = _
      rcases hretained : b.queue.retained? restarted with _ | r
      · rw [Queue.restart_of_retained?_eq_none h.nodup hretained]
        rfl
      · obtain ⟨-, -, -, -, -, -, -, -, hcommands⟩ :=
          Queue.restart_of_retained? h.nodup hretained
        rw [hcommands]
        rfl
    rw [hcommands]
    exact Queue.accounts_restart h.nodup hkeeping restarted tag
  · -- no other action gives anything back, so only what it does to the rows counts
    have hnone : (b.perform action).commands.filterMap Command.restarted? = [] :=
      List.filterMap_eq_nil_iff.2
        (unrepeating_perform b fun restarted heq => hrestart ⟨restarted, heq⟩)
    rw [hnone]
    cases action with
    | hear now event => exact accounts_hear h.nodup now event tag
    | hearAll now events => exact accounts_hearAll h now events tag
    | takeIn now event => exact accounts_takeIn h.nodup now event tag
    | insert r place => exact Queue.accounts_insert _ r place b.queue tag
    | load size listing =>
      have hstate : (b.load size listing).state.queue = _ :=
        (Queue.loadListing_eq b.config.paceWeight size listing b.queue).1
      have haccounts := Queue.accounts_addAll .loading b.config.paceWeight listing.toLoad
        (q := b.queue.noting listing.number) h.nodup tag
      rw [← hstate] at haccounts
      exact haccounts.of_rows rfl rfl
    | eraseRows rows => exact accounts_of_drops h Queue.drops_eraseRows tag
    | eraseRange first count => exact accounts_of_drops h Queue.drops_eraseRange tag
    | dismiss rows cancel clear => exact accounts_of_drops h Queue.drops_dismiss tag
    | restart restarted => exact absurd ⟨restarted, rfl⟩ hrestart
    | moveRange first count destination =>
      exact (Queue.Accounts.refl b.queue tag).of_rows rfl (congrArg _ rests_moveRange.queue)
    | pauseSelection rows paused =>
      exact (Queue.Accounts.refl b.queue tag).of_rows rfl (congrArg _ rests_pauseSelection.queue)
    | adoptPreference =>
      exact (Queue.Accounts.refl b.queue tag).of_rows rfl (congrArg _ rests_adoptPreference.queue)
    | _ => exact .refl b.queue tag

/-- The accounts of a run. -/
theorem accounts_run (h : Queue.Balanced b.queue.tally b.queue.rows)
    (hkeeping : ∀ a ∈ b.queue.rows, a.Keeping) (actions : List Action) (tag : Tag) :
    Queue.Accounts b.queue (b.failuresIn actions)
      ((b.run actions).commands.filterMap Command.restarted?) (b.run actions).state.queue tag := by
  -- both what the steps keep of the queue and what they keep of its rows carry the induction
  induction actions generalizing b with
  | nil => exact .refl b.queue tag
  | cons action actions ih =>
    obtain ⟨cs, hwalk⟩ : ∃ cs, Queue.Walk False b.queue cs (b.perform action).state.queue :=
      walk_perform False.elim
    have hbalanced := hwalk.balanced h
    have hkeeping' :=
      hwalk.keeps (P := fun q => ∀ a ∈ q.rows, a.Keeping) Queue.Step.keeping hkeeping
    have hcommands : (b.run (action :: actions)).commands
        = (b.perform action).commands ++ ((b.perform action).state.run actions).commands := rfl
    rw [hcommands, List.filterMap_append]
    exact (accounts_perform h hkeeping action tag).trans (ih hbalanced hkeeping')

/-- A transfer that fails twice before it is tried again is so once, by the later report. -/
example :
    ((new {} (.memory false)).run
        [.hear .epoch (.started { Report.bare 1 .download 5 1 with phase := .failed }),
          .hear .epoch (.finished { Report.bare 1 .download 5 2 with phase := .failed } none),
          .restart 1, .restart 1]).commands
      = [.restart { Report.bare 1 .download 5 2 with phase := .failed }] := by
  decide +kernel

theorem Reached.keeping (h : b.Reached) : ∀ a ∈ b.queue.rows, a.Keeping := by
  obtain ⟨config, preference, actions, rfl⟩ := h
  obtain ⟨cs, hwalk⟩ : ∃ cs, Queue.Walk False (new config preference).queue cs
      ((new config preference).run actions).state.queue := walk_run False.elim
  exact hwalk.keeps (P := fun q => ∀ a ∈ q.rows, a.Keeping) Queue.Step.keeping
    (by simp [new, Queue.empty])

end Board

end TransferQueue
