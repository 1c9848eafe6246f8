import TransferQueue.Proofs.Tables.Removal
import TransferQueue.Proofs.Tables.Update

/-!
# Boards whose queue is kept as tables

A desk is a board that keeps its queue as tables.  It performs the same actions, each by what it does
to the tables, and a transfer that is to be paused is looked up by its name.  Whatever happens to both,
a desk and a board tell their callers, the observers and the engine the same, and the tables of the
one hold what the rows of the other hold.  So the tables agree at all times.

* `Desk`, `Desk.perform`, `Desk.run`: desks, and what actions and runs do to them;
* `Desk.alike_perform`, `Desk.alike_run`: a desk does what a board does;
* `Desk.consistent_run`: what follows for the tables after any run.
-/

namespace TransferQueue

/-- A board whose queue is kept as tables. -/
structure Desk where
  /-- The tables. -/
  tables : Tables
  /-- Whether the general pause holds. -/
  allPaused : Bool
  /-- The wish of the user. -/
  preference : Preference
  /-- The configuration that the desk was made with. -/
  config : Config

namespace Desk

/-- A desk without rows, which starts with the wish of the user. -/
def new (config : Config) (preference : Preference) : Desk :=
  ⟨.empty, preference.isPaused, preference, config⟩

variable {α : Type}

/-- What an operation on the tables does to the desk. -/
def onTables (d : Desk) (op : Tables → Outcome Tables α) : Outcome Desk α :=
  (op d.tables).mapState fun tables => { d with tables }

/-! ## What the engine tells -/

/-- Take in the report of a new transfer.  While the general pause holds, it is paused. -/
def start (r : Report) (d : Desk) : Outcome Desk (Except Overflow Bool) :=
  let o := d.onTables (Tables.start d.config.paceWeight r)
  match o.answer with
  | .ok true => if d.allPaused && r.phase.canPause then
      { o with commands := o.commands ++ [.pause r.tag true] }
    else o
  | _ => o

/-- Take in an event at the moment `now`, whatever kind of transfer it is about. -/
def takeIn (now : Instant) (event : Event) (d : Desk) : Outcome Desk (Except Overflow Bool) :=
  match event with
  | .started r => d.start r
  | .updated r => d.onTables (Tables.update d.config.paceWeight r)
  | .hindered r fault => d.onTables (Tables.hinder d.config.paceWeight r fault)
  | .finished r fault => d.onTables (Tables.finish now r fault)

/-- Take in an event at the moment `now` if it is about a transfer of a kind that is shown. -/
def hear (now : Instant) (event : Event) (d : Desk) : Outcome Desk (Except Overflow Bool) :=
  if event.report.isShown then d.takeIn now event else ⟨d, .ok false, [], []⟩

/-- Take in events one after the other, until a time cannot be expressed. -/
def hearAll (now : Instant) : List Event → Desk → Outcome Desk (Except Overflow Unit)
  | [], d => ⟨d, .ok (), [], []⟩
  | event :: events, d =>
    let first := d.hear now event
    match first.answer with
    | .error e => first.mapAnswer fun _ => .error e
    | .ok _ => (hearAll now events first.state).after first

/-- Load a listing of the engine in chunks of `size` rows. -/
def load (size : Nat) (listing : Listing) (d : Desk) : Outcome Desk (Except Overflow Nat) :=
  d.onTables (Tables.loadListing d.config.paceWeight size listing)

/-! ## Pausing and resuming -/

/-- Pause or resume one transfer, if it has an entry and its phase allows that. -/
def pauseOne (tag : Tag) (paused : Bool) (d : Desk) : Outcome Desk Bool :=
  if d.tables.entries[tag]?.any fun e => e.phase.canBecome paused then
    ⟨d, true, [], [.pause tag paused]⟩
  else ⟨d, false, [], []⟩

/-- The commands of pausing or resuming transfers one after the other. -/
def pauseEach (paused : Bool) (tags : List Tag) (d : Desk) : List Command :=
  tags.flatMap fun tag => (d.pauseOne tag paused).commands

/-- Pause or resume the transfers of the selected rows.  Resuming ends the general pause. -/
def pauseSelection (rows : List Nat) (paused : Bool) (d : Desk) : Outcome Desk Unit :=
  let commands := d.pauseEach paused (rows.filterMap (d.tables.order[·]?))
  if !paused && d.allPaused then
    ⟨{ d with allPaused := false, preference := d.preference.set false }, (), [.pausing false],
      commands ++ [.pauseAll false]⟩
  else ⟨d, (), [], commands⟩

/-- Set or end the general pause. -/
def pauseAll (paused : Bool) (d : Desk) : Outcome Desk Unit :=
  ⟨{ d with allPaused := paused, preference := d.preference.set paused }, (),
    if d.allPaused = paused then [] else [.pausing paused],
    if paused then .pauseAll true :: d.pauseEach true d.tables.order.reverse
    else d.pauseEach false d.tables.order ++ [.pauseAll false]⟩

/-- Toggle the general pause, and answer whether it holds now. -/
def flipPause (d : Desk) : Outcome Desk Bool :=
  (d.pauseAll !d.allPaused).mapAnswer fun _ => !d.allPaused

/-- Synchronise the general pause with the preference, if it differs from it. -/
def adoptPreference (d : Desk) : Outcome Desk Bool :=
  if d.preference.isPaused = d.allPaused then ⟨d, false, [], []⟩
  else (d.pauseAll d.preference.isPaused).mapAnswer fun _ => true

/-- Set the preference without telling the desk. -/
def overwritePreference (paused : Bool) (d : Desk) : Outcome Desk Unit :=
  ⟨{ d with preference := d.preference.set paused }, (), [], []⟩

/-- Cancel all transfers that the engine has. -/
def cancelEverything (d : Desk) : Outcome Desk Unit :=
  ⟨d, (), [], Direction.all.map .cancelDirection⟩

/-! ## Actions and runs -/

/-- What an action does. -/
def perform (d : Desk) : Action → Outcome Desk Answer
  | .hear now event => (d.hear now event).mapAnswer (.ofExcept .flag)
  | .hearAll now events => (d.hearAll now events).mapAnswer (.ofExcept fun _ => .done)
  | .takeIn now event => (d.takeIn now event).mapAnswer (.ofExcept .flag)
  | .load size listing => (d.load size listing).mapAnswer (.ofExcept .count)
  | .insert report place =>
    (d.onTables (Tables.insert d.config.paceWeight report place)).mapAnswer (.ofExcept .flag)
  | .eraseRows rows => (d.onTables (Tables.eraseRows rows)).mapAnswer .count
  | .eraseRange first count => (d.onTables (Tables.eraseRange first count)).mapAnswer .flag
  | .moveRange first count destination =>
    (d.onTables (Tables.moveRange first count destination)).mapAnswer .flag
  | .moveSelection rows destination =>
    (d.onTables (Tables.moveSelection rows destination)).mapAnswer .flag
  | .pauseOne tag paused => (d.pauseOne tag paused).mapAnswer .flag
  | .pauseSelection rows paused => (d.pauseSelection rows paused).mapAnswer fun _ => .done
  | .pauseAll paused => (d.pauseAll paused).mapAnswer fun _ => .done
  | .flipPause => d.flipPause.mapAnswer .flag
  | .adoptPreference => d.adoptPreference.mapAnswer .flag
  | .overwritePreference paused => (d.overwritePreference paused).mapAnswer fun _ => .done
  | .dismiss rows cancel clear =>
    (d.onTables (Tables.dismiss rows cancel clear)).mapAnswer fun _ => .done
  | .cancelEverything => d.cancelEverything.mapAnswer fun _ => .done
  | .restart tag => (d.onTables (Tables.restart tag)).mapAnswer .flag

/-- What a run does, action after action. -/
def run (d : Desk) : List Action → Outcome Desk (List Answer)
  | [] => ⟨d, [], [], []⟩
  | action :: actions =>
    let first := d.perform action
    ((first.state.run actions).after first).mapAnswer (first.answer :: ·)

/-! ## Desks and boards -/

/-- The tables of a desk hold what the rows of a board hold, and all else is the same. -/
structure Represents (d : Desk) (b : Board) : Prop where
  tables : d.tables.Represents b.queue
  allPaused : d.allPaused = b.allPaused
  preference : d.preference = b.preference
  config : d.config = b.config

theorem represents_new (config : Config) (preference : Preference) :
    (new config preference).Represents (.new config preference) :=
  ⟨Tables.represents_empty, rfl, rfl, rfl⟩

namespace Represents

variable {d : Desk} {b : Board}

theorem onTables {op : Tables → Outcome Tables α} {op' : Queue → Outcome Queue α}
    (h : d.Represents b) (hop : (op d.tables).Alike Tables.Represents (op' b.queue)) :
    (d.onTables op).Alike Represents (b.onQueue op') :=
  ⟨⟨hop.state, h.allPaused, h.preference, h.config⟩, hop.answer, hop.changes, hop.commands⟩

theorem start (h : d.Represents b) (r : Report) :
    (d.start r).Alike Represents (b.start r) := by
  have hstart := h.onTables (h.tables.start d.config.paceWeight r)
  rw [Desk.start, Board.start, ← h.config, ← h.allPaused]
  rw [hstart.answer]
  rcases (b.onQueue (Queue.start d.config.paceWeight r)).answer with e | _ | _
  · exact hstart
  · exact hstart
  · dsimp only
    split
    · exact ⟨hstart.state, rfl, hstart.changes, congrArg (· ++ [.pause r.tag true]) hstart.commands⟩
    · exact hstart

theorem takeIn (h : d.Represents b) (now : Instant) (event : Event) :
    (d.takeIn now event).Alike Represents (b.takeIn now event) := by
  cases event with
  | started r => exact h.start r
  | updated r =>
    rw [Desk.takeIn, Board.takeIn, ← h.config]
    exact h.onTables (h.tables.update _ r)
  | hindered r fault =>
    rw [Desk.takeIn, Board.takeIn, ← h.config]
    exact h.onTables (h.tables.hinder _ r fault)
  | finished r fault => exact h.onTables (h.tables.finish now r fault)

theorem hear (h : d.Represents b) (now : Instant) (event : Event) :
    (d.hear now event).Alike Represents (b.hear now event) := by
  rw [Desk.hear, Board.hear]
  split
  · exact h.takeIn now event
  · exact ⟨h, rfl, rfl, rfl⟩

theorem hearAll (now : Instant) (events : List Event) (h : d.Represents b) :
    (d.hearAll now events).Alike Represents (b.hearAll now events) := by
  induction events generalizing d b with
  | nil => exact ⟨h, rfl, rfl, rfl⟩
  | cons event events ih =>
    have hfirst := h.hear now event
    rw [Desk.hearAll, Board.hearAll]
    rw [hfirst.answer]
    rcases (b.hear now event).answer with e | heard
    · exact hfirst.mapAnswer _
    · exact (ih hfirst.state).after hfirst

theorem pauseEach_eq (h : d.Represents b) (paused : Bool) {rows : List Row}
    (hrows : ∀ row ∈ rows, row ∈ b.queue.rows) :
    d.pauseEach paused (rows.map Row.tag) = Board.pauseCommands paused rows := by
  induction rows with
  | nil => rfl
  | cons row rows ih =>
    obtain ⟨hrow, hrows⟩ := List.forall_mem_cons.1 hrows
    have hentry := h.tables.entry_of_mem hrow
    rw [Board.pauseCommands] at ih ⊢
    rw [List.map_cons, pauseEach, List.flatMap_cons, ← pauseEach, ih hrows, List.filter_cons,
      pauseOne, hentry, Option.any_some]
    split
    · rfl
    · rfl

theorem pauseOne (h : d.Represents b) (tag : Tag) (paused : Bool) :
    (d.pauseOne tag paused).Alike Represents (b.pauseOne tag paused) := by
  rw [Desk.pauseOne, Board.pauseOne, h.tables.entries]
  rcases hfound : b.queue.find? tag with _ | row
  · exact ⟨h, rfl, rfl, rfl⟩
  · obtain ⟨-, rfl⟩ := (Queue.find?_eq_some_iff h.tables.nodup).1 hfound
    rw [Option.map_some, Option.any_some, Option.toList_some, Board.pauseCommands, List.filter_cons]
    split
    · exact ⟨h, rfl, rfl, rfl⟩
    · exact ⟨h, rfl, rfl, rfl⟩

/-- The transfers of selected rows. -/
theorem filterMap_order (h : d.Represents b) (rows : List Nat) :
    rows.filterMap (d.tables.order[·]?) = (rows.filterMap (b.queue.rows[·]?)).map Row.tag := by
  rw [List.map_filterMap]
  refine List.filterMap_congr fun n _ => ?_
  rw [h.tables.order, Queue.tags, List.getElem?_map]

theorem pauseSelection (h : d.Represents b) (rows : List Nat) (paused : Bool) :
    (d.pauseSelection rows paused).Alike Represents (b.pauseSelection rows paused) := by
  have hcommands : d.pauseEach paused (rows.filterMap (d.tables.order[·]?))
      = Board.pauseCommands paused (rows.filterMap (b.queue.rows[·]?)) := by
    rw [h.filterMap_order]
    refine h.pauseEach_eq paused fun row hrow => ?_
    obtain ⟨n, -, hn⟩ := List.mem_filterMap.1 hrow
    exact List.mem_of_getElem? hn
  rw [Desk.pauseSelection, Board.pauseSelection, hcommands, h.allPaused]
  split
  · exact ⟨⟨h.tables, rfl, congrArg (Preference.set false) h.preference, h.config⟩, rfl, rfl, rfl⟩
  · exact ⟨h, rfl, rfl, rfl⟩

theorem pauseAll (h : d.Represents b) (paused : Bool) :
    (d.pauseAll paused).Alike Represents (b.pauseAll paused) := by
  have hdown : d.pauseEach true d.tables.order.reverse
      = Board.pauseCommands true b.queue.rows.reverse := by
    rw [h.tables.order, Queue.tags, ← List.map_reverse]
    exact h.pauseEach_eq true fun row hrow => List.mem_reverse.1 hrow
  have hup : d.pauseEach false d.tables.order = Board.pauseCommands false b.queue.rows := by
    rw [h.tables.order, Queue.tags]
    exact h.pauseEach_eq false fun row hrow => hrow
  rw [Desk.pauseAll, Board.pauseAll, hdown, hup, h.allPaused]
  exact ⟨⟨h.tables, rfl, congrArg (Preference.set paused) h.preference, h.config⟩, rfl, rfl, rfl⟩

end Represents

/-- A desk does what a board does. -/
theorem alike_perform {d : Desk} {b : Board} (h : d.Represents b) (action : Action) :
    (d.perform action).Alike Represents (b.perform action) := by
  cases action with
  | hear now event => exact (h.hear now event).mapAnswer _
  | hearAll now events => exact (h.hearAll now events).mapAnswer _
  | takeIn now event => exact (h.takeIn now event).mapAnswer _
  | load size listing =>
    rw [perform, Board.perform, load, Board.load, ← h.config]
    exact (h.onTables (h.tables.loadListing _ size listing)).mapAnswer _
  | insert r place =>
    rw [perform, Board.perform, ← h.config]
    exact (h.onTables (h.tables.insert _ r place)).mapAnswer _
  | eraseRows rows => exact (h.onTables (h.tables.eraseRows rows)).mapAnswer _
  | eraseRange first count => exact (h.onTables (h.tables.eraseRange first count)).mapAnswer _
  | moveRange first count destination =>
    exact (h.onTables (h.tables.moveRange first count destination)).mapAnswer _
  | moveSelection rows destination =>
    exact (h.onTables (h.tables.moveSelection rows destination)).mapAnswer _
  | pauseOne tag paused => exact (h.pauseOne tag paused).mapAnswer _
  | pauseSelection rows paused => exact (h.pauseSelection rows paused).mapAnswer fun _ => Answer.done
  | pauseAll paused => exact (h.pauseAll paused).mapAnswer fun _ => Answer.done
  | flipPause =>
    rw [perform, Board.perform, flipPause, Board.flipPause, h.allPaused]
    exact ((h.pauseAll _).mapAnswer _).mapAnswer _
  | adoptPreference =>
    rw [perform, Board.perform, adoptPreference, Board.adoptPreference, h.preference, h.allPaused]
    split
    · exact ⟨h, rfl, rfl, rfl⟩
    · exact ((h.pauseAll _).mapAnswer _).mapAnswer _
  | overwritePreference paused =>
    exact ⟨⟨h.tables, h.allPaused, congrArg (Preference.set paused) h.preference, h.config⟩, rfl,
      rfl, rfl⟩
  | dismiss rows cancel clear =>
    exact (h.onTables (h.tables.dismiss rows cancel clear)).mapAnswer fun _ => Answer.done
  | cancelEverything => exact ⟨h, rfl, rfl, rfl⟩
  | restart tag => exact (h.onTables (h.tables.restart tag)).mapAnswer _

/-- Through a whole run, a desk tells callers, observers and the engine what a board tells them, and
its tables hold what the rows hold. -/
theorem alike_run {d : Desk} {b : Board} (h : d.Represents b) (actions : List Action) :
    (d.run actions).Alike Represents (b.run actions) := by
  induction actions generalizing d b with
  | nil => exact ⟨h, rfl, rfl, rfl⟩
  | cons action actions ih =>
    have hfirst := alike_perform h action
    rw [run, Board.run]
    rw [hfirst.answer]
    exact ((ih hfirst.state).after hfirst).mapAnswer _

/-- Whatever happens to an empty desk, also when it fails because a time cannot be expressed: the
sequence has each transfer once, and exactly those that have an entry, each entry is held for its own
transfer, and the tally is what a recount of the entries would give. -/
theorem consistent_run (config : Config) (preference : Preference) (actions : List Action) :
    ((new config preference).run actions).state.tables.Consistent := by
  have halike := alike_run (represents_new config preference) actions
  have reached : ((Board.new config preference).run actions).state.Reached :=
    ⟨config, preference, actions, rfl⟩
  exact halike.state.tables.consistent reached.balanced.consistent

end Desk

end TransferQueue
