import TransferQueue.Config.Store
import TransferQueue.Queue.Loading
import TransferQueue.Queue.Reorder
import TransferQueue.Queue.Update

/-!
# The board

A board is a queue together with the general pause.  The general pause is a flag of its own; the
wish of the user, which is kept beyond the life of the board, is a *preference* that can also be
changed behind the board's back.

A board passes on to its queue what it hears and what it is asked for, and adds what the general
pause requires: while it holds, a new transfer that can be paused is paused.
-/

namespace TransferQueue

/-- Where the wish to pause all transfers is kept. -/
inductive Preference where
  /-- In memory only. -/
  | memory (paused : Bool)
  /-- In a configuration that is written to a file. -/
  | stored (store : Store)

namespace Preference

/-- Whether all transfers are to be paused. -/
def isPaused : Preference → Bool
  | .memory paused => paused
  | .stored store => store.config.paused

/-- The preference after the wish has been set. -/
def set (paused : Bool) : Preference → Preference
  | .memory _ => .memory paused
  | .stored store => .stored (store.setPaused paused)

@[simp] theorem isPaused_set (paused : Bool) (p : Preference) :
    (p.set paused).isPaused = paused := by
  cases p with
  | memory => rfl
  | stored store =>
    simp only [set, isPaused, Store.setPaused]
    split
    · assumption
    · simp only [Store.update, Store.trySave]
      split
      · rename_i h
        simp only [Store.save, bind, Except.bind, pure, Except.pure] at h
        split at h
        · simp at h
        · simp only [Except.ok.injEq] at h
          simp [← h]
      · rfl

end Preference

/-- The registry of transfers: a queue with the general pause. -/
structure Board where
  /-- The queue. -/
  queue : Queue
  /-- Whether the general pause holds. -/
  allPaused : Bool
  /-- The wish of the user. -/
  preference : Preference
  /-- The configuration that the board was made with. -/
  config : Config

namespace Board

/-- A board without rows, which starts with the wish of the user. -/
def new (config : Config) (preference : Preference) : Board :=
  ⟨.empty, preference.isPaused, preference, config⟩

variable {α : Type}

/-- What an operation on the queue does to the board. -/
def onQueue (b : Board) (op : Queue → Outcome Queue α) : Outcome Board α :=
  (op b.queue).mapState fun queue => { b with queue }

/-! ## What the engine tells -/

/-- Take in the report of a new transfer.  While the general pause holds, it is paused. -/
def start (r : Report) (b : Board) : Outcome Board (Except Overflow Bool) :=
  let o := b.onQueue (Queue.start b.config.paceWeight r)
  match o.answer with
  | .ok true => if b.allPaused && r.phase.canPause then
      { o with commands := o.commands ++ [.pause r.tag true] }
    else o
  | _ => o

/-- Take in an event at the moment `now`, whatever kind of transfer it is about. -/
def takeIn (now : Instant) (event : Event) (b : Board) : Outcome Board (Except Overflow Bool) :=
  match event with
  | .started r => b.start r
  | .updated r => b.onQueue (Queue.update b.config.paceWeight r)
  | .hindered r fault => b.onQueue (Queue.hinder b.config.paceWeight r fault)
  | .finished r fault => b.onQueue (Queue.finish now r fault)

/-- Take in an event at the moment `now` if it is about a transfer of a kind that is shown. -/
def hear (now : Instant) (event : Event) (b : Board) : Outcome Board (Except Overflow Bool) :=
  if event.report.isShown then b.takeIn now event else ⟨b, .ok false, [], []⟩

/-- Take in events one after the other, until a time cannot be expressed. -/
def hearAll (now : Instant) : List Event → Board → Outcome Board (Except Overflow Unit)
  | [], b => ⟨b, .ok (), [], []⟩
  | event :: events, b =>
    let first := b.hear now event
    match first.answer with
    | .error e => first.mapAnswer fun _ => .error e
    | .ok _ => (hearAll now events first.state).after first

/-- Load a listing of the engine in chunks of `size` rows. -/
def load (size : Nat) (listing : Listing) (b : Board) : Outcome Board (Except Overflow Nat) :=
  b.onQueue (Queue.loadListing b.config.paceWeight size listing)

end Board

end TransferQueue
