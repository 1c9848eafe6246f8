import TransferQueue.Proofs.Encounters
import TransferQueue.Proofs.Failures
import TransferQueue.Proofs.Lifetime

/-!
# Whom a pause reaches

To set or end the general pause, a board walks through the transfers with a row and asks the engine to
pause or resume each of them by its name.  The name is looked up again when its turn comes, so it
depends on the rows and on nothing else who is asked for, and how often.  Transfers that come while the
general pause holds are paused when they come.

To resume a selection is a walk of the same kind.  It ends the general pause, too, and does so whether
or not it has resumed anything.

* `Board.pauseEach`: the walk, name by name; `Board.pauseEach_eq`: the rows to which it comes;
* `Board.AsksFor`: each transfer that can be paused is asked for once, in order, and no other is;
* `Board.general_pause`: the general pause, when it is set, while it holds and when it ends;
* `Board.selection_resumes`: what it means to resume a selection.
-/

namespace TransferQueue

namespace Queue

variable {weight : Float} {q : Queue} {r : Report}

/-- A start that is accepted brings its transfer a row, in the phase that the engine reports. -/
theorem find?_of_start (h : (q.start weight r).answer = .ok true) :
    q.find? r.tag = none
      ∧ ∃ row, (q.start weight r).state.find? r.tag = some row ∧ row.entry.phase = r.phase := by
  simp only [start] at h ⊢
  split at h
  · cases h
  · rename_i hseen
    rw [if_neg hseen]
    rcases hadd : q.add weight r (placeFor r.lane r.priority q.rows) with failed | q'
    · rw [hadd] at h
      cases h
    · rcases q' with _ | q'
      · rw [hadd] at h
        cases h
      · obtain ⟨row, hmade, rfl, hnew, bound⟩ := add_eq_ok_some hadd
        obtain ⟨htag, hphase, -⟩ := Row.ofReport_eq_ok hmade
        have habsent : row.tag ∉ q.tags := htag ▸ contains_eq_false_iff.1 hnew
        refine ⟨find?_eq_none_of_contains hnew, row, ?_, hphase⟩
        show (q.insertRow _ row).find? r.tag = some row
        rw [find?_insertRow bound habsent, if_pos htag]

end Queue

/-! ## The walk -/

namespace Board

variable {b : Board}

/-- Pause or resume transfers by their names, one after the other.  Each is looked up when its turn
comes. -/
def pauseEach (paused : Bool) : List Tag → Board → Outcome Board Unit
  | [], b => ⟨b, (), [], []⟩
  | tag :: tags, b =>
    let first := b.pauseOne tag paused
    (pauseEach paused tags first.state).after first

/-- A walk through the names of rows comes to these rows, because no transfer has two. -/
theorem pauseEach_eq (paused : Bool) (h : b.queue.tags.Nodup) {rows : List Row}
    (hrows : ∀ row ∈ rows, row ∈ b.queue.rows) :
    pauseEach paused (rows.map Row.tag) b = ⟨b, (), [], pauseCommands paused rows⟩ := by
  induction rows with
  | nil => rfl
  | cons row rows ih =>
    obtain ⟨hrow, hrest⟩ := List.forall_mem_cons.1 hrows
    have hfound : b.queue.find? row.tag = some row := (Queue.find?_eq_some_iff h).2 ⟨hrow, rfl⟩
    have hone : (b.pauseOne row.tag paused).commands = pauseCommands paused [row] := by
      simp only [pauseOne, hfound, Option.toList_some]
    have hcommands : pauseCommands paused [row] ++ pauseCommands paused rows
        = pauseCommands paused (row :: rows) := by
      simp only [pauseCommands, ← List.map_append, ← List.filter_append, List.singleton_append]
    rw [List.map_cons, pauseEach, show (b.pauseOne row.tag paused).state = b from rfl, ih hrest]
    simp only [Outcome.after, hone, hcommands]
    rfl

/-- The commands that pause or resume transfers ask for each of those with a row for which that is
possible, once, and for no other, in the given order. -/
structure AsksFor (q : Queue) (paused : Bool) (order asked : List Tag) : Prop where
  /-- They are asked for in order. -/
  inOrder : asked.Sublist order
  /-- None of them is asked for twice. -/
  once : asked.Nodup
  /-- They are those whose phase allows it. -/
  mem : ∀ tag, tag ∈ asked ↔
    ∃ row, q.find? tag = some row ∧ row.entry.phase.canBecome paused = true

/-- A walk through all rows, in whatever order, asks for each transfer once. -/
theorem asksFor_of_perm (paused : Bool) (h : b.queue.tags.Nodup) {rows : List Row}
    (hperm : rows.Perm b.queue.rows) :
    ∃ asked, (pauseEach paused (rows.map Row.tag) b).commands = asked.map (.pause · paused)
      ∧ AsksFor b.queue paused (rows.map Row.tag) asked := by
  have hnodup : (rows.map Row.tag).Nodup := (hperm.map Row.tag).nodup_iff.2 h
  have hsub : ((rows.filter fun row => row.entry.phase.canBecome paused).map Row.tag).Sublist
      (rows.map Row.tag) := List.filter_sublist.map Row.tag
  refine ⟨_, ?_, hsub, hnodup.sublist hsub, fun tag => ?_⟩
  · rw [pauseEach_eq paused h fun row => hperm.mem_iff.1, List.map_map]
    rfl
  · constructor
    · intro hmem
      obtain ⟨row, hrow, rfl⟩ := List.mem_map.1 hmem
      obtain ⟨hrow, hcan⟩ := List.mem_filter.1 hrow
      exact ⟨row, (Queue.find?_eq_some_iff h).2 ⟨hperm.mem_iff.1 hrow, rfl⟩, hcan⟩
    · rintro ⟨row, hfound, hcan⟩
      obtain ⟨hrow, rfl⟩ := (Queue.find?_eq_some_iff h).1 hfound
      exact List.mem_map_of_mem (List.mem_filter.2 ⟨hperm.mem_iff.2 hrow, hcan⟩)

/-! ## Transfers that come -/

/-- The only command of a start pauses its transfer, if it has come while the general pause holds. -/
theorem commands_started (b : Board) (r : Report) :
    (b.start r).commands
      = if (b.start r).answer = .ok true ∧ b.allPaused = true ∧ r.phase.canPause = true then
          [.pause r.tag true]
        else [] := by
  have hnone : (b.onQueue (Queue.start b.config.paceWeight r)).commands = [] :=
    commands_start _ r b.queue
  rw [(b.start_state_answer r).2]
  simp only [start]
  by_cases hyes : (b.queue.start b.config.paceWeight r).answer = .ok true
  · have hanswer : (b.onQueue (Queue.start b.config.paceWeight r)).answer = .ok true := hyes
    simp only [hanswer, hyes, true_and, Bool.and_eq_true]
    split
    · exact congrArg (· ++ [.pause r.tag true]) hnone
    · exact hnone
  · have hno : ¬((b.queue.start b.config.paceWeight r).answer = .ok true ∧ b.allPaused = true
        ∧ r.phase.canPause = true) := fun h => hyes h.1
    rw [if_neg hno]
    split
    · exact absurd ‹_› hyes
    · exact hnone

end Board

namespace Encounter

/-- The event is accepted and brings a new row to its transfer, in a phase that can be paused. -/
structure BringsPausable (e : Encounter) (tag : Tag) : Prop where
  accepted : e.outcome.answer = .ok true
  absent : e.board.queue.find? tag = none
  present : ∃ row, e.outcome.state.queue.find? tag = some row ∧ row.entry.phase.canPause = true

variable {e : Encounter} {r : Report}

/-- While the general pause holds, a start pauses its transfer if it brings one that can be paused, and
asks for nothing else. -/
theorem commands_of_started (genuine : e.Genuine) (hevent : e.event = .started r)
    (hflag : e.board.allPaused = true) :
    (e.BringsPausable r.tag → e.outcome.commands = [.pause r.tag true])
      ∧ (¬e.BringsPausable r.tag → e.outcome.commands = []) := by
  have houtcome : e.outcome = e.board.start r ∨ e.outcome = ⟨e.board, .ok false, [], []⟩ := by
    obtain ⟨now, hhear | htake⟩ := genuine
    · rw [hevent, Board.hear] at hhear
      split at hhear
      · exact .inl hhear
      · exact .inr hhear
    · rw [hevent] at htake
      exact .inl htake
  rcases houtcome with hstart | hrefused
  · have hcommands := e.board.commands_started r
    rw [← hstart] at hcommands
    rw [hcommands, hflag]
    have hrow : e.outcome.answer = .ok true → e.board.queue.find? r.tag = none
        ∧ ∃ row, e.outcome.state.queue.find? r.tag = some row ∧ row.entry.phase = r.phase := by
      rw [hstart, (e.board.start_state_answer r).1, (e.board.start_state_answer r).2]
      exact Queue.find?_of_start
    constructor
    · intro hbrings
      obtain ⟨-, row, hfound, hphase⟩ := hrow hbrings.accepted
      obtain ⟨row', hfound', hcan⟩ := hbrings.present
      obtain rfl : row = row' := Option.some.inj (hfound.symm.trans hfound')
      exact if_pos ⟨hbrings.accepted, rfl, hphase ▸ hcan⟩
    · intro hnot
      refine if_neg fun hpause => hnot ?_
      obtain ⟨haccepted, -, hcan⟩ := hpause
      obtain ⟨habsent, row, hfound, hphase⟩ := hrow haccepted
      exact ⟨haccepted, habsent, row, hfound, hphase ▸ hcan⟩
  · refine ⟨fun hbrings => ?_, fun _ => by rw [hrefused]⟩
    have haccepted := hbrings.accepted
    rw [hrefused] at haccepted
    cases haccepted

end Encounter

namespace Board

variable {b : Board}

/-- Whatever has happened to an empty board, to set the general pause asks for it and then for each
transfer that can be paused, once, from the last row to the first, and to end it asks for each paused
transfer, once, from the first row to the last, and then for its end; neither changes a row.  As long as
the general pause holds, each start that brings a transfer which can be paused asks to pause it, once,
and no other start asks for anything. -/
theorem general_pause (config : Config) (preference : Preference) (actions : List Action) :
    let b := ((new config preference).run actions).state
    (∃ asked, (b.perform (.pauseAll true)).commands = .pauseAll true :: asked.map (.pause · true)
        ∧ (pauseEach true b.queue.tags.reverse b).commands = asked.map (.pause · true)
        ∧ AsksFor b.queue true b.queue.tags.reverse asked)
      ∧ (∃ asked, (b.perform (.pauseAll false)).commands
          = asked.map (.pause · false) ++ [.pauseAll false]
        ∧ (pauseEach false b.queue.tags b).commands = asked.map (.pause · false)
        ∧ AsksFor b.queue false b.queue.tags asked)
      ∧ (∀ paused, (b.perform (.pauseAll paused)).state.queue = b.queue)
      ∧ (∀ action, action.events ≠ [] → (b.perform action).commands
          = (b.encounters action).flatMap (·.outcome.commands))
      ∧ ∀ e ∈ (new config preference).encountersIn actions, e.board.allPaused = true →
          ∀ r, e.event = .started r →
            (e.BringsPausable r.tag → e.outcome.commands = [.pause r.tag true])
              ∧ (¬e.BringsPausable r.tag → e.outcome.commands = []) := by
  intro b
  have reached : b.Reached := ⟨config, preference, actions, rfl⟩
  have hnodup : b.queue.tags.Nodup := reached.balanced.nodup
  refine ⟨?_, ?_, fun _ => rfl, fun action h => (perform_eq_encounters h).2.2, ?_⟩
  · have hperm := List.reverse_perm b.queue.rows
    obtain ⟨asked, hasked, hasks⟩ := asksFor_of_perm true hnodup hperm
    have hwalk := pauseEach_eq true hnodup fun row => hperm.mem_iff.1
    rw [List.map_reverse] at hasked hasks hwalk
    refine ⟨asked, ?_, hasked, hasks⟩
    rw [← hasked, hwalk]
    rfl
  · obtain ⟨asked, hasked, hasks⟩ := asksFor_of_perm false hnodup (.refl b.queue.rows)
    have hwalk := pauseEach_eq false hnodup fun row (hrow : row ∈ b.queue.rows) => hrow
    refine ⟨asked, ?_, hasked, hasks⟩
    rw [← hasked, hwalk]
    rfl
  · intro e he hflag r hevent
    have hempty : (new config preference).Reached := ⟨config, preference, [], rfl⟩
    obtain ⟨-, genuine⟩ := mem_encountersIn hempty he
    exact Encounter.commands_of_started genuine hevent hflag

/-- Transfers come while the general pause holds: one that can be paused, the same again, and one that
is paused already. -/
def pausedRun : List Action :=
  [.hear .epoch (.started (.bare 1 .download 5 1)), .pauseAll true,
    .hear .epoch (.started (.bare 2 .download 6 2)), .hear .epoch (.started (.bare 2 .download 6 3)),
    .takeIn .epoch (.started { Report.bare 3 .download 7 4 with phase := .paused })]

theorem general_pause_newcomer :
    ∃ e ∈ (new {} (.memory false)).encountersIn pausedRun, e.board.allPaused = true
      ∧ e.event = .started (.bare 2 .download 6 2) ∧ e.outcome.commands = [.pause 2 true] := by
  let b := ((new {} (.memory false)).run (pausedRun.take 2)).state
  let e : Encounter :=
    ⟨b, .started (.bare 2 .download 6 2), b.hear .epoch (.started (.bare 2 .download 6 2))⟩
  have he : e ∈ (new {} (.memory false)).encountersIn pausedRun :=
    List.mem_cons_of_mem _ List.mem_cons_self
  have hflag : e.board.allPaused = true := rfl
  have hbrings : e.BringsPausable 2 := by
    have hrow : (e.outcome.state.queue.find? 2).map (·.entry.phase) = some .queued := by decide +kernel
    obtain ⟨row, hrow, hphase⟩ := Option.map_eq_some_iff.1 hrow
    exact ⟨by decide +kernel, by decide +kernel, row, hrow, by rw [hphase]; rfl⟩
  obtain ⟨-, -, -, -, hstarts⟩ := general_pause {} (.memory false) pausedRun
  exact ⟨e, he, hflag, rfl, (hstarts e he hflag _ rfl).1 hbrings⟩

/-! ## Selections -/

/-- The operation has ended the general pause: flag and preference are cleared, the engine is asked to
end it, and the observers are told. -/
structure Lifts {α : Type} (b : Board) (o : Outcome Board α) : Prop where
  held : b.allPaused = true
  flag : o.state.allPaused = false
  wish : o.state.preference.isPaused = false
  asked : Command.pauseAll false ∈ o.commands
  told : Change.pausing false ∈ o.changes

/-- The transfers of the selected rows that are paused, in the order of the selection and as often as it
repeats them. -/
def pausedAmong (rows : List Nat) (b : Board) : List Tag :=
  ((rows.filterMap (b.queue.rows[·]?)).filter fun row => row.entry.phase = .paused).map Row.tag

theorem pausedAmong_ne_nil_iff {rows : List Nat} :
    b.pausedAmong rows ≠ [] ↔
      ∃ n ∈ rows, ∃ row, b.queue.rows[n]? = some row ∧ row.entry.phase = .paused := by
  constructor
  · intro h
    obtain ⟨tag, htag⟩ := List.exists_mem_of_ne_nil _ h
    obtain ⟨row, hrow, -⟩ := List.mem_map.1 htag
    obtain ⟨hrow, hphase⟩ := List.mem_filter.1 hrow
    obtain ⟨n, hn, hat⟩ := List.mem_filterMap.1 hrow
    exact ⟨n, hn, row, hat, of_decide_eq_true hphase⟩
  · rintro ⟨n, hn, row, hat, hphase⟩
    refine List.ne_nil_of_mem (List.mem_map_of_mem (List.mem_filter.2 ⟨?_, decide_eq_true hphase⟩))
    exact List.mem_filterMap.2 ⟨n, hn, hat⟩

theorem pauseCommands_false (rows : List Nat) (b : Board) :
    pauseCommands false (rows.filterMap (b.queue.rows[·]?))
      = (b.pausedAmong rows).map (.pause · false) := by
  rw [pausedAmong, List.map_map]
  rfl

/-- To resume a selection asks for each selected row that is paused, in the order of the selection, and
changes no row.  It ends the general pause if it holds, whatever is selected.  So it ends the general
pause exactly when that holds and something is resumed, unless it holds and there is nothing to be
resumed. -/
theorem selection_resumes (reached : b.Reached) (rows : List Nat) :
    let o := b.perform (.pauseSelection rows false)
    let resumed := b.pausedAmong rows
    (resumed ≠ [] ↔ ∃ n ∈ rows, ∃ row, b.queue.rows[n]? = some row ∧ row.entry.phase = .paused)
      ∧ (pauseEach false (rows.filterMap (b.queue.tags[·]?)) b).commands
        = resumed.map (.pause · false)
      ∧ (b.allPaused = false → o = ⟨b, .done, [], resumed.map (.pause · false)⟩)
      ∧ (b.allPaused = true →
        o = ⟨{ b with allPaused := false, preference := b.preference.set false }, .done,
          [.pausing false], resumed.map (.pause · false) ++ [.pauseAll false]⟩)
      ∧ (Lifts b o ↔ b.allPaused = true)
      ∧ ((Lifts b o ↔ b.allPaused = true ∧ resumed ≠ [])
        ↔ ¬(b.allPaused = true ∧ resumed = [])) := by
  intro o resumed
  have hnodup : b.queue.tags.Nodup := reached.balanced.nodup
  have hstill : b.allPaused = false → o = ⟨b, .done, [], resumed.map (.pause · false)⟩ := by
    intro hflag
    simp only [o, perform, pauseSelection, hflag, pauseCommands_false]
    rfl
  have hends : b.allPaused = true →
      o = ⟨{ b with allPaused := false, preference := b.preference.set false }, .done,
        [.pausing false], resumed.map (.pause · false) ++ [.pauseAll false]⟩ := by
    intro hflag
    simp only [o, perform, pauseSelection, hflag, pauseCommands_false]
    rfl
  have hlifts : Lifts b o ↔ b.allPaused = true := by
    refine ⟨Lifts.held, fun hflag => ?_⟩
    rw [hends hflag]
    exact ⟨hflag, rfl, Preference.isPaused_set false b.preference, by simp, by simp⟩
  refine ⟨pausedAmong_ne_nil_iff, ?_, hstill, hends, hlifts, ?_⟩
  · -- the names of the selected rows are looked up again, and found to be those of the rows
    have hmem : ∀ row ∈ rows.filterMap (b.queue.rows[·]?), row ∈ b.queue.rows := by
      intro row hrow
      obtain ⟨n, -, hat⟩ := List.mem_filterMap.1 hrow
      exact List.mem_of_getElem? hat
    have htags : rows.filterMap (b.queue.tags[·]?)
        = (rows.filterMap (b.queue.rows[·]?)).map Row.tag := by
      rw [List.map_filterMap]
      exact congrArg (fun f => rows.filterMap f) (funext fun n => List.getElem?_map)
    rw [htags, pauseEach_eq false hnodup hmem, pauseCommands_false]
  · rw [hlifts]
    constructor
    · rintro h ⟨hflag, hnone⟩
      exact (h.1 hflag).2 hnone
    · intro h
      exact ⟨fun hflag => ⟨hflag, fun hnone => h ⟨hflag, hnone⟩⟩, And.left⟩

/-- A board with a transfer that runs although the general pause holds. -/
def heldBoard : Board := (startedRow.perform (.pauseAll true)).state

/-- A click on this transfer and on a row that is not there resumes nothing and ends the general
pause. -/
theorem selection_resumes_heldBoard :
    heldBoard.pausedAmong [0, 7] = []
      ∧ Lifts heldBoard (heldBoard.perform (.pauseSelection [0, 7] false))
      ∧ (heldBoard.perform (.pauseSelection [0, 7] false)).commands = [.pauseAll false] := by
  have reached : heldBoard.Reached :=
    Reached.perform ⟨{}, .memory false, [.hear .epoch (.started (.bare 1 .download 5 10))], rfl⟩ _
  have hflag : heldBoard.allPaused = true := rfl
  have hnone : heldBoard.pausedAmong [0, 7] = [] := by decide +kernel
  obtain ⟨-, -, -, hends, hlifts, -⟩ := selection_resumes reached [0, 7]
  refine ⟨hnone, hlifts.2 hflag, ?_⟩
  rw [hends hflag, hnone]
  rfl

end Board

end TransferQueue
