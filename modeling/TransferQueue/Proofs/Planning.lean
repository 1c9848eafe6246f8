import TransferQueue.Proofs.RoundTrip

/-!
# Moves that are planned

A block of rows can move if it has rows, all of them are there, and its destination is a row or the end
and not within the block.  Then the commands that the engine is asked to carry out move the block;
otherwise the engine is asked for nothing.  In either case nothing moves before the engine answers.

* `Queue.Movable`: the blocks that can move, and their destinations;
* `Board.move_planned`: they are those whose moves are accepted, and the commands carry the moves out.
-/

namespace TransferQueue

namespace Queue

/-- A block of rows that can move before the row `destination`, or to the end. -/
structure Movable (q : Queue) (first count destination : Nat) : Prop where
  nonempty : 0 < count
  within : first + count ≤ q.size
  bound : destination ≤ q.size
  outside : ¬(first ≤ destination ∧ destination < first + count)

variable {q : Queue} {first count destination : Nat}

theorem commandsToMove?_of_movable (h : q.Movable first count destination) :
    q.commandsToMove? first count destination
      = some (blockCommands q.tags ((q.tags.drop first).take count) destination) := by
  obtain ⟨hcount, hwithin, hbound, hout⟩ := h
  rw [commandsToMove?, if_neg]
  rintro (hzero | hbeyond | hbeyond | hin)
  · exact hcount.ne' hzero
  · exact Nat.not_lt.2 hwithin hbeyond
  · exact Nat.not_lt.2 hbound hbeyond
  · exact hout hin

theorem commandsToMove?_of_not_movable (h : ¬q.Movable first count destination) :
    q.commandsToMove? first count destination = none := by
  rcases hcommands : q.commandsToMove? first count destination with _ | commands
  · rfl
  · obtain ⟨-, hcount, hwithin, hbound, hout⟩ := commandsToMove?_eq_some hcommands
    exact absurd ⟨hcount, hwithin, hbound, by omega⟩ h

end Queue

namespace Board

variable {b : Board}

/-- A move is accepted exactly if the block can move to the destination.  The commands for it, carried
out in order, put the block before the row that is at the destination; there are none for any other
move.  The board does not change, and observers are told nothing. -/
theorem move_planned (reached : b.Reached) (first count destination : Nat) :
    let o := b.perform (.moveRange first count destination)
    (o.answer = .flag true ↔ b.queue.Movable first count destination)
      ∧ (o.answer = .flag true → o.commands.foldl Command.reorder b.queue.tags
        = moveBlock b.queue.tags first count destination)
      ∧ (o.answer ≠ .flag true → o.answer = .flag false ∧ o.commands = [])
      ∧ o.state = b ∧ o.changes = [] := by
  have hnodup : b.queue.tags.Nodup := reached.balanced.nodup
  have hlen : b.queue.tags.length = b.queue.size := List.length_map Row.tag
  simp only [perform, onQueue, Queue.moveRange]
  by_cases hmovable : b.queue.Movable first count destination
  · rw [Queue.commandsToMove?_of_movable hmovable]
    have hout := hmovable.outside
    have hmoves := Queue.foldl_blockCommands hnodup hmovable.nonempty (hlen ▸ hmovable.within)
      (hlen ▸ hmovable.bound) (by omega)
    exact ⟨iff_of_true rfl hmovable, fun _ => hmoves, fun hrefused => absurd rfl hrefused, rfl, rfl⟩
  · rw [Queue.commandsToMove?_of_not_movable hmovable]
    have hrefused : Answer.flag false ≠ .flag true := by decide
    exact ⟨iff_of_false hrefused hmovable, fun haccepted => absurd haccepted hrefused,
      fun _ => ⟨rfl, rfl⟩, rfl, rfl⟩

/-- Two of four rows move to the head, and to the end; they do not move into themselves. -/
theorem move_planned_fourRows :
    (fourRows.perform (.moveRange 2 2 0)).commands.foldl Command.reorder fourRows.queue.tags
        = [3, 4, 1, 2]
      ∧ (fourRows.perform (.moveRange 0 2 4)).commands.foldl Command.reorder fourRows.queue.tags
        = [3, 4, 1, 2]
      ∧ (fourRows.perform (.moveRange 1 2 2)).commands = [] := by
  have htags : fourRows.queue.tags = [1, 2, 3, 4] := by decide +kernel
  have hsize : fourRows.queue.size = 4 := by decide +kernel
  have reached : fourRows.Reached := ⟨_, _, _, rfl⟩
  obtain ⟨haccepts, hmoves, -⟩ := move_planned reached 2 2 0
  obtain ⟨haccepts', hmoves', -⟩ := move_planned reached 0 2 4
  obtain ⟨haccepts'', -, hrefuses, -⟩ := move_planned reached 1 2 2
  refine ⟨(hmoves (haccepts.2 ?_)).trans ?_, (hmoves' (haccepts'.2 ?_)).trans ?_,
    (hrefuses fun haccepted => (haccepts''.1 haccepted).outside ?_).2⟩
  · constructor <;> omega
  · rw [htags]
    decide
  · constructor <;> omega
  · rw [htags]
    decide
  · omega

end Board

end TransferQueue
