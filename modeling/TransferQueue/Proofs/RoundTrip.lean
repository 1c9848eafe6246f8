import TransferQueue.Proofs.Blocks
import TransferQueue.Proofs.Lateness
import TransferQueue.Proofs.Rows

/-!
# A move comes back as asked

To move a block of rows changes nothing in the queue: commands go to the engine, and the rows move
when its reports come in.  An engine that obeys answers each command by a report with a priority
that puts the transfer where it was asked to be, among the rows as they then are.  Each report
changes the rows among which the next one is placed, and the search that places the row depends on
whether its priority has become smaller or greater.  But among rows that strictly ascend there is only
one place for a priority that no other row has, so every report does exactly what its command says,
and all of them together move the block.

* `Queue.Ranked`: the rows ascend strictly;
* `Command.Grants`: the priorities that obey a command;
* `Queue.Ranked.update`: what the answer to a command does;
* `Board.move_comes_back`: what the answers to a move do.
-/

namespace TransferQueue

namespace Queue

/-- All rows are of one lane, and each has a smaller priority than those behind it. -/
structure Ranked (rows : List Row) : Prop where
  /-- There is one lane. -/
  lane : ∀ a ∈ rows, ∀ b ∈ rows, a.entry.lane = b.entry.lane
  /-- The priorities ascend strictly. -/
  ascending : rows.Pairwise fun a b => a.entry.priority < b.entry.priority

namespace Ranked

variable {rows before after : List Row} {row : Row}

theorem sublist {rows' : List Row} (h : Ranked rows) (hsub : rows'.Sublist rows) : Ranked rows' :=
  ⟨fun a ha b hb => h.lane a (hsub.subset ha) b (hsub.subset hb), h.ascending.sublist hsub⟩

theorem sorted (h : Ranked rows) : Sorted rows := by
  refine h.ascending.imp ?_
  intro a b hlt _
  exact UInt64.le_of_lt hlt

/-- A row comes between those before which and those behind which it belongs. -/
theorem insert (h : Ranked (before ++ after))
    (hlane : ∀ a ∈ before ++ after, a.entry.lane = row.entry.lane)
    (hbefore : ∀ a ∈ before, a.entry.priority < row.entry.priority)
    (hafter : ∀ a ∈ after, row.entry.priority < a.entry.priority) :
    Ranked (before ++ row :: after) := by
  have hmem : ∀ a ∈ before ++ row :: after, a = row ∨ a ∈ before ++ after := by
    intro a ha
    simpa [or_left_comm] using ha
  constructor
  · intro a ha b hb
    have hrow : ∀ c ∈ before ++ row :: after, c.entry.lane = row.entry.lane := by
      intro c hc
      rcases hmem c hc with rfl | hc
      · rfl
      · exact hlane c hc
    rw [hrow a ha, hrow b hb]
  · obtain ⟨hlow, hhigh, hacross⟩ := List.pairwise_append.1 h.ascending
    refine List.pairwise_append.2 ⟨hlow, List.pairwise_cons.2 ⟨hafter, hhigh⟩, ?_⟩
    intro a ha b hb
    rcases List.mem_cons.1 hb with rfl | hb
    · exact hbefore a ha
    · exact hacross a ha b hb

/-- The rows before and behind one of them. -/
theorem around (h : Ranked (before ++ row :: after)) :
    Ranked (before ++ after) ∧ (∀ a ∈ before ++ after, a.entry.lane = row.entry.lane)
      ∧ (∀ a ∈ before, a.entry.priority < row.entry.priority)
      ∧ ∀ a ∈ after, row.entry.priority < a.entry.priority := by
  have hsub : (before ++ after).Sublist (before ++ row :: after) :=
    (List.Sublist.refl before).append (List.sublist_cons_self row after)
  obtain ⟨-, hright, hacross⟩ := List.pairwise_append.1 h.ascending
  refine ⟨h.sublist hsub, ?_, ?_, (List.pairwise_cons.1 hright).1⟩
  · exact fun a ha => h.lane a (hsub.subset ha) row (by simp)
  · exact fun a ha => hacross a ha row List.mem_cons_self

end Ranked

/-- There is one way to cut rows at a priority that none of them has. -/
theorem cut_unique {low high before after : List Row} {priority : UInt64}
    (heq : low ++ high = before ++ after) (hlow : ∀ a ∈ low, a.entry.priority ≤ priority)
    (hhigh : ∀ a ∈ high, priority ≤ a.entry.priority)
    (hbefore : ∀ a ∈ before, a.entry.priority < priority)
    (hafter : ∀ a ∈ after, priority < a.entry.priority) : low = before ∧ high = after := by
  rcases List.append_eq_append_iff.1 heq with ⟨mid, rfl, rfl⟩ | ⟨mid, rfl, rfl⟩
  · -- the rows between the cuts would be before the one and behind the other
    have hmid : mid = [] := List.eq_nil_iff_forall_not_mem.2 fun a ha =>
      UInt64.not_lt.2 (hhigh a (by simp [ha])) (hbefore a (by simp [ha]))
    simp [hmid]
  · -- and so they would the other way round
    have hmid : mid = [] := List.eq_nil_iff_forall_not_mem.2 fun a ha =>
      UInt64.not_lt.2 (hlow a (by simp [ha])) (hafter a (by simp [ha]))
    simp [hmid]

/-- A report on progress that is not late is passed over, if its row is ahead of it; otherwise the row
that it makes of that one goes where it belongs. -/
theorem update_cases {q : Queue} {weight : Float} {r : Report} {row : Row} {before after : List Row}
    (h : q.tags.Nodup) (hrows : q.rows = before ++ row :: after) (htag : row.tag = r.tag)
    (hnew : q.hasSeen r.number = false) (hcalm : (q.update weight r).answer ≠ .error .tooLong) :
    (row.entry.isAheadOf r = true ∧ q.update weight r = refuse { q with watermark := r.number })
      ∨ ∃ (row' : Row) (q' : Queue), row'.tag = r.tag ∧ row'.entry.lane = row.entry.lane
        ∧ row'.entry.priority = r.priority ∧ q'.rows = before ++ row' :: after
        ∧ q.update weight r = q'.settle before.length row.entry.priority row' := by
  have located : ({ q with watermark := r.number } : Queue).locate? r.tag
      = some (before.length, row) := htag ▸ locate?_of_split h hrows
  have hseen : ¬q.hasSeen r.number = true := by simp [hnew]
  simp only [update, takeIn, if_neg hseen, located] at hcalm ⊢
  by_cases hahead : row.entry.isAheadOf r = true
  · exact .inl ⟨hahead, if_pos hahead⟩
  · rw [if_neg hahead] at hcalm ⊢
    right
    rcases hmade : row.refresh weight r r.lastFault with row' | row'
    · rw [hmade] at hcalm
      exact absurd rfl hcalm
    · obtain ⟨timeLeft, pace, rfl⟩ := Row.refresh_eq_ok hmade
      refine ⟨Row.withPriority r.priority ⟨row.entry.refresh r timeLeft r.lastFault, row.retained,
        pace⟩, _, htag, rfl, rfl, ?_, rfl⟩
      show q.rows.set before.length _ = _
      rw [hrows, set_append_length]

/-- Where a report on progress puts the row of its transfer: the other rows stay, and it comes to a
cut at its priority. -/
theorem update_split {q : Queue} {weight : Float} {r : Report} {row : Row}
    {before after : List Row} (h : q.tags.Nodup) (hranked : Ranked q.rows)
    (hrows : q.rows = before ++ row :: after) (htag : row.tag = r.tag)
    (hnew : q.hasSeen r.number = false) (hcalm : (q.update weight r).answer ≠ .error .tooLong) :
    ∃ low row' high, (q.update weight r).state.rows = low ++ row' :: high
      ∧ low ++ high = before ++ after ∧ row'.tag = r.tag ∧ row'.entry.lane = row.entry.lane
      ∧ row'.entry.priority = r.priority ∧ (∀ a ∈ low, a.entry.priority ≤ r.priority)
      ∧ ∀ a ∈ high, r.priority ≤ a.entry.priority := by
  obtain ⟨hothers, hlane, hbefore, hafter⟩ := (hrows ▸ hranked).around
  rcases update_cases h hrows htag hnew hcalm with
    ⟨hahead, heq⟩ | ⟨row', q', htag', hlane', hpriority', hrows', heq⟩
  · -- the report is passed over, and its priority is the one that the row has
    have hsame : row.entry.priority = r.priority := by
      simp only [Entry.isAheadOf, Bool.and_eq_true, beq_iff_eq] at hahead
      exact hahead.1.2
    refine ⟨before, row, after, by rw [heq]; exact hrows, rfl, htag, rfl, hsame, ?_, ?_⟩
    · exact fun a ha => UInt64.le_of_lt (hsame ▸ hbefore a ha)
    · exact fun a ha => UInt64.le_of_lt (hsame ▸ hafter a ha)
  · rw [heq]
    rcases settle_eq row.entry.priority hrows' with ⟨hsame, heq⟩ | ⟨target, -, hslot, heq⟩
    · rw [heq]
      have hsame : row.entry.priority = r.priority := hsame.symm.trans hpriority'
      refine ⟨before, row', after, hrows', rfl, htag', hlane', hpriority', ?_, ?_⟩
      · exact fun a ha => UInt64.le_of_lt (hsame ▸ hbefore a ha)
      · exact fun a ha => UInt64.le_of_lt (hsame ▸ hafter a ha)
    · rw [heq]
      obtain ⟨low, high, hsplit, rfl, slot⟩ := hslot hothers.sorted
      rw [hlane', hpriority'] at slot
      refine ⟨low, row', high, ?_, hsplit.symm, htag', hlane', hpriority', ?_, ?_⟩
      · show (before ++ after).insertIdx low.length row' = _
        rw [hsplit, insertIdx_append_length]
      · exact fun a ha => slot.le a ha (hlane a (by simp [hsplit, ha]))
      · exact fun a ha => slot.ge a ha (hlane a (by simp [hsplit, ha]))

end Queue

/-! ## Answers to commands -/

namespace Command

/-- The transfer that is to move. -/
def moved? : Command → Option Tag
  | .putFirst tag | .putLast tag | .putBefore tag _ => some tag
  | _ => none

/-- A priority puts a transfer where a command asks for, when `others` are the rows of the other
transfers: before all of them, behind all of them, or between the target and the row before it. -/
def Grants (others : List Row) (priority : UInt64) : Command → Prop
  | .putFirst _ => ∀ row ∈ others, priority < row.entry.priority
  | .putLast _ => ∀ row ∈ others, row.entry.priority < priority
  | .putBefore _ target =>
    ∃ before row after, others = before ++ row :: after ∧ row.tag = target
      ∧ priority < row.entry.priority
      ∧ ∀ previous ∈ before.getLast?, previous.entry.priority < priority
  | _ => False

/-- Such a priority cuts the other rows where the command puts the transfer. -/
theorem Grants.cut {command : Command} {others : List Row} {priority : UInt64} {tag : Tag}
    {tags : List Tag} (h : command.Grants others priority) (hranked : Queue.Ranked others)
    (hmoved : command.moved? = some tag) (htags : tags.erase tag = others.map Row.tag)
    (hnodup : (others.map Row.tag).Nodup) :
    ∃ low high, others = low ++ high ∧ (∀ a ∈ low, a.entry.priority < priority)
      ∧ (∀ a ∈ high, priority < a.entry.priority)
      ∧ command.reorder tags = low.map Row.tag ++ tag :: high.map Row.tag := by
  cases command with
  | putFirst moved =>
    obtain rfl : moved = tag := Option.some.inj hmoved
    exact ⟨[], others, rfl, by simp, h, by rw [reorder, htags]; rfl⟩
  | putLast moved =>
    obtain rfl : moved = tag := Option.some.inj hmoved
    exact ⟨others, [], (List.append_nil others).symm, h, by simp, by rw [reorder, htags]; rfl⟩
  | putBefore moved target =>
    obtain rfl : moved = tag := Option.some.inj hmoved
    obtain ⟨before, row, after, rfl, rfl, hless, hprevious⟩ := h
    obtain ⟨-, -, hbefore, hafter⟩ := hranked.around
    refine ⟨before, row :: after, rfl, ?_, ?_, ?_⟩
    · -- the row before the target is the last of those before it
      intro a ha
      rcases List.eq_nil_or_concat before with rfl | ⟨pre, previous, rfl⟩
      · simp at ha
      · have hlast : previous.entry.priority < priority := hprevious previous (by simp)
        rw [List.concat_eq_append] at ha hranked
        rcases List.mem_append.1 ha with ha | ha
        · rw [List.append_assoc] at hranked
          exact UInt64.lt_trans (hranked.around.2.2.1 a ha) hlast
        · rw [List.mem_singleton.1 ha]
          exact hlast
    · intro a ha
      rcases List.mem_cons.1 ha with rfl | ha
      · exact hless
      · exact UInt64.lt_trans hless (hafter a ha)
    · rw [List.map_append, List.map_cons] at htags hnodup
      have hnew : row.tag ∉ before.map Row.tag := fun hmem =>
        (List.nodup_append.1 hnodup).2.2 _ hmem _ List.mem_cons_self rfl
      rw [reorder_putBefore htags hnew]
      rfl
  | _ => exact absurd hmoved (by simp [moved?])

end Command

namespace Queue

variable {q : Queue} {weight : Float} {r : Report} {command : Command}

/-- The rows of the other transfers are those before and behind the row of a transfer. -/
theorem others_eq {before after : List Row} {row : Row} (h : q.tags.Nodup)
    (hrows : q.rows = before ++ row :: after) :
    (q.rows.filter fun a => a.tag ≠ row.tag) = before ++ after
      ∧ q.tags.erase row.tag = (before ++ after).map Row.tag
      ∧ ((before ++ after).map Row.tag).Nodup := by
  have htags : q.tags = before.map Row.tag ++ row.tag :: after.map Row.tag := by
    simp [tags, hrows]
  rw [htags] at h
  obtain ⟨hnew, hnodup⟩ := List.nodup_cons.1 (List.perm_middle.nodup_iff.1 h)
  rw [← List.map_append] at hnew hnodup
  refine ⟨?_, ?_, hnodup⟩
  · have hkeep : ∀ a ∈ before ++ after, a.tag ≠ row.tag := fun a ha heq =>
      hnew (heq ▸ List.mem_map_of_mem ha)
    rw [hrows, List.filter_append, List.filter_cons_of_neg (by simp), ← List.filter_append]
    exact List.filter_eq_self.2 (by simpa using hkeep)
  · rw [List.map_append, List.mem_append, not_or] at hnew
    rw [htags, List.erase_append_right _ hnew.1, List.erase_cons_head, List.map_append]

/-- A report that obeys a command does to the order of the transfers what the command says, and the
rows still ascend. -/
theorem Ranked.update (hranked : Ranked q.rows) (h : q.tags.Nodup)
    (hmoved : command.moved? = some r.tag) (hmem : r.tag ∈ q.tags)
    (hnew : q.hasSeen r.number = false)
    (hgrants : command.Grants (q.rows.filter fun row => row.tag ≠ r.tag) r.priority)
    (hcalm : (q.update weight r).answer ≠ .error .tooLong) :
    Ranked (q.update weight r).state.rows
      ∧ (q.update weight r).state.tags = command.reorder q.tags
      ∧ (q.update weight r).state.tags.Perm q.tags := by
  obtain ⟨row, hrow, htag⟩ := List.mem_map.1 hmem
  obtain ⟨before, after, hrows⟩ := List.append_of_mem hrow
  obtain ⟨low, row', high, hrows', hsplit, htag', hlane', hpriority', hlow, hhigh⟩ :=
    update_split h hranked hrows htag hnew hcalm
  obtain ⟨hfilter, herase, hnodup⟩ := others_eq h hrows
  rw [htag] at hfilter herase
  rw [hfilter] at hgrants
  obtain ⟨hothers, hlane, -, -⟩ := (hrows ▸ hranked).around
  -- the cut at which the report puts the row is the one that the command asks for
  obtain ⟨pre, post, hcut, hpre, hpost, hreorder⟩ := hgrants.cut hothers hmoved herase hnodup
  obtain ⟨rfl, rfl⟩ := cut_unique (hsplit.trans hcut) hlow hhigh hpre hpost
  have htags' : (q.update weight r).state.tags
      = low.map Row.tag ++ r.tag :: high.map Row.tag := by
    simp [tags, hrows', htag']
  refine ⟨?_, htags'.trans hreorder.symm, ?_⟩
  · rw [hrows']
    refine Ranked.insert (hcut ▸ hothers) ?_ ?_ ?_
    · exact fun a ha => (hlane a (hcut ▸ ha)).trans hlane'.symm
    · exact fun a ha => hpriority'.symm ▸ hpre a ha
    · exact fun a ha => hpriority'.symm ▸ hpost a ha
  · rw [htags']
    refine List.perm_middle.trans ?_
    rw [← List.map_append, ← hcut, ← herase]
    exact (List.perm_cons_erase hmem).symm

end Queue

/-- The report on progress that an action brings, if it is taken in. -/
def Action.progress? : Action → Option Report
  | .takeIn _ (.updated r) => some r
  | .hear _ (.updated r) => if r.isShown then some r else none
  | _ => none

namespace Board

/-- The engine carries commands out in order: each of them is answered by a report on the progress of
its transfer, which is not late and brings a priority as asked for.  No time is too long to be
expressed. -/
def Obeyed : Board → List Command → List Action → Prop
  | _, [], [] => True
  | b, command :: commands, action :: actions =>
    (∃ r, action.progress? = some r ∧ command.moved? = some r.tag
        ∧ b.queue.watermark < r.number
        ∧ command.Grants (b.queue.rows.filter fun row => row.tag ≠ r.tag) r.priority)
      ∧ (b.perform action).answer ≠ .overflow
      ∧ (b.perform action).state.Obeyed commands actions
  | _, _, _ => False

/-- An action that brings a report on progress does what the report does to the queue. -/
theorem perform_of_progress? {b : Board} {action : Action} {r : Report}
    (h : action.progress? = some r) :
    b.perform action
      = (b.onQueue (Queue.update b.config.paceWeight r)).mapAnswer (.ofExcept .flag) := by
  cases action with
  | hear now event =>
    cases event with
    | updated r' =>
      obtain ⟨hshown, rfl⟩ : r'.isShown = true ∧ r' = r := by simpa [Action.progress?] using h
      have hhear : b.hear now (.updated r') = b.takeIn now (.updated r') := if_pos hshown
      rw [perform, hhear]
      rfl
    | _ => simp [Action.progress?] at h
  | takeIn now event =>
    cases event with
    | updated r' =>
      obtain rfl : r' = r := Option.some.inj h
      rfl
    | _ => simp [Action.progress?] at h
  | _ => simp [Action.progress?] at h

/-- The report does not fail if the action does not. -/
theorem ne_tooLong_of_progress? {b : Board} {action : Action} {r : Report}
    (h : action.progress? = some r) (hcalm : (b.perform action).answer ≠ .overflow) :
    (b.queue.update b.config.paceWeight r).answer ≠ .error .tooLong := by
  rw [perform_of_progress? h] at hcalm
  exact ne_tooLong_of_ofExcept hcalm

/-- An engine that obeys does to the order of the transfers what the commands say. -/
theorem tags_run_of_obeyed {b : Board} {commands : List Command} {answers : List Action}
    (hranked : Queue.Ranked b.queue.rows) (h : b.queue.tags.Nodup)
    (hmoved : ∀ command ∈ commands, ∃ tag ∈ b.queue.tags, command.moved? = some tag)
    (hobeyed : b.Obeyed commands answers) :
    (b.run answers).state.queue.tags = commands.foldl Command.reorder b.queue.tags := by
  -- each answer leaves rows that ascend, of the same transfers, for the next one
  induction commands generalizing b answers with
  | nil =>
    cases answers with
    | nil => rfl
    | cons => exact hobeyed.elim
  | cons command commands ih =>
    cases answers with
    | nil => exact hobeyed.elim
    | cons action answers =>
      obtain ⟨⟨r, hprogress, htag, hnumber, hgrants⟩, hcalm, hrest⟩ := hobeyed
      have hqueue : (b.perform action).state.queue
          = (b.queue.update b.config.paceWeight r).state := by
        rw [perform_of_progress? hprogress]
        rfl
      have hcalm := ne_tooLong_of_progress? hprogress hcalm
      obtain ⟨tag, hmem, htag'⟩ := hmoved command List.mem_cons_self
      obtain rfl : tag = r.tag := Option.some.inj (htag'.symm.trans htag)
      have hnew : b.queue.hasSeen r.number = false := by
        simpa [Queue.hasSeen] using hnumber
      obtain ⟨hranked', htags, hperm⟩ := hranked.update h htag hmem hnew hgrants hcalm
      rw [← hqueue] at hranked' htags hperm
      have hmoved' : ∀ command ∈ commands, ∃ tag ∈ (b.perform action).state.queue.tags,
          command.moved? = some tag := by
        intro command hcommand
        obtain ⟨tag, hmem, htag⟩ := hmoved command (List.mem_cons_of_mem _ hcommand)
        exact ⟨tag, hperm.mem_iff.2 hmem, htag⟩
      rw [List.foldl_cons, ← htags]
      exact ih hranked' (hperm.nodup_iff.2 h) hmoved' hrest

end Board

namespace Queue

/-- The commands for a block are about transfers of the block. -/
theorem moved?_of_mem_blockCommands {tags moving : List Tag} {destination : Nat} {command : Command}
    (h : command ∈ blockCommands tags moving destination) :
    ∃ tag ∈ moving, command.moved? = some tag := by
  rw [blockCommands] at h
  split at h
  · obtain ⟨tag, htag, rfl⟩ := List.mem_map.1 h
    exact ⟨tag, List.mem_reverse.1 htag, rfl⟩
  · split at h
    · obtain ⟨tag, htag, rfl⟩ := List.mem_map.1 h
      exact ⟨tag, htag, rfl⟩
    · obtain ⟨tag, htag, rfl⟩ := List.mem_map.1 h
      exact ⟨tag, htag, rfl⟩

/-- A move is accepted when there is a block within the rows, and the destination is outside of
it. -/
theorem commandsToMove?_eq_some {q : Queue} {first count destination : Nat}
    {commands : List Command} (h : q.commandsToMove? first count destination = some commands) :
    commands = blockCommands q.tags ((q.tags.drop first).take count) destination
      ∧ 0 < count ∧ first + count ≤ q.size ∧ destination ≤ q.size
      ∧ (destination < first ∨ first + count ≤ destination) := by
  rw [commandsToMove?] at h
  split at h
  · simp at h
  · exact ⟨(Option.some.inj h).symm, by omega⟩

end Queue

namespace Board

/-- A move that is accepted comes back as asked: when the engine has answered the commands, in order,
by reports that obey them, the block stands before the row that was at the destination. -/
theorem move_comes_back {b : Board} (reached : b.Reached) (ranked : Queue.Ranked b.queue.rows)
    (first count destination : Nat) (answers : List Action)
    (accepted : (b.perform (.moveRange first count destination)).answer = .flag true)
    (obeyed : (b.perform (.moveRange first count destination)).state.Obeyed
      (b.perform (.moveRange first count destination)).commands answers) :
    ((b.perform (.moveRange first count destination)).state.run answers).state.queue.tags
      = moveBlock b.queue.tags first count destination := by
  have hnodup : b.queue.tags.Nodup := reached.balanced.nodup
  simp only [perform, onQueue, Queue.moveRange] at accepted obeyed ⊢
  rcases hcommands : b.queue.commandsToMove? first count destination with _ | commands
  · rw [hcommands] at accepted
    simp [Outcome.mapAnswer, Outcome.mapState] at accepted
  · obtain ⟨rfl, hcount, hblock, hdest, hout⟩ := Queue.commandsToMove?_eq_some hcommands
    have hlen : b.queue.size = b.queue.tags.length := (List.length_map Row.tag).symm
    rw [hlen] at hblock hdest
    simp only [hcommands, Outcome.mapAnswer, Outcome.mapState] at obeyed ⊢
    have hmoved : ∀ command ∈ Queue.blockCommands b.queue.tags
        ((b.queue.tags.drop first).take count) destination,
        ∃ tag ∈ b.queue.tags, command.moved? = some tag := by
      intro command hcommand
      obtain ⟨tag, htag, heq⟩ := Queue.moved?_of_mem_blockCommands hcommand
      exact ⟨tag, List.mem_of_mem_drop (List.mem_of_mem_take htag), heq⟩
    rw [tags_run_of_obeyed ranked hnodup hmoved obeyed]
    exact Queue.foldl_blockCommands hnodup hcount hblock hdest hout

/-- A board with four rows. -/
def fourRows : Board :=
  ((new {} (.memory false)).run
    [.hear .epoch (.started (.bare 1 .download 10 1)),
      .hear .epoch (.started (.bare 2 .download 20 2)),
      .hear .epoch (.started (.bare 3 .download 30 3)),
      .hear .epoch (.started (.bare 4 .download 40 4))]).state

/-- The answers to the commands that move the first two rows before the last one. -/
def answersBeforeLast : List Action :=
  [.hear .epoch (.updated (.bare 1 .download 35 5)),
    .takeIn .epoch (.updated (.bare 2 .download 37 7))]

theorem move_comes_back_before_last :
    Queue.Ranked fourRows.queue.rows
    ∧ (fourRows.perform (.moveRange 0 2 3)).answer = .flag true
    ∧ (fourRows.perform (.moveRange 0 2 3)).state.Obeyed
      (fourRows.perform (.moveRange 0 2 3)).commands answersBeforeLast
    ∧ ((fourRows.perform (.moveRange 0 2 3)).state.run answersBeforeLast).state.queue.tags
      = [3, 1, 2, 4] := by
  have ranked : Queue.Ranked fourRows.queue.rows := ⟨by decide +kernel, by decide +kernel⟩
  have accepted : (fourRows.perform (.moveRange 0 2 3)).answer = .flag true := by decide +kernel
  have obeyed : (fourRows.perform (.moveRange 0 2 3)).state.Obeyed
      (fourRows.perform (.moveRange 0 2 3)).commands answersBeforeLast := by
    refine ⟨⟨.bare 1 .download 35 5, rfl, rfl, by decide +kernel, ?_⟩, by decide +kernel,
      ⟨.bare 2 .download 37 7, rfl, rfl, by decide +kernel, ?_⟩, by decide +kernel, trivial⟩
    · exact ⟨[_, _], _, [], rfl, rfl, by decide +kernel, by decide +kernel⟩
    · exact ⟨[_, _], _, [], rfl, rfl, by decide +kernel, by decide +kernel⟩
  have hmoved := move_comes_back ⟨_, _, _, rfl⟩ ranked 0 2 3 answersBeforeLast accepted obeyed
  exact ⟨ranked, accepted, obeyed, hmoved.trans (by decide +kernel)⟩

end Board

end TransferQueue
