import TransferQueue.Proofs.Picking
import TransferQueue.Proofs.RoundTrip

/-!
# Scattered rows that are moved together

A selection of rows is moved row by row: each selected row gets a command of its own, planned among
the rows as they are, and a row that is itself the destination gets none.  The commands together
gather the rows that they move before the destination.

If the destination is one of the selected rows, it stays where it is, and the rows that are moved
come before it.  So the selection keeps its order unless a selected row stands behind the
destination.

* `gather`: the list in which elements at chosen positions have been gathered;
* `Queue.commands_moveSelection`: the commands for a selection are those for a block of the rows that
  are to move;
* `Queue.foldl_blockCommands_pick`: such commands gather them;
* `Board.selection_gathers`: what the commands for a selection do to the order of the transfers.
-/

namespace TransferQueue

section Gather

variable {α : Type} {as : List α} {destination : Nat}

/-- The list in which the elements at the chosen positions have been gathered: the others from before
the destination, the chosen ones in their order, and the others from the destination on. -/
def gather (as : List α) (chosen : Nat → Bool) (destination : Nat) : List α :=
  pick as (fun n => !chosen n && n < destination) ++ pick as chosen
    ++ pick as (fun n => !chosen n && destination ≤ n)

/-! ## Gathering -/

/-- The destination splits the list that is gathered. -/
theorem gather_append (pre post : List α) (chosen : Nat → Bool) :
    gather (pre ++ post) chosen pre.length
      = pick pre (fun n => !chosen n) ++ pick (pre ++ post) chosen
        ++ pick post (fun n => !chosen (pre.length + n)) := by
  have hlow : pick (pre ++ post) (fun n => !chosen n && decide (n < pre.length))
      = pick pre fun n => !chosen n := by
    have hpost : pick post (fun n => !chosen (pre.length + n) && decide (pre.length + n < pre.length))
        = [] := pick_eq_nil fun n _ => by simp
    rw [pick_append, hpost, List.append_nil]
    exact pick_congr fun n hn => by simp [hn]
  have hhigh : pick (pre ++ post) (fun n => !chosen n && decide (pre.length ≤ n))
      = pick post fun n => !chosen (pre.length + n) := by
    have hpre : pick pre (fun n => !chosen n && decide (pre.length ≤ n)) = [] :=
      pick_eq_nil fun n hn => by simp [Nat.not_le.2 hn]
    rw [pick_append, hpre, List.nil_append]
    exact pick_congr fun n _ => by simp
  rw [gather, hlow, hhigh]

theorem gather_congr {chosen chosen' : Nat → Bool} (h : ∀ n < as.length, chosen n = chosen' n) :
    gather as chosen destination = gather as chosen' destination := by
  have hlow : pick as (fun n => !chosen n && decide (n < destination))
      = pick as fun n => !chosen' n && decide (n < destination) :=
    pick_congr fun n hn => by rw [h n hn]
  have hhigh : pick as (fun n => !chosen n && decide (destination ≤ n))
      = pick as fun n => !chosen' n && decide (destination ≤ n) :=
    pick_congr fun n hn => by rw [h n hn]
  rw [gather, gather, pick_congr h, hlow, hhigh]

/-- The element at the destination comes among the chosen ones or behind them. -/
theorem gather_append_cons (pre post : List α) (a : α) (chosen : Nat → Bool) :
    gather (pre ++ a :: post) chosen pre.length
      = pick pre (fun n => !chosen n) ++ pick pre chosen
        ++ ((if chosen pre.length then [a] else [])
          ++ pick post (fun n => chosen (pre.length + (n + 1)))
          ++ (if chosen pre.length then [] else [a])
          ++ pick post (fun n => !chosen (pre.length + (n + 1)))) := by
  rw [gather_append, pick_append, pick_cons, pick_cons, Nat.add_zero]
  cases chosen pre.length <;> simp

/-- An element that is chosen and stays at the destination comes behind the other chosen elements.
This is its place among them if no chosen element stands behind it. -/
theorem gather_stay_iff {pre post : List α} {a : α} {chosen : Nat → Bool}
    (h : (pre ++ a :: post).Nodup) (hchosen : chosen pre.length = true) :
    gather (pre ++ a :: post) (fun n => chosen n && n != pre.length) pre.length
        = gather (pre ++ a :: post) chosen pre.length
      ↔ ∀ n < post.length, chosen (pre.length + (n + 1)) = false := by
  have ha : a ∉ post := (List.nodup_cons.1 (List.nodup_append.1 h).2.1).1
  have hpre : ∀ n < pre.length, (chosen n && n != pre.length) = chosen n := by
    intro n hn
    simp [Nat.ne_of_lt hn]
  have hpost : ∀ n, (chosen (pre.length + (n + 1)) && pre.length + (n + 1) != pre.length)
      = chosen (pre.length + (n + 1)) := by
    intro n
    simp
  rw [gather_append_cons, gather_append_cons, pick_congr hpre,
    pick_congr fun n hn => congrArg Bool.not (hpre n hn)]
  simp only [hpost, hchosen, bne_self_eq_false, Bool.and_false, if_true, Bool.false_eq_true, if_false,
    List.nil_append, List.append_nil, List.append_assoc, List.append_cancel_left_eq,
    List.cons_append]
  constructor
  · -- what comes first of both lists is the same, but it cannot stand behind itself
    intro heq n hn
    by_contra hbehind
    have hne : pick post (fun n => chosen (pre.length + (n + 1))) ≠ [] :=
      pick_ne_nil hn (by simpa using hbehind)
    obtain ⟨c, cs, hcs⟩ := List.exists_cons_of_ne_nil hne
    have hmem : c ∈ post := (pick_sublist post _).subset (hcs ▸ List.mem_cons_self)
    rw [hcs, List.cons_append, List.cons.injEq] at heq
    exact ha (heq.1 ▸ hmem)
  · intro hnone
    rw [pick_eq_nil hnone, List.nil_append, List.nil_append]

end Gather

/-! ## Commands -/

namespace Queue

/-- The command that moves one transfer before the row `destination`. -/
def placing (tags : List Tag) (destination : Nat) : Tag → Command :=
  if destination = 0 then .putFirst
  else
    match tags[destination]? with
    | none => .putLast
    | some target => (.putBefore · target)

theorem blockCommands_eq (tags moving : List Tag) (destination : Nat) :
    blockCommands tags moving destination
      = (if destination = 0 then moving.reverse else moving).map (placing tags destination) := by
  rw [blockCommands, placing]
  split
  · rfl
  · cases tags[destination]? <;> rfl

/-- A row gets one command, unless it is the destination. -/
theorem commandsToMove?_one {q : Queue} {n destination : Nat} (hn : n < q.size)
    (hdest : destination ≤ q.size) :
    q.commandsToMove? n 1 destination
      = (if n = destination then none else q.tags[n]?).map
          fun tag => [placing q.tags destination tag] := by
  have hlen : n < q.tags.length := by rwa [tags, List.length_map]
  by_cases hsame : n = destination
  · rw [if_pos hsame, commandsToMove?, if_pos (by omega)]
    rfl
  · have htag : (q.tags.drop n).take 1 = [q.tags[n]] := by
      rw [List.drop_eq_getElem_cons hlen, List.take_succ_cons, List.take_zero]
    rw [if_neg hsame, commandsToMove?, if_neg (by omega), htag, blockCommands_eq,
      List.getElem?_eq_getElem hlen]
    split <;> rfl

theorem flatten_filterMap_map {α β : Type} (g : Nat → Option α) (f : α → β) (ns : List Nat) :
    (ns.filterMap fun n => (g n).map fun a => [f a]).flatten = (ns.filterMap g).map f := by
  induction ns with
  | nil => rfl
  | cons n ns ih => cases h : g n <;> simp [h, ih]

/-- The commands for a selection are those for a block of the selected rows without the
destination. -/
theorem commands_moveSelection {q : Queue} {destination : Nat} (hdest : destination ≤ q.size)
    (rows : List Nat) :
    (q.moveSelection rows destination).commands
      = blockCommands q.tags (pick q.tags fun n => rows.contains n && n != destination)
          destination := by
  have hlen : q.tags.length = q.size := List.length_map Row.tag
  have hpick : pick q.tags (fun n => rows.contains n && n != destination)
      = (selection q.size rows).filterMap fun n => if n = destination then none else q.tags[n]? := by
    rw [pick, hlen, selection, List.filterMap_filter, List.filterMap_filter]
    refine List.filterMap_congr fun n _ => ?_
    by_cases hsame : n = destination <;> simp [hsame]
  have hcommands : ∀ ns : List Nat, (∀ n ∈ ns, n < q.size) →
      (ns.filterMap fun n => q.commandsToMove? n 1 destination).flatten
        = (ns.filterMap fun n => if n = destination then none else q.tags[n]?).map
            (placing q.tags destination) := by
    intro ns hns
    rw [List.filterMap_congr fun n hn => commandsToMove?_one (hns n hn) hdest,
      flatten_filterMap_map]
  have hselected : ∀ n ∈ selection q.size rows, n < q.size := fun n hn => (mem_selection.1 hn).1
  rw [blockCommands_eq, hpick]
  simp only [moveSelection]
  split
  · rw [hcommands _ fun n hn => hselected n (List.mem_reverse.1 hn), List.filterMap_reverse]
  · exact hcommands _ hselected

/-! ## What the commands do -/

/-- The commands for transfers at chosen places gather them, wherever they are, if the destination
itself does not move. -/
theorem foldl_blockCommands_pick {tags : List Tag} {destination : Nat} (h : tags.Nodup)
    (hdest : destination ≤ tags.length) {chosen : Nat → Bool} (hstays : chosen destination = false) :
    (blockCommands tags (pick tags chosen) destination).foldl Command.reorder tags
      = gather tags chosen destination := by
  have hnodup : (pick tags chosen).Nodup := h.sublist (pick_sublist tags chosen)
  have hrest := filter_notMem_pick h chosen
  obtain ⟨pre, post, rfl, rfl⟩ := exists_append_of_le hdest
  rw [gather_append, blockCommands]
  -- the first row, the end and the rows between them have commands of their own
  by_cases hzero : pre.length = 0
  · obtain rfl : pre = [] := List.eq_nil_of_length_eq_zero hzero
    have hmem : (fun tag => decide (tag ∉ (pick ([] ++ post) chosen).reverse))
        = fun tag => decide (tag ∉ pick ([] ++ post) chosen) := by
      funext tag
      simp
    rw [if_pos hzero, Command.foldl_putFirst h (List.nodup_reverse.2 hnodup), hmem, hrest]
    simp
  · rw [if_neg hzero]
    rcases post with _ | ⟨target, post⟩
    · have hnone : (pre ++ [])[pre.length]? = none := by simp
      rw [hnone]
      simp only
      rw [Command.foldl_putLast h hnodup, hrest]
      simp
    · have hsome : (pre ++ target :: post)[pre.length]? = some target := by simp
      rw [hsome]
      simp only
      have hsplit : (pre ++ target :: post).filter (· ∉ pick (pre ++ target :: post) chosen)
          = pick pre (fun n => !chosen n)
            ++ target :: pick post (fun n => !chosen (pre.length + (n + 1))) := by
        rw [hrest, pick_append, pick_cons, Nat.add_zero, hstays]
        rfl
      have htarget : target ∉ pick (pre ++ target :: post) chosen := by
        -- the target is among the others, for the destination does not move
        have hmem : target ∈ (pre ++ target :: post).filter
            (· ∉ pick (pre ++ target :: post) chosen) := by
          rw [hsplit]
          simp
        simpa using (List.mem_filter.1 hmem).2
      rw [Command.foldl_putBefore h hnodup htarget hsplit, pick_cons _ post, Nat.add_zero, hstays]
      rfl

end Queue

namespace Board

/-- The order of the transfers when the engine has carried out the commands for a selection, in order:
the selected rows other than the destination are gathered before it.  This is to gather all selected
rows if, and only if, the destination is not selected or no selected row stands behind it. -/
theorem selection_gathers {b : Board} (reached : b.Reached) {destination : Nat}
    (hdest : destination ≤ b.queue.size) (rows : List Nat) :
    let tags := (b.perform (.moveSelection rows destination)).commands.foldl Command.reorder
      b.queue.tags
    tags = gather b.queue.tags (fun n => rows.contains n && n != destination) destination
      ∧ (tags = gather b.queue.tags rows.contains destination
        ↔ (destination ∈ rows → ∀ n ∈ rows, destination < n → b.queue.size ≤ n)) := by
  intro tags
  have hnodup : b.queue.tags.Nodup := reached.balanced.nodup
  have hlen : b.queue.tags.length = b.queue.size := List.length_map Row.tag
  have hgather : tags
      = gather b.queue.tags (fun n => rows.contains n && n != destination) destination := by
    show (b.queue.moveSelection rows destination).commands.foldl Command.reorder b.queue.tags = _
    rw [Queue.commands_moveSelection hdest]
    exact Queue.foldl_blockCommands_pick hnodup (by omega) (by simp)
  refine ⟨hgather, ?_⟩
  rw [hgather]
  -- only a selected row that stays at the destination makes a difference
  by_cases hselected : destination ∈ rows ∧ destination < b.queue.size
  · obtain ⟨hmem, hlt⟩ := hselected
    obtain ⟨pre, post, hsplit, rfl⟩ :=
      exists_split_of_getElem? (List.getElem?_eq_getElem (hlen.symm ▸ hlt))
    rw [hsplit] at hnodup hlen ⊢
    rw [gather_stay_iff hnodup (by simpa using hmem)]
    simp only [List.length_append, List.length_cons] at hlen
    constructor
    · intro hnone _ n hn hbehind
      by_contra hwithin
      have hno := hnone (n - pre.length - 1) (by omega)
      rw [show pre.length + (n - pre.length - 1 + 1) = n by omega] at hno
      simp [hn] at hno
    · intro hbeyond n hn
      by_contra hmem'
      have hle := hbeyond hmem (pre.length + (n + 1)) (by simpa using hmem') (by omega)
      omega
  · -- no selected row stays behind
    have hsame : ∀ n < b.queue.tags.length,
        (rows.contains n && n != destination) = rows.contains n := by
      intro n hn
      by_cases hdestination : n = destination
      · subst hdestination
        have hnot : n ∉ rows := fun hmem => hselected ⟨hmem, by omega⟩
        simp [hnot]
      · simp [hdestination]
    rw [gather_congr hsame]
    refine iff_of_true rfl fun hmem n _ hbehind => ?_
    have hnot : ¬destination < b.queue.size := fun hlt => hselected ⟨hmem, hlt⟩
    omega

/-- Two rows of four are dropped on the first of them, which stays and so comes behind the other. -/
theorem selection_gathers_fourRows :
    (fourRows.perform (.moveSelection [3, 1] 1)).commands.foldl Command.reorder fourRows.queue.tags
        = [1, 4, 2, 3]
      ∧ gather fourRows.queue.tags [3, 1].contains 1 = [1, 2, 4, 3] := by
  have htags : fourRows.queue.tags = [1, 2, 3, 4] := by decide +kernel
  have hdest : 1 ≤ fourRows.queue.size := by decide +kernel
  have reached : fourRows.Reached := ⟨_, _, _, rfl⟩
  obtain ⟨hgather, -⟩ := selection_gathers reached hdest [3, 1]
  refine ⟨hgather.trans ?_, ?_⟩
  · rw [htags]
    decide
  · rw [htags]
    decide

end Board

end TransferQueue
