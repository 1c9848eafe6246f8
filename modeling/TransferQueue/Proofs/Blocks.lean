import Mathlib.Data.List.Nodup
import TransferQueue.Proofs.Placement
import TransferQueue.Queue.Reorder

/-!
# Blocks that move by commands

To move a block of rows, the queue asks the engine to give other places to the transfers of the
block, one after the other.  Here the commands are carried out on the mere order of the transfers.
Each of them moves one transfer, and the block is complete when all of them have been carried out;
meanwhile part of it is still at the old place.  So what is said of a list of commands is said of any
transfers that are to move, wherever they stand, and of the transfers that are not.

* `moveBlock`: a list in which a block has moved;
* `Command.foldl_putFirst`, `Command.foldl_putLast`, `Command.foldl_putBefore`: where commands
  gather the transfers that they move;
* `Queue.foldl_blockCommands`: the commands for a block move the block.
-/

namespace TransferQueue

/-- The list in which `count` elements, from the one at `first` on, have been taken out and put back
in their order before the one that was at `destination`, or at the end if there is none. -/
def moveBlock {α : Type} (as : List α) (first count destination : Nat) : List α :=
  let rest := as.take first ++ as.drop (first + count)
  let place := if destination ≤ first then destination else destination - count
  rest.take place ++ (as.drop first).take count ++ rest.drop place

/-- What is erased and what is filtered out is left out together. -/
theorem filter_erase {α : Type} [DecidableEq α] {as : List α} (h : as.Nodup) (a : α) (bs : List α) :
    (as.erase a).filter (· ∉ bs) = as.filter (· ∉ a :: bs) := by
  rw [h.erase_eq_filter, List.filter_filter]
  refine List.filter_congr fun b _ => ?_
  by_cases hb : b = a <;> simp [hb]

namespace Command

/-- The order of the transfers when the engine has done what it was asked for.  Only three commands
are about the order. -/
def reorder (tags : List Tag) : Command → List Tag
  | .putFirst tag => tag :: tags.erase tag
  | .putLast tag => tags.erase tag ++ [tag]
  | .putBefore tag target =>
    let rest := tags.erase tag
    rest.insertIdx (rest.idxOf target) tag
  | _ => tags

variable {tags moving : List Tag}

/-- Transfers that are put first one after the other come to the front in the opposite order. -/
theorem foldl_putFirst (h : tags.Nodup) (hmoving : moving.Nodup) :
    (moving.map putFirst).foldl reorder tags = moving.reverse ++ tags.filter (· ∉ moving) := by
  induction moving generalizing tags with
  | nil => simp
  | cons tag moving ih =>
    obtain ⟨htag, hmoving⟩ := List.nodup_cons.1 hmoving
    have hnext : (tag :: tags.erase tag).Nodup := List.nodup_cons.2 ⟨h.not_mem_erase, h.erase tag⟩
    rw [List.map_cons, List.foldl_cons, reorder, ih hnext hmoving, List.reverse_cons,
      List.append_assoc, List.filter_cons_of_pos (by simpa using htag), filter_erase h]
    rfl

/-- Transfers that are put last one after the other come to the end. -/
theorem foldl_putLast (h : tags.Nodup) (hmoving : moving.Nodup) :
    (moving.map putLast).foldl reorder tags = tags.filter (· ∉ moving) ++ moving := by
  induction moving generalizing tags with
  | nil => simp
  | cons tag moving ih =>
    obtain ⟨htag, hmoving⟩ := List.nodup_cons.1 hmoving
    have hnext : (tags.erase tag ++ [tag]).Nodup :=
      (List.perm_append_singleton tag _).nodup_iff.2
        (List.nodup_cons.2 ⟨h.not_mem_erase, h.erase tag⟩)
    rw [List.map_cons, List.foldl_cons, reorder, ih hnext hmoving, List.filter_append,
      filter_erase h, List.filter_cons_of_pos (by simpa using htag), List.append_assoc]
    rfl

/-- One transfer is put before another one. -/
theorem reorder_putBefore {tag target : Tag} {before after : List Tag}
    (hrest : tags.erase tag = before ++ target :: after) (hbefore : target ∉ before) :
    reorder tags (.putBefore tag target) = before ++ tag :: target :: after := by
  simp only [reorder, hrest]
  rw [List.idxOf_append_of_notMem hbefore, List.idxOf_cons_self, Nat.add_zero,
    insertIdx_append_length]

/-- Transfers that are put before another one, one after the other, come to stand there in their
order. -/
theorem foldl_putBefore {target : Tag} {low high : List Tag} (h : tags.Nodup)
    (hmoving : moving.Nodup) (htarget : target ∉ moving)
    (hrest : tags.filter (· ∉ moving) = low ++ target :: high) :
    (moving.map (putBefore · target)).foldl reorder tags = low ++ moving ++ target :: high := by
  induction moving generalizing tags low with
  | nil => simpa using hrest
  | cons tag moving ih =>
    obtain ⟨htag, hmoving⟩ := List.nodup_cons.1 hmoving
    have htarget' : target ∉ moving := fun hmem => htarget (List.mem_cons_of_mem _ hmem)
    -- the target splits the transfers other than the one that moves first
    rw [← filter_erase h] at hrest
    obtain ⟨pre, rest, herase, hpre, hrest⟩ := List.filter_eq_append_iff.1 hrest
    obtain ⟨mid, post, rfl, hmid, -, hpost⟩ := List.filter_eq_cons_iff.1 hrest
    rw [← List.append_assoc] at herase
    have hnodup : (pre ++ mid ++ target :: post).Nodup := herase ▸ h.erase tag
    have hbefore : target ∉ pre ++ mid := fun hmem =>
      (List.nodup_append.1 hnodup).2.2 target hmem target List.mem_cons_self rfl
    have hstep := reorder_putBefore herase hbefore
    have hnext : (pre ++ mid ++ tag :: target :: post).Nodup :=
      List.perm_middle.nodup_iff.2 (List.nodup_cons.2 ⟨herase ▸ h.not_mem_erase, hnodup⟩)
    have hsplit : (pre ++ mid ++ tag :: target :: post).filter (· ∉ moving)
        = (low ++ [tag]) ++ target :: high := by
      have hnone : mid.filter (· ∉ moving) = [] := List.filter_eq_nil_iff.2 hmid
      rw [List.filter_append, List.filter_append, hpre, hnone,
        List.filter_cons_of_pos (by simpa using htag),
        List.filter_cons_of_pos (by simpa using htarget'), hpost]
      simp
    rw [List.map_cons, List.foldl_cons, hstep, ih hnext hmoving htarget' hsplit]
    simp

end Command

/-! ## Blocks -/

section Blocks

variable {α : Type} {pre block post : List α} {destination : Nat}

/-- A block splits a list. -/
theorem exists_block {as : List α} {first count : Nat} (h : first + count ≤ as.length) :
    ∃ pre block post, as = pre ++ (block ++ post) ∧ pre.length = first ∧ block.length = count := by
  refine ⟨as.take first, (as.drop first).take count, as.drop (first + count), ?_, ?_, ?_⟩
  · rw [← List.drop_drop, List.take_append_drop, List.take_append_drop]
  · rw [List.length_take]
    omega
  · rw [List.length_take, List.length_drop]
    omega

theorem moveBlock_append (pre block post : List α) (destination place : Nat)
    (hplace : (if destination ≤ pre.length then destination else destination - block.length)
      = place) :
    moveBlock (pre ++ (block ++ post)) pre.length block.length destination
      = (pre ++ post).take place ++ block ++ (pre ++ post).drop place := by
  have hrest : (pre ++ (block ++ post)).drop (pre.length + block.length) = post := by
    rw [← List.drop_drop, List.drop_left, List.drop_left]
  simp only [moveBlock, hplace, hrest, List.take_left, List.drop_left]

/-- One element that is taken out and put back elsewhere is a block that moves.  Its destination is
counted with the element still at its old place. -/
theorem moveBlock_single {pre post low high : List α} (a : α) (hrest : low ++ high = pre ++ post) :
    moveBlock (pre ++ a :: post) pre.length 1
      (if pre.length < low.length then low.length + 1 else low.length) = low ++ a :: high := by
  have hplace : (if (if pre.length < low.length then low.length + 1 else low.length) ≤ pre.length
      then (if pre.length < low.length then low.length + 1 else low.length)
      else (if pre.length < low.length then low.length + 1 else low.length) - [a].length)
      = low.length := by
    rw [List.length_singleton]
    split <;> split <;> omega
  have hmove := moveBlock_append pre [a] post _ low.length hplace
  rw [← hrest, List.take_left, List.drop_left, List.append_assoc] at hmove
  exact hmove

/-- What stands at a destination outside the block stands there, too, when the block has been taken
out and the destination is counted anew. -/
theorem getElem?_rest (post : List α)
    (hout : destination < pre.length ∨ pre.length + block.length ≤ destination)
    (hblock : 0 < block.length) :
    (pre ++ (block ++ post))[destination]?
      = (pre ++ post)[if destination ≤ pre.length then destination
          else destination - block.length]? := by
  rcases hout with hlt | hle
  · rw [if_pos (Nat.le_of_lt hlt), List.getElem?_append_left hlt, List.getElem?_append_left hlt]
  · rw [if_neg (by omega), List.getElem?_append_right (by omega),
      List.getElem?_append_right (by omega), List.getElem?_append_right (by omega)]
    congr 1
    omega

/-- What does not belong to the block stands before or behind it. -/
theorem filter_notMem_block [DecidableEq α] (h : (pre ++ (block ++ post)).Nodup) :
    (pre ++ (block ++ post)).filter (· ∉ block) = pre ++ post := by
  obtain ⟨-, hright, hacross⟩ := List.nodup_append.1 h
  obtain ⟨-, -, hacross'⟩ := List.nodup_append.1 hright
  have hpre : ∀ a ∈ pre, a ∉ block := fun a ha hmem =>
    hacross a ha a (List.mem_append_left _ hmem) rfl
  have hpost : ∀ a ∈ post, a ∉ block := fun a ha hmem => hacross' a hmem a ha rfl
  rw [List.filter_append, List.filter_append, List.filter_eq_self.2 (by simpa using hpre),
    List.filter_eq_nil_iff.2 (by simp), List.filter_eq_self.2 (by simpa using hpost)]
  rfl

end Blocks

namespace Queue

/-- The commands for a block, carried out one after the other, move the block. -/
theorem foldl_blockCommands {tags : List Tag} {first count destination : Nat} (h : tags.Nodup)
    (hcount : 0 < count) (hblock : first + count ≤ tags.length) (hdest : destination ≤ tags.length)
    (hout : destination < first ∨ first + count ≤ destination) :
    (blockCommands tags ((tags.drop first).take count) destination).foldl Command.reorder tags
      = moveBlock tags first count destination := by
  obtain ⟨pre, block, post, rfl, rfl, rfl⟩ := exists_block hblock
  have hrest := filter_notMem_block h
  have hnodup : block.Nodup := (List.nodup_append.1 (List.nodup_append.1 h).2.1).1
  have hat := getElem?_rest post hout hcount
  rw [List.drop_left, List.take_left, blockCommands]
  generalize hplace :
    (if destination ≤ pre.length then destination else destination - block.length) = place at hat
  rw [moveBlock_append pre block post destination place hplace]
  by_cases hzero : destination = 0
  · -- each transfer comes before those that have moved already
    subst hzero
    obtain rfl : place = 0 := by rw [← hplace]; simp
    have hmem : (fun tag => decide (tag ∉ block.reverse)) = fun tag => decide (tag ∉ block) := by
      funext tag
      simp
    rw [if_pos rfl, Command.foldl_putFirst h (List.nodup_reverse.2 hnodup), hmem, hrest]
    simp
  · rw [if_neg hzero, hat]
    rcases htarget : (pre ++ post)[place]? with _ | target
    · have hend : (pre ++ post).length ≤ place := List.getElem?_eq_none_iff.1 htarget
      simp only
      rw [Command.foldl_putLast h hnodup, hrest, List.take_of_length_le hend,
        List.drop_of_length_le hend, List.append_nil]
    · -- the target does not move, and it is where the block is to come
      have hmem : target ∈ (pre ++ (block ++ post)).filter (· ∉ block) :=
        hrest ▸ List.mem_of_getElem? htarget
      have htarget' : target ∉ block := by simpa using (List.mem_filter.1 hmem).2
      obtain ⟨low, high, hsplit, rfl⟩ := exists_split_of_getElem? htarget
      rw [hsplit, List.take_left, List.drop_left]
      exact Command.foldl_putBefore h hnodup htarget' (hrest.trans hsplit)

end Queue

end TransferQueue
