import TransferQueue.Proofs.Checked.Removal

/-!
# Checked moves

A block that is to move is given by its first row and by how many rows it has, so its end is a sum that
may be no word; then the block is not within the rows.  Scattered rows move one by one, and of them, those
beyond the end do not.

* `Queue.checkedMoveRange_eq`: a block of rows;
* `Queue.checkedMoveSelection_eq`: scattered rows.
-/

namespace TransferQueue

namespace Queue

variable {q : Queue}

/-- The commands that move the transfers `moving` before the row `destination`, or to the end. -/
def checkedBlockCommands (tags moving : List Tag) (destination : Nat) : Checked (List Command) :=
  if destination = 0 then pure (moving.reverse.map .putFirst)
  else if destination = tags.length then pure (moving.map .putLast)
  else do
    let target ← Checked.fetch tags destination
    pure (moving.map (.putBefore · target))

/-- The commands that move `count` rows from the row `first` on before the row `destination`. -/
def checkedCommandsToMove? (q : Queue) (first count destination : Nat) :
    Checked (Option (List Command)) :=
  let within := (Checked.add? first count).any (· ≤ q.size)
  if count = 0 || !within || q.size < destination then pure none
  else do
    let limit ← Checked.add first count
    let last ← Checked.sub limit 1
    if first ≤ destination && destination ≤ last then pure none
    else
      let moving ← Checked.slice q.tags first last
      let commands ← checkedBlockCommands q.tags moving destination
      pure (some commands)

/-- Ask the engine to move a block of rows. -/
def checkedMoveRange (first count destination : Nat) (q : Queue) : Checked (Outcome Queue Bool) := do
  match ← q.checkedCommandsToMove? first count destination with
  | none => pure ⟨q, false, [], []⟩
  | some commands => pure ⟨q, true, [], commands⟩

/-- Ask the engine to move each of the selected rows. -/
def checkedMoveSelection (rows : List Nat) (destination : Nat) (q : Queue) :
    Checked (Outcome Queue Bool) :=
  if q.size < destination then pure ⟨q, false, [], []⟩
  else do
    let ordered :=
      if destination = 0 then distinct (fun m n => n ≤ m) rows else distinct (fun m n => m ≤ n) rows
    let planned ← ordered.mapM fun n => q.checkedCommandsToMove? n 1 destination
    let commands := (planned.filterMap id).flatten
    pure ⟨q, !commands.isEmpty, [], commands⟩

/-- There is a row at each destination but the end. -/
theorem checkedBlockCommands_eq {tags : List Tag} {destination : Nat} (hle : destination ≤ tags.length)
    (moving : List Tag) :
    checkedBlockCommands tags moving destination = .ok (blockCommands tags moving destination) := by
  rw [checkedBlockCommands, blockCommands]
  by_cases hfirst : destination = 0
  · rw [if_pos hfirst, if_pos hfirst]
    rfl
  · rw [if_neg hfirst, if_neg hfirst]
    by_cases hend : destination = tags.length
    · rw [if_pos hend, List.getElem?_eq_none (Nat.le_of_eq hend.symm)]
      rfl
    · have htarget : tags[destination]? = some tags[destination] :=
        List.getElem?_eq_getElem (Nat.lt_of_le_of_ne hle hend)
      rw [if_neg hend, Checked.fetch_eq htarget, htarget]
      rfl

theorem checkedCommandsToMove?_eq (h : q.size < UInt64.size) (first count destination : Nat) :
    q.checkedCommandsToMove? first count destination
      = .ok (q.commandsToMove? first count destination) := by
  have hlength : q.tags.length = q.size := List.length_map _
  simp only [checkedCommandsToMove?, commandsToMove?]
  by_cases hwithin : count ≠ 0 ∧ first + count ≤ q.size ∧ destination ≤ q.size
  · obtain ⟨hcount, hbound, hdestination⟩ := hwithin
    have hany := (Checked.any_add?_iff h).2 hbound
    rw [if_neg (by simp [hcount, hany, hdestination]), Checked.add_eq (by omega), Checked.ok_bind,
      Checked.sub_eq (by omega), Checked.ok_bind]
    by_cases hinside : first ≤ destination ∧ destination < first + count
    · rw [if_pos (by simp only [Bool.and_eq_true, decide_eq_true_eq]; omega),
        if_pos (.inr (.inr (.inr hinside)))]
      rfl
    · have hwidth : first + count - 1 + 1 - first = count := by omega
      rw [if_neg (by simp only [Bool.and_eq_true, decide_eq_true_eq]; omega), if_neg (by omega),
        Checked.slice_eq (by omega) (by omega), Checked.ok_bind, hwidth,
        checkedBlockCommands_eq (by omega)]
      rfl
  · have hguard : (count = 0 || !(Checked.add? first count).any (· ≤ q.size)
        || q.size < destination) = true := by
      by_contra hno
      simp only [Bool.or_eq_true, Bool.not_eq_true', decide_eq_true_eq, not_or, Bool.not_eq_false,
        Checked.any_add?_iff h] at hno
      omega
    rw [if_pos hguard, if_pos (by omega)]
    rfl

theorem checkedMoveRange_eq (h : q.size < UInt64.size) (first count destination : Nat) :
    q.checkedMoveRange first count destination = .ok (q.moveRange first count destination) := by
  rw [checkedMoveRange, checkedCommandsToMove?_eq h, Checked.ok_bind, moveRange]
  cases q.commandsToMove? first count destination <;> rfl

/-- Of a sorted list, the numbers within the rows are the selection. -/
theorem filter_distinct {before : Nat → Nat → Bool} {rows selected : List Nat} {R : Nat → Nat → Prop}
    [Trans R R R] [Std.Irrefl R] [Std.Antisymm R]
    (hpairwise : (distinct before rows).Pairwise R) (hselected : selected.Pairwise R)
    (hmem : ∀ n, n ∈ selected ↔ n ∈ selection q.size rows) :
    (distinct before rows).filter (· < q.size) = selected := by
  refine (hpairwise.filter _).eq_of_mem_iff hselected fun n => ?_
  rw [hmem, mem_selection, List.mem_filter, mem_distinct, decide_eq_true_eq, and_comm]

/-- What is beyond the rows is not moved. -/
theorem filterMap_commandsToMove? (ordered : List Nat) (destination : Nat) :
    (ordered.filter (· < q.size)).filterMap (fun n => q.commandsToMove? n 1 destination)
      = ordered.filterMap fun n => q.commandsToMove? n 1 destination := by
  rw [List.filterMap_filter]
  congr 1
  funext n
  by_cases hn : n < q.size
  · rw [if_pos (decide_eq_true hn)]
  · rw [if_neg (by simpa using hn), commandsToMove?, if_pos (by omega)]

theorem checkedMoveSelection_eq (h : q.size < UInt64.size) (rows : List Nat) (destination : Nat) :
    q.checkedMoveSelection rows destination = .ok (q.moveSelection rows destination) := by
  rw [checkedMoveSelection]
  simp only [moveSelection]
  by_cases hbeyond : q.size < destination
  · have hnone : ∀ n, q.commandsToMove? n 1 destination = none := fun n => by
      rw [commandsToMove?, if_pos (by omega)]
    rw [if_pos hbeyond]
    simp [hnone]
  · have hordered : ((if destination = 0 then distinct (fun m n => n ≤ m) rows
          else distinct (fun m n => m ≤ n) rows) : List Nat).filter (· < q.size)
        = if destination = 0 then (selection q.size rows).reverse else selection q.size rows := by
      split
      · refine filter_distinct (R := (· > ·)) ?_ (descending_selection _ _) fun n => List.mem_reverse
        refine pairwise_distinct ?_ ?_ ?_ _ <;> grind
      · refine filter_distinct (R := (· < ·)) ?_ (pairwise_selection _ _) fun n => Iff.rfl
        refine pairwise_distinct ?_ ?_ ?_ _ <;> grind
    rw [if_neg hbeyond, ← hordered, filterMap_commandsToMove?]
    simp only [checkedCommandsToMove?_eq h, ← Checked.pure_eq, List.mapM_pure, pure_bind,
      List.filterMap_map]
    rfl

end Queue

end TransferQueue
