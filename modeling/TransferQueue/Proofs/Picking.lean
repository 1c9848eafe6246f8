import Mathlib.Data.List.Nodup

/-!
# Elements at chosen positions

Rows are selected by their numbers.  What is said of them is said of the positions of a list: the
elements at chosen positions are picked, in their order, and those at the other positions are left.
Where a list is put together from parts, so are the elements that are picked from it.
-/

namespace TransferQueue

section Picking

variable {α β : Type} {as : List α} {p p' : Nat → Bool}

/-- The elements of a list at the positions with a property, in their order. -/
def pick (as : List α) (p : Nat → Bool) : List α :=
  ((List.range as.length).filter p).filterMap (as[·]?)

@[simp] theorem pick_nil (p : Nat → Bool) : pick ([] : List α) p = [] := rfl

theorem mem_pick {a : α} : a ∈ pick as p ↔ ∃ n : Nat, as[n]? = some a ∧ p n = true := by
  simp only [pick, List.mem_filterMap, List.mem_filter, List.mem_range]
  constructor
  · rintro ⟨n, ⟨-, hp⟩, ha⟩
    exact ⟨n, ha, hp⟩
  · rintro ⟨n, ha, hp⟩
    exact ⟨n, ⟨(List.getElem?_eq_some_iff.1 ha).1, hp⟩, ha⟩

theorem pick_cons (a : α) (as : List α) (p : Nat → Bool) :
    pick (a :: as) p = (if p 0 then [a] else []) ++ pick as (fun n => p (n + 1)) := by
  have hrest : (((List.range as.length).map Nat.succ).filter p).filterMap ((a :: as)[·]?)
      = pick as (fun n => p (n + 1)) := by
    rw [List.filter_map, List.filterMap_map]
    rfl
  rw [pick, List.length_cons, List.range_succ_eq_map, List.filter_cons]
  split
  · rw [List.filterMap_cons, hrest]
    rfl
  · exact hrest

theorem pick_append (as bs : List α) (p : Nat → Bool) :
    pick (as ++ bs) p = pick as p ++ pick bs (fun n => p (as.length + n)) := by
  induction as generalizing p with
  | nil => simp
  | cons a as ih =>
    have hshift : (fun n => p (as.length + n + 1)) = fun n => p ((a :: as).length + n) := by
      funext n
      rw [List.length_cons, Nat.add_right_comm]
    rw [List.cons_append, pick_cons, ih, hshift, ← List.append_assoc, ← pick_cons]

theorem pick_congr (h : ∀ n < as.length, p n = p' n) : pick as p = pick as p' := by
  rw [pick, List.filter_congr fun n hn => h n (List.mem_range.1 hn), ← pick]

theorem pick_eq_nil (h : ∀ n < as.length, p n = false) : pick as p = [] := by
  have hnone : (List.range as.length).filter p = [] :=
    List.filter_eq_nil_iff.2 fun n hn => by simp [h n (List.mem_range.1 hn)]
  rw [pick, hnone, List.filterMap_nil]

theorem pick_ne_nil {n : Nat} (hn : n < as.length) (h : p n = true) : pick as p ≠ [] := by
  refine List.ne_nil_of_mem (List.mem_filterMap.2 ⟨n, ?_, List.getElem?_eq_getElem hn⟩)
  exact List.mem_filter.2 ⟨List.mem_range.2 hn, h⟩

theorem pick_eq_nil_iff : pick as p = [] ↔ ∀ n < as.length, p n = false := by
  refine ⟨fun hnil n hn => ?_, pick_eq_nil⟩
  by_contra hp
  exact pick_ne_nil hn (by simpa using hp) hnil

theorem pick_eq_self (h : ∀ n < as.length, p n = true) : pick as p = as := by
  induction as generalizing p with
  | nil => rfl
  | cons a as ih =>
    rw [pick_cons, h 0 (Nat.zero_lt_succ _), ih fun n hn => h (n + 1) (Nat.succ_lt_succ hn)]
    rfl

/-- If all that stands behind is picked, what stands before decides. -/
theorem pick_append_left {pre post : List α} (h : ∀ n, pre.length ≤ n → p n = true) :
    pick (pre ++ post) p = pick pre p ++ post := by
  rw [pick_append, pick_eq_self fun n _ => h _ (Nat.le_add_right _ _)]

/-- If nothing of a block is picked and all that stands behind it is, what stands before it decides. -/
theorem pick_append_block {pre block post : List α}
    (hblock : ∀ n, pre.length ≤ n → n < pre.length + block.length → p n = false)
    (hpost : ∀ n, pre.length + block.length ≤ n → p n = true) :
    pick (pre ++ (block ++ post)) p = pick pre p ++ post := by
  have hnone : pick block (fun n => p (pre.length + n)) = [] :=
    pick_eq_nil fun n hn => hblock _ (Nat.le_add_right _ _) (Nat.add_lt_add_left hn _)
  rw [pick_append, pick_append_left, hnone, List.nil_append]
  intro n hn
  exact hpost _ (Nat.add_le_add_left hn _)

theorem pick_map (f : α → β) (as : List α) (p : Nat → Bool) :
    pick (as.map f) p = (pick as p).map f := by
  induction as generalizing p with
  | nil => rfl
  | cons a as ih =>
    rw [List.map_cons, pick_cons, pick_cons, ih, List.map_append]
    split <;> rfl

theorem pick_sublist (as : List α) (p : Nat → Bool) : (pick as p).Sublist as := by
  induction as generalizing p with
  | nil => exact List.Sublist.refl []
  | cons a as ih =>
    rw [pick_cons]
    split
    · exact (ih _).cons_cons a
    · exact (ih _).cons a

/-- Among different elements, those that are not picked are those at the other positions. -/
theorem filter_notMem_pick [DecidableEq α] (h : as.Nodup) (p : Nat → Bool) :
    as.filter (· ∉ pick as p) = pick as fun n => !p n := by
  induction as generalizing p with
  | nil => rfl
  | cons a as ih =>
    obtain ⟨ha, h⟩ := List.nodup_cons.1 h
    have hnew : a ∉ pick as fun n => p (n + 1) := fun hmem => ha ((pick_sublist as _).subset hmem)
    have hrest : as.filter (· ∉ pick (a :: as) p) = pick as fun n => !p (n + 1) := by
      -- whether the first element is picked makes no difference to the others
      rw [← ih h]
      refine List.filter_congr fun b hb => ?_
      have hne : b ≠ a := ne_of_mem_of_not_mem hb ha
      rw [pick_cons]
      split <;> simp [hne]
    rw [List.filter_cons, hrest, pick_cons, pick_cons]
    cases p 0 <;> simp [hnew]

end Picking

end TransferQueue
