import Mathlib.Data.List.Forall2
import TransferQueue.Outcome

/-!
# Replaying changes

An observer cannot look at the queue between two steps of an operation, but it can keep track of
the rows: it replays the changes on the rows that it knows.  A row that is opened, or that it is
told to read again, it marks, and the marks wander with the rows until the operation is over.

* `Change.replay?`: replaying changes; row numbers that are out of range have no result;
* `Change.SameReplay`: two lists of changes between which no replay can tell;
* `Change.replay?_rel`: a replay does not look into the rows.
-/

namespace TransferQueue

/-- A row in the eyes of an observer that replays changes. -/
inductive Cell (α : Type) where
  /-- The row as the observer read it. -/
  | known (a : α)
  /-- A row that the observer read as `a` and has to read again. -/
  | told (a : α)
  /-- A row that was opened and not read yet. -/
  | fresh
deriving DecidableEq, Repr

/-- Mark a row to be read again. -/
def Cell.touch {α : Type} : Cell α → Cell α
  | .known a => .told a
  | cell => cell

@[simp] theorem Cell.touch_known {α : Type} (a : α) : (Cell.known a).touch = .told a := rfl

namespace Change

variable {α β : Type}

/-- What a change does to the rows. -/
def play? : Change → List (Cell α) → Option (List (Cell α))
  | .inserted first last, cells =>
    if first ≤ last ∧ first ≤ cells.length then
      some (cells.take first ++ List.replicate (last + 1 - first) .fresh ++ cells.drop first)
    else none
  | .removed first last, cells =>
    if first ≤ last ∧ last < cells.length then
      some (cells.take first ++ cells.drop (last + 1))
    else none
  | .moved first last destination, cells =>
    if first ≤ last ∧ last < cells.length ∧ destination ≤ cells.length
        ∧ (destination ≤ first ∨ last < destination) then
      let block := (cells.drop first).take (last + 1 - first)
      let rest := cells.take first ++ cells.drop (last + 1)
      -- behind the block, the row numbers sink by its length when it is taken out
      let target := if destination ≤ first then destination else destination - (last + 1 - first)
      some (rest.take target ++ block.map Cell.touch ++ rest.drop target)
    else none
  | .updated row, cells => if row < cells.length then some (cells.modify row Cell.touch) else none
  | .presence _, cells => some cells
  | .pausing _, cells => some cells

/-- What changes do to the rows, one after the other. -/
def replay? : List Change → List (Cell α) → Option (List (Cell α))
  | [], cells => some cells
  | c :: cs, cells => (c.play? cells).bind (replay? cs)

theorem replay?_append (cs ds : List Change) (cells : List (Cell α)) :
    replay? (cs ++ ds) cells = (replay? cs cells).bind (replay? ds) := by
  induction cs generalizing cells with
  | nil => rfl
  | cons c cs ih =>
    rw [List.cons_append, replay?, replay?, Option.bind_assoc]
    exact Option.bind_congr fun cells' _ => ih cells'

@[simp] theorem replay?_singleton (c : Change) (cells : List (Cell α)) :
    replay? [c] cells = c.play? cells := by
  simp [replay?]

/-! ## Changes of rows between others -/

section Split

variable (before after : List (Cell α)) (cell : Cell α)

theorem play?_inserted :
    play? (.inserted before.length before.length) (before ++ after)
      = some (before ++ .fresh :: after) := by
  rw [play?, if_pos ⟨Nat.le_refl _, by simp⟩, List.take_left, List.drop_left,
    Nat.add_sub_cancel_left]
  simp

theorem play?_updated :
    play? (.updated before.length) (before ++ cell :: after)
      = some (before ++ cell.touch :: after) := by
  have hrow : before.length < (before ++ cell :: after).length := by simp
  rw [play?, if_pos hrow, List.modify_eq_take_cons_drop hrow]
  simp

/-- A row that is taken out of its place and put between others. -/
theorem play?_moved {low high : List (Cell α)} (hrest : before ++ after = low ++ high) :
    play? (.moved before.length before.length
        (if before.length < low.length then low.length + 1 else low.length))
        (before ++ cell :: after)
      = some (low ++ cell.touch :: high) := by
  have hlen := congrArg List.length hrest
  simp only [List.length_append] at hlen
  have hblock : ((before ++ cell :: after).drop before.length).take (before.length + 1
      - before.length) = [cell] := by
    rw [List.drop_left, Nat.add_sub_cancel_left]
    rfl
  have hothers : (before ++ cell :: after).take before.length
      ++ (before ++ cell :: after).drop (before.length + 1) = low ++ high := by
    rw [← hrest, List.take_left]
    simp
  by_cases hdown : before.length < low.length
  · rw [play?, if_pos hdown, if_pos ⟨Nat.le_refl _, by simp, by simp; omega, .inr (by omega)⟩]
    simp only [hblock, hothers]
    rw [if_neg (by omega), Nat.add_sub_cancel_left, Nat.add_sub_cancel, List.take_left,
      List.drop_left]
    simp
  · rw [play?, if_neg hdown, if_pos ⟨Nat.le_refl _, by simp, by simp; omega, .inl (by omega)⟩]
    simp only [hblock, hothers]
    rw [if_pos (by omega), List.take_left, List.drop_left]
    simp

end Split

/-! ## Lists of changes that say the same -/

/-- No replay can tell two lists of changes apart. -/
def SameReplay (cs ds : List Change) : Prop :=
  ∀ (α : Type) (cells : List (Cell α)), replay? cs cells = replay? ds cells

namespace SameReplay

variable {cs cs' ds ds' es : List Change}

theorem refl (cs : List Change) : SameReplay cs cs := fun _ _ => rfl

theorem trans (h : SameReplay cs ds) (h' : SameReplay ds es) : SameReplay cs es :=
  fun α cells => (h α cells).trans (h' α cells)

theorem append (h : SameReplay cs ds) (h' : SameReplay cs' ds') :
    SameReplay (cs ++ cs') (ds ++ ds') := by
  intro α cells
  rw [replay?_append, replay?_append, h α cells]
  exact Option.bind_congr fun cells' _ => h' α cells'

/-- Signals that are not about rows do not matter. -/
theorem append_silent (cs : List Change) (h : ∀ c ∈ ds, ∃ b, c = .presence b ∨ c = .pausing b) :
    SameReplay (cs ++ ds) cs := by
  intro α cells
  have silent : ∀ cells : List (Cell α), replay? ds cells = some cells := by
    induction ds with
    | nil => exact fun _ => rfl
    | cons d ds ih =>
      obtain ⟨b, rfl | rfl⟩ := h d List.mem_cons_self <;>
        exact ih fun c hc => h c (List.mem_cons_of_mem _ hc)
  rw [replay?_append]
  cases replay? cs cells with
  | none => rfl
  | some cells' => exact silent cells'

/-- Rows that are opened one behind the other are opened as one run. -/
theorem inserted_succ {first last : Nat} (h : first ≤ last) :
    SameReplay [.inserted first (last + 1)]
      [.inserted first last, .inserted (last + 1) (last + 1)] := by
  intro α cells
  by_cases hfirst : first ≤ cells.length
  · have hlen : (cells.take first ++ List.replicate (last + 1 - first) Cell.fresh).length
        = last + 1 := by
      simp only [List.length_append, List.length_take, List.length_replicate]
      omega
    have hrun : last + 1 + 1 - first = last + 1 - first + 1 := by omega
    simp only [replay?, play?, h, Nat.le_succ_of_le h, hfirst, and_self, if_true,
      Option.bind_some, Nat.le_refl, true_and]
    rw [if_pos (by rw [List.length_append, hlen]; omega), List.take_left' hlen,
      List.drop_left' hlen, hrun, List.replicate_succ', Nat.add_sub_cancel_left]
    simp
  · simp [replay?, play?, hfirst]

end SameReplay

/-! ## A replay does not look into the rows -/

theorem forall₂_modify {R : Cell α → Cell β → Prop} {f : Cell α → Cell α} {g : Cell β → Cell β}
    (hfg : ∀ x y, R x y → R (f x) (g y)) {xs : List (Cell α)} {ys : List (Cell β)}
    (h : List.Forall₂ R xs ys) (i : Nat) : List.Forall₂ R (xs.modify i f) (ys.modify i g) := by
  induction h generalizing i with
  | nil => simp
  | cons hxy _ ih =>
    cases i with
    | zero => exact .cons (hfg _ _ hxy) ‹_›
    | succ i => exact .cons hxy (ih i)

variable {R : Cell α → Cell β → Prop} (touch : ∀ x y, R x y → R x.touch y.touch)
  (fresh : R .fresh .fresh)

include touch fresh

/-- Rows that are related before a change are related after it. -/
theorem play?_rel {c : Change} {xs : List (Cell α)} {ys ys' : List (Cell β)}
    (h : List.Forall₂ R xs ys) (hys : c.play? ys = some ys') :
    ∃ xs', c.play? xs = some xs' ∧ List.Forall₂ R xs' ys' := by
  have hlen : xs.length = ys.length := h.length_eq
  cases c with
  | inserted first last =>
    simp only [play?, hlen, Option.ite_none_right_eq_some, Option.some.injEq] at hys ⊢
    obtain ⟨hrange, rfl⟩ := hys
    have hopen : List.Forall₂ R (List.replicate (last + 1 - first) Cell.fresh)
        (List.replicate (last + 1 - first) Cell.fresh) := by
      simpa [List.forall₂_iff_get] using fun _ _ => fresh
    exact ⟨_, ⟨hrange, rfl⟩, List.rel_append (List.rel_append (List.forall₂_take first h) hopen)
      (List.forall₂_drop first h)⟩
  | removed first last =>
    simp only [play?, hlen, Option.ite_none_right_eq_some, Option.some.injEq] at hys ⊢
    obtain ⟨hrange, rfl⟩ := hys
    exact ⟨_, ⟨hrange, rfl⟩, List.rel_append (List.forall₂_take _ h) (List.forall₂_drop _ h)⟩
  | moved first last destination =>
    simp only [play?, hlen, Option.ite_none_right_eq_some, Option.some.injEq] at hys ⊢
    obtain ⟨hrange, rfl⟩ := hys
    have hblock := List.forall₂_take (last + 1 - first) (List.forall₂_drop first h)
    have hrest := List.rel_append (List.forall₂_take first h) (List.forall₂_drop (last + 1) h)
    refine ⟨_, ⟨hrange, rfl⟩, List.rel_append (List.rel_append (List.forall₂_take _ hrest) ?_)
      (List.forall₂_drop _ hrest)⟩
    exact List.rel_map touch hblock
  | updated row =>
    simp only [play?, hlen, Option.ite_none_right_eq_some, Option.some.injEq] at hys ⊢
    obtain ⟨hrange, rfl⟩ := hys
    exact ⟨_, ⟨hrange, rfl⟩, forall₂_modify touch h row⟩
  | presence present => exact ⟨xs, rfl, (Option.some.inj hys) ▸ h⟩
  | pausing paused => exact ⟨xs, rfl, (Option.some.inj hys) ▸ h⟩

/-- Rows that are related before changes are related after them. -/
theorem replay?_rel {cs : List Change} {xs : List (Cell α)} {ys ys' : List (Cell β)}
    (h : List.Forall₂ R xs ys) (hys : replay? cs ys = some ys') :
    ∃ xs', replay? cs xs = some xs' ∧ List.Forall₂ R xs' ys' := by
  induction cs generalizing xs ys with
  | nil => exact ⟨xs, rfl, (Option.some.inj hys) ▸ h⟩
  | cons c cs ih =>
    obtain ⟨ys₁, hc, hcs⟩ := Option.bind_eq_some_iff.1 hys
    obtain ⟨xs₁, hxs₁, h₁⟩ := play?_rel touch fresh h hc
    obtain ⟨xs', hxs', h'⟩ := ih h₁ hcs
    exact ⟨xs', Option.bind_eq_some_iff.2 ⟨xs₁, hxs₁, hxs'⟩, h'⟩

end Change

end TransferQueue
