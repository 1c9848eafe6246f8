import Mathlib.Data.List.Sort
import TransferQueue.Proofs.Walks

/-!
# Runs of neighbours

Row numbers fall into runs of neighbours.  A run is maximal if all its rows are chosen, and neither the
row before it nor the row behind it is.  Two maximal runs that share a row are the same, so it takes no
more than two facts to know a list of runs: its runs are made of the chosen rows, and between any two
of them there is a row that is not chosen.

* `Run.IsMaximal`: a maximal run of chosen rows;
* `Run.Splits`: runs into which the chosen rows fall, from the last run to the first;
* `Run.mem_ofDescending_iff`: the runs that are made of descending row numbers are the maximal ones.
-/

namespace TransferQueue

namespace Run

variable {chosen : Nat → Prop} {run run' : Run} {runs : List Run} {ns : List Nat} {n : Nat}

instance : Membership Nat Run := ⟨fun run n => run.first ≤ n ∧ n ≤ run.last⟩

theorem mem_iff : n ∈ run ↔ run.first ≤ n ∧ n ≤ run.last := Iff.rfl

instance (n : Nat) (run : Run) : Decidable (n ∈ run) :=
  inferInstanceAs (Decidable (run.first ≤ n ∧ n ≤ run.last))

/-- A run of chosen rows that no neighbour could join. -/
structure IsMaximal (chosen : Nat → Prop) (run : Run) : Prop where
  proper : run.first ≤ run.last
  all : ∀ n ∈ run, chosen n
  before : ∀ n, n + 1 = run.first → ¬chosen n
  behind : ¬chosen (run.last + 1)

/-- A maximal run contains every run of chosen rows with which it shares a row. -/
theorem IsMaximal.contains (h : run.IsMaximal chosen) (hall : ∀ n ∈ run', chosen n) (hn : n ∈ run)
    (hn' : n ∈ run') : run.first ≤ run'.first ∧ run'.last ≤ run.last := by
  rw [mem_iff] at hn hn'
  constructor
  · by_contra hlt
    have hmem : run.first - 1 ∈ run' := mem_iff.2 (by omega)
    exact h.before (run.first - 1) (by omega) (hall _ hmem)
  · by_contra hlt
    have hmem : run.last + 1 ∈ run' := mem_iff.2 (by omega)
    exact h.behind (hall _ hmem)

theorem IsMaximal.eq_of_mem (h : run.IsMaximal chosen) (h' : run'.IsMaximal chosen) (hn : n ∈ run)
    (hn' : n ∈ run') : run = run' := by
  obtain ⟨hfirst, hlast⟩ := h.contains h'.all hn hn'
  obtain ⟨hfirst', hlast'⟩ := h'.contains h.all hn' hn
  cases run
  cases run'
  simp only [mk.injEq]
  exact ⟨Nat.le_antisymm hfirst hfirst', Nat.le_antisymm hlast' hlast⟩

/-! ## Rows that fall into runs -/

/-- The chosen rows fall into these runs, from the last to the first. -/
structure Splits (chosen : Nat → Prop) (runs : List Run) : Prop where
  proper : ∀ run ∈ runs, run.first ≤ run.last
  spaced : runs.Pairwise fun run next => next.last + 1 < run.first
  covers : ∀ n, (∃ run ∈ runs, n ∈ run) ↔ chosen n

namespace Splits

theorem apart (h : Splits chosen runs) (hrun : run ∈ runs) (hrun' : run' ∈ runs) (hne : run ≠ run') :
    run'.last + 1 < run.first ∨ run.last + 1 < run'.first := by
  obtain ⟨i, hi, rfl⟩ := List.getElem_of_mem hrun
  obtain ⟨j, hj, rfl⟩ := List.getElem_of_mem hrun'
  have hspaced := List.pairwise_iff_getElem.1 h.spaced
  rcases Nat.lt_trichotomy i j with hlt | rfl | hlt
  · exact .inl (hspaced i j hi hj hlt)
  · exact absurd rfl hne
  · exact .inr (hspaced j i hj hi hlt)

theorem isMaximal (h : Splits chosen runs) (hrun : run ∈ runs) : run.IsMaximal chosen := by
  -- a chosen row outside the run belongs to another one, which does not touch it
  have hother : ∀ n, chosen n → n ∉ run → n + 1 < run.first ∨ run.last + 1 < n := by
    intro n hn hout
    obtain ⟨run', hrun', hmem⟩ := (h.covers n).2 hn
    have hne : run ≠ run' := fun heq => hout (heq ▸ hmem)
    rw [mem_iff] at hmem
    have := h.apart hrun hrun' hne
    omega
  have hproper := h.proper run hrun
  constructor
  case proper => exact hproper
  case all =>
    intro n hn
    exact (h.covers n).1 ⟨run, hrun, hn⟩
  case before =>
    intro n hnext hn
    have := hother n hn (by rw [mem_iff]; omega)
    omega
  case behind =>
    intro hn
    have := hother _ hn (by rw [mem_iff]; omega)
    omega

theorem mem_iff_isMaximal (h : Splits chosen runs) : run ∈ runs ↔ run.IsMaximal chosen := by
  refine ⟨h.isMaximal, ?_⟩
  intro hmaximal
  have hfirst : run.first ∈ run := mem_iff.2 ⟨Nat.le_refl _, hmaximal.proper⟩
  obtain ⟨run', hrun', hmem⟩ := (h.covers _).2 (hmaximal.all _ hfirst)
  rwa [hmaximal.eq_of_mem (h.isMaximal hrun') hfirst hmem]

end Splits

/-! ## Descending row numbers -/

/-- The runs when one more run comes behind them.  It joins the first of them if it is next to it. -/
def join (run : Run) : List Run → List Run
  | [] => [run]
  | next :: runs =>
    if next.last + 1 = run.first then ⟨next.first, run.last⟩ :: runs else run :: next :: runs

theorem ofDescending_cons (n : Nat) (ns : List Nat) :
    ofDescending (n :: ns) = join ⟨n, n⟩ (ofDescending ns) := by
  rw [ofDescending]
  cases ofDescending ns <;> rfl

theorem mem_single {m : Nat} : m ∈ (⟨n, n⟩ : Run) ↔ m = n := by
  rw [mem_iff]
  exact ⟨fun h => Nat.le_antisymm h.2 h.1, fun h => ⟨h.ge, h.le⟩⟩

/-- A chosen row that no run touches makes a run of its own. -/
theorem Splits.cons (h : Splits chosen runs) (hfar : ∀ run ∈ runs, run.last + 1 < n) :
    Splits (fun m => m = n ∨ chosen m) (⟨n, n⟩ :: runs) := by
  constructor
  case proper => exact List.forall_mem_cons.2 ⟨Nat.le_refl n, h.proper⟩
  case spaced => exact List.pairwise_cons.2 ⟨hfar, h.spaced⟩
  case covers =>
    intro m
    rw [List.exists_mem_cons_iff, mem_single, h.covers]

/-- A chosen row behind the last run joins it. -/
theorem Splits.extend {next : Run} (h : Splits chosen (next :: runs)) (hnext : next.last + 1 = n) :
    Splits (fun m => m = n ∨ chosen m) (⟨next.first, n⟩ :: runs) := by
  obtain ⟨hproper, hspaced, hcovers⟩ := h
  obtain ⟨hle, hproper⟩ := List.forall_mem_cons.1 hproper
  constructor
  case proper =>
    refine List.forall_mem_cons.2 ⟨?_, hproper⟩
    show next.first ≤ n
    omega
  case spaced => exact List.pairwise_cons.2 (List.pairwise_cons.1 hspaced)
  case covers =>
    intro m
    rw [← hcovers m, List.exists_mem_cons_iff, List.exists_mem_cons_iff, ← or_assoc]
    refine or_congr_left ?_
    simp only [mem_iff]
    omega

/-- A chosen row behind the others joins the run that is next to it, or makes one of its own. -/
theorem Splits.join (h : Splits chosen runs) (hbehind : ∀ m, chosen m → m < n) :
    Splits (fun m => m = n ∨ chosen m) (join ⟨n, n⟩ runs) := by
  rcases runs with _ | ⟨next, runs⟩
  · exact h.cons (by simp)
  · have hproper := h.proper next List.mem_cons_self
    have hlast : next.last < n :=
      hbehind _ ((h.covers _).1 ⟨next, List.mem_cons_self, mem_iff.2 ⟨hproper, Nat.le_refl _⟩⟩)
    rw [Run.join]
    split
    · exact h.extend ‹_›
    · have hnear : next.last + 1 < n := Nat.lt_of_le_of_ne hlast ‹_›
      refine h.cons (List.forall_mem_cons.2 ⟨hnear, ?_⟩)
      intro run hrun
      have := (List.pairwise_cons.1 h.spaced).1 run hrun
      omega

/-- Descending row numbers fall into their runs. -/
theorem splits_ofDescending (hdesc : ns.Pairwise (· > ·)) : Splits (· ∈ ns) (ofDescending ns) := by
  induction ns with
  | nil => exact ⟨by simp [ofDescending], by simp [ofDescending], by simp [ofDescending]⟩
  | cons n ns ih =>
    obtain ⟨hn, hdesc⟩ := List.pairwise_cons.1 hdesc
    simpa only [ofDescending_cons, List.mem_cons] using (ih hdesc).join hn

/-- The runs of descending row numbers are the maximal ones. -/
theorem mem_ofDescending_iff (hdesc : ns.Pairwise (· > ·)) :
    run ∈ ofDescending ns ↔ run.IsMaximal (· ∈ ns) :=
  (splits_ofDescending hdesc).mem_iff_isMaximal

/-- Neighbours make one run. -/
theorem ofDescending_range' (first count : Nat) :
    ofDescending (List.range' first (count + 1)).reverse = [⟨first, first + count⟩] := by
  induction count with
  | zero => rfl
  | succ count ih =>
    rw [List.range'_concat, List.reverse_append, List.reverse_singleton, List.singleton_append,
      ofDescending_cons, ih]
    simp only [join]
    rw [if_pos (by omega), Nat.one_mul]

end Run

end TransferQueue
