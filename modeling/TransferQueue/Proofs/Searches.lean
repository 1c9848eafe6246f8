import TransferQueue.Proofs.Resettling

/-!
# Two searches and one sentence

The place of a new row can be told in one sentence.  It stands directly behind the last row of its lane
that does not come after it; if all of them do, directly before the first of them; and if there is none,
at the end.  The sentence has all rows of the lane in view, wherever they stand.

The searches have not.  The one for a new row walks the first block of the lane and goes on from the other
end only if it has found nothing there, and the one for a loaded row looks at the last row of the lane
before anything else.  In a lane that is sorted the rows that they pass over make no difference, even where
rows of other lanes split it into several blocks.

* `Queue.landsBack_iff`: the sentence tells one place, the one of the plain definition;
* `Queue.LandsBack.le`, `Queue.LandsBack.lt`: this place parts the rows of a sorted lane;
* `Queue.searches_agree`: both searches find it.
-/

namespace TransferQueue

namespace Queue

variable {lane : Lane} {priority : UInt64} {rows low high : List Row}

/-- The place that the sentence tells is the plain one. -/
theorem LandsBack.length_eq (h : LandsBack lane priority low high) :
    low.length = placeBehind lane priority (low ++ high) := by
  cases h with
  | @behind low high row hlane hle hhigh =>
    have hrow : isUpTo lane priority row = true := isUpTo_eq_true_iff.2 ⟨hlane, hle⟩
    rw [List.append_assoc, List.singleton_append, List.length_append, List.length_singleton]
    exact (placeBehind_append_cons hrow fun a ha => isUpTo_eq_false_iff.2 (hhigh a ha)).symm
  | beforeFirst hlane hlow hhigh =>
    exact (placeBehind_first hlane hlow fun a ha => isUpTo_eq_false_iff.2 (hhigh a ha)).symm
  | atEnd hlow =>
    rw [List.append_nil]
    exact (placeBehind_of_absent hlow).symm

/-- The sentence tells one place. -/
theorem landsBack_iff :
    LandsBack lane priority low high ↔ low.length = placeBehind lane priority (low ++ high) := by
  refine ⟨LandsBack.length_eq, fun hlength => ?_⟩
  obtain ⟨low', high', hrows, hlength', hlands⟩ := landsBack_placeBehind lane priority (low ++ high)
  obtain ⟨rfl, rfl⟩ := List.append_inj hrows (hlength.trans hlength'.symm)
  exact hlands

/-- Before the place there are only rows of the lane that do not come after the new one. -/
theorem LandsBack.le (h : LandsBack lane priority low high) (sorted : Sorted (low ++ high)) :
    ∀ a ∈ low, a.entry.lane = lane → a.entry.priority ≤ priority := by
  intro a ha halane
  cases h with
  | @behind low high row hlane hle hhigh =>
    rw [List.append_assoc, List.singleton_append] at sorted
    rcases List.mem_append.1 ha with ha | ha
    · exact UInt64.le_trans (sorted.le_of_split a ha (halane.trans hlane.symm)) hle
    · rw [List.mem_singleton.1 ha]
      exact hle
  | beforeFirst hlane hlow hhigh => exact absurd halane (hlow a ha)
  | atEnd hlow => exact absurd halane (hlow a ha)

/-- Behind the place there are only rows of the lane that come after the new one. -/
theorem LandsBack.lt (h : LandsBack lane priority low high) :
    ∀ a ∈ high, a.entry.lane = lane → priority < a.entry.priority := by
  intro a ha halane
  cases h with
  | behind hlane hle hhigh => exact hhigh a ha halane
  | beforeFirst hlane hlow hhigh => exact hhigh a ha halane
  | atEnd hlow => exact absurd ha List.not_mem_nil

/-- Among rows in which each lane is sorted, be its rows together or not, the search for a new row and the
one for a loaded row find the same place: the plain one, which is the only one of which the sentence is
true.  No row of the lane before it comes after the new one, and all rows of the lane behind it do. -/
theorem searches_agree (sorted : Sorted rows) (lane : Lane) (priority : UInt64) :
    placeFor lane priority rows = placeBehind lane priority rows
      ∧ placeLoading lane priority rows = placeBehind lane priority rows
      ∧ ∃ low high, rows = low ++ high ∧ low.length = placeBehind lane priority rows
        ∧ (∀ low' high', rows = low' ++ high' → (LandsBack lane priority low' high' ↔ low' = low))
        ∧ (∀ a ∈ low, a.entry.lane = lane → a.entry.priority ≤ priority)
        ∧ ∀ a ∈ high, a.entry.lane = lane → priority < a.entry.priority := by
  have hnew := placeFor_eq_placeBehind sorted lane priority
  have hloaded := (placeLoading_eq_placeFor sorted lane priority).trans hnew
  obtain ⟨low, high, rfl, hlength, hlands⟩ := landsBack_placeBehind lane priority rows
  refine ⟨hnew, hloaded, low, high, rfl, hlength, ?_, hlands.le sorted, hlands.lt⟩
  intro low' high' hrows
  rw [landsBack_iff, ← hrows, ← hlength]
  constructor
  · intro hlength'
    exact (List.append_inj hrows hlength'.symm).1.symm
  · rintro rfl
    rfl

/-- Downloads in three blocks, with equals on both sides of a gap. -/
def splitLanes : List Row :=
  [Report.bare 1 .download 10 1, .bare 2 .upload 5 2, .bare 3 .download 20 3, .bare 4 .upload 5 4,
    .bare 5 .download 20 5, .bare 6 .download 30 6].map fun r => ⟨.ofReport r none, none, none⟩

/-- A download goes behind its equals, although the first block ends before them. -/
theorem searches_agree_splitLanes :
    Sorted splitLanes ∧ placeFor .download 20 splitLanes = 5 ∧ placeLoading .download 20 splitLanes = 5
      ∧ ∃ low high, splitLanes = low ++ high ∧ low.length = 5
        ∧ ∀ a ∈ high, a.entry.lane = .download → 20 < a.entry.priority := by
  have sorted : Sorted splitLanes := by
    unfold Sorted
    decide
  have hplace : placeBehind .download 20 splitLanes = 5 := by decide
  obtain ⟨hnew, hloaded, low, high, hrows, hlength, -, -, hhigh⟩ :=
    searches_agree sorted .download 20
  exact ⟨sorted, hnew.trans hplace, hloaded.trans hplace, low, high, hrows, hlength.trans hplace, hhigh⟩

end Queue

end TransferQueue
