import TransferQueue.Proofs.Walks

/-!
# The rows are in order

Rows of a lane stand together, and within a lane they are in the order of their priorities.  Three
searches look for places and none of them looks at the whole queue, so neither half of this can do
without the other: the searches find slots only among sorted rows, and a slot keeps the lanes
together because it touches its lane.

* `Queue.Ordered.insert`: a new row in a slot keeps the order;
* `Queue.Step.ordered`: every step keeps the order, if new rows come where they belong;
* `Board.ordered_run`: every run from an empty queue keeps the order.
-/

namespace TransferQueue

namespace Queue

/-- Between two rows of a lane there is no row of another lane. -/
def Together (lanes : List Lane) : Prop := ∀ a b, [a, b, a].Sublist lanes → b = a

/-- The rows of a lane stand together, in the order of their priorities. -/
structure Ordered (rows : List Row) : Prop where
  /-- In each lane the priorities do not decrease. -/
  sorted : Sorted rows
  /-- The lanes are not mixed. -/
  together : Together (rows.map (·.entry.lane))

variable {rows rows' before after : List Row} {row row' : Row}

/-! ## Lanes -/

theorem Together.sublist {lanes lanes' : List Lane} (h : Together lanes)
    (hsub : lanes'.Sublist lanes) : Together lanes' :=
  fun a b hab => h a b (hab.trans hsub)

/-- One more of a lane, next to one that is there. -/
theorem Together.double {pre post : List Lane} {lane : Lane} (h : Together (pre ++ lane :: post)) :
    Together (pre ++ lane :: lane :: post) := by
  intro a b hab
  obtain ⟨low, high, hlist, hlow, hhigh⟩ := List.sublist_append_iff.1 hab
  rcases List.sublist_cons_iff.1 hhigh with hhigh | ⟨tail, rfl, htail⟩
  · exact h a b (hlist ▸ hlow.append hhigh)
  · rcases List.sublist_cons_iff.1 htail with htail | ⟨tail, rfl, -⟩
    · exact h a b (hlist ▸ hlow.append (htail.cons_cons lane))
    · -- both are used, and of three lanes two neighbours are the same
      rcases low with _ | ⟨c, low⟩
      · obtain ⟨rfl, rfl, -⟩ : a = lane ∧ b = lane ∧ [a] = tail := by simpa using hlist
        rfl
      · obtain ⟨rfl, hrest⟩ : a = c ∧ [b, a] = low ++ lane :: lane :: tail := by simpa using hlist
        obtain rfl : low = [] := by
          have hlen := congrArg List.length hrest
          simp only [List.length_append, List.length_cons, List.length_nil] at hlen
          exact List.eq_nil_of_length_eq_zero (by omega)
        obtain ⟨rfl, rfl, -⟩ : b = lane ∧ a = lane ∧ [] = tail := by simpa using hrest
        rfl

/-- A lane that has no rows comes to the end. -/
theorem Together.concat {lanes : List Lane} {lane : Lane} (h : Together lanes)
    (hnew : lane ∉ lanes) : Together (lanes ++ [lane]) := by
  intro a b hab
  obtain ⟨low, high, hlist, hlow, hhigh⟩ := List.sublist_append_iff.1 hab
  rcases List.sublist_cons_iff.1 hhigh with hhigh | ⟨tail, rfl, htail⟩
  · rw [List.sublist_nil.1 hhigh, List.append_nil] at hlist
    exact h a b (hlist ▸ hlow)
  · rw [List.sublist_nil.1 htail] at hlist
    obtain ⟨hpre, hlast⟩ : [a, b] = low ∧ a = lane :=
      List.append_singleton_inj.1 (hlist : [a, b] ++ [a] = low ++ [lane])
    refine absurd (hlow.subset ?_) hnew
    rw [← hpre, ← hlast]
    exact List.mem_cons_self

/-! ## Orders -/

theorem Ordered.sublist (h : Ordered rows) (hsub : rows'.Sublist rows) : Ordered rows' :=
  ⟨h.sorted.sublist hsub, h.together.sublist (hsub.map _)⟩

/-- A row may be put in the place of one of the same lane and priority. -/
theorem Ordered.replace (h : Ordered (before ++ row :: after))
    (hlane : row'.entry.lane = row.entry.lane)
    (hpriority : row'.entry.priority = row.entry.priority) : Ordered (before ++ row' :: after) := by
  constructor
  · have hsorted := h.sorted
    simp only [Sorted, List.pairwise_append, List.pairwise_cons, List.forall_mem_cons] at hsorted ⊢
    simpa only [hlane, hpriority] using hsorted
  · simpa only [List.map_append, List.map_cons, hlane] using h.together

/-- A new row in a slot keeps the priorities in order. -/
theorem Sorted.insert (h : Sorted (before ++ after))
    (slot : Slot row.entry.lane row.entry.priority before after) :
    Sorted (before ++ row :: after) := by
  obtain ⟨hbefore, hafter, hacross⟩ := List.pairwise_append.1 h
  refine List.pairwise_append.2 ⟨hbefore, List.pairwise_cons.2 ⟨?_, hafter⟩, ?_⟩
  · intro a ha halane
    exact slot.ge a ha halane.symm
  · intro a ha b hb
    rcases List.mem_cons.1 hb with rfl | hb
    · exact slot.le a ha
    · exact hacross a ha b hb

theorem Sorted.insertIdx {place : Nat} (h : Sorted rows)
    (slot : IsSlot row.entry.lane row.entry.priority rows place) :
    Sorted (rows.insertIdx place row) := by
  obtain ⟨before, after, rfl, rfl, hslot⟩ := slot
  rw [insertIdx_append_length]
  exact h.insert hslot

/-- A new row in a slot keeps the order. -/
theorem Ordered.insert (h : Ordered (before ++ after))
    (slot : Slot row.entry.lane row.entry.priority before after) :
    Ordered (before ++ row :: after) := by
  constructor
  · exact h.sorted.insert slot
  · have htogether := h.together
    simp only [List.map_append, List.map_cons] at htogether ⊢
    rcases slot.touches with ⟨pre, a, rfl, ha⟩ | ⟨a, post, rfl, ha⟩ | ⟨rfl, hnone⟩
    · -- the row before it is of the lane
      simp only [List.map_append, List.map_cons, List.map_nil, List.append_assoc,
        List.cons_append, List.nil_append, ha] at htogether ⊢
      exact htogether.double
    · -- the row behind it is of the lane
      rw [List.map_cons, ha] at htogether ⊢
      exact htogether.double
    · rw [List.map_nil, List.append_nil] at htogether
      refine htogether.concat ?_
      intro hmem
      obtain ⟨a, ha, halane⟩ := List.mem_map.1 hmem
      exact hnone a ha halane

/-- A new row in a place that is a slot keeps the order. -/
theorem Ordered.insertIdx {place : Nat} (h : Ordered rows)
    (slot : IsSlot row.entry.lane row.entry.priority rows place) :
    Ordered (rows.insertIdx place row) := by
  obtain ⟨before, after, rfl, rfl, hslot⟩ := slot
  rw [insertIdx_append_length]
  exact h.insert hslot

/-- Another row of the same lane and priority may take the place of one that was found. -/
theorem Ordered.replaceRow {q : Queue} {tag : Tag} {place : Nat} (h : Ordered q.rows)
    (located : q.locate? tag = some (place, row)) (phase : Phase)
    (hlane : row'.entry.lane = row.entry.lane)
    (hpriority : row'.entry.priority = row.entry.priority) :
    Ordered (q.replaceRow place phase row').rows := by
  obtain ⟨before, after, hrows, -, hrows'⟩ := replaceRow_split located phase row'
  rw [hrows] at h
  rw [hrows']
  exact h.replace hlane hpriority

/-! ## Steps -/

/-- A row that has got a priority goes where it belongs. -/
theorem Ordered.settle {q : Queue} {priority : UInt64} (h : Ordered (before ++ row :: after))
    (hrows : q.rows = before ++ row' :: after) (hlane : row'.entry.lane = row.entry.lane)
    (hpriority : row.entry.priority = priority) :
    Ordered (q.settle before.length priority row').state.rows := by
  rcases settle_eq priority hrows with ⟨hsame, heq⟩ | ⟨target, -, hslot, heq⟩
  · rw [heq, hrows]
    exact h.replace hlane (hsame.trans hpriority.symm)
  · -- without the row the order is that of before, and the row then comes to a slot
    have hrest : Ordered (before ++ after) :=
      h.sublist ((List.Sublist.refl before).append (List.sublist_cons_self row after))
    rw [heq]
    exact hrest.insertIdx (hslot hrest.sorted)

/-- Every step keeps the order. -/
theorem Step.ordered {q q' : Queue} {cs : List Change} (step : Step True q cs q')
    (h : Ordered q.rows) : Ordered q'.rows := by
  cases step with
  | note => exact h
  | come new bound made fits =>
    rename_i weight r place row
    obtain ⟨timeLeft, hentry⟩ := Row.entry_ofReport made
    have hslot : IsSlot r.lane r.priority q.rows place := by
      rcases fits trivial with rfl | rfl
      · exact slot_placeFor h.sorted r.lane r.priority
      · exact slot_placeLoading h.sorted r.lane r.priority
    refine h.insertIdx ?_
    rw [hentry]
    exact hslot
  | observe located made =>
    obtain ⟨pace, rfl⟩ := Row.refresh_eq_error made
    exact h.replaceRow located _ rfl rfl
  | refresh located made =>
    obtain ⟨timeLeft, pace, rfl⟩ := Row.refresh_eq_ok made
    exact h.replaceRow located _ rfl rfl
  | settle located made =>
    obtain ⟨timeLeft, pace, rfl⟩ := Row.refresh_eq_ok made
    obtain ⟨before, after, hrows, rfl, hrows'⟩ := replaceRow_split located _ _
    rw [hrows] at h
    exact h.settle hrows' rfl rfl
  | finish located => exact h.replaceRow located _ rfl rfl
  | erase run bound => exact h.sublist (sublist_eraseRun run q)

end Queue

namespace Board

/-- Whatever happens to an empty board, its rows are in order, if those who show transfers leave it
to the queue where they come. -/
theorem ordered_run (config : Config) (preference : Preference) (actions : List Action)
    (fits : (new config preference).PlacesAll actions) :
    Queue.Ordered ((new config preference).run actions).state.queue.rows := by
  obtain ⟨cs, hwalk⟩ :
      ∃ cs, Queue.Walk True Queue.empty cs ((new config preference).run actions).state.queue :=
    walk_run fun _ => fits
  have hempty : Queue.Ordered Queue.empty.rows :=
    ⟨List.Pairwise.nil, fun a b hab => absurd (List.sublist_nil.1 hab) (by simp)⟩
  exact hwalk.keeps (P := fun q => Queue.Ordered q.rows) Queue.Step.ordered hempty

/-- A run in which a transfer is shown where it belongs, and another one overtakes it later. -/
def overtakingRun : List Action :=
  [.hear .epoch (.started (.bare 1 .download 5 1)), .insert (.bare 2 .download 3 2) 0,
    .hear .epoch (.updated (.bare 1 .download 2 3))]

theorem ordered_overtaking :
    (new {} (.memory false)).PlacesAll overtakingRun
    ∧ Queue.Ordered ((new {} (.memory false)).run overtakingRun).state.queue.rows :=
  have fits : (new {} (.memory false)).PlacesAll overtakingRun := ⟨trivial, rfl, trivial, trivial⟩
  ⟨fits, ordered_run {} (.memory false) overtakingRun fits⟩

end Board

end TransferQueue
