import TransferQueue.Proofs.Overflows
import TransferQueue.Proofs.Stays

/-!
# Where paces are kept

A pace is kept beside the row of its transfer.  It could as well be kept in a table of its own, under the
name of the transfer, and be put there and taken away on the same occasions: when a row comes unfinished,
when a report finds none, when an end is heard, when a row goes.  In such a table a pace could be left
behind, and be taken for that of a row that comes later under the same name.

This does not happen.  After any run, failed events included, the table holds the paces that the rows
hold: none for a transfer without a row, and none for a finished one.  The pace of a row is made of what
its transfer has reported in its present stay, since the last end if there was one.  So it starts anew
with each stay, and as long as no end was heard it starts with the report that the row was made of.

* `Turn.keep`, `Board.keptPace`: what such a table holds under the name of a transfer;
* `Row.pace_hear`: what an event does to the pace of a row is what it does to the table;
* `Stay.exists_pace_eq`: what the pace of a row is made of;
* `Board.paces_kept`: the paces that are kept after a run.
-/

namespace TransferQueue

/-- The pace that is made of the speeds of reports, if there are any. -/
def Pace.ofReports? (weight : Float) : List Report → Option Pace
  | [] => none
  | r :: rs =>
    some ((r :: rs).foldl (fun pace r => pace.observe r.speed) (.start r.speed weight))

theorem Pace.ofReports?_concat (weight : Float) (rs : List Report) (r : Report) :
    ofReports? weight (rs ++ [r])
      = some (((ofReports? weight rs).getD (.start r.speed weight)).observe r.speed) := by
  cases rs with
  | nil => rfl
  | cons first rs => simp [ofReports?, List.foldl_append]

/-! ## The table -/

/-- The pace that is kept for a transfer after a report that is no finish, if its entry was `e`. -/
def Entry.keepSpeed (weight : Float) (r : Report) (e : Entry) (kept : Option Pace) : Option Pace :=
  if e.phase.isFinished then kept else some ((kept.getD (.start r.speed weight)).observe r.speed)

/-- The pace that is kept for a transfer after an event, if its entry was `e`. -/
def Entry.keep (weight : Float) (event : Event) (e : Entry) (kept : Option Pace) : Option Pace :=
  match event with
  | .started _ => kept
  | .updated r => if e.isAheadOf r then kept else e.keepSpeed weight r kept
  | .hindered r _ => e.keepSpeed weight r kept
  | .finished _ _ => none

/-- The pace that is kept for a transfer after a turn, if its row was `row`.  A row that comes finished
leaves alone what is kept, be it a leftover. -/
def Turn.keep (weight : Float) (row : Option Row) (kept : Option Pace) : Turn → Option Pace
  | .come r =>
    if r.phase.isFinished then kept else some ((Pace.start r.speed weight).observe r.speed)
  | .hear _ event => row.elim kept fun row => row.entry.keep weight event kept
  | .go => none

/-- The pace that is kept for a transfer after turns, if its row was `row`. -/
def Turn.keepAll (weight : Float) : Option Row → Option Pace → List Turn → Option Pace
  | _, kept, [] => kept
  | row, kept, turn :: turns =>
    keepAll weight (turn.apply weight row) (turn.keep weight row kept) turns

/-- The pace that is kept for a transfer after a run from a board without rows, if the table knows
nothing but the turns of the transfer. -/
def Board.keptPace (tag : Tag) (b : Board) (actions : List Action) : Option Pace :=
  Turn.keepAll b.config.paceWeight none none (course tag b actions)

/-! ## One event -/

namespace Row

variable {weight : Float} {r : Report} {fault : Option Fault} {row row' : Row}

theorem pace_ofReport (h : ofReport weight r = .ok row) :
    row.pace
      = if r.phase.isFinished then none else some ((Pace.start r.speed weight).observe r.speed) := by
  simp only [ofReport, Except.map] at h
  split at h
  · cases h
  · rw [← Except.ok.inj h]

theorem pace_estimate :
    (row.estimate weight r).1.pace = row.entry.keepSpeed weight r row.pace := by
  unfold estimate Entry.keepSpeed
  split
  · rfl
  · rfl

/-- The pace takes in the speed of a report before the time is estimated, so it makes no difference
whether the time can be expressed. -/
theorem pace_of_refresh (h : row.refresh weight r fault = .error row' ∨
    row.refresh weight r fault = .ok row') :
    row'.pace = row.entry.keepSpeed weight r row.pace := by
  rw [← pace_estimate]
  rw [refresh] at h
  rcases hestimate : row.estimate weight r with ⟨row₁, failed | timeLeft⟩
  · rw [hestimate] at h
    rcases h with h | h
    · rw [← Except.error.inj h]
    · cases h
  · rw [hestimate] at h
    rcases h with h | h
    · cases h
    · rw [← Except.ok.inj h]

theorem pace_update : (row.update weight r).pace = row.entry.keep weight (.updated r) row.pace := by
  rw [update, Entry.keep]
  split
  · rfl
  · rcases hmade : row.refresh weight r r.lastFault with row' | row'
    · exact pace_of_refresh (.inl hmade)
    · show row'.pace = row.entry.keepSpeed weight r row.pace
      exact pace_of_refresh (.inr hmade)

theorem pace_hinder :
    (row.hinder weight r fault).pace = row.entry.keep weight (.hindered r fault) row.pace := by
  rw [hinder]
  rcases hmade : row.refresh weight r fault with row' | row'
  · exact pace_of_refresh (.inl hmade)
  · exact pace_of_refresh (.inr hmade)

/-- What an event does to the pace of a row is what it does to the table. -/
theorem pace_hear (weight : Float) (now : Instant) (event : Event) (row : Row) :
    (row.hear weight now event).pace = row.entry.keep weight event row.pace := by
  cases event with
  | started r => rfl
  | updated r => exact pace_update
  | hindered r fault => exact pace_hinder
  | finished r fault => rfl

/-- A finished row has no pace, and hears nothing that gives it one. -/
def Rests (row : Row) : Prop := row.entry.phase.isFinished = true → row.pace = none

theorem rests_ofReport (h : ofReport weight r = .ok row) : row.Rests := by
  intro hfinished
  rw [pace_ofReport h, if_pos]
  rwa [(ofReport_eq_ok h).2.1] at hfinished

theorem Rests.hear (h : row.Rests) (weight : Float) (now : Instant) (event : Event) :
    (row.hear weight now event).Rests := by
  intro hfinished
  rw [pace_hear]
  rcases hend : event.isEnd with _ | _
  · rw [isFinished_hear_of_not_isEnd hend] at hfinished
    have hpace := h hfinished
    cases event with
    | started r => exact hpace
    | updated r =>
      rw [Entry.keep, Entry.keepSpeed, if_pos hfinished, ite_self]
      exact hpace
    | hindered r fault =>
      rw [Entry.keep, Entry.keepSpeed, if_pos hfinished]
      exact hpace
    | finished r fault => cases hend
  · cases event with
    | finished r fault => rfl
    | _ => cases hend

/-- The pace of a row takes in the speed of a report that is no finish, unless the row is finished. -/
theorem exists_keepSpeed_eq {rs : List Report} (hpace : row.pace = Pace.ofReports? weight rs)
    (r : Report) :
    ∃ more, more.Sublist [r]
      ∧ row.entry.keepSpeed weight r row.pace = Pace.ofReports? weight (rs ++ more) := by
  rw [Entry.keepSpeed]
  split
  · refine ⟨[], List.nil_sublist _, ?_⟩
    rw [List.append_nil, hpace]
  · refine ⟨[r], .refl _, ?_⟩
    rw [Pace.ofReports?_concat, hpace]

/-- Of what an event that is no end reports, the pace of a row takes in the speed or nothing. -/
theorem exists_pace_hear_eq {event : Event} {rs : List Report} (h : event.isEnd = false)
    (hpace : row.pace = Pace.ofReports? weight rs) (now : Instant) :
    ∃ more, more.Sublist [event.report]
      ∧ (row.hear weight now event).pace = Pace.ofReports? weight (rs ++ more) := by
  have hnothing : ∃ more, more.Sublist [event.report]
      ∧ row.pace = Pace.ofReports? weight (rs ++ more) := by
    refine ⟨[], List.nil_sublist _, ?_⟩
    rw [List.append_nil, hpace]
  rw [pace_hear]
  cases event with
  | started r => exact hnothing
  | updated r =>
    rw [Entry.keep]
    split
    · exact hnothing
    · exact exists_keepSpeed_eq hpace r
  | hindered r fault => exact exists_keepSpeed_eq hpace r
  | finished r fault => cases h

end Row

/-! ## A stay -/

namespace Stay

variable {weight : Float} {row : Row}

/-- The reports that have come since the last end that was heard. -/
def sinceEnd (rs : List Report) (heard : List (Instant × Event)) : List Report :=
  heard.foldl (fun rs x => if x.2.isEnd then [] else rs ++ [x.2.report]) rs

/-- The reports of a stay since the last end that was heard; if none was, all of them. -/
def current (s : Stay) : List Report := sinceEnd [s.report] s.heard

/-- What a row hears adds reports to those that its pace is made of, or lets it start again. -/
theorem exists_pace_foldl_eq (heard : List (Instant × Event)) {rs all : List Report}
    (hsub : rs.Sublist all) (hpace : row.pace = Pace.ofReports? weight rs) :
    ∃ rs', rs'.Sublist (sinceEnd all heard)
      ∧ (heard.foldl (fun row x => row.hear weight x.1 x.2) row).pace = Pace.ofReports? weight rs'
      ∧ ((∀ x ∈ heard, x.2.isEnd = false) → rs <+: rs') := by
  induction heard generalizing row rs all with
  | nil => exact ⟨rs, hsub, hpace, fun _ => List.prefix_rfl⟩
  | cons x heard ih =>
    rw [sinceEnd, List.foldl_cons, List.foldl_cons]
    rcases hend : x.2.isEnd with _ | _
    · obtain ⟨more, hmore, hpace'⟩ := Row.exists_pace_hear_eq hend hpace x.1
      obtain ⟨rs', hsub', hpace'', hstarts⟩ := ih (hsub.append hmore) hpace'
      refine ⟨rs', hsub', hpace'', fun hall => ?_⟩
      exact (List.prefix_append rs more).trans (hstarts (List.forall_mem_cons.1 hall).2)
    · -- nothing is left of the pace, and of the reports that it was made of
      have hlost : (row.hear weight x.1 x.2).pace = Pace.ofReports? weight [] := by
        rw [Row.pace_hear]
        rcases x with ⟨now, event⟩
        cases event with
        | finished r fault => rfl
        | _ => cases hend
      have hnone : [].Sublist ([] : List Report) := .refl []
      obtain ⟨rs', hsub', hpace', -⟩ := ih hnone hlost
      refine ⟨rs', hsub', hpace', fun hall => ?_⟩
      rw [(List.forall_mem_cons.1 hall).1] at hend
      cases hend

theorem isFinished_foldl {heard : List (Instant × Event)} (h : ∀ x ∈ heard, x.2.isEnd = false)
    (weight : Float) (row : Row) :
    (heard.foldl (fun row x => row.hear weight x.1 x.2) row).entry.phase.isFinished
      = row.entry.phase.isFinished := by
  induction heard generalizing row with
  | nil => rfl
  | cons x heard ih =>
    obtain ⟨hx, hheard⟩ := List.forall_mem_cons.1 h
    exact (ih hheard _).trans (Row.isFinished_hear_of_not_isEnd hx weight x.1 row)

/-- The pace of a row is made of reports of its stay since the last end.  If no end was heard and the row
is unfinished, the first of them is the one that the row was made of. -/
theorem exists_pace_eq {s : Stay} (h : s.row? weight = some row) :
    ∃ rs, rs.Sublist s.current ∧ row.pace = Pace.ofReports? weight rs
      ∧ (row.entry.phase.isFinished = false → (∀ x ∈ s.heard, x.2.isEnd = false) →
        [s.report] <+: rs) := by
  obtain ⟨made, hmade, rfl⟩ := row?_eq_some h
  have hphase := (Row.ofReport_eq_ok hmade).2.1
  have hpace := Row.pace_ofReport hmade
  rcases hfinished : s.report.phase.isFinished with _ | _
  · rw [hfinished] at hpace
    obtain ⟨rs, hsub, hrow, hstarts⟩ := exists_pace_foldl_eq s.heard (.refl [s.report]) hpace
    exact ⟨rs, hsub, hrow, fun _ => hstarts⟩
  · rw [hfinished] at hpace
    obtain ⟨rs, hsub, hrow, -⟩ :=
      exists_pace_foldl_eq s.heard (List.nil_sublist [s.report]) hpace
    refine ⟨rs, hsub, hrow, fun hunfinished hall => ?_⟩
    rw [isFinished_foldl hall, hphase, hfinished] at hunfinished
    cases hunfinished

end Stay

/-! ## The table and the rows -/

namespace Turn

variable {weight : Float} {row : Option Row} {turns turns' : List Turn}

theorem keepAll_append (weight : Float) (turns turns' : List Turn) (row : Option Row)
    (kept : Option Pace) :
    keepAll weight row kept (turns ++ turns')
      = keepAll weight (turns.foldl (apply weight) row) (keepAll weight row kept turns) turns' := by
  induction turns generalizing row kept with
  | nil => rfl
  | cons turn turns ih => exact ih _ _

/-- If the table holds the pace of the row before the turns, it does so after them. -/
def Agree (weight : Float) (row : Option Row) (turns : List Turn) : Prop :=
  keepAll weight row (row.bind Row.pace) turns
    = (turns.foldl (apply weight) row).bind Row.pace

theorem Agree.append (h : Agree weight row turns)
    (h' : Agree weight (turns.foldl (apply weight) row) turns') :
    Agree weight row (turns ++ turns') := by
  rw [Agree, keepAll_append, h, List.foldl_append]
  exact h'

theorem agree_nil (weight : Float) (row : Option Row) : Agree weight row [] := rfl

theorem agree_go (weight : Float) (row : Option Row) : Agree weight row [.go] := rfl

theorem agree_hear (weight : Float) (row : Option Row) (now : Instant) (event : Event) :
    Agree weight row [.hear now event] := by
  cases row with
  | none => rfl
  | some row => exact (row.pace_hear weight now event).symm

/-- A row that comes finds no other one, so nothing is kept for its transfer before. -/
theorem agree_come {r : Report} {made : Row} (h : Row.ofReport weight r = .ok made) :
    Agree weight none [.come r] := by
  simp only [Agree, keepAll, keep, List.foldl_cons, List.foldl_nil, apply, h, Except.toOption,
    Option.bind_none, Option.bind_some, Row.pace_ofReport h]

end Turn

namespace Board

variable {b : Board}

/-- The row that comes is new, and it can be made of its report. -/
theorem agree_comes {weight : Float} {q q' : Queue} {tag : Tag} {offered : List Report}
    (h : q'.find? tag = (q.comes q' tag offered).foldl (Turn.apply weight) (q.find? tag)) :
    Turn.Agree weight (q.find? tag) (q.comes q' tag offered) := by
  rw [Queue.comes] at h ⊢
  split
  · rename_i hgains
    rw [if_pos hgains] at h
    obtain ⟨hold, hnew⟩ : q.contains tag = false ∧ q'.contains tag = true := by
      simpa [Queue.gains] using hgains
    rw [Queue.find?_eq_none_of_contains hold] at h ⊢
    rcases hfirst : offered.find? (fun r => r.tag == tag) with _ | r
    · rw [hfirst]
      exact Turn.agree_nil weight none
    · rw [Queue.contains_eq_isSome_find?, h, hfirst] at hnew
      rw [hfirst]
      rcases hmade : Row.ofReport weight r with failed | made
      · simp [Turn.apply, hmade, Except.toOption] at hnew
      · exact Turn.agree_come hmade
  · exact Turn.agree_nil weight _

theorem agree_turnsTakingIn (h : b.queue.tags.Nodup) (now : Instant) (event : Event) (tag : Tag) :
    Turn.Agree b.config.paceWeight (b.queue.find? tag) (b.turnsTakingIn tag now event) := by
  have hfind := find?_turnsTakingIn h now event tag
  unfold turnsTakingIn at hfind ⊢
  split
  · exact agree_comes hfind
  · split
    · exact Turn.agree_hear _ _ _ _
    · exact Turn.agree_nil _ _

theorem agree_turnsHearing (h : b.queue.tags.Nodup) (now : Instant) (event : Event) (tag : Tag) :
    Turn.Agree b.config.paceWeight (b.queue.find? tag) (b.turnsHearing tag now event) := by
  rw [turnsHearing]
  split
  · exact agree_turnsTakingIn h now event tag
  · exact Turn.agree_nil _ _

theorem agree_turnsHearingAll (h : Queue.Balanced b.queue.tally b.queue.rows) (now : Instant)
    (events : List Event) (tag : Tag) :
    Turn.Agree b.config.paceWeight (b.queue.find? tag) (turnsHearingAll tag now events b) := by
  induction events generalizing b with
  | nil => exact Turn.agree_nil _ _
  | cons event events ih =>
    rw [turnsHearingAll]
    refine (agree_turnsHearing h.nodup now event tag).append ?_
    rw [← find?_turnsHearing h.nodup]
    split
    · exact Turn.agree_nil _ _
    · obtain ⟨cs, hwalk, -⟩ : Takes False b (b.hear now event) := takes_hear
      rw [← config_hear b now event]
      exact ih (hwalk.balanced h)

theorem agree_turns (h : Queue.Balanced b.queue.tally b.queue.rows) (action : Action) (tag : Tag) :
    Turn.Agree b.config.paceWeight (b.queue.find? tag) (b.turns tag action) := by
  have hfind := find?_perform h action tag
  cases action with
  | hear now event => exact agree_turnsHearing h.nodup now event tag
  | hearAll now events => exact agree_turnsHearingAll h now events tag
  | takeIn now event => exact agree_turnsTakingIn h.nodup now event tag
  | load size listing => exact agree_comes hfind
  | insert r place => exact agree_comes hfind
  | _ =>
    simp only [turns]
    split
    · exact Turn.agree_go _ _
    · exact Turn.agree_nil _ _

theorem agree_course (h : Queue.Balanced b.queue.tally b.queue.rows) (actions : List Action)
    (tag : Tag) :
    Turn.Agree b.config.paceWeight (b.queue.find? tag) (course tag b actions) := by
  induction actions generalizing b with
  | nil => exact Turn.agree_nil _ _
  | cons action actions ih =>
    obtain ⟨cs, hwalk⟩ : ∃ cs, Queue.Walk False b.queue cs (b.perform action).state.queue :=
      walk_perform False.elim
    rw [course]
    refine (agree_turns h action tag).append ?_
    rw [← find?_perform h, ← config_perform b action]
    exact ih (hwalk.balanced h)

theorem Reached.rests (h : b.Reached) : ∀ row ∈ b.queue.rows, row.Rests :=
  h.forall_rows (fun _ _ _ => Row.rests_ofReport) fun weight now event _ hrow =>
    hrow.hear weight now event

/-- The table holds what the rows hold. -/
theorem keptPace_new (config : Config) (preference : Preference) (actions : List Action)
    (tag : Tag) :
    (new config preference).keptPace tag actions
      = (((new config preference).run actions).state.queue.find? tag).bind Row.pace := by
  rw [find?_run .nil]
  exact agree_course (b := new config preference) .nil actions tag

/-- After any run, whatever its events are and whether or not they failed, the table holds the paces that
the rows hold.  One is kept only for a transfer that has an unfinished row.  It is made of reports that
this row has been given since it came, and since the last end that it heard; in particular none is kept
when that end was the last that it heard.  For an unfinished row that has heard no end one is kept, and
the first report that it is made of is the one that the row is made of. -/
theorem paces_kept (config : Config) (preference : Preference) (actions : List Action) (tag : Tag) :
    let b := ((new config preference).run actions).state
    let kept := (new config preference).keptPace tag actions
    kept = (b.queue.find? tag).bind Row.pace
      ∧ (∀ pace, kept = some pace →
        ∃ row, b.queue.find? tag = some row ∧ row.entry.phase.isFinished = false)
      ∧ ∀ row, b.queue.find? tag = some row →
        ∃ s rs, (new config preference).stay? tag actions = some s
          ∧ s.row? config.paceWeight = some row
          ∧ s.report.tag = tag
          ∧ (∀ x ∈ s.heard, x.2 ∈ actions.flatMap Action.events ∧ x.2.report.tag = tag)
          ∧ rs.Sublist s.current ∧ kept = Pace.ofReports? config.paceWeight rs
          ∧ (row.entry.phase.isFinished = false → (∀ x ∈ s.heard, x.2.isEnd = false) →
            kept.isSome = true ∧ [s.report] <+: rs) := by
  intro b kept
  have hkept : kept = (b.queue.find? tag).bind Row.pace :=
    keptPace_new config preference actions tag
  have hreached : b.Reached := ⟨config, preference, actions, rfl⟩
  refine ⟨hkept, ?_, ?_⟩
  · intro pace hpace
    rw [hkept] at hpace
    obtain ⟨row, hfound, hrow⟩ := Option.bind_eq_some_iff.1 hpace
    refine ⟨row, hfound, ?_⟩
    have hmem := ((Queue.find?_eq_some_iff hreached.balanced.nodup).1 hfound).1
    by_contra hfinished
    rw [hreached.rests row hmem (by simpa using hfinished)] at hrow
    cases hrow
  · intro row hfound
    have hstay : b.queue.find? tag = _ := find?_run_new config preference actions tag
    rw [hfound] at hstay hkept
    obtain ⟨s, hs, hrow⟩ := Option.bind_eq_some_iff.1 hstay.symm
    obtain ⟨htag, hheard⟩ := about_stay hs
    obtain ⟨rs, hsub, hpace, hstarts⟩ := Stay.exists_pace_eq hrow
    refine ⟨s, rs, hs, hrow, htag, hheard, hsub, hkept.trans hpace, ?_⟩
    intro hunfinished hall
    obtain ⟨later, rfl⟩ := hstarts hunfinished hall
    refine ⟨?_, List.prefix_append _ _⟩
    rw [hkept]
    show row.pace.isSome = true
    rw [hpace]
    rfl

end Board

end TransferQueue
