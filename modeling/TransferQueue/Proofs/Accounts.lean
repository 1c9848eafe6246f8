import TransferQueue.Proofs.Arrivals

/-!
# Accounts of failures

The report of a failure is kept beside the row of its transfer, from where it goes back to the engine
when the transfer is to be tried again.  Rows fail, come back, finish once more, go and come anew, so
it is not plain which report is kept.  The account of a transfer says it by the history of its
failures: the reports that went back and the one that is kept are among them, in their order, and the
one that is kept is the last.  This is said of one step as of many, for then it can be put together.

* `Event.failure?`: the failure that an event tells, as it is kept;
* `Row.Keeping`: a row keeps a report exactly if it has failed;
* `Queue.Accounts`: what becomes of the failures of a transfer;
* `Queue.accounts_insert`, `Queue.accounts_finish` and so on: what the operations do to that.
-/

namespace TransferQueue

/-! ## Failures -/

/-- The failure that an event tells, as it is kept: a fault of the event stands for that of the
report. -/
def Event.failure? : Event → Option Report
  | .started r => if r.phase = .failed then some r else none
  | .finished r fault =>
    if r.phase = .failed then some { r with lastFault := fault.or r.lastFault } else none
  | _ => none

/-- The failure that an event tells, if the answer is that it was taken in. -/
def Event.failures (event : Event) : Except Overflow Bool → List Report
  | .ok true => event.failure?.toList
  | _ => []

/-- The reports that are about a transfer. -/
def ofTag (tag : Tag) (rs : List Report) : List Report := rs.filter fun r => r.tag = tag

@[simp] theorem ofTag_nil (tag : Tag) : ofTag tag [] = [] := rfl

theorem ofTag_append (tag : Tag) (rs rs' : List Report) :
    ofTag tag (rs ++ rs') = ofTag tag rs ++ ofTag tag rs' :=
  List.filter_append ..

theorem ofTag_eq_nil_iff {tag : Tag} {rs : List Report} :
    ofTag tag rs = [] ↔ ∀ r ∈ rs, r.tag ≠ tag := by
  simp [ofTag]

/-- Among reports that are about different transfers there is only one about each. -/
theorem ofTag_eq_singleton {rs : List Report} {r : Report}
    (h : rs.Pairwise fun a b => a.tag ≠ b.tag) (hr : r ∈ rs) : ofTag r.tag rs = [r] := by
  obtain ⟨before, after, rfl⟩ := List.append_of_mem hr
  obtain ⟨-, hafter, hacross⟩ := List.pairwise_append.1 h
  have hbefore : ofTag r.tag before = [] :=
    ofTag_eq_nil_iff.2 fun a ha => hacross a ha r List.mem_cons_self
  have hafter : ofTag r.tag after = [] :=
    ofTag_eq_nil_iff.2 fun a ha => ((List.pairwise_cons.1 hafter).1 a ha).symm
  rw [ofTag_append, hbefore, List.nil_append]
  rw [ofTag] at hafter ⊢
  rw [List.filter_cons_of_pos (by simp), hafter]

/-! ## Rows keep the reports of failures -/

theorem Phase.advance_eq_failed_iff {phase next : Phase} :
    phase.advance next = .failed ↔ phase = .failed := by
  cases h : phase.isFinished with
  | true => rw [advance_of_isFinished h]
  | false =>
    -- then neither phase is a finished one
    have h' : (phase.advance next).isFinished = false := by rw [isFinished_advance, h]
    constructor
    · intro heq
      rw [heq] at h'
      simp [isFinished] at h'
    · rintro rfl
      simp [isFinished] at h

/-- A row keeps a report exactly if it has failed, and the report is about its transfer. -/
structure Row.Keeping (row : Row) : Prop where
  /-- It is kept exactly if the row has failed. -/
  isSome_iff : row.retained.isSome = true ↔ row.entry.phase = .failed
  /-- It is about the transfer of the row. -/
  tag_eq : ∀ r ∈ row.retained, r.tag = row.tag

namespace Queue

variable {q q' q'' : Queue} {tag : Tag} {place : Nat} {row row' : Row} {weight : Float} {r : Report}
  {fs fs' rs rs' : List Report}

theorem forall_replaceRow {P : Row → Prop} (located : q.locate? tag = some (place, row))
    (phase : Phase) (h : ∀ a ∈ q.rows, P a) (hrow : P row → P row') :
    ∀ a ∈ (q.replaceRow place phase row').rows, P a := by
  obtain ⟨before, after, hrows, -, hrows'⟩ := replaceRow_split located phase row'
  rw [hrows, List.forall_mem_append, List.forall_mem_cons] at h
  rw [hrows', List.forall_mem_append, List.forall_mem_cons]
  exact ⟨h.1, hrow h.2.1, h.2.2⟩

/-- Every step leaves rows that keep what they have to keep. -/
theorem Step.keeping {placed : Prop} {cs : List Change} (step : Step placed q cs q')
    (h : ∀ a ∈ q.rows, a.Keeping) : ∀ a ∈ q'.rows, a.Keeping := by
  cases step with
  | note => exact h
  | come new bound made fits =>
    rename_i weight r place row
    obtain ⟨before, after, hrows, -, hrows'⟩ := insertRow_split bound row
    obtain ⟨htag, hphase, hretained⟩ := Row.ofReport_eq_ok made
    rw [hrows, List.forall_mem_append] at h
    rw [hrows', List.forall_mem_append, List.forall_mem_cons]
    refine ⟨h.1, ⟨?_, ?_⟩, h.2⟩
    · rw [hretained, hphase]
      split <;> simp_all
    · rw [hretained, htag]
      split <;> simp_all
  | observe located made =>
    obtain ⟨pace, rfl⟩ := Row.refresh_eq_error made
    exact forall_replaceRow located _ h fun hrow => ⟨hrow.isSome_iff, hrow.tag_eq⟩
  | refresh located made =>
    obtain ⟨timeLeft, pace, rfl⟩ := Row.refresh_eq_ok made
    refine forall_replaceRow located _ h fun hrow => ⟨?_, hrow.tag_eq⟩
    exact hrow.isSome_iff.trans Phase.advance_eq_failed_iff.symm
  | settle located made =>
    obtain ⟨timeLeft, pace, rfl⟩ := Row.refresh_eq_ok made
    intro a ha
    have ha' := (perm_settle_replaceRow located _ _ _).mem_iff.1 ha
    refine forall_replaceRow located _ h ?_ a ha'
    intro hrow
    exact ⟨hrow.isSome_iff.trans Phase.advance_eq_failed_iff.symm, hrow.tag_eq⟩
  | finish located =>
    rename_i finishedAt r fault place row
    obtain ⟨-, -, -, -, htag⟩ := locate?_eq_some located
    refine forall_replaceRow located _ h fun _ => ⟨?_, ?_⟩
    · show (if r.phase = .failed then some _ else none).isSome = true ↔ r.phase = .failed
      split <;> simp_all
    · rw [Row.finish]
      split <;> simp_all [Row.tag, Entry.finish]
  | erase run bound => exact fun a ha => h a ((sublist_eraseRun run q).subset ha)

/-! ## Accounts of failures -/

/-- What becomes of the failures of a transfer, when from `q` to `q'` the failures `fs` come and the
reports `rs` go back to the engine. -/
structure Accounts (q : Queue) (fs rs : List Report) (q' : Queue) (tag : Tag) : Prop where
  /-- What goes back or is kept had been kept or has come, and it is so once. -/
  sublist : (ofTag tag rs ++ (q'.retained? tag).toList).Sublist
    ((q.retained? tag).toList ++ ofTag tag fs)
  /-- What is kept came last. -/
  latest : ∀ r ∈ q'.retained? tag, ((q.retained? tag).toList ++ ofTag tag fs).getLast? = some r

namespace Accounts

/-- Nothing comes or goes back, and what is kept had been kept. -/
theorem of_kept (h : ∀ r, q'.retained? tag = some r → q.retained? tag = some r) :
    Accounts q [] [] q' tag := by
  rcases hretained : q'.retained? tag with _ | r
  · exact ⟨by simp [hretained], by simp [hretained]⟩
  · have hbefore := h r hretained
    exact ⟨by simp [hretained, hbefore], by simp [hretained, hbefore]⟩

theorem refl (q : Queue) (tag : Tag) : Accounts q [] [] q tag := of_kept fun _ h => h

/-- Only the reports about the transfer count. -/
theorem congr (h : Accounts q fs rs q' tag) (hfs : ofTag tag fs' = ofTag tag fs)
    (hrs : ofTag tag rs' = ofTag tag rs) : Accounts q fs' rs' q' tag := by
  constructor
  · rw [hfs, hrs]
    exact h.sublist
  · rw [hfs]
    exact h.latest

/-- Only the rows count. -/
theorem of_rows {p p' : Queue} (h : Accounts q fs rs q' tag) (hrows : p.rows = q.rows)
    (hrows' : p'.rows = q'.rows) : Accounts p fs rs p' tag := by
  have hretained : p.retained? tag = q.retained? tag := by
    rw [retained?, retained?, find?_congr hrows]
  have hretained' : p'.retained? tag = q'.retained? tag := by
    rw [retained?, retained?, find?_congr hrows']
  constructor
  · rw [hretained, hretained']
    exact h.sublist
  · rw [hretained, hretained']
    exact h.latest

theorem trans (h : Accounts q fs rs q' tag) (h' : Accounts q' fs' rs' q'' tag) :
    Accounts q (fs ++ fs') (rs ++ rs') q'' tag := by
  constructor
  · rw [ofTag_append, ofTag_append]
    calc ofTag tag rs ++ ofTag tag rs' ++ (q''.retained? tag).toList
        = ofTag tag rs ++ (ofTag tag rs' ++ (q''.retained? tag).toList) := List.append_assoc ..
      List.Sublist _ (ofTag tag rs ++ ((q'.retained? tag).toList ++ ofTag tag fs')) :=
        h'.sublist.append_left _
      _ = ofTag tag rs ++ (q'.retained? tag).toList ++ ofTag tag fs' := (List.append_assoc ..).symm
      List.Sublist _ ((q.retained? tag).toList ++ ofTag tag fs ++ ofTag tag fs') :=
        h.sublist.append_right _
      _ = (q.retained? tag).toList ++ (ofTag tag fs ++ ofTag tag fs') := List.append_assoc ..
  · intro r hr
    have hlast := h'.latest r hr
    rw [ofTag_append, ← List.append_assoc]
    rcases hlater : ofTag tag fs' with _ | ⟨f, more⟩
    · -- what is kept at the end had been kept in between
      rw [hlater, List.append_nil] at hlast
      have hbetween : q'.retained? tag = some r := by
        rcases hkept : q'.retained? tag with _ | r' <;> simp_all
      rw [List.append_nil]
      exact h.latest r hbetween
    · rw [hlater, List.getLast?_append_of_ne_nil _ (List.cons_ne_nil f more)] at hlast
      rwa [List.getLast?_append_of_ne_nil _ (List.cons_ne_nil f more)]

/-- A row comes, or stands for the one that was found. -/
theorem of_revises (h : Revises q row q') (htag : ∀ r ∈ row.retained, r.tag = row.tag) (tag : Tag) :
    Accounts q row.retained.toList [] q' tag := by
  have hretained : q'.retained? tag = if row.tag = tag then row.retained else q.retained? tag := by
    rw [retained?, h tag]
    split <;> rfl
  by_cases heq : row.tag = tag
  · rw [if_pos heq] at hretained
    rcases hrow : row.retained with _ | r
    · exact ⟨by simp [hretained, hrow], by simp [hretained, hrow]⟩
    · have hr : r.tag = tag := (htag r hrow).trans heq
      exact ⟨by simp [ofTag, hretained, hrow, hr], by simp [ofTag, hretained, hrow, hr]⟩
  · rw [if_neg heq] at hretained
    refine (of_kept fun r hr => hretained ▸ hr).congr (ofTag_eq_nil_iff.2 ?_) rfl
    intro r hr
    rw [htag r (Option.mem_toList.1 hr)]
    exact heq

end Accounts

/-! ### Operations -/

theorem settle_changes_ne_nil (q : Queue) (place : Nat) (priority : UInt64) (row : Row) :
    (q.settle place priority row).changes ≠ [] := by
  simp only [settle]
  split <;> simp

/-- When rows are only closed, those that are left keep their reports. -/
theorem Step.retained?_of_closes {placed : Prop} {cs : List Change} (step : Step placed q cs q')
    (hcloses : ∀ c ∈ cs, c.closes = true) (h : q.tags.Nodup) :
    q'.retained? tag = some r → q.retained? tag = some r := by
  cases step with
  | note => exact id
  | observe located made =>
    rename_i weight r' fault place row row'
    obtain ⟨pace, rfl⟩ := Row.refresh_eq_error made
    have hfound : q.find? row.tag = some row := by
      obtain ⟨-, -, -, -, htag⟩ := locate?_eq_some located
      rw [htag]
      exact find?_of_locate? h located
    have hrevises : Revises q { row with pace } _ := revises_replaceRow h located row.entry.phase rfl
    intro hr
    rw [retained?, hrevises tag] at hr
    split at hr
    · rename_i heq
      rw [retained?, ← heq]
      exact (congrArg (Option.bind · Row.retained) hfound).trans hr
    · exact hr
  | erase run bound =>
    intro hr
    obtain ⟨row, hrow, hretained⟩ := Option.bind_eq_some_iff.1 hr
    rw [retained?, find?_of_sublist h (sublist_eraseRun run q) hrow]
    exact hretained
  | come => exact absurd (hcloses _ List.mem_cons_self) (by simp [Change.closes])
  | refresh => exact absurd (hcloses _ List.mem_cons_self) (by simp [Change.closes])
  | finish => exact absurd (hcloses _ List.mem_cons_self) (by simp [Change.closes])
  | settle =>
    obtain ⟨c, hc⟩ := List.exists_mem_of_ne_nil _ (settle_changes_ne_nil _ _ _ _)
    exact absurd (hcloses c hc) (by simp [settle_not_closes _ _ _ _ c hc])

theorem accounts_of_closes {placed : Prop} {cs : List Change} (walk : Walk placed q cs q')
    (hcloses : ∀ c ∈ cs, c.closes = true) (h : Balanced q.tally q.rows) (tag : Tag) :
    Accounts q [] [] q' tag := by
  induction walk with
  | refl => exact .refl q tag
  | tail walk step ih =>
    have hfirst := ih fun c hc => hcloses c (List.mem_append_left _ hc)
    have hbalanced := walk.balanced h
    refine hfirst.trans (.of_kept fun r => step.retained?_of_closes ?_ hbalanced.nodup)
    exact fun c hc => hcloses c (List.mem_append_right _ hc)

/-- A row that comes as a failed one brings a failure. -/
theorem accounts_insertRow (bound : place ≤ q.size) (hnew : q.contains r.tag = false)
    (hmade : Row.ofReport weight r = .ok row) (tag : Tag) :
    Accounts q ((Event.started r).failures (.ok true)) [] (q.insertRow place row) tag := by
  obtain ⟨htag, -, hretained⟩ := Row.ofReport_eq_ok hmade
  rw [contains_eq_false_iff, ← htag] at hnew
  have hfailure : (Event.started r).failures (.ok true) = row.retained.toList := by
    rw [hretained]
    rfl
  rw [hfailure]
  refine .of_revises (find?_insertRow bound hnew) ?_ tag
  rw [hretained, htag]
  split <;> simp_all

theorem accounts_insert (weight : Float) (r : Report) (place : Nat) (q : Queue) (tag : Tag) :
    Accounts q ((Event.started r).failures (q.insert weight r place).answer) []
      (q.insert weight r place).state tag := by
  rw [insert]
  split
  · exact .refl q tag
  · exact .refl q tag
  · rename_i q' hadd
    obtain ⟨row, hmade, rfl, hnew, bound⟩ := add_eq_ok_some hadd
    exact accounts_insertRow bound hnew hmade tag

theorem accounts_start (weight : Float) (r : Report) (q : Queue) (tag : Tag) :
    Accounts q ((Event.started r).failures (q.start weight r).answer) []
      (q.start weight r).state tag := by
  simp only [start]
  split
  · exact .refl q tag
  · split
    · exact .refl q tag
    · exact (Accounts.refl q tag).of_rows rfl rfl
    · rename_i q' hadd
      obtain ⟨row, hmade, rfl, hnew, bound⟩ := add_eq_ok_some hadd
      exact (accounts_insertRow bound hnew hmade tag).of_rows rfl rfl

/-- What leaves the report beside a row alone bears on no account. -/
theorem accounts_of_map {f : Row → Row} (hf : ∀ row, (f row).retained = row.retained)
    (hfind : ∀ tag, q'.find? tag = if r.tag = tag then (q.find? tag).map f else q.find? tag)
    (tag : Tag) : Accounts q [] [] q' tag := by
  refine .of_kept fun r' hr => ?_
  rw [retained?, hfind tag] at hr
  split at hr
  · rw [Option.bind_map] at hr
    simpa only [retained?, Function.comp_def, hf] using hr
  · exact hr

theorem accounts_update (h : q.tags.Nodup) (tag : Tag) :
    Accounts q [] [] (q.update weight r).state tag := by
  by_cases hseen : q.hasSeen r.number = true
  · rw [update, takeIn, if_pos hseen]
    exact .refl q tag
  · exact accounts_of_map (fun _ => Row.update_keeps.2) (find?_update h (by simpa using hseen)) tag

theorem accounts_hinder {fault : Option Fault} (h : q.tags.Nodup) (tag : Tag) :
    Accounts q [] [] (q.hinder weight r fault).state tag := by
  by_cases hseen : q.hasSeen r.number = true
  · rw [hinder, takeIn, if_pos hseen]
    exact .refl q tag
  · exact accounts_of_map (fun _ => Row.hinder_keeps.2) (find?_hinder h (by simpa using hseen)) tag

/-- A row that finishes as a failed one brings a failure, and one that finishes otherwise keeps
nothing. -/
theorem accounts_finish {now : Instant} {fault : Option Fault} (h : q.tags.Nodup) (tag : Tag) :
    Accounts q ((Event.finished r fault).failures (q.finish now r fault).answer) []
      (q.finish now r fault).state tag := by
  rw [finish, takeIn]
  split
  · exact .refl q tag
  · simp only
    split
    · exact (Accounts.refl q tag).of_rows rfl rfl
    · rename_i place row hloc
      obtain ⟨-, -, -, -, htag⟩ := locate?_eq_some hloc
      have hrevises : Revises q (row.finish (r.finishTime now) r fault)
          (({ q with watermark := r.number } : Queue).replaceRow place row.entry.phase
            (row.finish (r.finishTime now) r fault)) :=
        revises_replaceRow (q := { q with watermark := r.number }) h hloc _ rfl
      refine Accounts.of_revises hrevises ?_ tag
      rw [Row.finish]
      split <;> simp_all [Row.tag, Entry.finish]

/-- What a transfer keeps that had no row is a fresh report of a failure. -/
theorem mem_fresh_of_retained? {search : Search} (h : q.tags.Nodup)
    (hnew : q.contains tag = false)
    (hretained : (addAll search weight rs q).1.retained? tag = some r) :
    r ∈ q.fresh rs ∧ r.tag = tag ∧ r.phase = .failed
      ∧ (addAll search weight rs q).1.contains tag = true := by
  obtain ⟨row, hfound, hr⟩ := Option.bind_eq_some_iff.1 hretained
  obtain ⟨s, hs, hstag, hmade⟩ := exists_fresh_of_find? h hnew hfound
  have hkept := (Row.ofReport_eq_ok hmade).2.2
  rw [hr] at hkept
  split at hkept
  · rename_i hphase
    obtain rfl : r = s := Option.some.inj hkept
    refine ⟨hs, hstag, hphase, ?_⟩
    rw [contains_eq_isSome_find?, hfound]
    rfl
  · simp at hkept

/-- Rows that are loaded as failed ones bring failures. -/
theorem accounts_addAll (search : Search) (weight : Float) (rs : List Report) (h : q.tags.Nodup)
    (tag : Tag) :
    Accounts q ((q.fresh rs).filter fun r =>
        (addAll search weight rs q).1.contains r.tag && r.phase == .failed) []
      (addAll search weight rs q).1 tag := by
  generalize hfs : (q.fresh rs).filter (fun r =>
    (addAll search weight rs q).1.contains r.tag && r.phase == .failed) = fs
  rcases hold : q.contains tag with _ | _
  · -- the transfer had no row, and what it keeps now is of the only fresh report
    have hnone : q.retained? tag = none := by
      rw [retained?, find?_eq_none_iff.2 (contains_eq_false_iff.1 hold)]
      rfl
    rcases hretained : (addAll search weight rs q).1.retained? tag with _ | r
    · exact ⟨by simp [ofTag, hretained], by simp [hretained]⟩
    · obtain ⟨hr, rfl, hphase, hcontains⟩ := mem_fresh_of_retained? h hold hretained
      have hmem : r ∈ fs := by
        rw [← hfs]
        exact List.mem_filter.2 ⟨hr, by simp [hcontains, hphase]⟩
      have honly : ofTag r.tag fs = [r] :=
        ofTag_eq_singleton (hfs ▸ (pairwise_fresh q rs).filter _) hmem
      exact ⟨by simp [hretained, hnone, honly], by simp [hretained, hnone, honly]⟩
  · -- the transfer keeps its row, and no fresh report is about it
    have hkept : (addAll search weight rs q).1.retained? tag = q.retained? tag := by
      rw [retained?, retained?, find?_addAll_of_contains h hold]
    refine (Accounts.of_kept fun r hr => hkept ▸ hr).congr (ofTag_eq_nil_iff.2 ?_) rfl
    rintro r hr rfl
    rw [← hfs] at hr
    rw [contains_of_mem_fresh (List.mem_filter.1 hr).1] at hold
    simp at hold

/-! ### Another try -/

theorem restart_of_retained?_eq_none (h : q.tags.Nodup) (hnone : q.retained? tag = none) :
    q.restart tag = ⟨q, false, [], []⟩ := by
  rw [restart]
  split
  · rfl
  · rename_i place row hloc
    rw [retained?, find?_of_locate? h hloc] at hnone
    have hrow : row.retained = none := hnone
    rw [hrow]

/-- When the transfer keeps a report, its row goes and the report goes back. -/
theorem restart_of_retained? (h : q.tags.Nodup) (hretained : q.retained? tag = some r) :
    ∃ before row after, q.rows = before ++ row :: after ∧ row.tag = tag ∧ row.retained = some r
      ∧ (q.restart tag).state
        = { q with rows := before ++ after, tally := q.tally.remove row.entry }
      ∧ (q.restart tag).answer = true ∧ (q.restart tag).commands = [.restart r] := by
  obtain ⟨row, hfound, hrow⟩ := Option.bind_eq_some_iff.1 hretained
  obtain ⟨hmem, htag⟩ := (find?_eq_some_iff h).1 hfound
  obtain ⟨before, after, hrows⟩ := List.append_of_mem hmem
  refine ⟨before, row, after, hrows, htag, hrow, ?_⟩
  have hloc : q.locate? tag = some (before.length, row) := htag ▸ locate?_of_split h hrows
  have herase : q.eraseRun before.length before.length
      = { q with rows := before ++ after, tally := q.tally.remove row.entry } := by
    simp [eraseRun, hrows]
  rw [restart, hloc]
  simp only [hrow, herase, and_self]

/-- A report that goes back is kept no longer. -/
theorem accounts_restart (h : q.tags.Nodup) (hkeeping : ∀ a ∈ q.rows, a.Keeping)
    (restarted tag : Tag) :
    Accounts q [] (q.retained? restarted).toList (q.restart restarted).state tag := by
  rcases hretained : q.retained? restarted with _ | r
  · rw [restart_of_retained?_eq_none h hretained]
    exact .refl q tag
  · obtain ⟨before, row, after, hrows, rfl, hrow, hstate, -⟩ := restart_of_retained? h hretained
    have hr : r.tag = row.tag := (hkeeping row (by simp [hrows])).tag_eq r hrow
    have hrest : (q.restart row.tag).state.rows = before ++ after := by rw [hstate]
    by_cases heq : row.tag = tag
    · have hgone : (q.restart row.tag).state.retained? tag = none := by
        have hnodup : (before.map Row.tag ++ row.tag :: after.map Row.tag).Nodup := by
          simpa [tags, hrows] using h
        have hnot := (List.nodup_cons.1 (List.perm_middle.nodup_iff.1 hnodup)).1
        rw [retained?, find?_eq_none_iff.2]
        · rfl
        · rw [tags, hrest, List.map_append, ← heq]
          exact hnot
      rw [heq] at hr hretained
      exact ⟨by simp [hgone, hretained, ofTag, hr], by simp [hgone]⟩
    · have hsub : (q.restart row.tag).state.rows.Sublist q.rows := by
        rw [hrest, hrows]
        exact (List.Sublist.refl before).append (List.sublist_cons_self row after)
      have hkept : Accounts q [] [] (q.restart row.tag).state tag := by
        refine .of_kept fun r' hr' => ?_
        obtain ⟨a, ha, hretained'⟩ := Option.bind_eq_some_iff.1 hr'
        rw [retained?, find?_of_sublist h hsub ha]
        exact hretained'
      refine hkept.congr rfl (ofTag_eq_nil_iff.2 ?_)
      simpa [hr] using heq

end Queue

end TransferQueue
