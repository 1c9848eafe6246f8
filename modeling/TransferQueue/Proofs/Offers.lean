import Mathlib.Data.List.Forall2
import TransferQueue.Proofs.Overflows
import TransferQueue.Proofs.Stays

/-!
# Links that are offered and links that are known

For each selected row there is one offer: a link to its file, or the handle of a node that has to be
exported first.  A row may know of a shared node from two sources.  Its entry has the last one that was
reported, and keeps it when later reports have none.  A failed row also has the report of its failure,
with the node that this report brought, if it brought one.

What is offered for a failed row is the link to the node of that report, and to no other.  So the link is
*overlooked* if the entry still has a node with a link and the report has none.  For all other rows
the offer is the one that is owed: a link if one is known, and the handle only if there is none.

* `SharedNode.IsLink`: how a link is written;
* `Row.Owes`, `Row.Overlooks`: what is owed for a row, and when it is not offered;
* `Row.overlooks_finish_iff`, `Row.overlooks_hear`: how a link comes to be overlooked;
* `Board.links_offered`: what is offered for a selection, and for which selections it is what is owed.
-/

namespace TransferQueue

/-! ## Links -/

namespace SharedNode

variable {base text : String} {node : SharedNode}

/-- The link to a node below an address: the address without the slashes at its end, the handle and the
key, of which neither is empty. -/
def IsLink (base : String) (node : SharedNode) (text : String) : Prop :=
  ∃ (stem slashes : List Char) (key : String), base.toList = stem ++ slashes
    ∧ (∀ c ∈ slashes, c = '/') ∧ stem.getLast? ≠ some '/'
    ∧ node.linkKey = some key ∧ key ≠ "" ∧ node.linkHandle ≠ ""
    ∧ text = String.ofList stem ++ "/#!" ++ node.linkHandle ++ "!" ++ key

/-- Only the slashes at the end are dropped, and all of them. -/
theorem trimSlashes_eq {stem slashes : List Char} (hbase : base.toList = stem ++ slashes)
    (hslashes : ∀ c ∈ slashes, c = '/') (hstem : stem.getLast? ≠ some '/') :
    trimSlashes base = String.ofList stem := by
  have hdrop : stem.reverse.dropWhile (· = '/') = stem.reverse := by
    rcases hreverse : stem.reverse with _ | ⟨c, rest⟩
    · rfl
    · rw [List.getLast?_eq_head?_reverse, hreverse] at hstem
      exact List.dropWhile_cons_of_neg (by simpa using hstem)
  rw [trimSlashes, hbase, List.reverse_append,
    List.dropWhile_append_of_pos (by simpa using hslashes), hdrop, List.reverse_reverse]

/-- An address ends where the slashes at its end begin. -/
theorem exists_stem (base : String) : ∃ stem slashes : List Char, base.toList = stem ++ slashes
    ∧ (∀ c ∈ slashes, c = '/') ∧ stem.getLast? ≠ some '/' := by
  refine ⟨(base.toList.reverse.dropWhile (· = '/')).reverse,
    (base.toList.reverse.takeWhile (· = '/')).reverse, ?_, ?_, ?_⟩
  · rw [← List.reverse_append, List.takeWhile_append_dropWhile, List.reverse_reverse]
  · intro c hc
    simpa using List.mem_takeWhile_imp (List.mem_reverse.1 hc)
  · rw [List.getLast?_reverse]
    intro hhead
    have hnot := List.head?_dropWhile_not (fun c : Char => decide (c = '/')) base.toList.reverse
    rw [hhead] at hnot
    simp at hnot

/-- What is offered as the link to a node is written as links are. -/
theorem link?_eq_some_iff : node.link? base = some text ↔ node.IsLink base text := by
  rw [link?]
  constructor
  · intro h
    obtain ⟨stem, slashes, hbase, hslashes, hstem⟩ := exists_stem base
    split at h
    · cases h
    · rename_i key hkey
      split at h
      · cases h
      · rename_i hempty
        rw [trimSlashes_eq hbase hslashes hstem] at h
        simp only [Bool.or_eq_true, String.isEmpty_iff, not_or] at hempty
        exact ⟨stem, slashes, key, hbase, hslashes, hstem, hkey, hempty.2, hempty.1,
          (Option.some.inj h).symm⟩
  · rintro ⟨stem, slashes, key, hbase, hslashes, hstem, hkey, hnonempty, hhandle, rfl⟩
    rw [hkey, trimSlashes_eq hbase hslashes hstem]
    exact if_neg (by simp [hnonempty, hhandle])

/-- There is a link to the node. -/
def HasLink (base : String) (node : SharedNode) : Prop := ∃ text, node.IsLink base text

end SharedNode

/-! ## Offers -/

/-- What is offered for a row. -/
inductive Offer where
  /-- A link. -/
  | link (text : String)
  /-- The node to be exported. -/
  | node (handle : Handle)
deriving DecidableEq, Repr

namespace Offer

/-- Whether an offer is a link. -/
def isLink : Offer → Bool
  | .link _ => true
  | .node _ => false

theorem isLink_iff {offer : Offer} : offer.isLink = true ↔ ∃ text, offer = .link text := by
  cases offer with
  | link text => exact ⟨fun _ => ⟨text, rfl⟩, fun _ => rfl⟩
  | node handle => exact ⟨fun h => (by cases h), fun ⟨text, h⟩ => (by cases h)⟩

/-- The link of an offer. -/
def text? : Offer → Option String
  | .link text => some text
  | .node _ => none

/-- The node of an offer. -/
def handle? : Offer → Option Handle
  | .link _ => none
  | .node handle => some handle

end Offer

/-- Offers, each kind by itself. -/
def Links.ofOffers (offers : List Offer) : Links where
  toExport := offers.filterMap Offer.handle?
  links := offers.filterMap Offer.text?

theorem Links.length_links_ofOffers (offers : List Offer) :
    (ofOffers offers).links.length = offers.countP Offer.isLink := by
  rw [ofOffers, List.length_filterMap_eq_countP]
  congr 1
  funext offer
  cases offer <;> rfl

theorem Links.length_ofOffers (offers : List Offer) :
    (ofOffers offers).links.length + (ofOffers offers).toExport.length = offers.length := by
  induction offers with
  | nil => rfl
  | cons offer offers ih =>
    simp only [ofOffers] at ih ⊢
    cases offer with
    | link text =>
      simp only [List.filterMap_cons, Offer.text?, Offer.handle?, List.length_cons]
      omega
    | node handle =>
      simp only [List.filterMap_cons, Offer.text?, Offer.handle?, List.length_cons]
      omega

namespace Row

variable {base text : String} {row : Row} {owed : Offer}

/-- What is offered for a row. -/
def offer (base : String) (row : Row) : Offer :=
  match row.link? base with
  | some text => .link text
  | none => .node row.entry.nodeHandle

/-- The shared nodes of which a row knows: that of its entry, and if it has failed also that of the
report of its failure. -/
def Knows (row : Row) (node : SharedNode) : Prop :=
  row.entry.sharedNode = some node
    ∨ row.entry.phase = .failed ∧ ∃ r, row.retained = some r ∧ r.sharedNode = some node

/-- What is owed for a row: a link if it knows of a node with a link, and otherwise the handle of its
node. -/
inductive Owes (base : String) (row : Row) : Offer → Prop
  /-- It knows of a node with this link. -/
  | link {node : SharedNode} {text : String} (knows : row.Knows node) (isLink : node.IsLink base text) :
    Owes base row (.link text)
  /-- It knows of no node with a link. -/
  | node (none : ∀ node, row.Knows node → ¬node.HasLink base) :
    Owes base row (.node row.entry.nodeHandle)

/-- The row has failed, its entry has a node with a link, and the report of its failure has none. -/
def Overlooks (base : String) (row : Row) : Prop :=
  row.entry.phase = .failed
    ∧ (∃ node, row.entry.sharedNode = some node ∧ node.HasLink base)
    ∧ ∀ r, row.retained = some r → ∀ node, r.sharedNode = some node → ¬node.HasLink base

/-! ### What is owed and what is offered -/

theorem offer_eq_link_iff : row.offer base = .link text ↔ row.link? base = some text := by
  rw [offer]
  split
  · rename_i known hknown
    rw [hknown, Offer.link.injEq, Option.some.injEq]
  · rename_i hnone
    rw [hnone]
    exact ⟨fun h => (by cases h), fun h => (by cases h)⟩

/-- The link that is offered for a row that has not failed is that to the node of its entry. -/
theorem offer_of_ne_failed (h : row.entry.phase ≠ .failed) :
    row.offer base = .link text ↔ ∃ node, row.entry.sharedNode = some node ∧ node.IsLink base text := by
  rw [offer_eq_link_iff, link?, sharedNode?, if_neg h, Option.bind_eq_some_iff]
  exact exists_congr fun node => and_congr_right fun _ => SharedNode.link?_eq_some_iff

/-- The link that is offered for a failed row is that to the node of the report of its failure. -/
theorem offer_of_failed (h : row.entry.phase = .failed) :
    row.offer base = .link text
      ↔ ∃ r, row.retained = some r ∧ ∃ node, r.sharedNode = some node ∧ node.IsLink base text := by
  rw [offer_eq_link_iff, link?, sharedNode?, if_pos h, Option.bind_eq_some_iff]
  constructor
  · rintro ⟨node, hnode, htext⟩
    obtain ⟨r, hretained, hshared⟩ := Option.bind_eq_some_iff.1 hnode
    exact ⟨r, hretained, node, hshared, SharedNode.link?_eq_some_iff.1 htext⟩
  · rintro ⟨r, hretained, node, hshared, hlink⟩
    refine ⟨node, ?_, SharedNode.link?_eq_some_iff.2 hlink⟩
    rw [hretained]
    exact hshared

/-- An offer that is no link is the handle of the row. -/
theorem offer_eq_node (h : ¬(row.offer base).isLink = true) :
    row.offer base = .node row.entry.nodeHandle := by
  rw [offer] at h ⊢
  split
  · rename_i text hlink
    rw [hlink] at h
    exact absurd rfl h
  · rfl

/-- A link that is offered is the link to a node of which the row knows. -/
theorem exists_knows_of_offer_eq (h : row.offer base = .link text) :
    ∃ node, row.Knows node ∧ node.IsLink base text := by
  by_cases hfailed : row.entry.phase = .failed
  · obtain ⟨r, hretained, node, hshared, hlink⟩ := (offer_of_failed hfailed).1 h
    exact ⟨node, .inr ⟨hfailed, r, hretained, hshared⟩, hlink⟩
  · obtain ⟨node, hshared, hlink⟩ := (offer_of_ne_failed hfailed).1 h
    exact ⟨node, .inl hshared, hlink⟩

theorem exists_knows_of_isLink (h : (row.offer base).isLink = true) :
    ∃ node, row.Knows node ∧ node.HasLink base := by
  obtain ⟨text, htext⟩ := Offer.isLink_iff.1 h
  obtain ⟨node, hknows, hlink⟩ := exists_knows_of_offer_eq htext
  exact ⟨node, hknows, text, hlink⟩

/-- Where a link is known, a link is owed. -/
theorem Owes.isLink (h : row.Owes base owed) (known : ∃ node, row.Knows node ∧ node.HasLink base) :
    owed.isLink = true := by
  cases h with
  | link => rfl
  | node hnone =>
    obtain ⟨node, hknows, hlink⟩ := known
    exact absurd hlink (hnone node hknows)

/-- A link is overlooked exactly if one is known and none is offered. -/
theorem overlooks_iff : row.Overlooks base
    ↔ (∃ node, row.Knows node ∧ node.HasLink base) ∧ ¬(row.offer base).isLink = true := by
  constructor
  · rintro ⟨hfailed, ⟨node, hshared, hlink⟩, hnone⟩
    refine ⟨⟨node, .inl hshared, hlink⟩, fun hoffer => ?_⟩
    obtain ⟨text, htext⟩ := Offer.isLink_iff.1 hoffer
    obtain ⟨r, hretained, node', hshared', hlink'⟩ := (offer_of_failed hfailed).1 htext
    exact hnone r hretained node' hshared' ⟨text, hlink'⟩
  · rintro ⟨⟨node, hknows, text, hlink⟩, hnot⟩
    rw [Offer.isLink_iff, not_exists] at hnot
    by_cases hfailed : row.entry.phase = .failed
    · -- the node is not that of the report, so it is that of the entry
      have hnone : ∀ r, row.retained = some r → ∀ node, r.sharedNode = some node →
          ¬node.HasLink base := by
        rintro r hretained node' hshared' ⟨text', hlink'⟩
        exact hnot text' ((offer_of_failed hfailed).2 ⟨r, hretained, node', hshared', hlink'⟩)
      rcases hknows with hshared | ⟨-, r, hretained, hshared⟩
      · exact ⟨hfailed, ⟨node, hshared, text, hlink⟩, hnone⟩
      · exact absurd ⟨text, hlink⟩ (hnone r hretained node hshared)
    · rcases hknows with hshared | ⟨hfailed', -⟩
      · exact absurd ((offer_of_ne_failed hfailed).2 ⟨node, hshared, hlink⟩) (hnot text)
      · exact absurd hfailed' hfailed

/-- What is offered for a row is owed, unless a link is overlooked. -/
theorem owes_offer_iff : row.Owes base (row.offer base) ↔ ¬row.Overlooks base := by
  rw [overlooks_iff]
  constructor
  · rintro howes ⟨hknown, hnot⟩
    exact hnot (howes.isLink hknown)
  · intro h
    by_cases hoffer : (row.offer base).isLink = true
    · obtain ⟨text, htext⟩ := Offer.isLink_iff.1 hoffer
      obtain ⟨node, hknows, hlink⟩ := exists_knows_of_offer_eq htext
      rw [htext]
      exact .link hknows hlink
    · rw [offer_eq_node hoffer]
      exact .node fun node hknows hlink => h ⟨⟨node, hknows, hlink⟩, hoffer⟩

/-- For a row that has not failed nothing else is owed. -/
theorem owes_iff_of_ne_failed (h : row.entry.phase ≠ .failed) :
    row.Owes base owed ↔ owed = row.offer base := by
  constructor
  · intro howes
    cases howes with
    | link hknows hlink =>
      rcases hknows with hshared | ⟨hfailed, -⟩
      · exact ((offer_of_ne_failed h).2 ⟨_, hshared, hlink⟩).symm
      · exact absurd hfailed h
    | node hnone =>
      refine (offer_eq_node fun hoffer => ?_).symm
      obtain ⟨node, hknows, hlink⟩ := exists_knows_of_isLink hoffer
      exact hnone node hknows hlink
  · rintro rfl
    exact owes_offer_iff.2 fun hoverlooks => h hoverlooks.1

/-! ### How a link comes to be overlooked -/

variable {weight : Float} {r : Report} {fault : Option Fault} {event : Event}

/-- A failure overlooks a link exactly if its report has no node and there is a link to the one that
the entry keeps. -/
theorem overlooks_finish_iff {finishedAt : Instant} :
    (row.finish finishedAt r fault).Overlooks base
      ↔ r.phase = .failed ∧ r.sharedNode = none
        ∧ ∃ node, row.entry.sharedNode = some node ∧ node.HasLink base := by
  constructor
  · rintro ⟨hfailed, ⟨node, hshared, hlink⟩, hnone⟩
    replace hfailed : r.phase = .failed := hfailed
    replace hshared : r.sharedNode.or row.entry.sharedNode = some node := hshared
    rcases hreport : r.sharedNode with _ | node'
    · rw [hreport] at hshared
      exact ⟨hfailed, rfl, node, hshared, hlink⟩
    · -- a node of the report is in the entry as well
      rw [hreport] at hshared
      exact absurd hlink (hnone _ (if_pos hfailed) node (hreport.trans hshared))
  · rintro ⟨hfailed, hreport, node, hshared, hlink⟩
    refine ⟨hfailed, ⟨node, ?_, hlink⟩, ?_⟩
    · show r.sharedNode.or row.entry.sharedNode = some node
      rw [hreport]
      exact hshared
    · rintro r' hretained node' hshared'
      rw [← Option.some.inj ((if_pos hfailed).symm.trans hretained)] at hshared'
      exact absurd (hreport.symm.trans hshared') (by simp)

/-- What a report that is no finish does to the node of an entry. -/
theorem refresh_keeps {row' : Row}
    (h : row.refresh weight r fault = .error row' ∨ row.refresh weight r fault = .ok row') :
    (row'.entry.phase = .failed ↔ row.entry.phase = .failed) ∧ row'.retained = row.retained
      ∧ (row'.entry.sharedNode = row.entry.sharedNode
        ∨ row'.entry.sharedNode = r.sharedNode ∧ r.sharedNode.isSome = true) := by
  rcases h with h | h
  · obtain ⟨pace, rfl⟩ := refresh_eq_error h
    exact ⟨.rfl, rfl, .inl rfl⟩
  · obtain ⟨timeLeft, pace, rfl⟩ := refresh_eq_ok h
    refine ⟨Phase.advance_eq_failed_iff, rfl, ?_⟩
    show r.sharedNode.or row.entry.sharedNode = _ ∨ r.sharedNode.or row.entry.sharedNode = _ ∧ _
    rcases r.sharedNode with _ | node
    · exact .inl rfl
    · exact .inr ⟨rfl, rfl⟩

/-- What an event that is no finish does to what a row knows. -/
theorem hear_keeps (h : event.isEnd = false) (weight : Float) (now : Instant) (row : Row) :
    ((row.hear weight now event).entry.phase = .failed ↔ row.entry.phase = .failed)
      ∧ (row.hear weight now event).retained = row.retained
      ∧ ((row.hear weight now event).entry.sharedNode = row.entry.sharedNode
        ∨ (row.hear weight now event).entry.sharedNode = event.report.sharedNode
          ∧ event.report.sharedNode.isSome = true) := by
  cases event with
  | started r => exact ⟨.rfl, rfl, .inl rfl⟩
  | updated r =>
    rw [hear, update]
    split
    · exact ⟨.rfl, rfl, .inl rfl⟩
    · rcases hmade : row.refresh weight r r.lastFault with row' | row'
      · exact refresh_keeps (.inl hmade)
      · -- the priority is no part of what a row knows
        have hkeeps := refresh_keeps (.inr hmade)
        exact hkeeps
  | hindered r fault =>
    rw [hear, hinder]
    rcases hmade : row.refresh weight r fault with row' | row'
    · exact refresh_keeps (.inl hmade)
    · exact refresh_keeps (.inr hmade)
  | finished r fault => cases h

/-- A link comes to be overlooked in two ways: a transfer fails whose report has no node, or a failed
transfer reports a node with a link. -/
theorem overlooks_hear (now : Instant) (hnot : ¬row.Overlooks base)
    (h : (row.hear weight now event).Overlooks base) :
    (event.isEnd = true ∧ event.report.phase = .failed ∧ event.report.sharedNode = none)
      ∨ row.entry.phase = .failed
        ∧ ∃ node, event.report.sharedNode = some node ∧ node.HasLink base := by
  rcases hend : event.isEnd with _ | _
  · obtain ⟨hphase, hretained, hshared⟩ := hear_keeps hend weight now row
    obtain ⟨hfailed, ⟨node, hnode, hlink⟩, hnone⟩ := h
    rw [hphase] at hfailed
    rw [hretained] at hnone
    rcases hshared with hshared | ⟨hshared, -⟩
    · rw [hshared] at hnode
      exact absurd ⟨hfailed, ⟨node, hnode, hlink⟩, hnone⟩ hnot
    · rw [hshared] at hnode
      exact .inr ⟨hfailed, node, hnode, hlink⟩
  · cases event with
    | finished r fault =>
      obtain ⟨hfailed, hreport, -⟩ := overlooks_finish_iff.1 h
      exact .inl ⟨rfl, hfailed, hreport⟩
    | _ => cases hend

/-- If the report of a failure has a node, so has the entry. -/
def Shares (row : Row) : Prop :=
  ∀ r, row.retained = some r → r.sharedNode.isSome = true → row.entry.sharedNode.isSome = true

theorem shares_ofReport (h : ofReport weight r = .ok row) : row.Shares := by
  simp only [ofReport, Except.map] at h
  split at h
  · cases h
  · obtain rfl := Except.ok.inj h
    rintro r' hretained hshared
    split at hretained
    · rw [← Option.some.inj hretained] at hshared
      exact hshared
    · cases hretained

theorem Shares.hear (h : row.Shares) (weight : Float) (now : Instant) (event : Event) :
    (row.hear weight now event).Shares := by
  rcases hend : event.isEnd with _ | _
  · obtain ⟨-, hretained, hshared⟩ := hear_keeps hend weight now row
    rintro r hr hsome
    rw [hretained] at hr
    rcases hshared with hshared | ⟨hshared, hreport⟩
    · rw [hshared]
      exact h r hr hsome
    · rw [hshared]
      exact hreport
  · cases event with
    | finished r fault =>
      intro r' hr hsome
      show (r.sharedNode.or row.entry.sharedNode).isSome = true
      replace hr : (if r.phase = .failed then some { r with lastFault := fault.or r.lastFault }
        else none) = some r' := hr
      split at hr
      · rw [← Option.some.inj hr] at hsome
        rw [Option.isSome_or, Bool.or_eq_true]
        exact .inl hsome
      · cases hr
    | _ => cases hend

end Row

/-! ## A selection -/

namespace Queue

/-- What is offered for a selection is what is offered for each of its rows. -/
theorem links_eq (base : String) (rows : List Nat) (q : Queue) :
    q.links base rows
      = .ofOffers ((rows.filterMap (q.rows[·]?)).map (Row.offer base)) := by
  simp only [links, Links.ofOffers]
  induction rows.filterMap (q.rows[·]?) with
  | nil => rfl
  | cons row selected ih =>
    obtain ⟨hexport, hlinks⟩ := Links.mk.inj ih
    rw [List.map_cons, List.filterMap_cons, List.filterMap_cons, List.filterMap_cons, ← hexport,
      ← hlinks, List.filter_cons, Row.offer]
    rcases row.link? base with _ | text
    · rfl
    · rfl

/-- The rows of a selection are as many as its numbers that are those of rows. -/
theorem length_selected (rows : List Nat) (q : Queue) :
    (rows.filterMap (q.rows[·]?)).length = rows.countP (· < q.size) := by
  rw [List.length_filterMap_eq_countP]
  congr 1
  funext n
  rw [Bool.eq_iff_iff, Option.isSome_iff_ne_none, Ne, List.getElem?_eq_none_iff, Nat.not_le,
    decide_eq_true_iff, size]

/-- No fewer links are owed for rows than are offered, and more if one is overlooked. -/
theorem countP_isLink_le {base : String} {rows : List Row} {owed : List Offer}
    (h : List.Forall₂ (Row.Owes base) rows owed) :
    (rows.map (Row.offer base)).countP Offer.isLink ≤ owed.countP Offer.isLink
      ∧ ((∃ row ∈ rows, row.Overlooks base) →
        (rows.map (Row.offer base)).countP Offer.isLink < owed.countP Offer.isLink) := by
  induction h with
  | nil => exact ⟨Nat.le_refl _, fun ⟨row, hrow, _⟩ => absurd hrow List.not_mem_nil⟩
  | @cons row offer rows owed howes _ ih =>
    obtain ⟨hle, hless⟩ := ih
    have hone : (if (row.offer base).isLink then 1 else 0) ≤ if offer.isLink then 1 else 0 := by
      split
      · rename_i hlink
        rw [if_pos (howes.isLink (Row.exists_knows_of_isLink hlink))]
      · exact Nat.zero_le _
    rw [List.map_cons, List.countP_cons, List.countP_cons]
    refine ⟨Nat.add_le_add hle hone, ?_⟩
    rintro ⟨overlooked, hmem, hoverlooks⟩
    rcases List.mem_cons.1 hmem with rfl | hmem
    · obtain ⟨hknows, hnot⟩ := Row.overlooks_iff.1 hoverlooks
      rw [if_pos (howes.isLink hknows), if_neg hnot]
      exact Nat.lt_succ_of_le hle
    · exact Nat.add_lt_add_of_lt_of_le (hless ⟨overlooked, hmem, hoverlooks⟩) hone

/-- What is offered for rows is owed, for each of them in its turn, exactly if none of them overlooks a
link. -/
theorem exists_owed_iff (base : String) (rows : List Row) :
    (∃ owed, List.Forall₂ (Row.Owes base) rows owed
        ∧ Links.ofOffers (rows.map (Row.offer base)) = .ofOffers owed)
      ↔ ∀ row ∈ rows, ¬row.Overlooks base := by
  constructor
  · rintro ⟨owed, howes, howed⟩ row hrow hoverlooks
    -- more links would be owed than are offered
    have hless := (countP_isLink_le howes).2 ⟨row, hrow, hoverlooks⟩
    rw [← Links.length_links_ofOffers, ← Links.length_links_ofOffers, howed] at hless
    exact Nat.lt_irrefl _ hless
  · intro hnone
    refine ⟨rows.map (Row.offer base), ?_, rfl⟩
    rw [List.forall₂_map_right_iff, List.forall₂_same]
    exact fun row hrow => Row.owes_offer_iff.2 (hnone row hrow)

end Queue

namespace Board

variable {b : Board}

theorem Reached.shares (h : b.Reached) : ∀ row ∈ b.queue.rows, row.Shares :=
  h.forall_rows (fun _ _ _ => Row.shares_ofReport) fun weight now event _ hrow =>
    hrow.hear weight now event

/-- In every state that is reached and for every selection, with its repetitions and in its order: there
is one offer for each number that is that of a row.  It is what is owed, except for a failed row that
overlooks a link, and nothing else can be owed for a row that has not failed.  A failed row has the
report of its failure, and the link to the node of that report is offered, or none.  The whole answer is
one of those that are owed exactly if no selected row overlooks a link. -/
theorem links_offered (reached : b.Reached) (base : String) (rows : List Nat) :
    let selected := rows.filterMap (b.queue.rows[·]?)
    let answer := b.queue.links base rows
    answer = .ofOffers (selected.map (Row.offer base))
      ∧ answer.links.length + answer.toExport.length = rows.countP (· < b.queue.size)
      ∧ (∀ row ∈ selected, row.Owes base (row.offer base) ↔ ¬row.Overlooks base)
      ∧ (∀ row ∈ selected, row.entry.phase ≠ .failed →
        ∀ owed, row.Owes base owed ↔ owed = row.offer base)
      ∧ (∀ row ∈ selected, row.entry.phase = .failed →
        ∃ r, row.retained = some r ∧ r.tag = row.tag
          ∧ (r.sharedNode.isSome = true → row.entry.sharedNode.isSome = true)
          ∧ ∀ text, row.offer base = .link text
            ↔ ∃ node, r.sharedNode = some node ∧ node.IsLink base text)
      ∧ ((∃ owed, List.Forall₂ (Row.Owes base) selected owed ∧ answer = .ofOffers owed)
        ↔ ∀ row ∈ selected, ¬row.Overlooks base) := by
  intro selected answer
  have hanswer : answer = .ofOffers (selected.map (Row.offer base)) := Queue.links_eq base rows b.queue
  refine ⟨hanswer, ?_, fun _ _ => Row.owes_offer_iff, fun _ _ hphase _ =>
    Row.owes_iff_of_ne_failed hphase, ?_, ?_⟩
  · rw [hanswer, Links.length_ofOffers, List.length_map]
    exact Queue.length_selected rows b.queue
  · intro row hrow hfailed
    obtain ⟨n, -, hat⟩ := List.mem_filterMap.1 hrow
    have hmem : row ∈ b.queue.rows := List.mem_of_getElem? hat
    have hkeeping := reached.keeping row hmem
    obtain ⟨r, hretained⟩ := Option.isSome_iff_exists.1 (hkeeping.isSome_iff.2 hfailed)
    refine ⟨r, hretained, hkeeping.tag_eq r hretained, reached.shares row hmem r hretained, ?_⟩
    intro text
    rw [Row.offer_of_failed hfailed, hretained]
    constructor
    · rintro ⟨r', hr', hnode⟩
      rwa [Option.some.inj hr']
    · exact fun hnode => ⟨r, rfl, hnode⟩
  · rw [hanswer]
    exact Queue.exists_owed_iff base selected

/-- The report of the start of a transfer of a file that is shared. -/
def sharedReport : Report :=
  { Report.bare 1 .download 5 10 with nodeHandle := 42, sharedNode := some ⟨7, "h7", some "k1"⟩ }

/-- The board when this transfer has failed, with a report that says nothing of the sharing. -/
def failedRow : Board :=
  (((new {} (.memory false)).hear .epoch (.started sharedReport)).state.hear .epoch
    (.finished { nextReport .failed 11 with nodeHandle := 42 } none)).state

/-- The entry still has the node with its link, but the node is to be exported: this is not what is
owed. -/
theorem links_offered_failedRow :
    failedRow.queue.links "https://mega.nz/" [0, 3, 0] = ⟨[42, 42], []⟩
      ∧ (∃ row, failedRow.queue.rows[0]? = some row
        ∧ ∃ node, row.Knows node ∧ node.IsLink "https://mega.nz/" "https://mega.nz/#!h7!k1")
      ∧ ¬∃ owed, List.Forall₂ (Row.Owes "https://mega.nz/")
          ([0, 3, 0].filterMap (failedRow.queue.rows[·]?)) owed
        ∧ failedRow.queue.links "https://mega.nz/" [0, 3, 0] = .ofOffers owed := by
  have reached : failedRow.Reached :=
    ⟨{}, .memory false, [.hear .epoch (.started sharedReport),
      .hear .epoch (.finished { nextReport .failed 11 with nodeHandle := 42 } none)], rfl⟩
  have hrow : (failedRow.queue.rows[0]?).map (fun row => (row.entry.phase, row.entry.sharedNode,
      row.retained.map Report.sharedNode)) = some (.failed, sharedReport.sharedNode, some none) := by
    decide +kernel
  obtain ⟨row, hat, hparts⟩ := Option.map_eq_some_iff.1 hrow
  obtain ⟨hfailed, hnode, hretained⟩ : row.entry.phase = .failed
      ∧ row.entry.sharedNode = sharedReport.sharedNode
      ∧ row.retained.map Report.sharedNode = some none := by
    simpa only [Prod.mk.injEq] using hparts
  have hlink : (⟨7, "h7", some "k1"⟩ : SharedNode).IsLink "https://mega.nz/" "https://mega.nz/#!h7!k1" :=
    SharedNode.link?_eq_some_iff.1 (by decide +kernel)
  have hoverlooks : row.Overlooks "https://mega.nz/" := by
    refine ⟨hfailed, ⟨_, hnode, _, hlink⟩, fun r hr node hshared => ?_⟩
    rw [hr, Option.map_some, hshared] at hretained
    cases hretained
  obtain ⟨-, -, -, -, -, howed⟩ := links_offered reached "https://mega.nz/" [0, 3, 0]
  refine ⟨by decide +kernel, ⟨row, hat, _, .inl hnode, hlink⟩, fun h => ?_⟩
  exact howed.1 h row (List.mem_filterMap.2 ⟨0, List.mem_cons_self, hat⟩) hoverlooks

end Board

end TransferQueue
