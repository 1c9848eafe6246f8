import TransferQueue.Json.Printer
import TransferQueue.Proofs.Structures
import TransferQueue.Proofs.Timestamps
import TransferQueue.Wire.Entry
import TransferQueue.Wire.Report

/-!
# Reports and entries read back

What is written of a report or of an entry is read again as it was.  Each part has a lemma of its own
that says so, and one that says that its value reads back from a text; reports and entries are put
together from these.

The only condition is on the moment of the end: a year beyond four digits and a leap second are left
out.

* `Report.ofJson?_toJson`, `Entry.ofJson?_toJson`: the values of reports and entries;
* `messages_read_back`: their texts.
-/

namespace TransferQueue

open Json

/-! ## Names -/

namespace Direction

theorem ofJson?_toJson (d : Direction) : ofJson? d.toJson = some d := by
  cases d <;> rfl

theorem isWritten_toJson (d : Direction) : d.toJson.IsWritten := Value.isWritten_ofString d.name

end Direction

namespace Phase

theorem ofJson?_toJson (p : Phase) : ofJson? p.toJson = some p := by
  cases p <;> rfl

theorem isWritten_toJson (p : Phase) : p.toJson.IsWritten := Value.isWritten_ofString p.name

end Phase

namespace FileKind

theorem ofJson?_toJson (k : FileKind) : ofJson? k.toJson = some k := by
  cases k <;> rfl

theorem isWritten_toJson (k : FileKind) : k.toJson.IsWritten := Value.isWritten_ofString k.name

end FileKind

/-! ## Parts -/

namespace Lane

theorem ofJson?_toJson (lane : Lane) : ofJson? lane.toJson = some lane := by
  have hfields : layout.fields? lane.toJson
      = some [some lane.direction.toJson, some (.bool lane.sync)] :=
    Layout.fields?_ofMembers rfl (by decide)
  simp only [ofJson?, Fields.run_eq hfields, Fields.bind_required, Fields.pure_eq,
    Direction.ofJson?_toJson, Value.bool?_bool, Option.bind_some, Option.map_some]

theorem isWritten_toJson (lane : Lane) : lane.toJson.IsWritten :=
  Value.isWritten_ofMembers (by simp [Direction.isWritten_toJson])

end Lane

namespace Fault

theorem ofJson?_toJson (f : Fault) : ofJson? f.toJson = some f := by
  have hfields : layout.fields? f.toJson
      = some [some (.ofInt f.code.toInt), some (.ofInt f.value.toInt)] :=
    Layout.fields?_ofMembers rfl (by decide)
  simp only [ofJson?, Fields.run_eq hfields, Fields.bind_required, Fields.pure_eq, Value.int32?_ofInt,
    Value.int64?_ofInt, Option.bind_some, Option.map_some]

theorem isWritten_toJson (f : Fault) : f.toJson.IsWritten := Value.isWritten_ofMembers (by simp)

end Fault

namespace SharedNode

theorem ofJson?_toJson (node : SharedNode) : ofJson? node.toJson = some node := by
  have hfields : layout.fields? node.toJson
      = some [some (.ofUInt64 node.handle), some (.ofString node.linkHandle),
          some (.ofOption .ofString node.linkKey)] :=
    Layout.fields?_ofMembers rfl (by decide)
  have hkey : (Value.ofOption .ofString node.linkKey).option? Value.string? = some node.linkKey :=
    Value.option?_ofOption (fun _ _ => rfl) rfl
  simp only [ofJson?, Fields.run_eq hfields, Fields.bind_required, Fields.bind_optional,
    Fields.pure_eq, Value.uint64?_ofUInt64, Value.string?_ofString, hkey, Option.bind_some,
    Option.map_some]

theorem isWritten_toJson (node : SharedNode) : node.toJson.IsWritten := by
  have hkey : (Value.ofOption .ofString node.linkKey).IsWritten :=
    Value.isWritten_ofOption Value.isWritten_ofString node.linkKey
  exact Value.isWritten_ofMembers (by simp [hkey])

end SharedNode

namespace Span

/-- Nothing carries over when a span is put together from its own parts. -/
theorem ofParts?_parts (s : Span) : ofParts? s.seconds.toNat s.nanos = some s := by
  have hnanos := s.nanos_lt
  have hseconds := s.seconds.toNat_lt_size
  rw [ofParts?, Nat.div_eq_of_lt hnanos, Nat.add_zero, if_pos hseconds]
  simp only [UInt64.ofNat_toNat, Nat.mod_eq_of_lt hnanos]

theorem ofJson?_toJson (s : Span) : ofJson? s.toJson = some s := by
  have hfields : layout.fields? s.toJson = some [some (.ofUInt64 s.seconds), some (.ofNat s.nanos)] :=
    Layout.fields?_ofMembers rfl (by decide)
  -- less than a second of nanoseconds fits in the thirty-two bits that are read
  have hnanos : s.nanos < UInt32.size := Nat.lt_trans s.nanos_lt (by decide)
  simp only [ofJson?, Fields.run_eq hfields, Fields.bind_required, Value.uint64?_ofUInt64,
    Value.uint32?_ofNat hnanos, Option.bind_some, ofParts?_parts]
  rfl

theorem isWritten_toJson (s : Span) : s.toJson.IsWritten := Value.isWritten_ofMembers (by simp)

end Span

namespace Instant

theorem ofJson?_toJson {t : Instant} (hnanos : t.nanos < 1000000000) (hleast : 0 ≤ t.date.year)
    (hgreatest : t.date.year ≤ 9999) : ofJson? t.toJson = some t := by
  rw [ofJson?, toJson, Value.string?_ofString, Option.bind_some]
  exact ofText?_text hnanos hleast hgreatest

theorem isWritten_toJson (t : Instant) : t.toJson.IsWritten := Value.isWritten_ofString t.text

end Instant

/-! ## Parts that may be absent

An absent part is written as `null`, which no part that is there is read from. -/

namespace SharedNode

theorem option?_toJson (node : Option SharedNode) :
    (Value.ofOption toJson node).option? ofJson? = some node :=
  Value.option?_ofOption (fun node _ => node.ofJson?_toJson) rfl

end SharedNode

namespace Fault

theorem option?_toJson (f : Option Fault) : (Value.ofOption toJson f).option? ofJson? = some f :=
  Value.option?_ofOption (fun f _ => f.ofJson?_toJson) rfl

end Fault

namespace Span

theorem option?_toJson (s : Option Span) : (Value.ofOption toJson s).option? ofJson? = some s :=
  Value.option?_ofOption (fun s _ => s.ofJson?_toJson) rfl

end Span

/-! ## Reports -/

namespace Report

theorem ofJson?_toJson (r : Report) : ofJson? r.toJson = some r := by
  have hfields : layout.fields? r.toJson
      = some
        [some (.ofInt r.tag.toInt), some r.direction.toJson, some (.bool r.isSync),
          some (.bool r.isFolder), some (.bool r.isStreaming), some r.phase.toJson,
          some (.ofUInt64 r.priority), some (.ofUInt64 r.totalBytes), some (.ofUInt64 r.doneBytes),
          some (.ofUInt64 r.speed), some (.ofUInt64 r.meanSpeed), some (.ofInt r.startedAt.toInt),
          some (.ofInt r.updatedAt.toInt), some (.ofString r.fileName), some (.ofString r.path),
          some (.ofUInt64 r.parentHandle), some (.ofUInt64 r.nodeHandle),
          some (.ofOption SharedNode.toJson r.sharedNode), some (.ofOption Fault.toJson r.lastFault),
          some (.ofUInt64 r.number)] :=
    Layout.fields?_ofMembers rfl (by decide)
  simp only [ofJson?, Fields.run_eq hfields, Fields.bind_required, Fields.bind_optional,
    Fields.pure_eq, Value.int32?_ofInt, Value.int64?_ofInt, Value.uint64?_ofUInt64, Value.bool?_bool,
    Value.string?_ofString, Direction.ofJson?_toJson, Phase.ofJson?_toJson, SharedNode.option?_toJson,
    Fault.option?_toJson, Option.bind_some, Option.map_some]

theorem isWritten_toJson (r : Report) : r.toJson.IsWritten :=
  Value.isWritten_ofMembers
    (by simp [Direction.isWritten_toJson, Phase.isWritten_toJson,
      Value.isWritten_ofOption SharedNode.isWritten_toJson,
      Value.isWritten_ofOption Fault.isWritten_toJson])

end Report

/-! ## Entries -/

namespace Entry

theorem ofJson?_toJson {e : Entry}
    (hfinished : ∀ t ∈ e.finishedAt, t.nanos < 1000000000 ∧ 0 ≤ t.date.year ∧ t.date.year ≤ 9999) :
    ofJson? e.toJson = some e := by
  have hfields : layout.fields? e.toJson
      = some
        [some (.ofInt e.tag.toInt), some e.lane.toJson, some e.phase.toJson,
          some (.ofUInt64 e.priority), some (.ofUInt64 e.totalBytes), some (.ofUInt64 e.doneBytes),
          some (.ofUInt64 e.speed), some (.ofUInt64 e.meanSpeed),
          some (.ofOption Span.toJson e.timeLeft), some (.ofInt e.startedAt.toInt),
          some (.ofInt e.updatedAt.toInt), some (.ofOption Instant.toJson e.finishedAt),
          some (.ofOption Fault.toJson e.fault), some (.ofString e.fileName), some (.ofString e.path),
          some e.kind.toJson, some (.ofUInt64 e.parentHandle), some (.ofUInt64 e.nodeHandle),
          some (.ofOption SharedNode.toJson e.sharedNode)] :=
    Layout.fields?_ofMembers rfl (by decide)
  -- the end is the only part that does not read back whatever it is
  have hend : (Value.ofOption Instant.toJson e.finishedAt).option? Instant.ofJson?
      = some e.finishedAt := by
    refine Value.option?_ofOption (fun t ht => ?_) rfl
    obtain ⟨hnanos, hleast, hgreatest⟩ := hfinished t ht
    exact Instant.ofJson?_toJson hnanos hleast hgreatest
  simp only [ofJson?, Fields.run_eq hfields, Fields.bind_required, Fields.bind_optional,
    Fields.pure_eq, Value.int32?_ofInt, Value.int64?_ofInt, Value.uint64?_ofUInt64,
    Value.string?_ofString, Lane.ofJson?_toJson, Phase.ofJson?_toJson, FileKind.ofJson?_toJson,
    Span.option?_toJson, SharedNode.option?_toJson, Fault.option?_toJson, hend, Option.bind_some,
    Option.map_some]

theorem isWritten_toJson (e : Entry) : e.toJson.IsWritten :=
  Value.isWritten_ofMembers
    (by simp [Lane.isWritten_toJson, Phase.isWritten_toJson, FileKind.isWritten_toJson,
      Value.isWritten_ofOption Span.isWritten_toJson, Value.isWritten_ofOption Instant.isWritten_toJson,
      Value.isWritten_ofOption SharedNode.isWritten_toJson,
      Value.isWritten_ofOption Fault.isWritten_toJson])

end Entry

/-! ## Texts -/

/-- The text of any report is read again as that report, and so is the text of an entry that has not
come to its end, or has in a year of four digits and outside a leap second. -/
theorem messages_read_back :
    (∀ r : Report, (Value.parse? r.toJson.compact).bind Report.ofJson? = some r)
      ∧ ∀ e : Entry,
        (∀ t ∈ e.finishedAt, t.nanos < 1000000000 ∧ 0 ≤ t.date.year ∧ t.date.year ≤ 9999) →
        (Value.parse? e.toJson.compact).bind Entry.ofJson? = some e := by
  constructor
  · intro r
    rw [Value.parse?_compact r.isWritten_toJson]
    exact r.ofJson?_toJson
  · intro e hfinished
    rw [Value.parse?_compact e.isWritten_toJson]
    exact Entry.ofJson?_toJson hfinished

/-- A download that was cancelled on a leap day, a nanosecond before midnight. -/
def Entry.leapDay : Entry where
  tag := Int32.minValue
  lane := ⟨.download, true⟩
  phase := .cancelled
  priority := 18446744073709551615
  totalBytes := 9007199254740993
  doneBytes := 0
  speed := 0
  meanSpeed := 1
  timeLeft := some ⟨18446744073709551615, 999999999, by decide⟩
  startedAt := Int64.minValue
  updatedAt := Int64.maxValue
  finishedAt := some ⟨1709251199, 999999999, by decide⟩
  fault := some ⟨-9, -1⟩
  fileName := "a \"b\"\\\n\u0001 é 😀"
  path := ""
  kind := .other
  parentHandle := 0
  nodeHandle := 18446744073709551615
  sharedNode := some ⟨7, "q-_", some ""⟩

theorem messages_read_back_leapDay :
    (∀ t ∈ Entry.leapDay.finishedAt, t.nanos < 1000000000 ∧ 0 ≤ t.date.year ∧ t.date.year ≤ 9999)
      ∧ (Value.parse? Entry.leapDay.toJson.compact).bind Entry.ofJson? = some Entry.leapDay := by
  have hfinished : ∀ t ∈ Entry.leapDay.finishedAt,
      t.nanos < 1000000000 ∧ 0 ≤ t.date.year ∧ t.date.year ≤ 9999 := by
    intro t ht
    obtain rfl : ⟨1709251199, 999999999, by decide⟩ = t := Option.some.inj ht
    decide
  exact ⟨hfinished, messages_read_back.2 _ hfinished⟩

end TransferQueue
