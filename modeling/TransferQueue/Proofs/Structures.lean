import TransferQueue.Json.Fields
import TransferQueue.Proofs.Spelling

/-!
# Structures read back

A structure is written as the object of its fields, in the order of its layout.  Each name stands there
once, so the fields are found again whatever their values are, and they are read one after the other.

* `Layout.fields?_ofMembers`: the fields of a structure that has been written;
* `Fields.bind_required`, `Fields.bind_optional`, `Fields.bind_withDefault`: how one field is read and handed on;
* `Value.uint64?_ofUInt64`, `Value.int64?_ofInt`, `Value.int32?_ofInt`: numbers read back over their full ranges;
* `Value.isWritten_ofMembers`: a structure reads back if the values of its fields do.
-/

namespace TransferQueue

namespace Json

/-! ## Finding the fields -/

namespace Layout

/-- Among members of different names, one is found by its name. -/
theorem member?_of_mem {members : List (String × Value)} (h : (members.map Prod.fst).Nodup)
    {name : String} {v : Value} (hmem : (name, v) ∈ members) :
    member? (members.map fun m => (some m.1, m.2)) name = some (some v) := by
  obtain ⟨before, after, rfl⟩ := List.append_of_mem hmem
  rw [List.map_append, List.map_cons] at h
  obtain ⟨hnew, -⟩ := List.nodup_cons.1 (List.perm_middle.nodup_iff.1 h)
  have hother : ∀ m ∈ before ++ after, m.1 ≠ name := by
    intro m hm heq
    rw [← List.map_append] at hnew
    exact hnew (List.mem_map.2 ⟨m, hm, heq⟩)
  have hnone : ∀ ms : List (String × Value), (∀ m ∈ ms, m.1 ≠ name) →
      (ms.map fun m => (some m.1, m.2)).filter (fun m => m.1 == some name) = [] := by
    intro ms hms
    rw [List.filter_eq_nil_iff, List.forall_mem_map]
    exact fun m hm => by simp [hms m hm]
  rw [member?, List.map_append, List.map_cons, List.filter_append, List.filter_cons_of_pos (by simp),
    hnone before fun m hm => hother m (List.mem_append_left _ hm),
    hnone after fun m hm => hother m (List.mem_append_right _ hm)]
  rfl

theorem mapM_eq_map {α β : Type} {f : α → Option β} {g : α → β} {as : List α}
    (h : ∀ a ∈ as, f a = some (g a)) : as.mapM f = some (as.map g) := by
  induction as with
  | nil => rfl
  | cons a as ih =>
    rw [List.forall_mem_cons] at h
    rw [List.mapM_cons, h.1, ih h.2]
    rfl

/-- A structure that is written as an object has the values of its fields again. -/
theorem fields?_ofMembers {layout : Layout} {members : List (String × Value)}
    (hnames : members.map Prod.fst = layout.names) (hnodup : layout.names.Nodup) :
    layout.fields? (.ofMembers members) = some (members.map fun m => some m.2) := by
  have hread : (members.map Prod.fst).mapM (member? (members.map fun m => (some m.1, m.2)))
      = some (members.map fun m => some m.2) := by
    rw [List.mapM_map]
    exact mapM_eq_map fun m hm => member?_of_mem (hnames ▸ hnodup) hm
  show layout.ofMembers? (members.map fun m => (some m.1, m.2)) = _
  rw [ofMembers?]
  split
  · rw [← hnames, hread]
  · -- every name is one of the layout
    rename_i hunknown
    refine absurd ?_ hunknown
    rw [List.all_eq_true, List.forall_mem_map]
    intro m hm
    have hmem : m.1 ∈ layout.names := hnames ▸ List.mem_map_of_mem hm
    simp [hmem]

end Layout

/-! ## Reading the fields -/

namespace Fields

variable {α β : Type} {layout : Layout} {fields : List (Option Value)}

theorem pure_eq (a : α) (fields : List (Option Value)) :
    (pure a : Fields α) fields = some (a, fields) := rfl

theorem bind_required (read : Value → Option α) (k : α → Fields β) (v : Value)
    (fields : List (Option Value)) :
    (required read >>= k) (some v :: fields) = (read v).bind fun a => k a fields := by
  cases h : read v <;>
    simp [required, next, bind, StateT.bind, h, liftM, monadLift, MonadLift.monadLift, StateT.lift]

theorem bind_optional (read : Value → Option α) (k : Option α → Fields β) (v : Value)
    (fields : List (Option Value)) :
    (optional read >>= k) (some v :: fields) = (v.option? read).bind fun a => k a fields := by
  cases h : v.option? read <;>
    simp [optional, next, bind, StateT.bind, h, liftM, monadLift, MonadLift.monadLift, StateT.lift]

theorem bind_withDefault (default : α) (read : Value → Option α) (k : α → Fields β) (v : Value)
    (fields : List (Option Value)) :
    (withDefault default read >>= k) (some v :: fields) = (read v).bind fun a => k a fields := by
  cases h : read v <;>
    simp [withDefault, next, bind, StateT.bind, h, liftM, monadLift, MonadLift.monadLift, StateT.lift]

/-- A structure is read when its fields are. -/
theorem run_eq {read : Fields α} {v : Value} (h : layout.fields? v = some fields) :
    run layout read v = (read fields).map Prod.fst := by
  rw [run, h]
  show (read fields).bind (fun r => some r.1) = _
  cases read fields <;> rfl

end Fields

namespace Value

/-! ## Reading numbers -/

@[simp] theorem int?_ofInt (n : Int) : (ofInt n).int? = some n := Numeral.toInt?_ofInt n

@[simp] theorem int?_ofNat (n : Nat) : (ofNat n).int? = some (n : Int) := Numeral.toInt?_ofNat n

@[simp] theorem uint64?_ofUInt64 (n : UInt64) : (ofUInt64 n).uint64? = some n := by
  rw [ofUInt64, uint64?, int?_ofNat, Option.bind_some, if_pos ⟨by omega, by simpa using n.toNat_lt_size⟩]
  simp

@[simp] theorem int64?_ofInt (n : Int64) : (ofInt n.toInt).int64? = some n := by
  rw [int64?, int?_ofInt, Option.bind_some, if_pos ⟨n.minValue_le_toInt, n.toInt_le⟩, n.ofInt_toInt]

@[simp] theorem int32?_ofInt (n : Int32) : (ofInt n.toInt).int32? = some n := by
  rw [int32?, int?_ofInt, Option.bind_some, if_pos ⟨n.minValue_le_toInt, n.toInt_le⟩, n.ofInt_toInt]

theorem uint32?_ofNat {n : Nat} (h : n < UInt32.size) : (ofNat n).uint32? = some n := by
  rw [uint32?, int?_ofNat, Option.bind_some, if_pos ⟨by omega, by simpa using h⟩]
  simp

@[simp] theorem string?_ofString (s : String) : (ofString s).string? = some s := rfl

@[simp] theorem bool?_bool (b : Bool) : (bool b).bool? = some b := rfl

/-- A value that may be absent reads back if it does when it is there, and is not written as `null`
then. -/
theorem option?_ofOption {α : Type} {read : Value → Option α} {write : α → Value} {a : Option α}
    (hread : ∀ b ∈ a, read (write b) = some b) (hnull : read .null = none) :
    (ofOption write a).option? read = some a := by
  cases a with
  | none => rfl
  | some b =>
    have hb := hread b rfl
    rw [ofOption]
    cases hwrite : write b with
    | null =>
      -- it would be taken for an absent one
      rw [hwrite, hnull] at hb
      cases hb
    | _ => rw [hwrite] at hb; simp [option?, hb]

/-! ## Writing -/

@[simp] theorem isWritten_bool (b : Bool) : (bool b).IsWritten := trivial

@[simp] theorem isWritten_ofString (s : String) : (ofString s).IsWritten := rfl

@[simp] theorem isWritten_ofNat (n : Nat) : (ofNat n).IsWritten := Numeral.isLiteral_ofNat n

@[simp] theorem isWritten_ofUInt64 (n : UInt64) : (ofUInt64 n).IsWritten := isWritten_ofNat n.toNat

@[simp] theorem isWritten_ofInt (n : Int) : (ofInt n).IsWritten := Numeral.isLiteral_ofInt n

theorem isWritten_ofOption {α : Type} {write : α → Value} (h : ∀ a, (write a).IsWritten)
    (a : Option α) : (ofOption write a).IsWritten := by
  cases a with
  | none => trivial
  | some a => exact h a

/-- A structure reads back if the values of its fields do. -/
theorem isWritten_ofMembers {members : List (String × Value)} (h : ∀ m ∈ members, m.2.IsWritten) :
    (ofMembers members).IsWritten := by
  show MembersWritten _
  induction members with
  | nil => trivial
  | cons m members ih =>
    rw [List.forall_mem_cons] at h
    exact ⟨rfl, h.1, ih h.2⟩

end Value

end Json

end TransferQueue
