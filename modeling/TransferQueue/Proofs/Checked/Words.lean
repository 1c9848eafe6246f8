import Mathlib.Data.Fintype.Card
import Mathlib.Data.List.Nodup
import TransferQueue.Proofs.Rows

/-!
# Checked steps

The numbers of rows are words of sixty-four bits.  Here they are natural numbers, and each step that
calculates with them or goes to a row by its number is checked: a sum that is no word, a difference
below zero and a number beyond the rows are traps.  Where a checked operation comes to its end, no word
has wrapped on its way and no row was sought outside.

A queue shows each transfer once, and there are `2 ^ 32` names for transfers.  So the number of a row,
and what can be made of it in few steps, is always a word.

* `Checked`: what comes of checked steps;
* `Checked.add_toNat`, `Checked.sub_toNat`: sums and differences, compared with those of words;
* `Queue.size_lt_of_nodup`: how many rows there can be.
-/

namespace TransferQueue

/-- What can go wrong in a step. -/
inductive Trap where
  /-- A row that is sought is beyond the end. -/
  | outside
  /-- A number does not fit in a word. -/
  | wraps
deriving DecidableEq, Repr

/-- What comes of checked steps. -/
abbrev Checked (α : Type) := Except Trap α

namespace Checked

variable {α β : Type}

@[simp] theorem ok_bind (a : α) (f : α → Checked β) : ((.ok a : Checked α) >>= f) = f a := rfl

@[simp] theorem pure_eq (a : α) : (pure a : Checked α) = .ok a := rfl

/-! ## Numbers -/

/-- The sum of two words, unless it wraps. -/
def add (m n : Nat) : Checked Nat := if m + n < UInt64.size then .ok (m + n) else .error .wraps

/-- The difference of two words, unless it wraps. -/
def sub (m n : Nat) : Checked Nat := if n ≤ m then .ok (m - n) else .error .wraps

/-- The sum of two words, if there is one; to ask for it is no trap. -/
def add? (m n : Nat) : Option Nat := (add m n).toOption

/-- The difference of two words, if there is one; to ask for it is no trap. -/
def sub? (m n : Nat) : Option Nat := (sub m n).toOption

theorem add_eq {m n : Nat} (h : m + n < UInt64.size) : add m n = .ok (m + n) := if_pos h

theorem sub_eq {m n : Nat} (h : n ≤ m) : sub m n = .ok (m - n) := if_pos h

/-- A sum that is sought is within a bound if it is one. -/
theorem any_add?_iff {m n bound : Nat} (h : bound < UInt64.size) :
    (add? m n).any (· ≤ bound) = true ↔ m + n ≤ bound := by
  rw [add?, add]
  split
  · simp [Except.toOption]
  · simp only [Except.toOption, Option.any_none, Bool.false_eq_true, false_iff]
    omega

/-- A sum that is sought is beyond a bound, or is no word. -/
theorem all_add?_iff {m n bound : Nat} (h : bound < UInt64.size) :
    (add? m n).all (bound < ·) = true ↔ bound < m + n := by
  rw [add?, add]
  split
  · simp [Except.toOption]
  · simp only [Except.toOption, Option.all_none, true_iff]
    omega

/-- A sum is a trap exactly when that of the words wraps. -/
theorem add_toNat (x y : UInt64) :
    add x.toNat y.toNat = if x + y < x then .error .wraps else .ok (x + y).toNat := by
  have hsize : UInt64.size = 2 ^ 64 := rfl
  have hx := x.toNat_lt
  have hy := y.toNat_lt
  have hwrap := UInt64.toNat_add x y
  by_cases hsum : x.toNat + y.toNat < UInt64.size
  · rw [Nat.mod_eq_of_lt hsum] at hwrap
    have hup : ¬x + y < x := fun hlt => by
      have := UInt64.lt_iff_toNat_lt.1 hlt
      omega
    rw [add_eq hsum, if_neg hup, hwrap]
  · have hdown : x + y < x := UInt64.lt_iff_toNat_lt.2 (by omega)
    rw [add, if_neg hsum, if_pos hdown]

/-- A difference is a trap exactly when that of the words wraps. -/
theorem sub_toNat (x y : UInt64) :
    sub x.toNat y.toNat = if x < y then .error .wraps else .ok (x - y).toNat := by
  by_cases hle : y ≤ x
  · have hle' := UInt64.le_iff_toNat_le.1 hle
    rw [sub_eq hle', if_neg (UInt64.not_lt.2 hle), UInt64.toNat_sub_of_le x y hle]
  · have hlt := UInt64.not_le.1 hle
    rw [sub, if_neg fun h => hle (UInt64.le_iff_toNat_le.2 h), if_pos hlt]

/-! ## Rows -/

/-- The element with a number. -/
def fetch (as : List α) (n : Nat) : Checked α :=
  match as[n]? with
  | some a => .ok a
  | none => .error .outside

/-- The elements from `first` to `last`. -/
def slice (as : List α) (first last : Nat) : Checked (List α) :=
  if first ≤ last + 1 ∧ last < as.length then .ok ((as.drop first).take (last + 1 - first))
  else .error .outside

/-- The elements from `first` on and before `limit`, and the others. -/
def drain (as : List α) (first limit : Nat) : Checked (List α × List α) :=
  if first ≤ limit ∧ limit ≤ as.length then
    .ok ((as.drop first).take (limit - first), as.take first ++ as.drop limit)
  else .error .outside

/-- The list with one more element, which gets the number `n`. -/
def insertAt (as : List α) (n : Nat) (a : α) : Checked (List α) :=
  if n ≤ as.length then .ok (as.insertIdx n a) else .error .outside

/-- The list without the element with a number. -/
def removeAt (as : List α) (n : Nat) : Checked (List α) :=
  if n < as.length then .ok (as.eraseIdx n) else .error .outside

theorem fetch_eq {as : List α} {n : Nat} {a : α} (h : as[n]? = some a) : fetch as n = .ok a := by
  rw [fetch, h]

theorem slice_eq {as : List α} {first last : Nat} (hle : first ≤ last) (hlt : last < as.length) :
    slice as first last = .ok ((as.drop first).take (last + 1 - first)) :=
  if_pos ⟨by omega, hlt⟩

theorem drain_eq {as : List α} {first limit : Nat} (hle : first ≤ limit) (hlimit : limit ≤ as.length) :
    drain as first limit
      = .ok ((as.drop first).take (limit - first), as.take first ++ as.drop limit) :=
  if_pos ⟨hle, hlimit⟩

theorem insertAt_eq {as : List α} {n : Nat} (h : n ≤ as.length) (a : α) :
    insertAt as n a = .ok (as.insertIdx n a) := if_pos h

theorem removeAt_eq {as : List α} {n : Nat} (h : n < as.length) :
    removeAt as n = .ok (as.eraseIdx n) := if_pos h

end Checked

namespace Queue

/-- There is at most one row for each name of a transfer. -/
theorem size_lt_of_nodup {q : Queue} (h : q.tags.Nodup) : q.size < UInt64.size := by
  have hinj : Function.Injective fun tag : Tag => tag.toBitVec.toFin := by
    intro tag tag' heq
    exact Int32.toBitVec_inj.1 (BitVec.toFin_inj.1 heq)
  have hle := (h.map hinj).length_le_card
  rw [List.length_map, Fintype.card_fin] at hle
  calc q.size = q.tags.length := (List.length_map _).symm
    _ ≤ 2 ^ 32 := hle
    _ < UInt64.size := by decide

end Queue

end TransferQueue
