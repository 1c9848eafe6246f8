import TransferQueue.Json.Token
import TransferQueue.Proofs.Decimals
import TransferQueue.Proofs.Digits

/-!
# Literals read back

What is written of a number or of a text is read again as it was, whatever stands behind it.  For a
number this takes two things: its digits must make a literal, and what stands behind it must not go
on with it.

* `Numeral.IsLiteral`: the numerals whose texts are numbers of JSON;
* `Numeral.read?_text`, `Quoted.read?_text`, `Token.read?_text`: numbers, texts and tokens read back;
* `Numeral.isLiteral_ofFloat?`: the literals of doubles are literals.
-/

namespace TransferQueue

namespace Json

/-! ## Numbers -/

namespace Numeral

/-- A numeral whose text is a number of JSON: it has a whole part, which starts with a zero only if
that is all of it, and the exponent, if there is one, has digits. -/
structure IsLiteral (n : Numeral) : Prop where
  whole : n.whole ≠ []
  leading : n.whole.head? = some Digit.zero → n.whole.length = 1
  exponent : ∀ e ∈ n.exponent, e.digits ≠ []

/-- A text that does not go on with a number that ends before it. -/
def Ends (rest : List Char) : Prop :=
  ∀ c ∈ rest.head?, Digit.ofChar? c = none ∧ c ≠ '.' ∧ c ≠ 'e' ∧ c ≠ 'E'

theorem ends_nil : Ends [] := by simp [Ends]

theorem Ends.cons {c : Char} (h : Digit.ofChar? c = none ∧ c ≠ '.' ∧ c ≠ 'e' ∧ c ≠ 'E')
    (rest : List Char) : Ends (c :: rest) := by
  simpa [Ends] using h

variable {rest : List Char}

/-- The text of an exponent, if there is one. -/
def exponentText (e : Option Exponent) : List Char :=
  match e with
  | none => []
  | some e => e.text

/-- The text of a fraction, if there is one. -/
def fractionText (fraction : List Digit) : List Char :=
  if fraction.isEmpty then [] else '.' :: Digit.text fraction

theorem readExponent?_text {e : Option Exponent} (he : ∀ e' ∈ e, e'.digits ≠ [])
    (hrest : Ends rest) : readExponent? (exponentText e ++ rest) = some (e, rest) := by
  rcases e with _ | ⟨negative, digits⟩
  · rcases rest with _ | ⟨c, cs⟩
    · rfl
    · obtain ⟨-, -, hsmall, hbig⟩ := hrest c rfl
      simp [exponentText, readExponent?, hsmall, hbig]
  · have hspan : Digit.span (Digit.text digits ++ rest) = (digits, rest) :=
      Digit.span_text_append digits fun c hc => (hrest c hc).1
    have hne : digits ≠ [] := he _ rfl
    have hsign : exponentSign ((if negative then '-' else '+') :: (Digit.text digits ++ rest))
        = (negative, Digit.text digits ++ rest) := by
      cases negative <;> rfl
    simp only [exponentText, Exponent.text, List.cons_append, readExponent?, true_or, if_true, hsign,
      hspan]
    simp [hne]

theorem readFraction?_text (fraction : List Digit) {cs : List Char}
    (hcs : ∀ c ∈ cs.head?, Digit.ofChar? c = none ∧ c ≠ '.') :
    readFraction? (fractionText fraction ++ cs) = some (fraction, cs) := by
  rcases fraction with _ | ⟨d, ds⟩
  · rcases cs with _ | ⟨c, cs⟩
    · rfl
    · have hpoint : c ≠ '.' := (hcs c rfl).2
      simp only [fractionText, List.isEmpty_nil, if_true, List.nil_append]
      rw [readFraction?]
      simp [hpoint]
  · have hspan : Digit.span (Digit.text (d :: ds) ++ cs) = (d :: ds, cs) :=
      Digit.span_text_append (d :: ds) fun c hc => (hcs c hc).1
    simp [fractionText, readFraction?, hspan]

/-- Neither an exponent nor what stands behind the number goes on with the digits. -/
theorem head?_exponentText (e : Option Exponent) (hrest : Ends rest) :
    ∀ c ∈ (exponentText e ++ rest).head?, Digit.ofChar? c = none ∧ c ≠ '.' := by
  intro c hc
  rcases e with _ | e
  · exact ⟨(hrest c hc).1, (hrest c hc).2.1⟩
  · simp only [exponentText, Exponent.text, List.cons_append, List.head?_cons, Option.mem_some_iff]
      at hc
    subst hc
    decide

theorem head?_fractionText (fraction : List Digit) {cs : List Char}
    (hcs : ∀ c ∈ cs.head?, Digit.ofChar? c = none ∧ c ≠ '.') :
    ∀ c ∈ (fractionText fraction ++ cs).head?, Digit.ofChar? c = none := by
  intro c hc
  rcases fraction with _ | ⟨d, ds⟩
  · exact (hcs c hc).1
  · simp only [fractionText, List.isEmpty_cons, Bool.false_eq_true, if_false, List.cons_append,
      List.head?_cons, Option.mem_some_iff] at hc
    subst hc
    decide

theorem text_eq (n : Numeral) :
    n.text = (if n.negative then ['-'] else [])
      ++ (Digit.text n.whole ++ (fractionText n.fraction ++ exponentText n.exponent)) := by
  obtain ⟨negative, whole, fraction, exponent⟩ := n
  cases exponent <;> simp [text, fractionText, exponentText]

theorem toChar_ne_minus : ∀ d : Digit, d.toChar ≠ '-' := by decide

/-- A number that is written is read again, if what follows does not go on with it. -/
theorem read?_text {n : Numeral} (hn : n.IsLiteral) (hrest : Ends rest) :
    read? (n.text ++ rest) = some (n, rest) := by
  obtain ⟨negative, whole, fraction, exponent⟩ := n
  obtain ⟨hwhole, hleading, hexponent⟩ := hn
  have hbehind := head?_exponentText exponent hrest
  have hspan : Digit.span (Digit.text whole ++ (fractionText fraction ++ (exponentText exponent ++ rest)))
      = (whole, fractionText fraction ++ (exponentText exponent ++ rest)) :=
    Digit.span_text_append whole (head?_fractionText fraction hbehind)
  have hunsigned : ∀ negative, readUnsigned? negative
      (Digit.text whole ++ (fractionText fraction ++ (exponentText exponent ++ rest)))
      = some (⟨negative, whole, fraction, exponent⟩, rest) := by
    intro negative
    have hok : ¬ ((whole.isEmpty || (whole.head? == some Digit.zero && whole.length ≠ 1)) = true) := by
      simp only [Bool.or_eq_true, List.isEmpty_iff, Bool.and_eq_true, beq_iff_eq, decide_eq_true_eq,
        not_or, not_and, not_not]
      exact ⟨hwhole, hleading⟩
    simp only [readUnsigned?, hspan, if_neg hok, readFraction?_text fraction hbehind,
      readExponent?_text hexponent hrest]
  rw [text_eq]
  simp only [List.append_assoc]
  cases negative with
  | true => exact hunsigned true
  | false =>
    -- a digit is no sign
    obtain ⟨d, ds, rfl⟩ := List.exists_cons_of_ne_nil hwhole
    refine Eq.trans ?_ (hunsigned false)
    have hsign : d.toChar ≠ '-' := toChar_ne_minus d
    simp only [Bool.false_eq_true, if_false, List.nil_append, Digit.text, List.map_cons,
      List.cons_append]
    rw [read?]
    simp [hsign]

/-! ### Which numerals are literals -/

/-- Only the number zero starts with a zero. -/
theorem head?_ofNat {n : Nat} (h : (Digit.ofNat n).head? = some Digit.zero) : n = 0 := by
  induction n using Nat.strongRecOn with
  | _ n ih =>
    rw [Digit.ofNat] at h
    split at h
    · simpa [Digit.zero, Fin.ext_iff] using h
    · rename_i hlarge
      obtain ⟨d, ds, hdigits⟩ := List.exists_cons_of_ne_nil (Digit.ofNat_ne_nil (n / 10))
      have hzero := ih (n / 10) (by omega) (by simpa [hdigits] using h)
      omega

theorem ofNat_zero : Digit.ofNat 0 = [Digit.zero] := by
  rw [Digit.ofNat]
  rfl

/-- The digits of a number make a whole part. -/
theorem isLiteral_of_whole {n : Numeral} {k : Nat} (hwhole : n.whole = Digit.ofNat k)
    (hexponent : ∀ e ∈ n.exponent, e.digits ≠ []) : n.IsLiteral where
  whole := by
    rw [hwhole]
    exact Digit.ofNat_ne_nil k
  leading := fun hzero => by
    rw [hwhole] at hzero ⊢
    rw [head?_ofNat hzero, ofNat_zero]
    rfl
  exponent := hexponent

theorem isLiteral_ofNat (n : Nat) : (ofNat n).IsLiteral :=
  isLiteral_of_whole rfl (by simp [ofNat])

theorem isLiteral_ofInt (n : Int) : (ofInt n).IsLiteral :=
  isLiteral_of_whole rfl (by simp [ofInt])

/-- The literal of a decimal number, unless that is zero with a power of ten. -/
theorem isLiteral_ofScaled (negative : Bool) {d : Scaled} (hd : d.digits = 0 → d.exponent = 0) :
    (ofScaled negative d).IsLiteral := by
  have hne := Digit.ofNat_ne_nil d.digits
  obtain ⟨first, others, hdigits⟩ := List.exists_cons_of_ne_nil hne
  -- a leading zero stands alone
  have hzero : first = Digit.zero → others = [] ∧ d.exponent = 0 := by
    rintro rfl
    have hnone : d.digits = 0 := head?_ofNat (by rw [hdigits]; rfl)
    rw [hnone, ofNat_zero] at hdigits
    exact ⟨(List.cons.inj hdigits).2.symm, hd hnone⟩
  rw [ofScaled]
  simp only [hdigits, List.length_cons]
  split
  · exact ⟨by simp, by simp, by simp [Exponent.ofInt, Digit.ofNat_ne_nil]⟩
  · split
    · exact ⟨by simp, by simp, by simp⟩
    · refine ⟨by simp, fun hhead => ?_, by simp⟩
      simp only [List.cons_append, List.take_succ_cons, List.head?_cons, Option.some.injEq] at hhead
      obtain ⟨rfl, hexponent⟩ := hzero hhead
      simp [hexponent]

/-- The literal of a double. -/
theorem isLiteral_ofFloat? {x : Float} {n : Numeral} (h : ofFloat? x = some n) : n.IsLiteral := by
  obtain ⟨m, -, rfl⟩ := Option.map_eq_some_iff.1 h
  refine isLiteral_ofScaled _ fun hzero => ?_
  by_cases hm : m.mantissa = 0
  · rw [Scaled.shortest, if_pos hm]
  · exact absurd hzero (Scaled.digits_ne_zero_shortest hm)

end Numeral

/-! ## Texts -/

namespace Quoted

variable {rest : List Char}

theorem hex4?_hexDigit : ∀ n : Fin 32,
    hex4? '0' '0' (hexDigit (n.val / 16)) (hexDigit (n.val % 16)) = some n.val := by decide

/-- A character that is written is read again. -/
theorem read?_escape (points : List Nat) (c : Char) (rest : List Char) :
    read? points (escape c ++ rest) = read? (c.toNat :: points) rest := by
  rw [escape]
  split
  · subst_vars; rfl
  split
  · subst_vars; rfl
  split
  · subst_vars; rfl
  split
  · subst_vars; rfl
  split
  · subst_vars; rfl
  split
  · subst_vars; rfl
  split
  · subst_vars; rfl
  split
  · rename_i hcontrol
    have hhex := hex4?_hexDigit ⟨c.toNat, hcontrol⟩
    simp only at hhex
    simp only [List.cons_append, List.nil_append]
    rw [read?, hhex]
  · rename_i hquote hbackslash _ _ _ _ _ hcontrol
    simp only [List.cons_append, List.nil_append]
    rw [read?.eq_def]
    split <;> simp_all

theorem read?_flatMap_escape (points : List Nat) (cs rest : List Char) :
    read? points (cs.flatMap escape ++ '"' :: rest)
      = some (points.reverse ++ cs.map Char.toNat, rest) := by
  induction cs generalizing points with
  | nil => simp [read?]
  | cons c cs ih =>
    rw [List.flatMap_cons, List.append_assoc, read?_escape, ih]
    simp

/-- No character is half of a surrogate pair. -/
theorem not_half (c : Char) : isHigh c.toNat = false ∧ isLow c.toNat = false := by
  have hvalid := c.valid
  simp only [UInt32.isValidChar, Nat.isValidChar] at hvalid
  have hnat : c.toNat = c.val.toNat := rfl
  constructor
  · simp only [isHigh, Bool.and_eq_false_iff, decide_eq_false_iff_not]
    omega
  · simp only [isLow, Bool.and_eq_false_iff, decide_eq_false_iff_not]
    omega

/-- The code points of characters make these characters again. -/
theorem join?_map_toNat (found cs : List Char) :
    join? found (cs.map Char.toNat) = some (found.reverse ++ cs) := by
  induction cs generalizing found with
  | nil => simp [join?]
  | cons c cs ih =>
    obtain ⟨hhigh, hlow⟩ := not_half c
    rcases cs with _ | ⟨d, ds⟩
    · simp [join?, hhigh, hlow, Char.ofNat_toNat]
    · have hnext := ih (c :: found)
      rw [List.map_cons] at hnext
      simp only [List.map_cons, join?, hhigh, hlow, Bool.false_and, Bool.or_self,
        Bool.false_eq_true, if_false, Char.ofNat_toNat]
      rw [hnext]
      simp

/-- A text that is written between quotes is read again. -/
theorem read?_text (s : String) (rest : List Char) :
    ∃ cs, text s ++ rest = '"' :: cs
      ∧ ∃ points, read? [] cs = some (points, rest) ∧ content points = some s := by
  refine ⟨s.toList.flatMap escape ++ '"' :: rest, by simp [text], s.toList.map Char.toNat, ?_, ?_⟩
  · exact read?_flatMap_escape [] s.toList rest
  · rw [content, join?_map_toNat]
    simp

end Quoted

/-! ## Tokens -/

namespace Token

variable {rest : List Char}

/-- A token whose text reads back: its number, if it is one, makes a literal, and its content, if it
has one, is a text. -/
def IsWritten : Token → Prop
  | .number n => n.IsLiteral
  | .string content => content.isSome = true
  | _ => True

/-- What must hold of the text behind a token, lest it go on with the token. -/
def Parts : Token → List Char → Prop
  | .number _, rest => Numeral.Ends rest
  | _, _ => True

/-- A token that starts with a sign or a digit is a number. -/
theorem read?_of_number {c : Char} {cs : List Char} (h : c = '-' ∨ Digit.ofChar? c ≠ none) :
    read? (c :: cs) = (Numeral.read? (c :: cs)).map fun r => (.number r.1, r.2) := by
  rw [read?.eq_def]
  split
  case h_11 => rfl
  all_goals
    rename_i heq
    obtain ⟨rfl, -⟩ := List.cons.inj heq
    exact absurd h (by decide)

theorem head_number {n : Numeral} (hn : n.IsLiteral) :
    ∃ c cs, n.text = c :: cs ∧ (c = '-' ∨ Digit.ofChar? c ≠ none) := by
  obtain ⟨d, ds, hdigits⟩ := List.exists_cons_of_ne_nil hn.whole
  rw [Numeral.text_eq]
  cases n.negative with
  | true => exact ⟨_, _, rfl, .inl rfl⟩
  | false =>
    rw [hdigits]
    exact ⟨_, _, rfl, .inr (by simp [Digit.ofChar?_toChar])⟩

/-- A token that is written is read again, if what follows does not go on with it. -/
theorem read?_text {t : Token} (ht : t.IsWritten) (hrest : t.Parts rest) :
    read? (t.text ++ rest) = some (t, rest) := by
  cases t with
  | number n =>
    obtain ⟨c, cs, htext, hhead⟩ := head_number ht
    have hread := Numeral.read?_text ht hrest
    rw [text]
    rw [htext, List.cons_append] at hread ⊢
    rw [read?_of_number hhead, hread]
    rfl
  | string content =>
    obtain ⟨s, rfl⟩ := Option.isSome_iff_exists.1 ht
    obtain ⟨cs, htext, points, hread, hcontent⟩ := Quoted.read?_text s rest
    rw [text, Option.getD_some, htext]
    simp only [read?, hread, Option.map_some, hcontent]
  | bool b => cases b <;> rfl
  | _ => rfl

/-- The text of a token starts with a character that is no blank. -/
theorem head_text {t : Token} (ht : t.IsWritten) :
    ∃ c cs, t.text = c :: cs ∧ isBlank c = false := by
  cases t with
  | number n =>
    obtain ⟨c, cs, htext, hhead⟩ := head_number ht
    refine ⟨c, cs, htext, ?_⟩
    rcases hblank : isBlank c with _ | _
    · rfl
    · -- blanks are neither signs nor digits
      simp only [isBlank, Bool.or_eq_true, decide_eq_true_eq] at hblank
      rcases hblank with ((rfl | rfl) | rfl) | rfl <;> exact absurd hhead (by decide)
  | bool b => cases b <;> exact ⟨_, _, rfl, rfl⟩
  | _ => exact ⟨_, _, rfl, rfl⟩

end Token

end Json

end TransferQueue
