import TransferQueue.Json.Parser
import TransferQueue.Json.Printer
import TransferQueue.Proofs.Literals

/-!
# Values read back

A text spells a list of tokens if it is made of their texts and of blanks, so that no token runs into
what is behind it.  Whatever the layout, a text is cut into the tokens that it spells; and the tokens
of a value build that value again.

* `Token.Spelling`, `Token.lex?_of_spelling`: what a text spells is what it is cut into;
* `Value.spelling_pretty`, `Value.spelling_compact`: the text of a value, with lines or without blanks,
  spells its tokens;
* `Value.ofTokens?_tokens`: the tokens of a value build it;
* `Value.parse?_pretty`, `Value.parse?_compact`: a value that is written in either way is read again.
-/

namespace TransferQueue

namespace Json

namespace Token

/-! ## Cutting a text -/

/-- A text is made of the texts of tokens and of blanks, and no token runs into what is behind it. -/
inductive Spelling : List Char → List Token → Prop where
  | nil : Spelling [] []
  | blank {c : Char} {cs : List Char} {ts : List Token} (hc : isBlank c = true)
      (h : Spelling cs ts) : Spelling (c :: cs) ts
  | token {t : Token} {cs : List Char} {ts : List Token} (ht : t.IsWritten) (hparts : t.Parts cs)
      (h : Spelling cs ts) : Spelling (t.text ++ cs) (t :: ts)

variable {cs : List Char} {ts : List Token}

theorem Spelling.blanks {bs : List Char} (hbs : ∀ c ∈ bs, isBlank c = true) (h : Spelling cs ts) :
    Spelling (bs ++ cs) ts := by
  induction bs with
  | nil => exact h
  | cons b bs ih =>
    rw [List.forall_mem_cons] at hbs
    exact .blank hbs.1 (ih hbs.2)

theorem Spelling.lexOnto?_eq (h : Spelling cs ts) (found : List Token) :
    lexOnto? found cs = some (found.reverse ++ ts) := by
  induction h generalizing found with
  | nil =>
    rw [lexOnto?]
    simp
  | blank hc h ih =>
    rw [lexOnto?, if_pos hc]
    exact ih found
  | @token t cs ts ht hparts h ih =>
    obtain ⟨c, more, htext, hblank⟩ := head_text ht
    have hread := read?_text ht hparts
    rw [htext, List.cons_append] at hread ⊢
    rw [lexOnto?, if_neg (by simp [hblank])]
    split
    · rename_i t' after hread'
      rw [hread] at hread'
      obtain ⟨rfl, rfl⟩ := Prod.mk.inj (Option.some.inj hread')
      rw [ih]
      simp
    · rename_i hnone
      rw [hread] at hnone
      exact absurd hnone (by simp)

/-- A text is cut into the tokens that it spells. -/
theorem lex?_of_spelling (h : Spelling cs ts) : lex? cs = some ts :=
  h.lexOnto?_eq []

end Token

namespace Value

open Token (Spelling)

mutual

/-- A value that reads back when it is written: its numbers are literals, and all its strings and names
are texts. -/
def IsWritten : Value → Prop
  | .number n => n.IsLiteral
  | .string content => content.isSome = true
  | .array items => ItemsWritten items
  | .object members => MembersWritten members
  | _ => True

/-- Items that read back when they are written. -/
def ItemsWritten : List Value → Prop
  | [] => True
  | v :: vs => IsWritten v ∧ ItemsWritten vs

/-- Members that read back when they are written. -/
def MembersWritten : List (Content × Value) → Prop
  | [] => True
  | (name, v) :: ms => name.isSome = true ∧ IsWritten v ∧ MembersWritten ms

end

/-! ## The layout with lines -/

theorem isBlank_of_mem_newline (level : Nat) : ∀ c ∈ newline level, Token.isBlank c = true := by
  intro c hc
  rcases List.mem_cons.1 hc with rfl | hc
  · rfl
  · rw [List.eq_of_mem_replicate hc]
    rfl

theorem ends_newline (level : Nat) (rest : List Char) : Numeral.Ends (newline level ++ rest) :=
  .cons (by decide) _

mutual

theorem spelling_prettyText : ∀ (v : Value) (level : Nat) {rest : List Char} {ts : List Token},
    v.IsWritten → Spelling rest ts → Numeral.Ends rest →
    Spelling (prettyText level v ++ rest) (v.tokens ++ ts)
  | .null, level, rest, ts, _, h, _ => .token (t := .null) trivial trivial h
  | .bool b, level, rest, ts, _, h, _ => .token (t := .bool b) trivial trivial h
  | .number n, level, rest, ts, hv, h, hrest => .token (t := .number n) hv hrest h
  | .string content, level, rest, ts, hv, h, _ => .token (t := .string content) hv trivial h
  | .array [], level, rest, ts, _, h, _ => by
    rw [prettyText, tokens, itemTokens]
    exact .token (t := .openArray) trivial trivial (.token (t := .closeArray) trivial trivial h)
  | .object [], level, rest, ts, _, h, _ => by
    rw [prettyText, tokens, memberTokens]
    exact .token (t := .openObject) trivial trivial (.token (t := .closeObject) trivial trivial h)
  | .array (v :: vs), level, rest, ts, hv, h, _ => by
    have hclose : Spelling (newline level ++ (']' :: rest)) (.closeArray :: ts) :=
      .blanks (isBlank_of_mem_newline level) (.token (t := .closeArray) trivial trivial h)
    have hitems := spelling_prettyItems (v :: vs) (level + 1) (by simpa [IsWritten] using hv) hclose
      (ends_newline level _)
    have hopen := Spelling.token (t := .openArray) trivial trivial
      (Spelling.blanks (isBlank_of_mem_newline (level + 1)) hitems)
    simpa [prettyText, tokens, Token.text] using hopen
  | .object (m :: ms), level, rest, ts, hv, h, _ => by
    have hclose : Spelling (newline level ++ ('}' :: rest)) (.closeObject :: ts) :=
      .blanks (isBlank_of_mem_newline level) (.token (t := .closeObject) trivial trivial h)
    have hmembers := spelling_prettyMembers (m :: ms) (level + 1) (by simpa [IsWritten] using hv) hclose
      (ends_newline level _)
    have hopen := Spelling.token (t := .openObject) trivial trivial
      (Spelling.blanks (isBlank_of_mem_newline (level + 1)) hmembers)
    simpa [prettyText, tokens, Token.text] using hopen

theorem spelling_prettyItems : ∀ (vs : List Value) (level : Nat) {rest : List Char} {ts : List Token},
    ItemsWritten vs → Spelling rest ts → Numeral.Ends rest →
    Spelling (prettyItems level vs ++ rest) (itemTokens vs ++ ts)
  | [], level, rest, ts, _, h, _ => h
  | [v], level, rest, ts, hvs, h, hrest => by
    rw [prettyItems, itemTokens]
    exact spelling_prettyText v level hvs.1 h hrest
  | v :: v' :: vs, level, rest, ts, hvs, h, hrest => by
    have hothers := spelling_prettyItems (v' :: vs) level hvs.2 h hrest
    have hcomma := Spelling.token (t := .comma) trivial trivial
      (Spelling.blanks (isBlank_of_mem_newline level) hothers)
    have hfirst := spelling_prettyText v level hvs.1 hcomma (.cons (by decide) _)
    simpa [prettyItems, itemTokens, Token.text] using hfirst

theorem spelling_prettyMembers : ∀ (ms : List (Content × Value)) (level : Nat) {rest : List Char}
    {ts : List Token}, MembersWritten ms → Spelling rest ts → Numeral.Ends rest →
    Spelling (prettyMembers level ms ++ rest) (memberTokens ms ++ ts)
  | [], level, rest, ts, _, h, _ => h
  | [(name, v)], level, rest, ts, hms, h, hrest => by
    have hvalue := spelling_prettyText v level hms.2.1 h hrest
    have hcolon := Spelling.token (t := .colon) trivial trivial (Spelling.blank (c := ' ') rfl hvalue)
    have hname := Spelling.token (t := .string name) hms.1 trivial hcolon
    simpa [prettyMembers, memberTokens, Token.text] using hname
  | (name, v) :: m :: ms, level, rest, ts, hms, h, hrest => by
    have hothers := spelling_prettyMembers (m :: ms) level hms.2.2 h hrest
    have hcomma := Spelling.token (t := .comma) trivial trivial
      (Spelling.blanks (isBlank_of_mem_newline level) hothers)
    have hvalue := spelling_prettyText v level hms.2.1 hcomma (.cons (by decide) _)
    have hcolon := Spelling.token (t := .colon) trivial trivial (Spelling.blank (c := ' ') rfl hvalue)
    have hname := Spelling.token (t := .string name) hms.1 trivial hcolon
    simpa [prettyMembers, memberTokens, Token.text] using hname

end

/-- The text of a value with lines spells the tokens of the value. -/
theorem spelling_pretty {v : Value} (hv : v.IsWritten) : Spelling (prettyText 0 v) v.tokens := by
  simpa using spelling_prettyText v 0 hv .nil Numeral.ends_nil

/-! ## The layout without blanks

Between two tokens there is nothing, but behind a number there is always a comma or a bracket, or nothing
at all. -/

mutual

theorem spelling_tokens : ∀ (v : Value) {rest : List Char} {ts : List Token},
    v.IsWritten → Spelling rest ts → Numeral.Ends rest →
    Spelling (v.tokens.flatMap Token.text ++ rest) (v.tokens ++ ts)
  | .null, rest, ts, _, h, _ => .token (t := .null) trivial trivial h
  | .bool b, rest, ts, _, h, _ => by
    simpa [tokens] using Spelling.token (t := .bool b) trivial trivial h
  | .number n, rest, ts, hv, h, hrest => by
    simpa [tokens] using Spelling.token (t := .number n) hv hrest h
  | .string content, rest, ts, hv, h, _ => by
    simpa [tokens] using Spelling.token (t := .string content) hv trivial h
  | .array vs, rest, ts, hv, h, _ => by
    have hclose := Spelling.token (t := .closeArray) trivial trivial h
    have hitems := spelling_itemTokens vs (by simpa [IsWritten] using hv) hclose (.cons (by decide) _)
    have hopen := Spelling.token (t := .openArray) trivial trivial hitems
    simpa [tokens, Token.text] using hopen
  | .object ms, rest, ts, hv, h, _ => by
    have hclose := Spelling.token (t := .closeObject) trivial trivial h
    have hmembers := spelling_memberTokens ms (by simpa [IsWritten] using hv) hclose
      (.cons (by decide) _)
    have hopen := Spelling.token (t := .openObject) trivial trivial hmembers
    simpa [tokens, Token.text] using hopen

theorem spelling_itemTokens : ∀ (vs : List Value) {rest : List Char} {ts : List Token},
    ItemsWritten vs → Spelling rest ts → Numeral.Ends rest →
    Spelling ((itemTokens vs).flatMap Token.text ++ rest) (itemTokens vs ++ ts)
  | [], rest, ts, _, h, _ => h
  | [v], rest, ts, hvs, h, hrest => by
    rw [itemTokens]
    exact spelling_tokens v hvs.1 h hrest
  | v :: v' :: vs, rest, ts, hvs, h, hrest => by
    have hothers := spelling_itemTokens (v' :: vs) hvs.2 h hrest
    have hcomma := Spelling.token (t := .comma) trivial trivial hothers
    have hfirst := spelling_tokens v hvs.1 hcomma (.cons (by decide) _)
    simpa [itemTokens, Token.text] using hfirst

theorem spelling_memberTokens : ∀ (ms : List (Content × Value)) {rest : List Char} {ts : List Token},
    MembersWritten ms → Spelling rest ts → Numeral.Ends rest →
    Spelling ((memberTokens ms).flatMap Token.text ++ rest) (memberTokens ms ++ ts)
  | [], rest, ts, _, h, _ => h
  | [(name, v)], rest, ts, hms, h, hrest => by
    have hvalue := spelling_tokens v hms.2.1 h hrest
    have hcolon := Spelling.token (t := .colon) trivial trivial hvalue
    have hname := Spelling.token (t := .string name) hms.1 trivial hcolon
    simpa [memberTokens, Token.text] using hname
  | (name, v) :: m :: ms, rest, ts, hms, h, hrest => by
    have hothers := spelling_memberTokens (m :: ms) hms.2.2 h hrest
    have hcomma := Spelling.token (t := .comma) trivial trivial hothers
    have hvalue := spelling_tokens v hms.2.1 hcomma (.cons (by decide) _)
    have hcolon := Spelling.token (t := .colon) trivial trivial hvalue
    have hname := Spelling.token (t := .string name) hms.1 trivial hcolon
    simpa [memberTokens, Token.text] using hname

end

/-- The text of a value without blanks spells the tokens of the value. -/
theorem spelling_compact {v : Value} (hv : v.IsWritten) :
    Spelling (v.tokens.flatMap Token.text) v.tokens := by
  simpa using spelling_tokens v hv .nil Numeral.ends_nil

/-! ## Building a value -/

theorem build?_cons (expected : Expectation) (stack : List Frame) (t : Token) (ts : List Token) :
    build? expected stack (t :: ts)
      = (step? expected stack t).bind fun next => build? next.1 next.2 ts := by
  rw [build?]
  cases step? expected stack t <;> rfl

/-- No value starts with the end of an array. -/
theorem start?_of_tokens (v : Value) (items : List Value) (stack : List Frame) :
    ∃ t ts, v.tokens = t :: ts
      ∧ step? .firstItem (.array items :: stack) t = step? .value (.array items :: stack) t := by
  cases v <;> exact ⟨_, _, rfl, by cases items <;> rfl⟩

/-- Where an item or the end of an array may come, an item is taken as a value. -/
theorem build?_firstItem {stack : List Frame} (v : Value) (vs : List Value) (ts : List Token) :
    build? .firstItem (.array [] :: stack) (itemTokens (v :: vs) ++ ts)
      = build? .value (.array [] :: stack) (itemTokens (v :: vs) ++ ts) := by
  obtain ⟨t, ts', htokens, hstep⟩ := start?_of_tokens v [] stack
  cases vs <;> simp only [itemTokens, htokens, List.cons_append, build?_cons, hstep]

/-- Where a name or the end of an object may come, a name is taken as one. -/
theorem build?_firstName {stack : List Frame} (m : Content × Value) (ms : List (Content × Value))
    (ts : List Token) :
    build? .firstName stack (memberTokens (m :: ms) ++ ts)
      = build? (.name []) stack (memberTokens (m :: ms) ++ ts) := by
  cases ms <;> simp only [memberTokens, List.cons_append, build?_cons] <;> rfl

mutual

theorem build?_tokens : ∀ (v : Value) (stack : List Frame) (ts : List Token),
    build? .value stack (v.tokens ++ ts) = build? (.after v) stack ts
  | .null, stack, ts => rfl
  | .bool b, stack, ts => rfl
  | .number n, stack, ts => rfl
  | .string content, stack, ts => rfl
  | .array [], stack, ts => rfl
  | .object [], stack, ts => rfl
  | .array (v :: vs), stack, ts => by
    have hitems := build?_itemTokens (v :: vs) [] stack ts (by simp)
    simp only [tokens, List.cons_append, List.append_assoc, List.nil_append, build?_cons]
    exact (build?_firstItem v vs _).trans hitems
  | .object (m :: ms), stack, ts => by
    have hmembers := build?_memberTokens (m :: ms) [] stack ts (by simp)
    simp only [tokens, List.cons_append, List.append_assoc, List.nil_append, build?_cons]
    exact (build?_firstName m ms _).trans hmembers

theorem build?_itemTokens : ∀ (vs items : List Value) (stack : List Frame) (ts : List Token),
    vs ≠ [] → build? .value (.array items :: stack) (itemTokens vs ++ .closeArray :: ts)
      = build? (.after (.array (items.reverse ++ vs))) stack ts
  | [], _, _, _, hne => absurd rfl hne
  | [v], items, stack, ts, _ => by
    rw [itemTokens, build?_tokens v, build?_cons]
    simp [step?]
  | v :: v' :: vs, items, stack, ts, _ => by
    rw [itemTokens, List.append_assoc, build?_tokens v, List.cons_append, build?_cons]
    exact (build?_itemTokens (v' :: vs) (v :: items) stack ts (by simp)).trans (by simp)

theorem build?_memberTokens : ∀ (ms members : List (Content × Value)) (stack : List Frame)
    (ts : List Token), ms ≠ [] →
    build? (.name members) stack (memberTokens ms ++ .closeObject :: ts)
      = build? (.after (.object (members.reverse ++ ms))) stack ts
  | [], _, _, _, hne => absurd rfl hne
  | [(name, v)], members, stack, ts, _ => by
    simp only [memberTokens, List.cons_append, build?_cons]
    refine (build?_tokens v (.object members name :: stack) _).trans ?_
    rw [build?_cons]
    simp [step?]
  | (name, v) :: m :: ms, members, stack, ts, _ => by
    simp only [memberTokens, List.cons_append, List.append_assoc, build?_cons]
    refine (build?_tokens v (.object members name :: stack) _).trans ?_
    rw [build?_cons]
    exact (build?_memberTokens (m :: ms) ((name, v) :: members) stack ts (by simp)).trans (by simp)

end

/-- The tokens of a value build it. -/
theorem ofTokens?_tokens (v : Value) : ofTokens? v.tokens = some v := by
  simpa [ofTokens?, build?] using build?_tokens v [] []

/-- A value that is written without blanks is read again. -/
theorem parse?_compact {v : Value} (hv : v.IsWritten) : parse? v.compact = some v := by
  rw [parse?, compact, String.toList_ofList, Token.lex?_of_spelling (spelling_compact hv)]
  exact ofTokens?_tokens v

/-- A value that is written with lines is read again. -/
theorem parse?_pretty {v : Value} (hv : v.IsWritten) : parse? v.pretty = some v := by
  rw [parse?, pretty, String.toList_ofList, Token.lex?_of_spelling (spelling_pretty hv)]
  exact ofTokens?_tokens v

end Value

end Json

end TransferQueue
