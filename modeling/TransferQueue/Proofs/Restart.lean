import TransferQueue.Config.Store
import TransferQueue.Proofs.Rereading
import TransferQueue.Proofs.Structures

/-!
# A configuration after a restart

A store writes its configuration whenever that changes, and a new store at the same place reads it.  In
between there are only the bytes of the file, so what holds after each request is that they stand for the
configuration, or for what it becomes when it is written and read.  All of a configuration but its weight
becomes what it was; a weight that is not finite cannot be written, and takes all the rest with it.

* `Config.ofText_text`: what the text of a configuration stands for;
* `Store.Kept`: what holds of a store, after it was opened and after each request;
* `Store.survives_restart`: what a new store starts with.
-/

namespace TransferQueue

open Json

namespace Config

/-- What becomes of a configuration when it is written and read. -/
def reread (c : Config) : Config :=
  match reread? c.paceWeight with
  | some paceWeight => { c with paceWeight }
  | none => {}

theorem isWritten_ofFloat (x : Float) : (Value.ofFloat x).IsWritten := by
  rw [Value.ofFloat]
  split
  · rename_i n hn
    exact Numeral.isLiteral_ofFloat? hn
  · trivial

theorem isWritten_toJson (c : Config) : c.toJson.IsWritten :=
  Value.isWritten_ofMembers (by simp [isWritten_ofFloat])

theorem ofJson?_toJson (c : Config) :
    ofJson? c.toJson = (reread? c.paceWeight).map fun paceWeight => { c with paceWeight } := by
  have hfields : layout.fields? c.toJson
      = some [some (.bool c.paused), some (.ofUInt64 c.rowsPerChunk), some (.ofFloat c.paceWeight),
          some (.ofString c.linkBase)] :=
    Layout.fields?_ofMembers rfl (by decide)
  simp only [ofJson?, Fields.run_eq hfields, Fields.bind_withDefault, Fields.pure_eq, Value.bool?_bool,
    Value.uint64?_ofUInt64, Value.string?_ofString, Option.bind_some, reread?]
  cases (Value.ofFloat c.paceWeight).float? <;> rfl

/-- The text of a configuration stands for what it becomes. -/
theorem ofText_text (c : Config) : ofText c.text = c.reread := by
  rw [ofText, text, Value.parse?_pretty c.isWritten_toJson, Option.bind_some, ofJson?_toJson, reread]
  cases reread? c.paceWeight <;> rfl

/-- What is left of a configuration: all but the weight if that is finite, and the weight too if it is read as
it is written, as one with a short decimal is. -/
structure Survives (old new : Config) : Prop where
  finite : (Magnitude.ofFloat? old.paceWeight).isSome → new = { old with paceWeight := new.paceWeight }
  kept : reread? old.paceWeight = some old.paceWeight → new = old
  short : ∀ m ∈ Magnitude.ofFloat? old.paceWeight, (Scaled.shortest m).IsShort → new = old

theorem survives_self (c : Config) : c.Survives c := ⟨fun _ => rfl, fun _ => rfl, fun _ _ _ => rfl⟩

theorem survives_reread (c : Config) : c.Survives c.reread where
  finite hfinite := by
    obtain ⟨paceWeight, hread⟩ := Option.isSome_iff_exists.1 (isSome_reread? hfinite)
    rw [reread, hread]
  kept hread := by
    rw [reread, hread]
  short m hm hshort := by
    rw [reread, reread?_of_short hm hshort]

/-- A weight that is not finite is written as nothing that could be read, and the defaults are read. -/
theorem reread_of_not_finite {c : Config} (h : Magnitude.ofFloat? c.paceWeight = none) : c.reread = {} := by
  rw [reread, reread?_of_not_finite h]

end Config

/-- Something that is asked of a store. -/
inductive Request where
  /-- The configuration is to change. -/
  | update (config : Config)
  /-- The wish to pause all transfers is to change. -/
  | setPaused (paused : Bool)

/-- Whether a request is one to change the configuration, which is always written. -/
def Request.isUpdate : Request → Bool
  | .update _ => true
  | .setPaused _ => false

namespace Store

variable {place : Place} {s : Store}

/-- The store after a request. -/
def ask (s : Store) : Request → Store
  | .update config => (s.update config).1
  | .setPaused paused => s.setPaused paused

/-- The store after requests, one after the other. -/
def askAll (s : Store) (requests : List Request) : Store := requests.foldl ask s

theorem text?_toUTF8 (text : String) : (Place.file text.toUTF8).text? = some text := by
  show String.fromUTF8? text.toByteArray = some text
  rw [String.fromUTF8?, dif_pos text.isValidUTF8]
  rfl

/-- A file that was opened can be written. -/
theorem update_of_file {content : ByteArray} (h : s.place = .file content) (config : Config) :
    s.update config = (⟨config, .file config.text.toUTF8⟩, .ok ()) := by
  simp only [update, trySave, save, h, Place.write]
  rfl

/-- What holds of a store that was opened, and after each request: its place is a file, whose text
stands for the configuration, or for what that becomes when it is written and read. -/
structure Kept (s : Store) (written : Bool) : Prop where
  file : ∃ content, s.place = .file content
  config : ∃ text, s.place.text? = some text
    ∧ (.ofText text = s.config.reread ∨ written = false ∧ .ofText text = s.config)

theorem kept_of_written (config : Config) (written : Bool) :
    Kept ⟨config, .file config.text.toUTF8⟩ written where
  file := ⟨_, rfl⟩
  config := ⟨config.text, text?_toUTF8 _, .inl config.ofText_text⟩

/-- What was opened is kept, whether there was a file or the defaults were written. -/
theorem kept_of_ofPlace (h : ofPlace place = .ok s) : Kept s false := by
  rw [ofPlace] at h
  split at h
  · split at h
    · rename_i text htext
      obtain rfl := Except.ok.inj h
      rcases place with _ | _ | _ | _ | content | _
      case file => exact ⟨⟨content, rfl⟩, text, htext, .inr ⟨rfl, rfl⟩⟩
      all_goals simp [Place.text?] at htext
    · simp at h
  · rcases hwrite : place.write (Config.text {}) with e | place'
    · simp [save, hwrite, bind, Except.bind] at h
    · -- wherever a file can be written, it is the defaults that stand there then
      have hplace : place' = .file (Config.text {}).toUTF8 := by
        cases place <;> simp_all [Place.write]
      have hstore : s = ⟨{}, .file (Config.text {}).toUTF8⟩ := by
        simpa [save, hwrite, bind, Except.bind, pure, Except.pure, hplace, eq_comm] using h
      rw [hstore]
      exact kept_of_written {} false

theorem Kept.ask {written : Bool} (h : Kept s written) (request : Request) :
    Kept (s.ask request) (written || request.isUpdate) := by
  obtain ⟨content, hfile⟩ := h.file
  cases request with
  | update config =>
    rw [Store.ask, update_of_file hfile]
    exact kept_of_written config _
  | setPaused paused =>
    rw [Store.ask, setPaused, Request.isUpdate, Bool.or_false]
    split
    · exact h
    · rw [update_of_file hfile]
      exact kept_of_written _ _

theorem Kept.askAll {written : Bool} (h : Kept s written) (requests : List Request) :
    Kept (s.askAll requests) (written || requests.any Request.isUpdate) := by
  induction requests generalizing s written with
  | nil => simpa [Store.askAll] using h
  | cons request requests ih =>
    have hrest := ih (h.ask request)
    rwa [Bool.or_assoc] at hrest

/-- A store is opened again as it was kept. -/
theorem Kept.ofPlace {written : Bool} (h : Kept s written) :
    ∃ config, Store.ofPlace s.place = .ok ⟨config, s.place⟩
      ∧ (config = s.config.reread ∨ written = false ∧ config = s.config) := by
  obtain ⟨content, hfile⟩ := h.file
  obtain ⟨text, htext, hconfig⟩ := h.config
  refine ⟨.ofText text, ?_, hconfig⟩
  rw [hfile] at htext ⊢
  rw [Store.ofPlace, if_pos (by rfl), htext]

/-- After any requests, each of which is granted, a new store at the same place starts with what is left of
the configuration; but if a weight that is not finite was written, it starts with the defaults. -/
theorem survives_restart (h : ofPlace place = .ok s) (requests : List Request) :
    (∀ earlier config later, requests = earlier ++ .update config :: later →
      ((s.askAll earlier).update config).2 = .ok ())
    ∧ ∃ config, ofPlace (s.askAll requests).place = .ok ⟨config, (s.askAll requests).place⟩
      ∧ (s.askAll requests).config.Survives config
      ∧ (requests.any Request.isUpdate = true →
          Magnitude.ofFloat? (s.askAll requests).config.paceWeight = none → config = {}) := by
  have hkept := kept_of_ofPlace h
  constructor
  · intro earlier config later _
    obtain ⟨content, hfile⟩ := (hkept.askAll earlier).file
    rw [update_of_file hfile]
  · obtain ⟨config, hopen, hconfig⟩ := (hkept.askAll requests).ofPlace
    refine ⟨config, hopen, ?_, fun hupdate hweight => ?_⟩
    · rcases hconfig with rfl | ⟨-, rfl⟩
      · exact Config.survives_reread _
      · exact Config.survives_self _
    · rcases hconfig with rfl | ⟨hunwritten, -⟩
      · exact Config.reread_of_not_finite hweight
      · rw [hupdate] at hunwritten
        exact absurd hunwritten (by decide)

/-- A configuration with a text that has to be escaped, the greatest number of rows and the weight one
quarter is there again after a restart. -/
theorem survives_with_quarter :
    ∃ s config, ofPlace .noFolder = .ok s
      ∧ ofPlace (s.askAll
          [.update ⟨true, 18446744073709551615, 0.25, "one\ntwo"⟩, .setPaused false]).place = .ok config
      ∧ config.config = ⟨false, 18446744073709551615, 0.25, "one\ntwo"⟩ := by
  obtain ⟨-, config, hopen, hsurvives, -⟩ :=
    @survives_restart .noFolder ⟨{}, .file (Config.text {}).toUTF8⟩ rfl
      [.update ⟨true, 18446744073709551615, 0.25, "one\ntwo"⟩, .setPaused false]
  refine ⟨_, _, rfl, hopen, ?_⟩
  have hquarter : Magnitude.ofFloat? 0.25 = some ⟨2 ^ 52, -54, true⟩ := by decide +kernel
  exact hsurvives.short _ hquarter (by decide +kernel)

end Store

end TransferQueue
