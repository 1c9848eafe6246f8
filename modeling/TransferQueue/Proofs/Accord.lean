import TransferQueue.Proofs.Signals

/-!
# The flag, the wish and the signals of the general pause

Whether the general pause holds is known in three places: to the flag of the board, to the preference,
and to the observers, who are told when it is set and when it ends.  The preference may be
changed behind the board's back, and then flag and preference differ until an operation on the general
pause makes them agree again.  The flag and the signals never come apart.

The preference may be kept in a file, and writing the file may fail.  That does no harm, for the wish is
taken from memory.

* `Board.Moment`: an action on the board, or something that happens elsewhere;
* `Board.meet_cases`: what a moment can do to flag, wish and signals;
* `Board.told_meetAll`: flag and signals in a run;
* `Board.agrees_meetAll`: agreement lasts;
* `Board.pause_agrees`: the three of them in a run.
-/

namespace TransferQueue

/-! ## What happens to a board -/

namespace Preference

/-- The preference after its configuration was changed by someone else. -/
def configure (config : Config) : Preference → Preference
  | .memory paused => .memory paused
  | .stored store => .stored (store.update config).1

/-- The preference after someone has put something where its file is meant to be. -/
def displace (place : Place) : Preference → Preference
  | .memory paused => .memory paused
  | .stored store => .stored { store with place }

@[simp] theorem isPaused_displace (place : Place) (p : Preference) :
    (p.displace place).isPaused = p.isPaused := by
  cases p <;> rfl

end Preference

namespace Board

open Change (pausings)

/-- Something that happens to a board or to what it shares with others. -/
inductive Moment where
  /-- An action on the board. -/
  | act (action : Action)
  /-- The configuration is changed behind the board's back. -/
  | configure (config : Config)
  /-- Something is put where the configuration file is meant to be, so that the next attempt to write
  it may fail. -/
  | displace (place : Place)

namespace Moment

/-- Whether the preference is written from outside. -/
def isOutsideWrite : Moment → Bool
  | .act (.overwritePreference _) | .configure _ => true
  | _ => false

/-- Whether an operation on the general pause takes place.  To resume a selection is one only if it
ends the general pause. -/
def settlesPause (b : Board) : Moment → Bool
  | .act (.pauseAll _) | .act .flipPause | .act .adoptPreference => true
  | .act (.pauseSelection _ paused) => !paused && b.allPaused
  | _ => false

end Moment

/-- What a moment does. -/
def meet (b : Board) : Moment → Outcome Board Answer
  | .act action => b.perform action
  | .configure config => ⟨{ b with preference := b.preference.configure config }, .done, [], []⟩
  | .displace place => ⟨{ b with preference := b.preference.displace place }, .done, [], []⟩

/-- What moments do, one after the other. -/
def meetAll (b : Board) : List Moment → Outcome Board (List Answer)
  | [] => ⟨b, [], [], []⟩
  | moment :: moments =>
    let first := b.meet moment
    ((first.state.meetAll moments).after first).mapAnswer (first.answer :: ·)

theorem state_meetAll_append (b : Board) (before after : List Moment) :
    (b.meetAll (before ++ after)).state = ((b.meetAll before).state.meetAll after).state := by
  induction before generalizing b with
  | nil => rfl
  | cons moment before ih => exact ih (b.meet moment).state

/-! ## One moment -/

variable {b : Board}

/-- A moment leaves flag and preference as they are, or decides on the general pause, or is a write from
outside, which concerns the preference only. -/
theorem meet_cases (b : Board) (moment : Moment) :
    ((b.meet moment).state.allPaused = b.allPaused
        ∧ (b.meet moment).state.preference.isPaused = b.preference.isPaused
        ∧ pausings (b.meet moment).changes = [])
      ∨ (∃ paused, Decides paused b (b.meet moment))
      ∨ moment.isOutsideWrite = true ∧ (b.meet moment).state.allPaused = b.allPaused
        ∧ pausings (b.meet moment).changes = [] := by
  cases moment with
  | configure config => exact .inr (.inr ⟨rfl, rfl, rfl⟩)
  | displace place => exact .inl ⟨rfl, Preference.isPaused_displace place b.preference, rfl⟩
  | act action =>
    rcases perform_cases b action with habides | hdecides | ⟨paused, rfl⟩
    · exact .inl ⟨habides.flag, congrArg Preference.isPaused habides.wish, habides.signals.pausings⟩
    · exact .inr (.inl hdecides)
    · exact .inr (.inr ⟨rfl, rfl, rfl⟩)

/-- Observers are told of the general pause when, and only when, the flag has changed. -/
theorem pausings_meet (b : Board) (moment : Moment) :
    pausings (b.meet moment).changes
      = if b.allPaused = (b.meet moment).state.allPaused then []
        else [(b.meet moment).state.allPaused] := by
  rcases meet_cases b moment with ⟨hflag, -, hsilent⟩ | ⟨paused, h⟩ | ⟨-, hflag, hsilent⟩
  · rw [hsilent, hflag, if_pos rfl]
  · rw [h.told, h.flag]
  · rw [hsilent, hflag, if_pos rfl]

/-- Flag and preference say the same. -/
def Agrees (b : Board) : Prop := b.allPaused = b.preference.isPaused

/-- Only a write from outside can end the agreement. -/
theorem agrees_meet {moment : Moment} (h : b.Agrees) (hinside : moment.isOutsideWrite = false) :
    (b.meet moment).state.Agrees := by
  rcases meet_cases b moment with ⟨hflag, hwish, -⟩ | ⟨paused, h'⟩ | ⟨houtside, -, -⟩
  · exact hflag.trans (h.trans hwish.symm)
  · exact h'.flag.trans h'.wish.symm
  · rw [hinside] at houtside
    contradiction

/-- An operation on the general pause makes flag and preference agree, whatever they were. -/
theorem agrees_of_settlesPause {moment : Moment} (h : moment.settlesPause b = true) :
    (b.meet moment).state.Agrees := by
  have hall : ∀ paused, (b.pauseAll paused).state.Agrees := fun paused =>
    (decides_pauseAll paused b).flag.trans (decides_pauseAll paused b).wish.symm
  cases moment with
  | configure config => cases h
  | displace place => cases h
  | act action =>
    cases action with
    | pauseAll paused => exact hall paused
    | flipPause => exact hall _
    | adoptPreference =>
      simp only [meet, perform, adoptPreference]
      split
      · rename_i hsame
        exact hsame.symm
      · exact hall _
    | pauseSelection rows paused =>
      have hends : (!paused && b.allPaused) = true := h
      simp only [meet, perform, pauseSelection, if_pos hends]
      exact (Preference.isPaused_set false b.preference).symm
    | _ => cases h

/-! ## Runs -/

/-- From any board on, the signals say how the flag goes on from what it was: each differs from the
one before it, and the flag is as the last of them says. -/
theorem told_meetAll (b : Board) (moments : List Moment) :
    (b.allPaused :: pausings (b.meetAll moments).changes).IsChain (· ≠ ·)
      ∧ (b.meetAll moments).state.allPaused
        = (pausings (b.meetAll moments).changes).getLast?.getD b.allPaused := by
  -- the flag of the board stands for the last signal, so the board has to vary
  induction moments generalizing b with
  | nil => exact ⟨.singleton _, rfl⟩
  | cons moment moments ih =>
    obtain ⟨hchain, hlast⟩ := ih (b.meet moment).state
    have hchanges : (b.meetAll (moment :: moments)).changes
        = (b.meet moment).changes ++ ((b.meet moment).state.meetAll moments).changes := rfl
    have hstate : (b.meetAll (moment :: moments)).state
        = ((b.meet moment).state.meetAll moments).state := rfl
    rw [hchanges, hstate, Change.pausings_append, pausings_meet]
    split
    · -- the moment leaves the flag and tells nothing
      rename_i hsame
      rw [hsame]
      exact ⟨hchain, hlast⟩
    · -- the moment tells of the new flag, from which the others go on
      rename_i hchanged
      refine ⟨List.isChain_cons_cons.2 ⟨hchanged, hchain⟩, ?_⟩
      rwa [List.singleton_append, List.getLast?_cons, Option.getD_some]

/-- As long as nobody writes the preference from outside, agreement lasts. -/
theorem agrees_meetAll {moments : List Moment} (h : b.Agrees)
    (hinside : ∀ moment ∈ moments, moment.isOutsideWrite = false) :
    (b.meetAll moments).state.Agrees := by
  induction moments generalizing b with
  | nil => exact h
  | cons moment moments ih =>
    have hfirst := agrees_meet h (hinside moment List.mem_cons_self)
    exact ih hfirst fun m hm => hinside m (List.mem_cons_of_mem _ hm)

/-- Whatever happens to a new board, each signal of the general pause differs from the one before it,
the first one from the preference that the board started with, and the flag is as the last of them
says.  From each operation on the general pause up to the next write from outside, the flag is as
the preference says. -/
theorem pause_agrees (config : Config) (preference : Preference) (moments : List Moment) :
    let o := (new config preference).meetAll moments
    (preference.isPaused :: pausings o.changes).IsChain (· ≠ ·)
      ∧ o.state.allPaused = (pausings o.changes).getLast?.getD preference.isPaused
      ∧ ∀ before moment after, moments = before ++ moment :: after →
          moment.settlesPause ((new config preference).meetAll before).state = true →
          (∀ m ∈ after, m.isOutsideWrite = false) →
          o.state.allPaused = o.state.preference.isPaused := by
  intro o
  obtain ⟨hchain, hlast⟩ := told_meetAll (new config preference) moments
  refine ⟨hchain, hlast, ?_⟩
  intro before moment after hmoments hsettles hinside
  have hagrees := agrees_meetAll (agrees_of_settlesPause hsettles) hinside
  have hstate : o.state
      = ((((new config preference).meetAll before).state.meet moment).state.meetAll after).state := by
    show ((new config preference).meetAll moments).state = _
    rw [hmoments, state_meetAll_append]
    rfl
  rw [hstate]
  exact hagrees

/-- A configuration that someone else changes, too, and whose file cannot be written for a while. -/
def sharedConfiguration : List Moment :=
  [.act (.hear .epoch (.started (.bare 1 .download 5 1))), .act (.pauseSelection [0] false),
    .configure { paused := true }, .displace .vacant, .act .adoptPreference, .displace .blocked,
    .act .flipPause, .displace .noFolder, .act (.pauseAll false)]

theorem pause_agrees_sharedConfiguration :
    let o := (new {} (.stored ⟨{ paused := true }, .folder⟩)).meetAll sharedConfiguration
    pausings o.changes = [false, true, false] ∧ o.state.allPaused = false
      ∧ o.state.preference.isPaused = false := by
  intro o
  have hpausings : pausings o.changes = [false, true, false] := by decide +kernel
  obtain ⟨-, hlast, hagrees⟩ :=
    pause_agrees {} (.stored ⟨{ paused := true }, .folder⟩) sharedConfiguration
  have hflag : o.state.allPaused = false := by rw [hlast, hpausings]; rfl
  refine ⟨hpausings, hflag, ?_⟩
  -- the change from elsewhere comes before the last but one operation on the general pause
  rw [← hagrees (sharedConfiguration.take 6) (.act .flipPause) (sharedConfiguration.drop 7) rfl rfl
    (by decide), hflag]

end Board

end TransferQueue
