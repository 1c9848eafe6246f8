import TransferQueue.Config.Basic
import TransferQueue.Outcome

/-!
# The configuration file

A configuration is kept in memory and written to a file whenever it changes.  What matters of the
file system is what stands where the file is meant to be.

* `Place` is that, with its reading and writing;
* `Store.ofPlace` takes up the file of a place, and `Store.update` and `Store.setPaused` change the
  configuration and write it.
-/

namespace TransferQueue

/-- What stands where a configuration file is meant to be. -/
inductive Place where
  /-- The file has no name, so nothing can ever stand there. -/
  | nowhere
  /-- The folder of the file does not exist. -/
  | noFolder
  /-- Something that is no folder stands where the folder should be. -/
  | blocked
  /-- The folder exists and has nothing of the name of the file. -/
  | vacant
  /-- A file. -/
  | file (content : ByteArray)
  /-- A folder of the name of the file. -/
  | folder

namespace Place

/-- Whether something stands at the place. -/
def isTaken : Place → Bool
  | .file _ | .folder => true
  | _ => false

/-- The text of the file at a place. -/
def text? : Place → Option String
  | .file content => String.fromUTF8? content
  | _ => none

/-- Write a file.  Its folder is made if need be. -/
def write (text : String) : Place → Except Failure Place
  | .noFolder | .vacant | .file _ => .ok (.file text.toUTF8)
  | .blocked => .error (.fileAccess "Failed to create config dir")
  | .nowhere | .folder => .error (.fileAccess "Failed to write settings")

end Place

/-- A configuration with the place of its file. -/
structure Store where
  /-- The configuration. -/
  config : Config
  /-- What stands where its file is meant to be. -/
  place : Place

namespace Store

/-- Write the configuration to the file. -/
def save (s : Store) : Except Failure Store := do
  return { s with place := ← s.place.write s.config.text }

/-- The store of a place.  A file is read, and if its text writes no configuration, the defaults
hold.  Where there is no file, the defaults hold and are written. -/
def ofPlace (place : Place) : Except Failure Store :=
  if place.isTaken then
    match place.text? with
    | some text => .ok ⟨.ofText text, place⟩
    | none => .error (.fileAccess "Failed to read settings")
  else save ⟨{}, place⟩

/-- The store after an attempt to write the file, and whether it succeeded.  The configuration in
memory does not depend on that. -/
def trySave (s : Store) : Store × Except Failure Unit :=
  match s.save with
  | .ok s' => (s', .ok ())
  | .error e => (s, .error e)

/-- Change the configuration and write it. -/
def update (config : Config) (s : Store) : Store × Except Failure Unit :=
  { s with config }.trySave

/-- Change whether all transfers are to be paused, and write that if it is new. -/
def setPaused (paused : Bool) (s : Store) : Store :=
  if s.config.paused = paused then s
  else (s.update { s.config with paused }).1

end Store

/-! ## The usual place -/

/-- The path of the configuration file of a user: below the folder for configurations, if that is
given as an absolute path, or else below the folder `.config` of the home folder. -/
def Config.usualPath (home : String) (configFolder : Option String) : String :=
  let folder :=
    match configFolder with
    | some path => if path.startsWith "/" then path else home ++ "/.config"
    | none => home ++ "/.config"
  folder ++ "/transfer/queue.json"

end TransferQueue
