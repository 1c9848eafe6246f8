/-!
# Kinds of files

The queue sorts files into seven coarse kinds by the extension of their name.  The extension is
what follows the last full stop, provided that something stands on both sides of it; letters of
the ASCII range are compared without regard to case.
-/

namespace TransferQueue

/-- What a file holds, as far as its name tells. -/
inductive FileKind where
  | text
  | audio
  | video
  | archive
  | document
  | image
  | other
deriving DecidableEq, Repr

namespace FileKind

/-- All kinds, in the order in which they are counted and listed. -/
def all : List FileKind := [.text, .audio, .video, .archive, .document, .image, .other]

/-- The place of a kind in `all`. -/
def index : FileKind → Fin 7
  | .text => 0
  | .audio => 1
  | .video => 2
  | .archive => 3
  | .document => 4
  | .image => 5
  | .other => 6

/-- The extensions of a kind, in small letters.  No extension belongs to two kinds. -/
def extensions : FileKind → List String
  | .text =>
    ["txt", "md", "rtf", "log", "csv", "json", "xml", "yaml", "yml", "ini", "conf", "c", "cpp",
      "h", "hpp", "rs", "py", "js", "ts", "java", "go", "sh", "html", "htm", "css"]
  | .audio =>
    ["wav", "mp3", "flac", "ogg", "oga", "aac", "m4a", "wma", "aiff", "aif", "opus", "mid",
      "midi"]
  | .video =>
    ["mkv", "mp4", "avi", "mov", "wmv", "flv", "webm", "m4v", "mpg", "mpeg", "3gp", "vob"]
  | .archive =>
    ["tar", "zip", "gz", "tgz", "bz2", "xz", "7z", "rar", "zst", "iso", "dmg", "deb", "rpm"]
  | .document =>
    ["odt", "ods", "odp", "doc", "docx", "xls", "xlsx", "ppt", "pptx", "pdf", "pages",
      "numbers", "key", "epub"]
  | .image =>
    ["png", "jpg", "jpeg", "gif", "bmp", "tif", "tiff", "svg", "webp", "heic", "ico", "raw",
      "psd"]
  | .other => []

/-- The extension of a file name.  A name without a full stop, one that starts with its only
full stop and one that ends with a full stop have none. -/
def extension? (name : String) : Option String :=
  let tail := name.toList.reverse.takeWhile (· ≠ '.')
  match name.toList.reverse.dropWhile (· ≠ '.') with
  | _stop :: _ :: _ => if tail.isEmpty then none else some (String.ofList tail.reverse)
  | _ => none

/-- The kind of the file of the given name. -/
def ofName (name : String) : FileKind :=
  match extension? name with
  | none => .other
  | some ext =>
    let ext := String.ofList (ext.toList.map Char.toLower)
    (all.find? fun kind => kind.extensions.contains ext).getD .other

end FileKind

end TransferQueue
