import AnnotationIndex.Reader.File
import AnnotationIndex.Writer

/-!
# Reading and writing bytes

Index texts come from sources of bytes and go to sinks of bytes, both in UTF-8. A source is a stream
or a file in a folder; a sink may take only so many bytes.
-/

namespace AnnotationIndex

/-! ## Folders -/

/-- The files of a folder without subfolders. -/
structure Folder where
  files : List (String × ByteArray)

namespace Folder

/-- A folder without files. -/
def empty : Folder := ⟨[]⟩

/-- The number of UTF-8 bytes that a path may have. -/
def maxPathSize : Nat := 4095

/-- The number of UTF-8 bytes that the name of a file may have. -/
def maxNameSize : Nat := 255

/-- A file in the folder may have this name. The empty name, `.` and `..` are no files. -/
def isFileName (name : String) : Bool :=
  name ≠ "" && name ≠ "." && name ≠ ".." && name.utf8ByteSize ≤ maxNameSize &&
    !name.toList.contains '\x00'

/-- The name of the file in the folder that a path leads to. Only the folder itself, as `.`, may
stand before the name, and a path that starts with `/` leads elsewhere. -/
def resolve? (path : String) : Option String :=
  let parts := path.splitOn "/"
  let name := parts.getLastD ""
  if path.utf8ByteSize ≤ maxPathSize ∧ parts.head? ≠ some "" ∧ isFileName name ∧
      parts.dropLast.all (fun part => part = "." || part = "") then
    some name
  else none

/-- The bytes of the file that a path leads to. -/
def get? (folder : Folder) (path : String) : Option ByteArray :=
  (resolve? path).bind fun name => Keyed.get? name folder.files

/-- The folder with new bytes in the file that a path leads to. -/
def put? (folder : Folder) (path : String) (bytes : ByteArray) : Option Folder :=
  (resolve? path).map fun name => ⟨Keyed.put name bytes folder.files⟩

end Folder

/-! ## Reading -/

/-- Why nothing more can be read from a source. -/
inductive ReadFailure where
  /-- There are no bytes, or they are not UTF-8. -/
  | unreadable (source : String)
  | malformed (source : String) (e : ReadError)

/-- The name of a source that is not a file. -/
def streamName : String := "<stream>"

/-- The wording of a reading error in a source. -/
def ReadError.messageIn (source : String) (e : ReadError) : String :=
  source ++ ": line " ++ String.ofList (Numeral.decimal e.line) ++ ": " ++ e.cause.message

namespace Scene

/-- Reads the bytes of a source into a scene. -/
def readBytes (s : Scene) (source : String) (bytes : ByteArray) : Scene × Option ReadFailure :=
  match String.fromUTF8? bytes with
  | none => (s, some (.unreadable source))
  | some text =>
    match s.read text with
    | (s, none) => (s, none)
    | (s, some e) => (s, some (.malformed source e))

/-- Reads the bytes of a stream into a scene. -/
def readStream (s : Scene) (bytes : ByteArray) : Scene × Option ReadFailure :=
  s.readBytes streamName bytes

/-- Reads a file into a scene. -/
def readFrom (s : Scene) (folder : Folder) (path : String) : Scene × Option ReadFailure :=
  match folder.get? path with
  | none => (s, some (.unreadable path))
  | some bytes => s.readBytes path bytes

end Scene

/-! ## Writing -/

/-- Why a scene cannot be written. -/
inductive WriteFailure where
  | conflict (c : Conflict)
  /-- The bytes cannot be put where they should go, for the given reason. -/
  | refused (path : Option String) (reason : String)

/-- The wording of a failure to write. -/
def WriteFailure.message : WriteFailure → String
  | .conflict c => c.message
  | .refused path reason =>
    "failed to write index file" ++
      (match path with
        | some path => " " ++ path
        | none => "") ++ ": " ++ reason

/-- The type whose definitions are in conflict. -/
def WriteFailure.conflictingType? : WriteFailure → Option String
  | .conflict c => some c.name
  | .refused _ _ => none

/-- Somewhere that bytes go, up to a limit. -/
structure Sink where
  limit : Option Nat
  taken : ByteArray

namespace Sink

/-- A sink that has not taken anything. -/
def empty (limit : Option Nat) : Sink := ⟨limit, .empty⟩

/-- Puts bytes into a sink: those that it takes, and whether these are all. -/
def put (sink : Sink) (bytes : ByteArray) : Sink × Bool :=
  let room := match sink.limit with
    | some limit => limit - sink.taken.size
    | none => bytes.size
  ({ sink with taken := sink.taken ++ bytes.extract 0 room }, bytes.size ≤ room)

end Sink

namespace Scene

/-- Writes a scene into a sink. Nothing is written when definitions are in conflict. -/
def writeTo (s : Scene) (layout : Layout) (sink : Sink) : Sink × Option WriteFailure :=
  match s.render layout with
  | .error c => (sink, some (.conflict c))
  | .ok text =>
    match sink.put text.toUTF8 with
    | (sink, true) => (sink, none)
    | (sink, false) => (sink, some (.refused none "sink full"))

/-- Writes a scene into a file, in place of what it holds. The file stays as it is when definitions
are in conflict. -/
def writeInto (s : Scene) (layout : Layout) (folder : Folder) (path : String) :
    Folder × Option WriteFailure :=
  match s.render layout with
  | .error c => (folder, some (.conflict c))
  | .ok text =>
    match folder.put? path text.toUTF8 with
    | some folder => (folder, none)
    | none => (folder, some (.refused (some path) "no such file"))

end Scene

end AnnotationIndex
