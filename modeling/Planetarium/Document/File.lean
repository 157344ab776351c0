import Planetarium.Grammar.Command
import Planetarium.Text.LineEnds
import Planetarium.Text.Path
import Planetarium.Text.Utf8

/-!
# Documents in files

A file holds a document as UTF-8 with any kind of line ends.  Reading it fails if there is no such
file, or if its bytes are not UTF-8, or if the text is not a document.  A path that leads to no
file is reported in its plain form.
-/
namespace Planetarium
open Text Parsing

/-- What stands under a path. -/
inductive FileState where
  | missing
  | directory
  | bytes (contents : List UInt8)

/-- Why there is no text to read. -/
inductive ReadError where
  | missing (path : String)
  | directory (path : String)
  | notUtf8 (fault : Utf8.Fault)
deriving DecidableEq, Repr

/-- The reason in words. -/
def ReadError.message (e : ReadError) : String :=
  "Cannot read file: " ++
    match e with
    | .missing path => "[Errno 2] No such file or directory: " ++ quoted path
    | .directory path => "[Errno 21] Is a directory: " ++ quoted path
    | .notUtf8 f => f.message

/-- Why a file is not a document. -/
inductive FileError where
  | unreadable (error : ReadError)
  | rejected (error : ParseError)
deriving DecidableEq, Repr

/-- The reason in words. -/
def FileError.message : FileError → String
  | .unreadable e => e.message
  | .rejected e => e.message

/-- The text of a file. -/
def FileState.text (path : String) : FileState → Except ReadError (List Char)
  | .missing => .error (.missing path)
  | .directory => .error (.directory path)
  | .bytes contents =>
    match Utf8.decode contents with
    | .ok text => .ok (unifyLineEnds text)
    | .error f => .error (.notUtf8 f)

/-- Reads a file as a document. -/
def Document.ofFile (path : String) (file : FileState) (limits : Limits := {}) :
    Except FileError (List Command) :=
  match file.text (plainPath path) with
  | .error e => .error (.unreadable e)
  | .ok text => (Document.ofChars limits text).mapError fun f => .rejected (f.inText text)

end Planetarium
