import Planetarium.Data.Json
import Planetarium.Data.Tree
import Planetarium.Data.Yaml
import Planetarium.Decimal.Word
import Planetarium.Document.File
import Planetarium.Scene.Report
import Planetarium.Text.Similarity

/-!
# The command line

Three commands: `parse` shows the tree of a document, `eval` the value of an expression, and
`inspect` a report on the scene of a document.  The words after the command are read in two steps.
First they are sorted into options with their values and plain words; then the values are checked,
those of options in the order in which they were given, then the plain words.  The files are handed
in as a function from paths to what stands there, so running a command is a function of its words
and those files.

The commands are also given the room on the stack that they have for the library; what calls them
takes its own frames before that.
-/
namespace Planetarium.CommandLine
open Decimal Text

/-- The version that `--version` prints. -/
def version : String := "0.1.0"

/-- Why the words make no sense. -/
inductive UsageError where
  | missingCommand
  | noSuchCommand (name : String)
  /-- There is no such option; the nearest ones there are. -/
  | noSuchOption (name : String) (near : List String)
  | valueMissing (option : String)
  | valueUnwanted (option : String)
  | argumentMissing (name : String)
  | extraArguments (words : List String)
  | badDefinition (word : String)
  | notInteger (option word : String)
  | notNumber (option word : String)
  | notChoice (option word : String) (choices : List String)
  | belowOne (option : String) (value : Int)
  | noSuchFile (path : String)
  | fileIsDirectory (path : String)
deriving DecidableEq, Repr

/-- What is wrong with the value of an option or an argument, in words. -/
def invalidValue (name : String) (reason : String) : String :=
  "Invalid value for '" ++ name ++ "': " ++ reason

/-- The name of the argument that is a file. -/
def fileArgument : String := "INPUT_FILE"

/-- What an unknown option may have been meant for, in words. -/
def suggestion : List String → String
  | [] => ""
  | [name] => " Did you mean " ++ name ++ "?"
  | names => " (Possible options: " ++ ", ".intercalate names ++ ")"

/-- The reason in words. -/
def UsageError.message : UsageError → String
  | .missingCommand => "Missing command."
  | .noSuchCommand name => "No such command " ++ quoted name ++ "."
  | .noSuchOption name near => "No such option: " ++ name ++ suggestion near
  | .valueMissing option => "Option " ++ quoted option ++ " requires an argument."
  | .valueUnwanted option => "Option " ++ quoted option ++ " does not take a value."
  | .argumentMissing name => "Missing argument '" ++ name ++ "'."
  | .extraArguments words =>
    (if words.length = 1 then "Got unexpected extra argument ("
     else "Got unexpected extra arguments (") ++ " ".intercalate words ++ ")"
  | .badDefinition word => "Invalid -D value " ++ quoted word ++ ", expected NAME=EXPRESSION"
  | .notInteger option word => invalidValue option (quoted word ++ " is not a valid integer range.")
  | .notNumber option word => invalidValue option (quoted word ++ " is not a valid float.")
  | .notChoice option word choices =>
    invalidValue option
      (quoted word ++ " is not one of " ++ ", ".intercalate (choices.map quoted) ++ ".")
  | .belowOne option value =>
    invalidValue option (toString value ++ " is not in the range x>=1.")
  | .noSuchFile path => invalidValue fileArgument ("File " ++ quoted path ++ " does not exist.")
  | .fileIsDirectory path =>
    invalidValue fileArgument ("File " ++ quoted path ++ " is a directory.")

/-- Why a command fails. -/
inductive Problem where
  /-- The words make no sense. -/
  | usage (error : UsageError)
  /-- The document, the expression or the policy is wrong, for the given reason. -/
  | rejected (reason : String)
  /-- The positions cannot be computed. -/
  | angle (error : Orbit.AngleError)
deriving DecidableEq, Repr

/-- The problem in words. -/
def Problem.message : Problem → String
  | .usage e => e.message
  | .rejected reason => reason
  | .angle e => e.message

/-- The exit status of a command that fails. -/
def Problem.status : Problem → Nat
  | .usage _ => 2
  | .rejected _ | .angle _ => 1

/-! ### Sorting the words -/

/-- The words after a command: options with their values, and plain words, in order. -/
structure Words where
  options : List (String × String) := []
  plain : List String := []

/-- An option with its value, in front of the others. -/
def Words.addOption (option value : String) (w : Words) : Words :=
  { w with options := (option, value) :: w.options }

/-- A plain word, in front of the others. -/
def Words.addPlain (word : String) (w : Words) : Words := { w with plain := word :: w.plain }

/-- The parts of a word before and after its first equals sign, if it has one. -/
def cut (word : List Char) : List Char × Option (List Char) :=
  match word.dropWhile (· ≠ '=') with
  | [] => (word, none)
  | _ :: after => (word.takeWhile (· ≠ '='), some after)

/-- The options of a command by their spellings; all spellings of an option stand for its first. -/
abbrev Spellings := List (String × String)

/-- The long names of options; every command has `--help`. -/
def longNames (spellings : Spellings) : List String :=
  "--help" :: (spellings.map Prod.fst).filter ("--".isPrefixOf ·)

/-- An option that a word spells: the option, and the value in the same word if there is one.  None
if the word is no option at all. -/
def optionOf? (spellings : Spellings) (word : String) :
    Except UsageError (Option (String × Option String)) :=
  match word.toList with
  | '-' :: '-' :: _ =>
    let (name, value) := cut word.toList
    match spellings.lookup (String.ofList name) with
    | some option => .ok (some (option, value.map String.ofList))
    | none =>
      let name := String.ofList name
      .error (.noSuchOption name (nearest (longNames spellings) name))
  | '-' :: c :: value =>
    match spellings.lookup (String.ofList ['-', c]) with
    | some option =>
      .ok (some (option, if value.isEmpty then none else some (String.ofList value)))
    | none => .error (.noSuchOption (String.ofList ['-', c]) [])
  | _ => .ok none

/-- Sorts the words after a command.  After `--` all words are plain. -/
def sortWords (spellings : Spellings) : List String → Except UsageError Words
  | [] => .ok {}
  | word :: rest =>
    if word = "--" then .ok { plain := rest }
    else
      match optionOf? spellings word with
      | .error e => .error e
      | .ok none => (sortWords spellings rest).map (.addPlain word)
      | .ok (some (option, some value)) => (sortWords spellings rest).map (.addOption option value)
      | .ok (some (option, none)) =>
        match rest with
        | [] => .error (.valueMissing word)
        | value :: rest => (sortWords spellings rest).map (.addOption option value)

/-! ### Checking the values -/

/-- The values of the options of `parse` and `inspect`. -/
structure Settings where
  format : String
  maxDepth : Int := 64
  time : Option Float := none
  escalated : Option String := none
  suppressed : Option String := none

/-- The last value given for an option. -/
def Words.value? (w : Words) (option : String) : Option String :=
  w.options.reverse.lookup option

/-- The settings after one option with its value. -/
def Settings.set (choices : List String) (s : Settings) (option value : String) :
    Except UsageError Settings :=
  if option = "--format" then
    if choices.contains value then .ok { s with format := value }
    else .error (.notChoice option value choices)
  else if option = "--max-depth" then
    match integer? value with
    | none => .error (.notInteger option value)
    | some n => if n < 1 then .error (.belowOne option n) else .ok { s with maxDepth := n }
  else if option = "--time" then
    match float? value with
    | none => .error (.notNumber option value)
    | some x => .ok { s with time := some x }
  else if option = "--warn-as-error" then .ok { s with escalated := some value }
  else .ok { s with suppressed := some value }

/-- The settings that some words give; of an option given more than once the last value counts, in
the place of the first. -/
def Words.settings (w : Words) (choices : List String) (initial : Settings) :
    Except UsageError Settings :=
  ((w.options.map Prod.fst).eraseDups).foldlM
    (fun s option => s.set choices option ((w.value? option).getD "")) initial

/-- The one plain word of a command, once its options are checked. -/
def Words.argument (w : Words) (name : String) (check : String → Except UsageError Unit) :
    Except UsageError String :=
  match w.plain with
  | [] => .error (.argumentMissing name)
  | word :: rest => do
    check word
    if rest.isEmpty then return word else throw (.extraArguments rest)

/-- The files by their paths. -/
abbrev Files := String → FileState

/-- There is a file under the path. -/
def Files.check (files : Files) (path : String) : Except UsageError Unit :=
  match files path with
  | .missing => .error (.noSuchFile path)
  | .directory => .error (.fileIsDirectory path)
  | .bytes _ => .ok ()

/-! ### Running a command -/

/-- What a command prints, or why it fails; and the warnings of the pass over its document. -/
structure Result where
  outcome : Except Problem String
  warnings : List Warning := []

/-- The exit status. -/
def Result.status (r : Result) : Nat :=
  match r.outcome with
  | .ok _ => 0
  | .error p => p.status

/-- A command that comes to an end without going through a document. -/
def Result.plain (outcome : Except Problem String) : Result := { outcome }

/-- A failure of the library, as the command reports it. -/
def reject {ε α : Type} (message : ε → String) (x : Except ε α) : Except Problem α :=
  x.mapError fun e => .rejected (message e)

/-- The spellings of the options of `parse`. -/
def parseSpellings : Spellings := [("--format", "--format"), ("--max-depth", "--max-depth")]

/-- The spellings of the options of `inspect`. -/
def inspectSpellings : Spellings := parseSpellings ++
  [("--time", "--time"), ("--warn-as-error", "--warn-as-error"),
   ("--suppress-warning", "--suppress-warning")]

/-- The spellings of the options of `eval`. -/
def evalSpellings : Spellings := [("-D", "-D"), ("--define", "-D")]

/-- The settings and the file of a command on a document. -/
def fileCommand (files : Files) (spellings : Spellings) (choices : List String)
    (initial : Settings) (words : List String) : Except UsageError (Settings × String) := do
  let w ← sortWords spellings words
  let settings ← w.settings choices initial
  let path ← w.argument fileArgument files.check
  return (settings, path)

/-- The document of a file, to the depth that the settings allow. -/
def readDocument (files : Files) (settings : Settings) (path : String)
    (room : Room := .standard) : Except Problem (List Command) :=
  reject FileError.message (Document.ofFile path (files path) { depth := settings.maxDepth, room })

/-- Shows the tree of a document. -/
def runParse (files : Files) (words : List String) (room : Room := .standard) :
    Except Problem String := do
  let (settings, path) ←
    (fileCommand files parseSpellings ["json", "yaml"] { format := "yaml" } words).mapError .usage
  let commands ← readDocument files settings path room
  let data ← reject Misplaced.message (Document.dump commands)
  return if settings.format = "json" then data.json ++ "\n" else data.yaml

/-- The name and the expression of a definition on the command line. -/
def splitDefinition (word : String) : Except UsageError (String × String) :=
  match cut word.toList with
  | (name, some body) =>
    if (strip name).isEmpty then .error (.badDefinition word)
    else .ok (String.ofList (strip name), String.ofList body)
  | (_, none) => .error (.badDefinition word)

/-- The value of an expression given as text. -/
def valueOf (env : Environment) (text : String) (room : Room := .standard) :
    Except Problem Float := do
  let e ← reject Parsing.ParseError.message (Expr.parse text { room })
  reject EvalError.message (e.evaluate env room)

/-- The variables that definitions on the command line make, one after the other. -/
def defineAll (env : Environment) (words : List String) (room : Room := .standard) :
    Except Problem Environment :=
  match words with
  | [] => .ok env
  | word :: rest => do
    let (name, body) ← (splitDefinition word).mapError .usage
    let x ← valueOf env body room
    defineAll (env.insert name x) rest room

/-- Shows the value of an expression. -/
def runEval (words : List String) (room : Room := .standard) : Except Problem String := do
  let (definitions, expression) ← (do
    let w ← sortWords evalSpellings words
    let expression ← w.argument "EXPRESSION" fun _ => .ok ()
    return (w.options.map Prod.snd, expression)).mapError .usage
  let env ← defineAll .empty definitions room
  let x ← valueOf env expression room
  return shortestText x ++ "\n"

/-- The report on the bodies of a document and on what its pass leaves. -/
def reportOn (commands : List Command) (bodies : List Body) (env : Environment)
    (time : Option Float) : Except Problem Report := do
  let textures ← reject DeclarationError.message (textures commands)
  let placement ← match time with
    | none => pure none
    | some time =>
      let places ← (Orbit.positions bodies time).mapError .angle
      pure (some { time, places })
  return { bodies, textures, env, placement }

/-- Shows a report on the scene of a document. -/
def runInspect (files : Files) (words : List String) (room : Room := .standard) : Result :=
  let prepared : Except Problem (Settings × Option Policy × List Command) := do
    let (settings, path) ← (fileCommand files inspectSpellings ["text", "json"]
      { format := "text" } words).mapError .usage
    let policy ← reject PolicyError.message
      (Policy.ofOptions settings.escalated settings.suppressed)
    let commands ← readDocument files settings path room
    return (settings, policy, commands)
  match prepared with
  | .error p => .plain (.error p)
  | .ok (settings, policy, commands) =>
    let (bodies, journal) := (Body.loadAll policy commands room).go {}
    let outcome := do
      let bodies ← reject Failure.message bodies
      let report ← reportOn commands bodies journal.env settings.time
      return if settings.format = "json" then report.data.toStrict.json ++ "\n" else report.text
    { outcome, warnings := journal.warnings }

/-- Runs a command on the words after its name. -/
def runCommand (files : Files) (words : List String) (room : Room := .standard) : Result :=
  match words with
  | [] => .plain (.error (.usage .missingCommand))
  | name :: words =>
    if name = "parse" then .plain (runParse files words room)
    else if name = "eval" then .plain (runEval words room)
    else if name = "inspect" then runInspect files words room
    else .plain (.error (.usage (.noSuchCommand name)))

/-- Runs the program on the words after its name. -/
def run (files : Files) (words : List String) (room : Room := .standard) : Result :=
  match words with
  | [] => .plain (.error (.usage .missingCommand))
  | word :: rest =>
    if word = "--version" then .plain (.ok ("orrery, version " ++ version ++ "\n"))
    else if word = "--" then runCommand files rest room
    else
      match optionOf? [("--version", "--version")] word with
      | .error e => .plain (.error (.usage e))
      | .ok (some (option, _)) => .plain (.error (.usage (.valueUnwanted option)))
      | .ok none => runCommand files (word :: rest) room

end Planetarium.CommandLine
