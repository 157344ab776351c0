/-!
# Paths

A path is shown in its plain form: without empty parts and single dots, and with a dot if nothing
else is left.  Two dots stay, because what they lead to depends on the files.
-/
namespace Planetarium.Text

/-- The parts of a path that lead somewhere. -/
def pathParts (path : List Char) : List (List Char) :=
  (path.splitOn '/').filter fun part => !part.isEmpty && part ≠ ['.']

/-- The slashes that a path begins with: exactly two stay two, any other number counts as one. -/
def pathRoot : List Char → List Char
  | '/' :: '/' :: '/' :: _ => ['/']
  | '/' :: '/' :: _ => ['/', '/']
  | '/' :: _ => ['/']
  | _ => []

/-- The plain form of a path. -/
def plainPath (path : String) : String :=
  match pathRoot path.toList ++ ['/'].intercalate (pathParts path.toList) with
  | [] => "."
  | shown => String.ofList shown

end Planetarium.Text
