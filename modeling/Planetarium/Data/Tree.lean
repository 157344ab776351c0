import Planetarium.Data.Basic
import Planetarium.Document.Basic

/-!
# Documents as plain data

Every node becomes a record whose first field names its kind.  The arguments of an invocation and
the value of a property are told apart by their form: a text for a word or a quoted string, a
record for a block or an expression.  Trees of every depth become data, and data of every depth are
written; the stack for it is taken to be there.
-/
namespace Planetarium

mutual
/-- An expression as data. -/
def Expr.data : Expr → Data
  | .ident name => .record [("kind", .text "ident"), ("name", .text name)]
  | .number value => .record [("kind", .text "number"), ("value", .number value)]
  | .call function args =>
    .record [("kind", .text "call"), ("name", .text function), ("args", .list (Expr.dataAll args))]
  | .binary operator left right =>
    .record [("kind", .text operator.name), ("left", left.data), ("right", right.data)]
  | .stray word => .text word

/-- Expressions as data. -/
def Expr.dataAll : List Expr → List Data
  | [] => []
  | e :: es => e.data :: Expr.dataAll es
end

/-- The value of a property as data. -/
def PropertyValue.data : PropertyValue → Data
  | .text words => .text words
  | .expr e => e.data
  | .stray word => .text word

mutual
/-- An argument as data. -/
def Arg.data : Arg → Data
  | .word text => .text text
  | .block commands => .record [("block", .list (Command.dataAll commands))]

/-- Arguments as data. -/
def Arg.dataAll : List Arg → List Data
  | [] => []
  | a :: as => a.data :: Arg.dataAll as

/-- A command as data. -/
def Command.data : Command → Data
  | .invocation args =>
    .record [("kind", .text "invocation"), ("args", .list (Arg.dataAll args))]
  | .property name value =>
    .record [("kind", .text "property"), ("name", .text name), ("value", value.data)]
  | .definition name e =>
    .record [("kind", .text "definition"), ("name", .text name), ("expr", e.data)]
  | .stray word => .text word

/-- Commands as data. -/
def Command.dataAll : List Command → List Data
  | [] => []
  | c :: cs => c.data :: Command.dataAll cs
end

/-- An expression as data, unless a bare word is in it. -/
def Expr.dump (e : Expr) : Except Misplaced Data := unlessMisplaced e.misplaced e.data

/-- A command as data, unless a bare word is in it. -/
def Command.dump (c : Command) : Except Misplaced Data := unlessMisplaced c.misplaced c.data

/-- A document as data, unless a bare word is in it. -/
def Document.dump (commands : List Command) : Except Misplaced Data :=
  unlessMisplaced (Command.misplacedAll commands) (.list (Command.dataAll commands))

end Planetarium
