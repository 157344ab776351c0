import Planetarium.Proofs.Grammar.Coupling
import Planetarium.Proofs.Parsing.Forward

/-!
# Reading further on in a text

The commands of a text are read further on in another one as they are at its beginning.
-/
namespace Planetarium

theorem PropertyValue.mapTexts_id (value : PropertyValue) : value.mapTexts id = value := by
  cases value <;> rfl

mutual
theorem Arg.mapTexts_id (a : Arg) : a.mapTexts id = a := by
  cases a with
  | word text => rfl
  | block commands => rw [Arg.mapTexts, Command.mapTextsAll_id commands]

theorem Arg.mapTextsAll_id (as : List Arg) : Arg.mapTextsAll id as = as := by
  cases as with
  | nil => rfl
  | cons a as => rw [Arg.mapTextsAll, Arg.mapTexts_id a, Arg.mapTextsAll_id as]

theorem Command.mapTexts_id (c : Command) : c.mapTexts id = c := by
  cases c with
  | invocation args => rw [Command.mapTexts, Arg.mapTextsAll_id args]
  | property name value => rw [Command.mapTexts, value.mapTexts_id]
  | definition name e => rfl
  | stray word => rfl

theorem Command.mapTextsAll_id (cs : List Command) : Command.mapTextsAll id cs = cs := by
  cases cs with
  | nil => rfl
  | cons c cs => rw [Command.mapTextsAll, Command.mapTexts_id c, Command.mapTextsAll_id cs]
end

namespace Grammar
open Parsing Text Attempt

/-- **Commands are read alike further on.** -/
theorem follows_commands {d : Nat} {l : Level} {s : Cursor} :
    Follows d (commands l s) (commands l (s.forward d)) :=
  (coupled_commands (D := .forward d) rfl rfl).follows Command.mapTextsAll_id

end Grammar
end Planetarium
