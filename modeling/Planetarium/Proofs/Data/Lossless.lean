import Planetarium.Data.Tree
import Planetarium.Proofs.Document.Parsed

/-!
# Trees told from their data

Data that an expression, a command or a document was turned into tell which one it was.  Records
are told apart by their kinds and by the names of their fields; where there is no kind, it is the
form that tells: a word is a text and a block a record, and so are the text and the expression that
a property can have.
-/
namespace Planetarium

/-- All operations. -/
def Operator.all : List Operator := [.add, .sub, .mul, .div, .unspecified]

/-- The operation with a name. -/
def Operator.named? (name : String) : Option Operator := Operator.all.find? (·.name = name)

theorem Operator.named?_name (o : Operator) : named? o.name = some o := by cases o <;> decide

mutual
/-- The expression that some data stand for. -/
def Expr.ofData? : Data → Option Expr
  | .record [("kind", .text "ident"), ("name", .text name)] => some (.ident name)
  | .record [("kind", .text "number"), ("value", .number value)] => some (.number value)
  | .record [("kind", .text "call"), ("name", .text function), ("args", .list args)] =>
    (Expr.ofDataAll? args).map (.call function)
  | .record [("kind", .text kind), ("left", left), ("right", right)] => do
    let operator ← Operator.named? kind
    let left ← Expr.ofData? left
    let right ← Expr.ofData? right
    return .binary operator left right
  | _ => none

/-- The expressions that some data stand for. -/
def Expr.ofDataAll? : List Data → Option (List Expr)
  | [] => some []
  | d :: ds => do
    let e ← Expr.ofData? d
    let es ← Expr.ofDataAll? ds
    return e :: es
end

/-- The value of a property that some data stand for. -/
def PropertyValue.ofData? : Data → Option PropertyValue
  | .text words => some (.text words)
  | d => (Expr.ofData? d).map .expr

mutual
/-- The argument that some data stand for. -/
def Arg.ofData? : Data → Option Arg
  | .text word => some (.word word)
  | .record [("block", .list commands)] => (Command.ofDataAll? commands).map .block
  | _ => none

/-- The arguments that some data stand for. -/
def Arg.ofDataAll? : List Data → Option (List Arg)
  | [] => some []
  | d :: ds => do
    let a ← Arg.ofData? d
    let as ← Arg.ofDataAll? ds
    return a :: as

/-- The command that some data stand for. -/
def Command.ofData? : Data → Option Command
  | .record [("kind", .text "invocation"), ("args", .list args)] =>
    (Arg.ofDataAll? args).map .invocation
  | .record [("kind", .text "property"), ("name", .text name), ("value", value)] =>
    (PropertyValue.ofData? value).map (.property name)
  | .record [("kind", .text "definition"), ("name", .text name), ("expr", e)] =>
    (Expr.ofData? e).map (.definition name)
  | _ => none

/-- The commands that some data stand for. -/
def Command.ofDataAll? : List Data → Option (List Command)
  | [] => some []
  | d :: ds => do
    let c ← Command.ofData? d
    let cs ← Command.ofDataAll? ds
    return c :: cs
end

/-- The document that some data stand for. -/
def Document.ofData? : Data → Option (List Command)
  | .list commands => Command.ofDataAll? commands
  | _ => none

mutual
/-- An expression is read back from its data. -/
theorem Expr.ofData?_data (e : Expr) (h : e.misplaced = []) : ofData? e.data = some e := by
  cases e with
  | ident name => simp [data, ofData?]
  | number value => simp [data, ofData?]
  | call function args =>
    simp [data, ofData?, Expr.ofDataAll?_dataAll args h]
  | binary operator left right =>
    rw [misplaced, List.append_eq_nil_iff] at h
    simp [data, ofData?, Operator.named?_name, Expr.ofData?_data left h.1,
      Expr.ofData?_data right h.2]
  | stray word => cases h

theorem Expr.ofDataAll?_dataAll (es : List Expr) (h : misplacedAll es = []) :
    ofDataAll? (dataAll es) = some es := by
  cases es with
  | nil => rfl
  | cons e es =>
    rw [misplacedAll, List.append_eq_nil_iff] at h
    simp [dataAll, ofDataAll?, Expr.ofData?_data e h.1, Expr.ofDataAll?_dataAll es h.2]
end

/-- No expression is turned into a bare text. -/
theorem Expr.data_ne_text {e : Expr} (h : e.misplaced = []) (text : String) :
    e.data ≠ .text text := by
  cases e with
  | stray word => cases h
  | ident _ | number _ | call _ _ | binary _ _ _ => exact nofun

/-- So is the value of a property. -/
theorem PropertyValue.ofData?_data (v : PropertyValue) (h : v.misplaced = []) :
    ofData? v.data = some v := by
  cases v with
  | text words => rfl
  | expr e =>
    rw [data, ofData?, Expr.ofData?_data e h]
    · rfl
    · exact fun words => Expr.data_ne_text h words
  | stray word => cases h

mutual
/-- So is an argument. -/
theorem Arg.ofData?_data (a : Arg) (h : a.misplaced = []) : Arg.ofData? a.data = some a := by
  cases a with
  | word text => rfl
  | block commands => simp [Arg.data, Arg.ofData?, Command.ofDataAll?_dataAll commands h]

theorem Arg.ofDataAll?_dataAll (as : List Arg) (h : Arg.misplacedAll as = []) :
    Arg.ofDataAll? (Arg.dataAll as) = some as := by
  cases as with
  | nil => rfl
  | cons a as =>
    rw [Arg.misplacedAll, List.append_eq_nil_iff] at h
    simp [Arg.dataAll, Arg.ofDataAll?, Arg.ofData?_data a h.1, Arg.ofDataAll?_dataAll as h.2]

/-- And a command. -/
theorem Command.ofData?_data (c : Command) (h : c.misplaced = []) :
    Command.ofData? c.data = some c := by
  cases c with
  | invocation args => simp [Command.data, Command.ofData?, Arg.ofDataAll?_dataAll args h]
  | property name value => simp [Command.data, Command.ofData?, value.ofData?_data h]
  | definition name e => simp [Command.data, Command.ofData?, Expr.ofData?_data e h]
  | stray word => cases h

theorem Command.ofDataAll?_dataAll (cs : List Command) (h : Command.misplacedAll cs = []) :
    Command.ofDataAll? (Command.dataAll cs) = some cs := by
  cases cs with
  | nil => rfl
  | cons c cs =>
    rw [Command.misplacedAll, List.append_eq_nil_iff] at h
    simp [Command.dataAll, Command.ofDataAll?, Command.ofData?_data c h.1,
      Command.ofDataAll?_dataAll cs h.2]
end

/-! ## Order -/

theorem Expr.dataAll_eq_map (es : List Expr) : dataAll es = es.map data := by
  induction es with
  | nil => rfl
  | cons e es ih => rw [dataAll, ih, List.map_cons]

theorem Arg.dataAll_eq_map (as : List Arg) : dataAll as = as.map data := by
  induction as with
  | nil => rfl
  | cons a as ih => rw [dataAll, ih, List.map_cons]

theorem Command.dataAll_eq_map (cs : List Command) : dataAll cs = cs.map data := by
  induction cs with
  | nil => rfl
  | cons c cs ih => rw [dataAll, ih, List.map_cons]

/-! ## Dumps -/

/-- A value is given unless there are misplaced words. -/
theorem unlessMisplaced_eq_ok {α : Type} {words : List Misplaced} {value result : α} :
    unlessMisplaced words value = .ok result ↔ words = [] ∧ value = result := by
  cases words <;> simp [unlessMisplaced]

/-- **A document is read back from what is dumped of it.** -/
theorem Document.ofData?_of_dump {cs : List Command} {d : Data} (h : Document.dump cs = .ok d) :
    Document.ofData? d = some cs := by
  obtain ⟨hnone, rfl⟩ := unlessMisplaced_eq_ok.mp h
  exact Command.ofDataAll?_dataAll cs hnone

/-- **A dump loses nothing.**  The data that an expression or a document is turned into tell which
one it was, whatever its names, texts and numbers are, as long as no bare word is out of place in
it; and in a well-formed tree none is.  So no two documents have the same dump; the text of a
property is never taken for an expression, nor a word for a block; and commands, arguments and
operands stay in order. -/
theorem dump_lossless :
    (∀ e : Expr, e.misplaced = [] → ∃ d, e.dump = .ok d ∧ Expr.ofData? d = some e) ∧
    (∀ e : Expr, e.wellFormed → e.misplaced = []) ∧
    (∀ cs, Command.misplacedAll cs = [] →
      ∃ d, Document.dump cs = .ok d ∧ Document.ofData? d = some cs) ∧
    (∀ cs, Command.wellFormedAll cs → Command.misplacedAll cs = []) ∧
    (∀ cs ds d, Document.dump cs = .ok d → Document.dump ds = .ok d → cs = ds) ∧
    (∀ (words : String) (e : Expr), e.misplaced = [] →
      (PropertyValue.text words).data ≠ (PropertyValue.expr e).data) ∧
    (∀ word commands, (Arg.word word).data ≠ (Arg.block commands).data) ∧
    (∀ cs d, Document.dump cs = .ok d → d = .list (cs.map Command.data)) ∧
    (∀ args, (Command.invocation args).data =
      .record [("kind", .text "invocation"), ("args", .list (args.map Arg.data))]) ∧
    ∀ function args, (Expr.call function args).data =
      .record [("kind", .text "call"), ("name", .text function),
        ("args", .list (args.map Expr.data))] := by
  refine ⟨fun e h => ?_, Expr.misplaced_of_wellFormed, fun cs h => ?_,
    Command.misplacedAll_of_wellFormed, fun cs ds d hcs hds => ?_,
    fun words e h heq => Expr.data_ne_text h words heq.symm, fun word commands => nofun,
    fun cs d h => ?_, fun args => ?_, fun function args => ?_⟩
  · exact ⟨e.data, unlessMisplaced_eq_ok.mpr ⟨h, rfl⟩, Expr.ofData?_data e h⟩
  · have hdump : Document.dump cs = .ok (.list (Command.dataAll cs)) :=
      unlessMisplaced_eq_ok.mpr ⟨h, rfl⟩
    exact ⟨_, hdump, Document.ofData?_of_dump hdump⟩
  · rw [← Option.some_inj, ← Document.ofData?_of_dump hcs, Document.ofData?_of_dump hds]
  · obtain ⟨-, rfl⟩ := unlessMisplaced_eq_ok.mp h
    rw [Command.dataAll_eq_map]
  · rw [Command.data, Arg.dataAll_eq_map]
  · rw [Expr.data, Expr.dataAll_eq_map]

/-- A document in which a text and a name, and a word and a block, are spelled alike. -/
def sampleDocument : List Command := [
  .invocation [.word "astro", .word "Sun", .block [
    .property "texture" (.text "Sun"), .property "omega" (.expr (.ident "Sun"))]],
  .definition "r" (.binary .sub (.call "max" [.number 1e-7, .ident "pi"]) (.number (-0.0)))]

theorem dump_lossless_sample : Command.wellFormedAll sampleDocument ∧
    ∃ d, Document.dump sampleDocument = .ok d ∧ Document.ofData? d = some sampleDocument := by
  have hw : Command.wellFormedAll sampleDocument := by decide
  obtain ⟨-, -, hdocument, hmisplaced, -⟩ := dump_lossless
  exact ⟨hw, hdocument sampleDocument (hmisplaced sampleDocument hw)⟩

end Planetarium
