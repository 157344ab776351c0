import Planetarium.CommandLine
import Planetarium.Proofs.Document.Definition
import Planetarium.Proofs.Expr.RoundTrip
import Planetarium.Proofs.Grammar.OneLine

/-!
# Evaluation on the command line

The command `eval` takes definitions as options and evaluates one expression after them.  It reads
and binds them in a loop of its own, yet it comes to what a document does that has a line for each
of them (`asDocument`): the options are sorted out in order, each falls apart into its name and its
text at the first equals sign, and a text that is an expression on its own is one on such a line.

A document has three frames less than the command line for what is in a line, both to read it and
to evaluate it.  So it is compared where it has three frames more; in the same room it comes to the
same or says that there is not room enough (`ReadAs`).
-/
namespace Planetarium.CommandLine
open Decimal Parsing Text Grammar

/-- The ways to spell an option that defines a variable. -/
inductive Spelling where
  /-- A word `-D` and the value. -/
  | short
  /-- The value behind `-D` in the same word. -/
  | attached
  /-- A word `--define` and the value. -/
  | long
  /-- The value behind `--define=` in the same word. -/
  | assigned

/-- The words of the option. -/
def Spelling.words (value : String) : Spelling → List String
  | .short => ["-D", value]
  | .attached => ["-D" ++ value]
  | .long => ["--define", value]
  | .assigned => ["--define=" ++ value]

/-- A definition given on the command line. -/
structure Given where
  spelling : Spelling
  name : String
  text : String

/-- The value of the option. -/
def Given.value (g : Given) : String := g.name ++ "=" ++ g.text

/-- The definition as a line of a document. -/
def Given.line (g : Given) : String := g.name ++ " := " ++ g.text

/-- The document with a line for each definition, in order. -/
def asDocument (given : List Given) : String :=
  String.join (given.map fun g => g.line ++ "\n")

/-- The words that evaluate an expression after some definitions. -/
def evalWords (given : List Given) (expression : String) : List String :=
  "eval" :: given.flatMap (fun g => g.spelling.words g.value) ++ ["--", expression]

/-! ## Sorting the words -/

/-- A word is cut at its first equals sign. -/
theorem cut_of_notMem {name text : List Char} (h : '=' ∉ name) :
    cut (name ++ '=' :: text) = (name, some text) := by
  have hall : name.all (fun c => decide (c ≠ '=')) := by
    rw [List.all_eq_true]
    exact fun c hc => decide_eq_true fun heq => h (heq ▸ hc)
  obtain ⟨htake, hdrop⟩ := takeWhile_append_of_ends (t := '=' :: text) hall (by simp)
  rw [cut, hdrop, htake]

section Sorting
variable {spellings : Spellings} {word option value : String} {rest : List String}

theorem sortWords_of_attached (hword : word ≠ "--")
    (h : optionOf? spellings word = .ok (some (option, some value))) :
    sortWords spellings (word :: rest) =
      (sortWords spellings rest).map (Words.addOption option value) := by
  rw [sortWords, if_neg hword, h]

theorem sortWords_of_separate (hword : word ≠ "--")
    (h : optionOf? spellings word = .ok (some (option, none))) :
    sortWords spellings (word :: value :: rest) =
      (sortWords spellings rest).map (Words.addOption option value) := by
  rw [sortWords, if_neg hword, h]

/-- A long option with its value in the same word. -/
theorem optionOf?_assigned {name text : List Char}
    (hword : word.toList = '-' :: '-' :: name ++ '=' :: text) (hname : '=' ∉ name)
    (hknown : spellings.lookup (String.ofList ('-' :: '-' :: name)) = some option) :
    optionOf? spellings word = .ok (some (option, some (String.ofList text))) := by
  have hcut : cut word.toList = ('-' :: '-' :: name, some text) := by
    rw [hword]
    exact cut_of_notMem (by simpa using hname)
  simp only [optionOf?, hcut, hknown]
  simp only [hword, List.cons_append, Option.map_some]

/-- A short option with its value in the same word. -/
theorem optionOf?_attached {c d : Char} {text : List Char}
    (hword : word.toList = '-' :: c :: d :: text) (hc : c ≠ '-')
    (hknown : spellings.lookup (String.ofList ['-', c]) = some option) :
    optionOf? spellings word = .ok (some (option, some (String.ofList (d :: text)))) := by
  simp only [optionOf?, hword, hknown]
  rfl

/-- All spellings of the option are sorted alike.  Without a value behind it `-D` would take the
next word. -/
theorem sortWords_spelling (s : Spelling) (hvalue : value ≠ "") :
    sortWords evalSpellings (s.words value ++ rest) =
      (sortWords evalSpellings rest).map (Words.addOption "-D" value) := by
  cases s with
  | short => exact sortWords_of_separate (by decide) rfl
  | attached =>
    obtain ⟨d, text, hd⟩ : ∃ d text, value.toList = d :: text :=
      List.exists_cons_of_ne_nil (by simpa using hvalue)
    have hword : ("-D" ++ value).toList = '-' :: 'D' :: d :: text := by
      rw [String.toList_append, hd]
      rfl
    refine sortWords_of_attached (fun h => ?_) ?_
    · rw [h] at hword
      exact absurd hword nofun
    · rw [optionOf?_attached hword (by decide) rfl, ← hd, String.ofList_toList]
  | long => exact sortWords_of_separate (by decide) rfl
  | assigned =>
    have hword : ("--define=" ++ value).toList = "--define".toList ++ '=' :: value.toList := by
      rw [String.toList_append]
      rfl
    refine sortWords_of_attached (fun h => ?_) ?_
    · rw [h] at hword
      exact absurd hword nofun
    · have hname : '=' ∉ "define".toList := by decide
      rw [optionOf?_assigned hword hname rfl, String.ofList_toList]

end Sorting

/-- A definition as it stands on the command line is not empty, it has an equals sign. -/
theorem Given.value_ne_empty (g : Given) : g.value ≠ "" := by
  intro h
  have htext := congrArg String.toList h
  simp [Given.value] at htext

/-- The options are sorted in order, and the expression is the one plain word. -/
theorem sortWords_given (given : List Given) (expression : String) :
    sortWords evalSpellings
        (given.flatMap (fun g => g.spelling.words g.value) ++ ["--", expression]) =
      .ok { options := given.map fun g => ("-D", g.value), plain := [expression] } := by
  induction given with
  | nil => rfl
  | cons g given ih =>
    rw [List.flatMap_cons, List.append_assoc, sortWords_spelling _ g.value_ne_empty, ih]
    rfl

/-! ## One definition -/

theorem isBlank_of_isWordChar {c : Char} (h : isWordChar c) : isBlank c = false := by
  have hall : ∀ n ∈ blankCodes, isWordChar (Char.ofNat n) = false := by decide
  by_contra hblank
  have hmem : c.toNat ∈ blankCodes := by simpa [isBlank] using hblank
  have hnot := hall _ hmem
  rw [Char.ofNat_toNat, h] at hnot
  cases hnot

/-- There is nothing to strip off a name. -/
theorem strip_of_isName {name : List Char} (h : isName name) : strip name = name := by
  have hkept : ∀ text : List Char, (∀ c ∈ text, c ∈ name) → text.dropWhile isBlank = text := by
    intro text htext
    refine dropWhile_of_head fun c hc => isBlank_of_isWordChar ?_
    exact List.all_eq_true.mp (all_isWordChar h) c (htext c (List.mem_of_mem_head? hc))
  rw [strip, hkept name fun _ hc => hc, hkept name.reverse fun _ hc => List.mem_reverse.mp hc,
    List.reverse_reverse]

/-- A definition falls apart into its name and its text. -/
theorem splitDefinition_value {g : Given} (h : isName g.name.toList) :
    splitDefinition g.value = .ok (g.name, g.text) := by
  have hnot : '=' ∉ g.name.toList := fun hmem =>
    absurd (List.all_eq_true.mp (all_isWordChar h) _ hmem) (by decide)
  have hcut : cut g.value.toList = (g.name.toList, some g.text.toList) := by
    rw [Given.value, String.toList_append, String.toList_append, List.append_assoc]
    exact cut_of_notMem hnot
  have hne : g.name.toList.isEmpty = false := by
    cases hname : g.name.toList with
    | nil => rw [hname] at h; cases h
    | cons => rfl
  simp only [splitDefinition, hcut, strip_of_isName h, hne, String.ofList_toList]
  rfl

/-- The value of a text is that of the expression it is read as. -/
theorem valueOf_of_parse {text : String} {e : Expr} {room : Room}
    (h : Expr.parse text { room } = .ok e) (env : Environment) :
    valueOf env text room = reject EvalError.message (e.evaluate env room) := by
  rw [valueOf, h]
  rfl

/-- What a definition on the command line stands for. -/
structure Given.Means (room : Room) (g : Given) (d : Definition) : Prop where
  isName : isName g.name.toList
  oneLine : OneLine g.text.toList
  name_eq : d.name = g.name
  parse : Expr.parse g.text { room } = .ok d.expr

section Means
variable {g : Given} {d : Definition} {given : List Given} {ds : List Definition} {room : Room}

/-- One definition more. -/
theorem Given.Means.defineAll_cons (h : g.Means room d) (env : Environment) (words : List String) :
    defineAll env (g.value :: words) room = match d.expr.evaluate env room with
      | .ok x => defineAll (env.insert d.name x) words room
      | .error reason => .error (.rejected reason.message) := by
  rw [defineAll, splitDefinition_value h.isName, h.name_eq]
  change (do let x ← valueOf env g.text room; defineAll (env.insert g.name x) words room) = _
  rw [valueOf_of_parse h.parse]
  cases d.expr.evaluate env room <;> rfl

/-- The command line and a pass make the same of definitions, from the same variables on.  The pass
takes a frame before it evaluates one. -/
theorem defineAll_means (h : List.Forall₂ (Given.Means room) given ds) (j : Journal) :
    (∃ reason k, (Pass.defineAll none (ds.map (·.inRoom (room.above 1)))).go j =
        (.error (.evaluation reason), k) ∧
      defineAll j.env (given.map Given.value) room = .error (.rejected reason.message)) ∨
    ∃ k, (Pass.defineAll none (ds.map (·.inRoom (room.above 1)))).go j = (.ok (), k) ∧
      defineAll j.env (given.map Given.value) room = .ok k.env := by
  induction h generalizing j with
  | nil => exact .inr ⟨j, rfl, rfl⟩
  | @cons g d given ds hg _ ih =>
    have heval : (d.inRoom (room.above 1)).evaluate j.env = d.expr.evaluate j.env room := by
      rw [Definition.evaluate, Definition.inRoom, Room.below_above]
    rw [List.map_cons, Pass.defineAll, Pass.go_bind, List.map_cons, hg.defineAll_cons]
    rcases Pass.define_cases none (d.inRoom (room.above 1)) j with ⟨f, hfail, hgo⟩ | ⟨x, -, hx, hgo⟩
    · obtain ⟨reason, hx, rfl⟩ := Definition.exists_reason_of_failure? hfail
      rw [hgo, ← heval, hx]
      exact .inl ⟨reason, _, rfl, rfl⟩
    · rw [hgo, ← heval, hx]
      exact ih _

theorem exists_means (h : ∀ g ∈ given, ∃ d, g.Means room d) :
    ∃ ds, List.Forall₂ (Given.Means room) given ds := by
  induction given with
  | nil => exact ⟨[], .nil⟩
  | cons g given ih =>
    obtain ⟨d, hd⟩ := h g List.mem_cons_self
    obtain ⟨ds, hds⟩ := ih fun g hg => h g (List.mem_cons_of_mem _ hg)
    exact ⟨d :: ds, .cons hd hds⟩

end Means

/-! ## Reading lines -/

/-- The limits of a document that leave these for the expressions of its lines. -/
def forLines (limits : Limits) : Limits :=
  { limits with room := limits.room.above Level.assignmentFrames }

/-- The text is read as a document where there is as much room for its lines as in these limits.
Under the limits themselves it is read so too, or found to be nested too deeply for the stack. -/
structure ReadAs (limits : Limits) (text : String) (cs : List Command) : Prop where
  raised : Document.parse text (forLines limits) = .ok cs
  same : Document.parse text limits = .ok cs ∨
    ∃ error, Document.parse text limits = .error error ∧
      error.fault.cause = .stackExhausted limits.depth

section Lines
variable {limits : Limits} {name text : String} {e : Expr} {cs : List Command}

/-- There is as much room for an expression on its own as in such a document. -/
theorem sameRoom_forLines : Level.SameRoom { limits, multiline := true }
    ({ limits := forLines limits } : Level).inAssignment := by
  refine ⟨rfl, rfl, fun k => ?_⟩
  rw [Level.lacks_inAssignment, Bool.eq_iff_iff, ← Bool.not_eq_false, ← Bool.not_eq_false,
    Level.lacks_eq_false, Level.lacks_eq_false]
  refine not_congr ?_
  cases hroom : limits.room with
  | none => simp [forLines, hroom, Room.above]
  | some r =>
    simp only [forLines, hroom, Room.above, Option.map_some, Option.mem_some, forall_eq']
    omega

/-- Where an expression is read there is room for a line. -/
theorem lacks_forLines (h : Expr.ofChars limits text.toList = .ok e) :
    Level.lacks { limits := forLines limits } Level.commandFrames = false := by
  have hroom := Level.lacks_eq_false.mp (ofChars_expression.mp h).room_expression
  rw [Level.lacks_eq_false]
  intro r hr
  obtain ⟨r, hr', rfl⟩ := Option.map_eq_some_iff.mp hr
  have := hroom r hr'
  simp only [Level.expressionFrames] at this
  simp only [Level.commandFrames, Level.assignmentFrames]
  omega

theorem ReadAs.of_parse (h : Document.parse text (forLines limits) = .ok cs) :
    ReadAs limits text cs :=
  ⟨h, Document.parse_narrow h rfl Room.atMost_above⟩

/-- A line that derives a command is read as that command, where there is room for an expression. -/
theorem ReadAs.of_line {line : String} {c : Command} (h : Expr.parse text limits = .ok e)
    (hline : Reads { limits := forLines limits } line.toList (.command c) []) :
    ReadAs limits line [c] :=
  .of_parse (parse_document.mpr
    (isDocument_singleton hline (lacks_forLines (mapError_eq_ok.mp h))))

/-- A definition on a line of its own is read with its expression. -/
theorem readAs_definition (hname : isName name.toList) (hline : OneLine text.toList)
    (h : Expr.parse text limits = .ok e) :
    ReadAs limits (name ++ " := " ++ text) [.definition name e] := by
  refine .of_line h ?_
  rw [String.toList_append, String.toList_append]
  exact reads_definition_line hname rfl (reads_line hline (mapError_eq_ok.mp h) sameRoom_forLines)

/-- So is a property. -/
theorem readAs_property (hname : isName name.toList) (hline : OneLine text.toList)
    (h : Expr.parse text limits = .ok e) :
    ReadAs limits (name ++ ": " ++ text) [.property name (.expr e)] := by
  refine .of_line h ?_
  rw [String.toList_append, String.toList_append]
  exact reads_property_line hname rfl (reads_line hline (mapError_eq_ok.mp h) sameRoom_forLines)

/-- The lines of definitions make a document of these definitions. -/
theorem isDocument_asDocument {given : List Given} {ds : List Definition} {room : Room}
    (hroom : Level.lacks { limits := forLines { room } } Level.commandFrames = false)
    (h : List.Forall₂ (Given.Means room) given ds) :
    IsDocument (forLines { room }) (asDocument given).toList (ds.map Definition.command) := by
  induction h with
  | nil => exact ⟨[], .noCommands hroom, rfl⟩
  | @cons g d given ds hg _ ih =>
    have htext : (asDocument (g :: given)).toList =
        g.line.toList ++ '\n' :: (asDocument given).toList := by
      simp [asDocument]
    have hexpr := reads_line hg.oneLine (mapError_eq_ok.mp hg.parse) sameRoom_forLines
    have hline : Reads { limits := forLines { room } } g.line.toList (.command d.command) [] := by
      rw [Given.line, String.toList_append, String.toList_append, Definition.command, hg.name_eq]
      exact reads_definition_line hg.isName rfl hexpr
    rw [htext]
    exact IsDocument.cons hline ih

end Lines

/-! ## The command -/

/-- The command defines its variables first, and then evaluates the expression. -/
theorem run_evalWords (files : Files) (given : List Given) (expression : String) (room : Room) :
    run files (evalWords given expression) room = .plain (do
      let env ← defineAll .empty (given.map Given.value) room
      let x ← valueOf env expression room
      return shortestText x ++ "\n") := by
  have hrun : run files (evalWords given expression) room = .plain (runEval
      (given.flatMap (fun g => g.spelling.words g.value) ++ ["--", expression]) room) :=
    rfl
  have hvalues : given.map Given.value =
      (given.map fun g => ("-D", g.value)).map Prod.snd := by
    rw [List.map_map]
    rfl
  rw [hrun, runEval, sortWords_given, hvalues]
  rfl

/-- The definitions of the lines of a document are applied one frame above the command line. -/
theorem evaluateAll_lines (ds : List Definition) (room : Room) :
    Command.evaluateAll none (ds.map Definition.command) (room.above 3) =
      Pass.defineAll none (ds.map (·.inRoom (room.above 1))) := by
  rw [Command.evaluateAll_eq_defineAll, Command.definitionsAll_map_command,
    Room.below_above_add (n := 1)]

/-- In less room a document of lines does the same, unless a definition is nested too deeply. -/
theorem evaluateAll_lines_narrow {ds : List Definition} {room wide : Room} {j : Journal}
    (hwide : room.AtMost wide)
    (hne : ((Command.evaluateAll none (ds.map Definition.command) room).go j).1 ≠
      .error (.evaluation .nestedTooDeep)) :
    (Command.evaluateAll none (ds.map Definition.command) room).go j =
      (Command.evaluateAll none (ds.map Definition.command) wide).go j := by
  rw [Command.evaluateAll_eq_defineAll, Command.definitionsAll_map_command] at hne ⊢
  rw [Command.evaluateAll_eq_defineAll, Command.definitionsAll_map_command]
  have hroom : ∀ d ∈ ds.map (·.inRoom (room.below 2)), d.room.AtMost (wide.below 2) :=
    List.forall_mem_map.mpr fun d _ => hwide.below_below
  have hsame := Pass.defineAll_inRoom hroom hne
  rw [List.map_map] at hsame
  exact hsame.symm

/-- **The modes agree.**  A line that is an expression on its own can be defined and can be the
value of a property.  So the command line, which evaluates an expression after definitions, does
with them what the document of their lines does: where the document fails it fails for the same
reason, and otherwise it shows what the expression is worth with the variables that the document
leaves, or fails as that expression does.  That is so where the document has the three frames more
that its passes take; in the same room it comes to the same or fails for want of room. -/
theorem modes_agree :
    (∀ (limits : Limits) (name text : String) (e : Expr),
      isName name.toList → OneLine text.toList → Expr.parse text limits = .ok e →
      ReadAs limits (name ++ " := " ++ text) [.definition name e] ∧
      ReadAs limits (name ++ ": " ++ text) [.property name (.expr e)]) ∧
    ∀ (files : Files) (given : List Given) (expression : String) (e : Expr) (room : Room),
      (∀ g ∈ given,
        isName g.name.toList ∧ OneLine g.text.toList ∧ ∃ e, Expr.parse g.text { room } = .ok e) →
      Expr.parse expression { room } = .ok e →
      ∃ cs, ReadAs { room } (asDocument given) cs ∧
        (match (Command.evaluateAll none cs (room.above 3)).go {} with
        | (.ok (), j) => run files (evalWords given expression) room = .plain
            (match e.evaluate j.env room with
            | .ok x => .ok (shortestText x ++ "\n")
            | .error reason => .error (.rejected reason.message))
        | (.error f, _) => ∃ reason, f = .evaluation reason ∧
            run files (evalWords given expression) room =
              .plain (.error (.rejected reason.message))) ∧
        (((Command.evaluateAll none cs room).go {}).1 ≠ .error (.evaluation .nestedTooDeep) →
          (Command.evaluateAll none cs room).go {} =
            (Command.evaluateAll none cs (room.above 3)).go {}) := by
  constructor
  · exact fun limits name text e hname hline h =>
      ⟨readAs_definition hname hline h, readAs_property hname hline h⟩
  · intro files given expression e room hgiven h
    obtain ⟨ds, hds⟩ := exists_means fun g hg => by
      obtain ⟨hname, hline, e, he⟩ := hgiven g hg
      exact ⟨{ name := g.name, expr := e }, hname, hline, rfl, he⟩
    have hread := isDocument_asDocument (lacks_forLines (mapError_eq_ok.mp h)) hds
    refine ⟨ds.map Definition.command, .of_parse (parse_document.mpr hread), ?_,
      evaluateAll_lines_narrow Room.atMost_above⟩
    rw [evaluateAll_lines, run_evalWords]
    rcases defineAll_means hds {} with ⟨reason, k, hgo, hdefine⟩ | ⟨k, hgo, hdefine⟩
    · rw [hgo]
      change defineAll .empty _ _ = _ at hdefine
      exact ⟨reason, rfl, by rw [hdefine]; rfl⟩
    · rw [hgo]
      change defineAll .empty _ _ = _ at hdefine
      rw [hdefine]
      change Result.plain
        (do let x ← valueOf k.env expression room; return shortestText x ++ "\n") = _
      rw [valueOf_of_parse h]
      cases e.evaluate k.env room <;> rfl

/-- Two definitions, of which the second goes back to the first. -/
def sampleGiven : List Given :=
  [⟨.attached, "r", "pi"⟩, ⟨.assigned, "d", "(r - r)"⟩]

/-- What they stand for. -/
def sampleDefinitions : List Definition :=
  [{ name := "r", expr := .ident "pi" },
    { name := "d", expr := .binary .sub (.ident "r") (.ident "r") }]

theorem parse_of_chars {text : String} {e : Expr} (htext : text.toList = e.chars)
    (hw : e.wellFormed) (hnesting : e.nesting ≤ 64) : Expr.parse text = .ok e := by
  refine mapError_eq_ok.mpr ?_
  rw [htext]
  refine Expr.ofChars_chars hw (Int.ofNat_le.mpr hnesting) ?_
  rintro _ ⟨⟩
  have hframes := framesForNesting_mono hnesting
  exact Nat.le_trans hframes (by decide)

theorem means_sample : List.Forall₂ (Given.Means .standard) sampleGiven sampleDefinitions :=
  .cons ⟨by decide, by decide, rfl, parse_of_chars (by decide) (by decide) (by decide)⟩
    (.cons ⟨by decide, by decide, rfl, parse_of_chars (by decide) (by decide) (by decide)⟩ .nil)

theorem modes_agree_sample :
    ReadAs {} "d := (r - r)" [.definition "d" (.binary .sub (.ident "r") (.ident "r"))] ∧
    run (fun _ => .missing) ["eval", "-Dr=pi", "--define=d=(r - r)", "--", "r"] =
      .plain (.ok "3.141592653589793\n") := by
  have hdifference : Expr.parse "(r - r)" = .ok (.binary .sub (.ident "r") (.ident "r")) :=
    parse_of_chars (by decide) (by decide) (by decide)
  have hpi : Expr.parse "pi" = .ok (.ident "pi") :=
    parse_of_chars (by decide) (by decide) (by decide)
  have hgiven : ∀ g ∈ sampleGiven, isName g.name.toList ∧ OneLine g.text.toList ∧
      ∃ e, Expr.parse g.text { room := .standard } = .ok e :=
    List.forall_mem_cons.mpr ⟨⟨by decide, by decide, _, hpi⟩,
      List.forall_mem_singleton.mpr ⟨by decide, by decide, _, hdifference⟩⟩
  refine ⟨(modes_agree.1 {} "d" "(r - r)" _ (by decide) (by decide) hdifference).1, ?_⟩
  have hr : Expr.parse "r" = .ok (.ident "r") :=
    parse_of_chars (by decide) (by decide) (by decide)
  obtain ⟨cs, hcs, hrun, -⟩ :=
    modes_agree.2 (fun _ => .missing) sampleGiven "r" (.ident "r") .standard hgiven hr
  have hread := parse_document.mpr
    (isDocument_asDocument (lacks_forLines (mapError_eq_ok.mp hr)) means_sample)
  obtain rfl := Except.ok.inj (hcs.raised.symm.trans hread)
  have hshown : shortestText 3.141592653589793 ++ "\n" = "3.141592653589793\n" := by decide +kernel
  rw [← hshown]
  exact hrun

/-- In the same room an expression that can be read may be nested too deeply for a line. -/
theorem not_always_a_line :
    let text := String.ofList (Document.leftSum 164).chars
    Expr.parse text { depth := 1000 } = .ok (Document.leftSum 164) ∧
    ∃ error, Document.parse ("x := " ++ text) { depth := 1000 } = .error error ∧
      error.fault.cause = .stackExhausted 1000 := by
  intro text
  have hnesting := Document.nesting_leftSum 164
  constructor
  · refine mapError_eq_ok.mpr ?_
    rw [String.toList_ofList]
    refine Expr.ofChars_chars (Document.leftSum_wellFormed 164) (by rw [hnesting]; decide) ?_
    rintro _ ⟨⟩
    rw [Expr.readingFrames, hnesting]
    decide
  · obtain ⟨rest, hrest⟩ := Document.exists_chars_leftSum 164
    have htext : ("x := " ++ String.ofList (Document.leftSum 164).chars).toList =
        deepDefinition 164 rest := by
      rw [hrest, deepDefinition, String.toList_append]
      exact congrArg ("x := ".toList ++ ·) String.toList_ofList
    have hfault : Document.ofChars { depth := 1000 } (deepDefinition 164 rest) =
        .error ⟨.stackExhausted 1000, 0⟩ :=
      Document.ofChars_deepDefinition 992 rfl (by decide) (by decide) (by decide) rest
    have hread : Document.parse ("x := " ++ text) { depth := 1000 } =
        .error (Fault.inText ⟨.stackExhausted 1000, 0⟩ (deepDefinition 164 rest)) := by
      rw [Document.parse, show ("x := " ++ text).toList = _ from htext, hfault]
      rfl
    exact ⟨_, hread, rfl⟩

end Planetarium.CommandLine
