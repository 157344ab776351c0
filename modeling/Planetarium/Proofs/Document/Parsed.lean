import Planetarium.Data.Tree
import Planetarium.Expr.Eval
import Planetarium.Proofs.Expr.RoundTrip

/-!
# What comes out of a reader

Every tree that is read from a text is well formed, and its blocks and calls do not stand deeper
inside each other than the limits allow.  Both are seen on the derivation of the text, one
production after another.  Groups leave no trace in the tree and the operations of an expression
are not counted here, so the depth of a tree may well be lower than that of its text.

A well-formed tree holds no node that writing, dumping or evaluating it would reject.
-/
namespace Planetarium
open Parsing Text Decimal

/-! ## Blocks and calls inside each other -/

mutual
/-- How many calls stand inside each other. -/
def Expr.depth : Expr → Nat
  | .ident _ | .number _ | .stray _ => 0
  | .call _ args => Expr.depthAll args + 1
  | .binary _ left right => max left.depth right.depth

/-- The greatest depth of some expressions. -/
def Expr.depthAll : List Expr → Nat
  | [] => 0
  | e :: es => max e.depth (Expr.depthAll es)
end

/-- The depth of the expression, if there is one. -/
def PropertyValue.depth : PropertyValue → Nat
  | .text _ | .stray _ => 0
  | .expr e => e.depth

mutual
/-- The depth of what is in a block, and the block itself. -/
def Arg.depth : Arg → Nat
  | .word _ => 0
  | .block commands => Command.depthAll commands + 1

/-- The greatest depth of some arguments. -/
def Arg.depthAll : List Arg → Nat
  | [] => 0
  | a :: as => max a.depth (Arg.depthAll as)

/-- How many blocks and calls stand inside each other. -/
def Command.depth : Command → Nat
  | .invocation args => Arg.depthAll args
  | .property _ value => value.depth
  | .definition _ e => e.depth
  | .stray _ => 0

/-- The greatest depth of some commands. -/
def Command.depthAll : List Command → Nat
  | [] => 0
  | c :: cs => max c.depth (Command.depthAll cs)
end

namespace Grammar

/-- The trees of a phrase are well formed. -/
def Phrase.wellFormed : Phrase → Bool
  | .atom e | .factor e | .term e | .expression e => e.wellFormed
  | .arguments es => Expr.wellFormedAll es
  | .command c => c.wellFormed
  | .args as => Arg.wellFormedAll as
  | .commands cs => Command.wellFormedAll cs

/-- The depth of the trees of a phrase. -/
def Phrase.depth : Phrase → Nat
  | .atom e | .factor e | .term e | .expression e => e.depth
  | .arguments es => Expr.depthAll es
  | .command c => c.depth
  | .args as => Arg.depthAll as
  | .commands cs => Command.depthAll cs

variable {l : Level} {s t : List Char} {p : Phrase}

theorem isFinite_of_number {x : Float} (h : Number s x t) : isFinite x := by
  obtain ⟨numeral, -, hfloat, hx⟩ := h
  exact isFinite_of_float? hfloat hx

theorem ne_unspecified_of_additive? {c : Char} {op : Operator}
    (h : Operator.additive? c = some op) :
    (op != .unspecified) = true := by
  unfold Operator.additive? at h
  split at h <;> cases h <;> rfl

theorem ne_unspecified_of_multiplicative? {c : Char} {op : Operator}
    (h : Operator.multiplicative? c = some op) : (op != .unspecified) = true := by
  unfold Operator.multiplicative? at h
  split at h <;> cases h <;> rfl

/-- Only well-formed trees are derived. -/
theorem Reads.wellFormed (h : Reads l s p t) : p.wellFormed := by
  induction h with
  | number h => exact isFinite_of_number h
  | name h _ => exact h.isName
  | call h _ _ _ ih => exact Bool.and_eq_true_iff.mpr ⟨h.isName, ih⟩
  | group _ _ ih | factor _ ih | term _ ih | expression _ _ ih | invocation _ ih => exact ih
  | product _ hop _ ih ihr =>
    exact Bool.and_eq_true_iff.mpr
      ⟨Bool.and_eq_true_iff.mpr ⟨ne_unspecified_of_multiplicative? hop, ih⟩, ihr⟩
  | sum _ hop _ ih ihr =>
    exact Bool.and_eq_true_iff.mpr
      ⟨Bool.and_eq_true_iff.mpr ⟨ne_unspecified_of_additive? hop, ih⟩, ihr⟩
  | noArguments _ | noArgs _ | noCommands _ => rfl
  | argument _ _ _ ih ihs | commands _ _ ih ihs => exact Bool.and_eq_true_iff.mpr ⟨ih, ihs⟩
  | definition h _ _ ih | property h _ _ ih => exact Bool.and_eq_true_iff.mpr ⟨h.isName, ih⟩
  | text h _ hq =>
    exact Bool.and_eq_true_iff.mpr ⟨h.isName, by simpa [PropertyValue.wellFormed] using hq.2⟩
  | word h _ ih => exact Bool.and_eq_true_iff.mpr ⟨h.isName, ih⟩
  | block _ _ _ _ ih ihs => exact Bool.and_eq_true_iff.mpr ⟨ih, ihs⟩

theorem lt_of_isFull_eq_false (h : l.isFull = false) : (l.depth + 1 : Int) ≤ l.limits.depth := by
  have := of_decide_eq_false h
  omega

/-- What is derived at a level fits into what the limits leave there. -/
theorem Reads.depth_le (h : Reads l s p t) (hl : l.depth ≤ l.limits.depth) :
    (l.depth + p.depth : Int) ≤ l.limits.depth := by
  induction h with
  | number _ | name _ _ | text _ _ _ | noArguments _ | noArgs _ | noCommands _ =>
    simp only [Phrase.depth, Expr.depth, Expr.depthAll, Command.depth, PropertyValue.depth,
      Arg.depthAll, Command.depthAll]
    omega
  | call _ _ hfull _ ih =>
    have := ih (lt_of_isFull_eq_false hfull)
    simp only [Phrase.depth, Expr.depth, Level.inGroup] at this ⊢
    omega
  | group hfull _ ih =>
    have := ih (lt_of_isFull_eq_false hfull)
    simp only [Phrase.depth, Level.inGroup] at this ⊢
    omega
  | factor _ ih | term _ ih | expression _ _ ih | definition _ _ _ ih | property _ _ _ ih
  | invocation _ ih => exact ih hl
  | product _ _ _ ih ihr | sum _ _ _ ih ihr =>
    have := ih hl
    have := ihr hl
    simp only [Phrase.depth, Expr.depth] at *
    omega
  | argument _ _ _ ih ihs | commands _ _ ih ihs =>
    have := ih hl
    have := ihs hl
    simp only [Phrase.depth, Expr.depthAll, Command.depthAll] at *
    omega
  | word _ _ ih =>
    have := ih hl
    simp only [Phrase.depth, Arg.depthAll, Arg.depth] at *
    omega
  | block hfull _ _ _ ih ihs =>
    have := ih (lt_of_isFull_eq_false hfull)
    have := ihs hl
    simp only [Phrase.depth, Arg.depthAll, Arg.depth, Level.inBlock] at *
    omega

end Grammar

/-! ## Well-formed trees are not rejected -/

theorem PropertyValue.misplaced_of_wellFormed {v : PropertyValue} (hw : v.wellFormed) :
    v.misplaced = [] := by
  cases v with
  | text s => rfl
  | expr e => exact e.misplaced_of_wellFormed hw
  | stray word => contradiction

mutual
theorem Arg.misplaced_of_wellFormed (a : Arg) (hw : a.wellFormed) : a.misplaced = [] := by
  cases a with
  | word text => rfl
  | block commands => exact Command.misplacedAll_of_wellFormed commands hw

theorem Arg.misplacedAll_of_wellFormed (as : List Arg) (hw : Arg.wellFormedAll as) :
    Arg.misplacedAll as = [] := by
  cases as with
  | nil => rfl
  | cons a as =>
    rw [Arg.wellFormedAll, Bool.and_eq_true] at hw
    rw [Arg.misplacedAll, Arg.misplaced_of_wellFormed a hw.1,
      Arg.misplacedAll_of_wellFormed as hw.2]
    rfl

theorem Command.misplaced_of_wellFormed (c : Command) (hw : c.wellFormed) : c.misplaced = [] := by
  cases c with
  | invocation args =>
    rw [Command.wellFormed, Bool.and_eq_true] at hw
    exact Arg.misplacedAll_of_wellFormed args hw.2
  | property name value =>
    rw [Command.wellFormed, Bool.and_eq_true] at hw
    exact PropertyValue.misplaced_of_wellFormed hw.2
  | definition name e =>
    rw [Command.wellFormed, Bool.and_eq_true] at hw
    exact e.misplaced_of_wellFormed hw.2
  | stray word => contradiction

/-- A well-formed document has no misplaced words. -/
theorem Command.misplacedAll_of_wellFormed (cs : List Command) (hw : Command.wellFormedAll cs) :
    Command.misplacedAll cs = [] := by
  cases cs with
  | nil => rfl
  | cons c cs =>
    rw [Command.wellFormedAll, Bool.and_eq_true] at hw
    rw [Command.misplacedAll, Command.misplaced_of_wellFormed c hw.1,
      Command.misplacedAll_of_wellFormed cs hw.2]
    rfl
end

/-- The expression of the value, if there is one. -/
def PropertyValue.expressions : PropertyValue → List Expr
  | .expr e => [e]
  | .text _ | .stray _ => []

mutual
/-- The expressions in an argument. -/
def Arg.expressions : Arg → List Expr
  | .word _ => []
  | .block commands => Command.expressionsAll commands

/-- The expressions in some arguments. -/
def Arg.expressionsAll : List Arg → List Expr
  | [] => []
  | a :: as => a.expressions ++ Arg.expressionsAll as

/-- The expressions of a command and of the commands in its blocks. -/
def Command.expressions : Command → List Expr
  | .invocation args => Arg.expressionsAll args
  | .property _ value => value.expressions
  | .definition _ e => [e]
  | .stray _ => []

/-- The expressions of some commands. -/
def Command.expressionsAll : List Command → List Expr
  | [] => []
  | c :: cs => c.expressions ++ Command.expressionsAll cs
end

theorem PropertyValue.wellFormed_expressions {v : PropertyValue} (hw : v.wellFormed) :
    ∀ e ∈ v.expressions, e.wellFormed := by
  cases v with
  | text _ | stray _ => simp [expressions]
  | expr e => exact List.forall_mem_singleton.mpr hw

mutual
theorem Arg.wellFormed_expressions (a : Arg) (hw : a.wellFormed) :
    ∀ e ∈ a.expressions, e.wellFormed := by
  cases a with
  | word text => nofun
  | block commands => exact Command.wellFormed_expressionsAll commands hw

theorem Arg.wellFormed_expressionsAll (as : List Arg) (hw : Arg.wellFormedAll as) :
    ∀ e ∈ Arg.expressionsAll as, e.wellFormed := by
  cases as with
  | nil => nofun
  | cons a as =>
    rw [Arg.wellFormedAll, Bool.and_eq_true] at hw
    exact List.forall_mem_append.mpr
      ⟨Arg.wellFormed_expressions a hw.1, Arg.wellFormed_expressionsAll as hw.2⟩

theorem Command.wellFormed_expressions (c : Command) (hw : c.wellFormed) :
    ∀ e ∈ c.expressions, e.wellFormed := by
  cases c with
  | invocation args =>
    rw [Command.wellFormed, Bool.and_eq_true] at hw
    exact Arg.wellFormed_expressionsAll args hw.2
  | property name value =>
    rw [Command.wellFormed, Bool.and_eq_true] at hw
    exact PropertyValue.wellFormed_expressions hw.2
  | definition name e =>
    rw [Command.wellFormed, Bool.and_eq_true] at hw
    exact List.forall_mem_singleton.mpr hw.2
  | stray word => nofun

/-- Its expressions are well formed. -/
theorem Command.wellFormed_expressionsAll (cs : List Command) (hw : Command.wellFormedAll cs) :
    ∀ e ∈ Command.expressionsAll cs, e.wellFormed := by
  cases cs with
  | nil => nofun
  | cons c cs =>
    rw [Command.wellFormedAll, Bool.and_eq_true] at hw
    exact List.forall_mem_append.mpr
      ⟨Command.wellFormed_expressions c hw.1, Command.wellFormed_expressionsAll cs hw.2⟩
end

/-- The error is about a node that has no place in an expression. -/
def EvalError.isMisfit : EvalError → Bool
  | .strayWord | .unspecifiedOperator => true
  | _ => false

namespace Expr
variable {env : Environment}

theorem not_isMisfit_of_takeRoom {frames : Nat} {room : Room} {reason : EvalError}
    (h : takeRoom frames room = .error reason) : ¬ reason.isMisfit := by
  cases room with
  | none => cases h
  | some n =>
    rw [takeRoom] at h
    split at h <;> cases h
    exact Bool.false_ne_true

theorem not_isMisfit_of_lookup {name : String} {reason : EvalError}
    (h : lookup env name = .error reason) : ¬ reason.isMisfit := by
  unfold lookup at h
  split at h
  · cases h
  · split at h <;> cases h
    nofun

theorem not_isMisfit_of_resolve {function : String} {count : Nat} {reason : EvalError}
    (h : resolve function count = .error reason) : ¬ reason.isMisfit := by
  unfold resolve at h
  split at h
  · cases h
    nofun
  · split at h <;> cases h
    nofun

/-- A step and what follows it fail for a reason of the one or of the other. -/
theorem not_isMisfit_of_bind {α β : Type} {x : Except EvalError α} {f : α → Except EvalError β}
    {reason : EvalError} (h : x >>= f = .error reason)
    (hx : ∀ reason, x = .error reason → ¬ reason.isMisfit)
    (hf : ∀ a reason, f a = .error reason → ¬ reason.isMisfit) : ¬ reason.isMisfit := by
  cases x with
  | error r =>
    obtain rfl := Except.error.inj h
    exact hx r rfl
  | ok a => exact hf a reason h

mutual
/-- Evaluating a well-formed expression meets no node that it rejects. -/
theorem not_isMisfit_of_eval (e : Expr) (hw : e.wellFormed) (room : Room)
    (reason : EvalError) (h : e.eval env room = .error reason) : ¬ reason.isMisfit := by
  cases e with
  | ident name =>
    exact not_isMisfit_of_bind h (fun _ => not_isMisfit_of_takeRoom)
      fun _ _ => not_isMisfit_of_lookup
  | number value => exact not_isMisfit_of_bind h (fun _ => not_isMisfit_of_takeRoom) nofun
  | call function args =>
    rw [Expr.wellFormed, Bool.and_eq_true] at hw
    refine not_isMisfit_of_bind h (fun _ => not_isMisfit_of_takeRoom) fun room reason h => ?_
    refine not_isMisfit_of_bind h (fun _ => not_isMisfit_of_resolve) fun rule reason h => ?_
    refine not_isMisfit_of_bind h (fun _ => not_isMisfit_of_takeRoom) fun room reason h => ?_
    exact not_isMisfit_of_bind h (not_isMisfit_of_evalAll args hw.2 room) nofun
  | binary op left right =>
    rw [Expr.wellFormed, Bool.and_eq_true, Bool.and_eq_true, bne_iff_ne] at hw
    refine not_isMisfit_of_bind h (fun _ => not_isMisfit_of_takeRoom) fun room reason h => ?_
    cases hop : op.apply? with
    | none =>
      cases op with
      | unspecified => exact absurd rfl hw.1.1
      | add | sub | mul | div => cases hop
    | some apply =>
      simp only [hop] at h
      refine not_isMisfit_of_bind h (not_isMisfit_of_eval left hw.1.2 room) fun x reason h => ?_
      exact not_isMisfit_of_bind h (not_isMisfit_of_eval right hw.2 room) nofun
  | stray word => contradiction

theorem not_isMisfit_of_evalAll (es : List Expr) (hw : wellFormedAll es) (room : Room)
    (reason : EvalError) (h : evalAll env room es = .error reason) : ¬ reason.isMisfit := by
  cases es with
  | nil => cases h
  | cons e es =>
    rw [wellFormedAll, Bool.and_eq_true] at hw
    refine not_isMisfit_of_bind h (not_isMisfit_of_eval e hw.1 room) fun x reason h => ?_
    exact not_isMisfit_of_bind h (not_isMisfit_of_evalAll es hw.2 room) nofun
end

/-- Writing, dumping and evaluating the expression meets no node that is rejected. -/
structure Accepted (e : Expr) : Prop where
  format : ∃ text, e.format = .ok text
  dump : ∃ data, e.dump = .ok data
  evaluate : ∀ env room reason, e.evaluate env room = .error reason → ¬ reason.isMisfit

/-- A well-formed expression has a text, data and a value, or an error of its own. -/
theorem accepted_of_wellFormed {e : Expr} (hw : e.wellFormed) : e.Accepted where
  format := ⟨_, format_eq hw⟩
  dump := by
    rw [dump, misplaced_of_wellFormed e hw]
    exact ⟨_, rfl⟩
  evaluate _ _ := not_isMisfit_of_eval e hw _

end Expr

theorem Command.exists_dump {c : Command} (hw : c.wellFormed) : ∃ data, c.dump = .ok data := by
  rw [dump, misplaced_of_wellFormed c hw]
  exact ⟨_, rfl⟩

/-- A well-formed document can be dumped. -/
theorem Document.exists_dump {cs : List Command} (hw : Command.wellFormedAll cs) :
    ∃ data, Document.dump cs = .ok data := by
  rw [dump, Command.misplacedAll_of_wellFormed cs hw]
  exact ⟨_, rfl⟩

theorem Command.wellFormed_of_mem {c : Command} {cs : List Command}
    (hw : Command.wellFormedAll cs) (hc : c ∈ cs) : c.wellFormed := by
  induction cs with
  | nil => nomatch hc
  | cons d ds ih =>
    rw [Command.wellFormedAll, Bool.and_eq_true] at hw
    rcases List.mem_cons.mp hc with rfl | hc
    · exact hw.1
    · exact ih hw.2 hc

/-! ## Whole texts -/

namespace Grammar

/-- **What is read from a text is well formed.**  Its blocks and calls are not deeper inside each
other than allowed, and whoever writes, dumps or evaluates it meets no node that is rejected. -/
theorem parse_wellFormed (text : String) (limits : Limits) (hdepth : 0 ≤ limits.depth) :
    (∀ cs, Document.parse text limits = .ok cs →
      Command.wellFormedAll cs ∧ Command.depthAll cs ≤ limits.depth ∧
      (∃ data, Document.dump cs = .ok data) ∧ (∀ c ∈ cs, ∃ data, c.dump = .ok data) ∧
      ∀ e ∈ Command.expressionsAll cs, e.Accepted) ∧
    ∀ e, Expr.parse text limits = .ok e →
      e.wellFormed ∧ e.depth ≤ limits.depth ∧ e.Accepted := by
  constructor
  · intro cs h
    obtain ⟨rest, hread, -⟩ := parse_document.mp h
    have hw : Command.wellFormedAll cs := hread.wellFormed
    refine ⟨hw, ?_, Document.exists_dump hw, fun c hc => ?_, fun e he => ?_⟩
    · simpa [Phrase.depth] using hread.depth_le (by simpa using hdepth)
    · exact Command.exists_dump (Command.wellFormed_of_mem hw hc)
    · exact Expr.accepted_of_wellFormed (Command.wellFormed_expressionsAll cs hw e he)
  · intro e h
    have hread : Reads { limits, multiline := true } text.toList (.expression e) [] :=
      ofChars_expression.mp (mapError_eq_ok.mp h)
    have hw : e.wellFormed := hread.wellFormed
    exact ⟨hw, by simpa [Phrase.depth] using hread.depth_le (by simpa using hdepth),
      Expr.accepted_of_wellFormed hw⟩

/-- A document with a call inside a block. -/
def sampleText : String := "astro Sun \x7b\n  radius: max(x, r)\n\x7d"

/-- What is read from it. -/
def sampleTree : List Command := [
  .invocation [.word "astro", .word "Sun", .block [
    .property "radius" (.expr (.call "max" [.ident "x", .ident "r"]))]]]

theorem parse_wellFormed_sample :
    Document.parse sampleText { depth := 2 } = .ok sampleTree ∧
      Command.wellFormedAll sampleTree ∧ Command.depthAll sampleTree ≤ (2 : Int) := by
  have hread : Document.parse sampleText { depth := 2 } = .ok sampleTree := by cbv
  obtain ⟨hw, hdepth, -⟩ := (parse_wellFormed sampleText { depth := 2 } (by decide)).1 _ hread
  exact ⟨hread, hw, hdepth⟩

end Grammar
end Planetarium
