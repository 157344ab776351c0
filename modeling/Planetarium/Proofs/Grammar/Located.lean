import Planetarium.Proofs.Grammar.CommandSound
import Planetarium.Proofs.Parsing.Located

/-!
# The rules of the grammar stay in the text

Every rule that is tried at a place of a text stays in the text (`Located`).  The rules that call
themselves ask that of the rule for what their brackets hold (`InnerLocated`, `BodyLocated`).
-/
namespace Planetarium.Grammar
open Parsing Text Attempt

variable {text : List Char} {n : Nat} {l : Level} {s : Cursor}

/-! ## Expressions -/

theorem located_chainRest {operator : Char → Option Operator} {operand : Rule n}
    (ho : ∀ t h, t.Within text → Located text (operand t h)) {left : Expr} {t : Cursor}
    {h : t.left < n} (ht : t.Within text) :
    Located text (chainRest l operator operand left t h) := by
  have := l.left_skip_le t
  have hskip : (l.skip t).Within text := ht.skip
  rw [chainRest]
  refine (located_sign hskip).branch (fun op u hu hop => ?_) fun _ => ?_
  · have := hu.progress
    refine (ho u _ hop).branch (fun right v hv hoperand => ?_) fun _ => located_accept ht
    have := hv.progress
    exact located_chainRest ho hoperand
  · exact (located_accept ht).since (List.forall_mem_singleton.mpr hskip.1)
termination_by t.left

/-- A chain is located if its operands are. -/
theorem located_chain {operator : Char → Option Operator} {operand : Rule s.left}
    (ho : ∀ t h, t.Within text → Located text (operand t h)) (hs : s.Within text) :
    Located text (chain l operator s operand) := by
  apply (ho s _ hs).andThen
  intro first t _ ht
  exact located_chainRest ho ht

/-- A missing parenthesis is the last thing to have happened. -/
theorem located_close {α : Type} {v : α} {h : s.left ≤ n} (hs : s.Within text) :
    Located text (close v s h) := by
  refine (located_char hs).branch (fun _ _ _ ht => located_accept ht) fun _ => ?_
  refine ⟨?_, nofun, ?_⟩
  · exact within_since.mpr ⟨List.forall_mem_singleton.mpr hs.1, within_of_misses_eq_nil rfl⟩
  · rintro _ ⟨⟩
    exact ⟨[], s.offset, .closeParen, rfl⟩

/-- The rule for the inside of groups and calls stays in the text. -/
def InnerLocated (text : List Char) (inner : Inner n) : Prop :=
  ∀ (l : Level) (t : Cursor) h, t.Within text → Located text (inner l t h)

/-- Arguments are located if the expressions inside them are. -/
theorem located_arguments {inner : Inner n} (hi : InnerLocated text inner) {function : String}
    {before : List Expr} {s : Cursor} {h : s.left < n} (hs : s.Within text) :
    Located text (arguments l function inner before s h) := by
  rw [arguments]
  refine (hi l s h hs).branch (fun arg t ht harg => ?_) fun _ => located_close hs
  have := ht.progress
  have := l.left_skip_le t
  have hskip : (l.skip t).Within text := harg.skip
  refine (located_char hskip).branch (fun _ u hu hcomma => ?_) fun _ => ?_
  · have := hu.progress
    have := l.left_skip_le u
    exact located_arguments hi hcomma.skip
  · exact located_arguments hi hskip
termination_by s.left

section Atoms
variable {inner : Inner s.left} (hi : InnerLocated text inner)
include hi

theorem located_call (hs : s.Within text) : Located text (call l s inner) := by
  refine (located_identifier hs).andThen fun function t _ hname => ?_
  have hskip : (l.skip t).Within text := hname.skip
  refine (located_char hskip).andThen fun _ u _ hopen => ?_
  exact located_enter hskip.1 (located_arguments hi hopen.skip)

theorem located_group (hs : s.Within text) : Located text (group l s inner) := by
  refine (located_char hs).andThen fun _ t _ hopen => ?_
  refine located_enter hs.1 ?_
  exact (hi l.inGroup t _ hopen).andThen fun e u _ he => located_close he.skip

theorem located_alternatives (hs : s.Within text) : Located text (alternatives l s inner) := by
  apply ((located_number hs).map _).orElse
  apply (located_call hi hs).orElse
  apply ((located_identifier hs).map _).orElse
  apply (located_group hi hs).orElse
  exact located_miss hs.1

/-- So is a factor. -/
theorem located_factor (hs : s.Within text) : Located text (factor l s inner) := by
  have hskip : (l.skip s).Within text := hs.skip
  have hinner : InnerLocated text fun l' t (ht : t.left < (l.skip s).left) =>
      inner l' t (Nat.lt_of_lt_of_le ht (l.left_skip_le s)) := fun l' t ht => hi l' t _
  apply (located_alternatives hinner hskip).andThen
  intro e t _ he
  exact located_accept he.skip

end Atoms

/-- **An expression is located.** -/
theorem located_expression {l : Level} {s : Cursor} (hs : s.Within text) :
    Located text (expression l s) := by
  rw [expression_eq]
  refine located_within ?_
  refine located_chain (fun t ht hterm => ?_) hs
  refine located_chain (fun u hu hfactor => ?_) hterm
  exact located_factor (fun l v hv hinner => located_expression hinner) hfactor
termination_by s.left

/-! ## Commands -/

theorem located_head {word : List Char} {expected : Expected} (hs : s.Within text) :
    Located text (head word expected s) := by
  refine (located_identifier hs).branch (fun name t _ hname => ?_) fun _ => located_miss hs.1
  have hskip : (t.skip isSpace).Within text := hname.skip
  split
  · exact located_miss hskip.1
  · rename_i u hu
    obtain ⟨hoffset, hrest⟩ := Cursor.after?_offset hu
    have hsign : u.Within text := by
      have := hskip.advance hrest
      rwa [← hoffset] at this
    exact located_accept hsign.skip

theorem located_definition (hs : s.Within text) : Located text (definition l s) := by
  apply (located_head hs).andThen
  intro name t _ hhead
  exact (located_expression hhead).andThen fun _ _ _ he => located_accept he

theorem located_property (hs : s.Within text) : Located text (property l s) := by
  apply (located_head hs).andThen
  intro name t _ hhead
  apply (located_quotedString hhead).branch
  · intro words u _ hu
    exact located_accept hu.skip
  · intro _
    exact (located_expression hhead).andThen fun _ _ _ he => located_accept he

theorem located_word (hs : s.Within text) : Located text (word s) :=
  (located_identifier hs).branch (fun _ _ _ ht => located_accept ht) fun _ => located_miss hs.1

/-- The rule for the inside of blocks stays in the text. -/
def BodyLocated (text : List Char) (body : Body n) : Prop :=
  ∀ (l : Level) (t : Cursor) h, t.Within text → Located text (body l t h)

/-- A block is located if the commands inside it are. -/
theorem located_block {body : Body s.left} (hb : BodyLocated text body) (hs : s.Within text) :
    Located text (block l s body) := by
  refine (located_char hs).branch (fun _ t ht hopen => ?_) fun _ => located_miss hs.1
  refine located_enter hs.1 ?_
  refine (hb l.inBlock t _ hopen).andThen fun cs u _ hcs => ?_
  have hskip : (u.skip isLayout).Within text := hcs.skip
  refine (located_char hskip).branch (fun _ _ _ hclose => located_accept hclose) fun _ => ?_
  split
  · exact located_fault hs.1 nofun
  · exact located_miss hskip.1

theorem located_argument {body : Body s.left} (hb : BodyLocated text body) (hs : s.Within text) :
    Located text ((block l s body).orElse fun _ => word s) :=
  (located_block hb hs).orElse (located_word hs)

/-- So is a list of arguments. -/
theorem located_args {body : Body n} (hb : BodyLocated text body) {before : List Arg} {s : Cursor}
    {h : s.left ≤ n} (hs : s.Within text) : Located text (args l body before s h) := by
  rw [args]
  refine (located_argument (fun l t ht => hb l t _) hs).branch (fun arg t ht harg => ?_)
    fun _ => located_accept hs
  have := ht.progress
  have := Cursor.left_skip_le (p := isSpace) (s := t)
  exact located_args hb harg.skip
termination_by s.left

theorem located_invocation {body : Body s.left} (hb : BodyLocated text body) (hs : s.Within text) :
    Located text (invocation l s body) := by
  apply (located_argument hb hs).andThen
  intro arg t ht harg
  refine (located_args ?_ harg.skip).andThen fun as u _ has => located_accept has
  exact fun l u hu => hb l u _

theorem located_command {body : Body s.left} (hb : BodyLocated text body) (hs : s.Within text) :
    Located text (command l s body) := by
  have hskip : (s.skip isLayout).Within text := hs.skip
  have hinner : BodyLocated text fun l (t : Cursor) (ht : t.left < (s.skip isLayout).left) =>
      body l t (Nat.lt_of_lt_of_le ht Cursor.left_skip_le) := fun l t ht => hb l t _
  rw [command]
  refine located_within (Located.widen ?_ Cursor.left_skip_le)
  apply (located_definition hskip).orElse
  apply (located_property hskip).orElse
  exact located_invocation hinner hskip

/-- **Commands are located.** -/
theorem located_commands {l : Level} {s : Cursor} (hs : s.Within text) :
    Located text (commands l s) := by
  rw [commands_eq]
  refine (located_command (fun l t h ht => located_commands ht) hs).branch
    (fun first t ht hfirst => ?_) fun _ => located_accept hs
  have := ht.progress
  exact (located_commands hfirst).andThen fun _ _ _ hrest => located_accept hrest
termination_by s.left

end Planetarium.Grammar
