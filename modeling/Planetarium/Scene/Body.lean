import Planetarium.Document.Pass

/-!
# Bodies

A declaration `astro NAME { … }` makes a body.  Properties of its block set the numbers of the body
and its texture, and declarations in the block make its children.  A block is read in order, so an
expression sees the definitions before it, inside the block or outside, and a property that is set
again keeps the last value.

Every function is given the room on the stack in which it is called, as in a pass.  It is what the
expressions of the block have less of; the blocks themselves are gone through however deep they go.
-/
namespace Planetarium
open Text

/-- A body: its size, its orbit around what it belongs to (in degrees per second), its spin, and
the bodies that belong to it. -/
structure Body where
  name : String
  radius : Float := 0.1
  semimajorAxis : Float := 1
  omega : Float := 1
  rotationOmega : Float := 0
  texture : Option String := none
  children : List Body := []
deriving Inhabited

/-- The word that starts a declaration. -/
def declarationWord : String := "astro"

/-- The name and the block of a declaration; none for other commands. -/
def Command.declaration? : Command → Except DeclarationError (Option (String × List Command))
  | .invocation (.word first :: rest) =>
    if first = declarationWord then
      match rest with
      | .word name :: .block commands :: _ => .ok (some (name, commands))
      | .word name :: _ => .error (.missingBlock name)
      | _ => .error .missingName
    else .ok none
  | _ => .ok none

/-- The numbers of a body. -/
inductive Quantity where
  | radius
  | semimajorAxis
  | omega
  | rotationOmega
deriving DecidableEq, Repr

/-- The name of a quantity in documents. -/
def Quantity.name : Quantity → String
  | .radius => "radius"
  | .semimajorAxis => "semimajor_axis"
  | .omega => "omega"
  | .rotationOmega => "rotation_omega"

/-- All quantities in order. -/
def Quantity.all : List Quantity := [.radius, .semimajorAxis, .omega, .rotationOmega]

/-- The quantity with a name. -/
def Quantity.named? (name : String) : Option Quantity := Quantity.all.find? (·.name = name)

/-- A quantity is found under its name. -/
theorem Quantity.named?_name (q : Quantity) : named? q.name = some q := by cases q <;> decide

/-- A quantity that is found has the name it is found under. -/
theorem Quantity.name_of_named? {name : String} {q : Quantity} (h : named? name = some q) :
    q.name = name := by
  simpa using List.find?_some h

/-- The name of the texture in documents. -/
def textureName : String := "texture"

namespace Body

/-- A number of a body. -/
def get (b : Body) : Quantity → Float
  | .radius => b.radius
  | .semimajorAxis => b.semimajorAxis
  | .omega => b.omega
  | .rotationOmega => b.rotationOmega

/-- The body with a number changed. -/
def set (b : Body) (q : Quantity) (x : Float) : Body :=
  match q with
  | .radius => { b with radius := x }
  | .semimajorAxis => { b with semimajorAxis := x }
  | .omega => { b with omega := x }
  | .rotationOmega => { b with rotationOmega := x }

/-- The body with one more child. -/
def addChild (b child : Body) : Body := { b with children := b.children ++ [child] }

/-- Setting a quantity changes that quantity and no other. -/
theorem get_set (b : Body) (p q : Quantity) (x : Float) :
    (b.set p x).get q = if q = p then x else b.get q := by
  cases p <;> cases q <;> rfl

@[simp] theorem name_set (b : Body) (q : Quantity) (x : Float) : (b.set q x).name = b.name := by
  cases q <;> rfl

@[simp] theorem children_set (b : Body) (q : Quantity) (x : Float) :
    (b.set q x).children = b.children := by
  cases q <;> rfl

@[simp] theorem texture_set (b : Body) (q : Quantity) (x : Float) :
    (b.set q x).texture = b.texture := by
  cases q <;> rfl

/-- The body after a property of its block.  A property that a body does not have, or a value of
the wrong kind, is worth a warning and changes nothing. -/
def assign (policy : Option Policy) (b : Body) (name : String) (value : PropertyValue)
    (room : Room := .standard) : Pass Body := do
  match Quantity.named? name, value with
  | some q, .expr e =>
    let x ← Pass.value e (room.below 1)
    return b.set q x
  | some _, _ =>
    Pass.emit policy ⟨.wrongKind,
      "astro " ++ quoted b.name ++ ": property " ++ quoted name ++
        " expects a number, got a string"⟩
    return b
  | none, value =>
    if name = textureName then
      match value with
      | .text file => return { b with texture := some file }
      | _ =>
        Pass.emit policy ⟨.wrongKind,
          "astro " ++ quoted b.name ++ ": property " ++ quoted name ++
            " expects a quoted string"⟩
        return b
    else
      Pass.emit policy ⟨.unknownProperty,
        "astro " ++ quoted b.name ++ ": unknown property " ++ quoted name⟩
      return b

mutual
/-- The body that a command declares, if it is a declaration. -/
def load? (policy : Option Policy) (c : Command) (room : Room := .standard) :
    Pass (Option Body) :=
  match c with
  | .invocation (.word first :: .word name :: .block commands :: _) => do
    if first = declarationWord then some <$> fill policy { name } commands room
    else return none
  | c =>
    match c.declaration? with
    | .ok _ => return none
    | .error reason => throw (.declaration reason)

/-- The body after the commands of its block. -/
def fill (policy : Option Policy) (b : Body) (commands : List Command)
    (room : Room := .standard) : Pass Body :=
  match commands with
  | [] => return b
  | .definition name e :: rest => do
    let _ ← Pass.define policy name e (room.below 2)
    fill policy b rest room
  | .property name value :: rest => do
    let b ← assign policy b name value (room.below 1)
    fill policy b rest room
  | c :: rest => do
    match ← load? policy c (room.below 1) with
    | some child => fill policy (b.addChild child) rest room
    | none => fill policy b rest room
end

/-- The bodies that some commands declare, in order. -/
def loadAll (policy : Option Policy) (commands : List Command) (room : Room := .standard) :
    Pass (List Body) :=
  match commands with
  | [] => return []
  | c :: rest => do
    Pass.visit policy c (room.below 1)
    let body ← load? policy c (room.below 1)
    let bodies ← loadAll policy rest room
    return body.toList ++ bodies

/-! ## What loading does with a command -/

/-- The body with a child, if there is one. -/
def withChild (b : Body) (child : Option Body) : Body := child.elim b b.addChild

section WithChild
variable (b : Body) (child : Option Body)

@[simp] theorem name_withChild : (b.withChild child).name = b.name := by cases child <;> rfl

@[simp] theorem get_withChild (q : Quantity) : (b.withChild child).get q = b.get q := by
  cases child <;> cases q <;> rfl

@[simp] theorem texture_withChild : (b.withChild child).texture = b.texture := by
  cases child <;> rfl

@[simp] theorem children_withChild :
    (b.withChild child).children = b.children ++ child.toList := by
  cases child with
  | none => exact (List.append_nil _).symm
  | some child => rfl

end WithChild

section Equations
variable {c : Command} (policy : Option Policy) (b : Body) (rest : List Command) (room : Room)

/-- Only a command with a name and a block is a declaration of a body. -/
theorem declaration?_eq_some {name : String} {block : List Command}
    (h : c.declaration? = .ok (some (name, block))) :
    ∃ rest, c = .invocation (.word declarationWord :: .word name :: .block block :: rest) := by
  unfold Command.declaration? at h
  split at h
  · split at h
    · rename_i hfirst
      subst hfirst
      split at h
      · cases h
        exact ⟨_, rfl⟩
      · cases h
      · cases h
    · cases h
  · cases h

/-- A declaration makes the body that its block fills. -/
theorem load?_declaration (name : String) (block : List Command) (rest : List Arg) :
    load? policy (.invocation (.word declarationWord :: .word name :: .block block :: rest)) room =
      some <$> fill policy { name } block room := by
  simp only [load?, if_true]

/-- Any other command makes none: it is no declaration, or one without a name or a block. -/
theorem load?_other (h : ∀ name block rest,
      c ≠ .invocation (.word declarationWord :: .word name :: .block block :: rest)) :
    (c.declaration? = .ok none ∧ ∀ policy, load? policy c room = pure none) ∨
      ∃ reason, ∀ policy, load? policy c room = throw (.declaration reason) := by
  by_cases hc : ∃ first name block rest,
      c = .invocation (.word first :: .word name :: .block block :: rest)
  · obtain ⟨first, name, block, rest, rfl⟩ := hc
    have hfirst : first ≠ declarationWord := by
      rintro rfl
      exact h name block rest rfl
    exact .inl ⟨if_neg hfirst, fun policy => by simp only [load?, if_neg hfirst]⟩
  · have hload : ∀ policy, load? policy c room = match c.declaration? with
        | .ok _ => pure none
        | .error reason => throw (.declaration reason) := fun policy =>
      load?.eq_2 policy c room fun first name block rest hform =>
        hc ⟨first, name, block, rest, hform⟩
    simp only [hload]
    cases hdeclaration : c.declaration? with
    | error reason => exact .inr ⟨reason, fun _ => rfl⟩
    | ok declared =>
      cases declared with
      | none => exact .inl ⟨rfl, fun _ => rfl⟩
      | some declared =>
        obtain ⟨rest, hform⟩ := declaration?_eq_some hdeclaration
        exact absurd hform (h _ _ rest)

/-- A block without commands leaves the body as it is. -/
theorem fill_nil : fill policy b [] room = pure b := by simp only [fill]

/-- A definition in a block is applied. -/
theorem fill_definition (name : String) (e : Expr) :
    fill policy b (.definition name e :: rest) room =
      (do
        let _ ← Pass.define policy name e (room.below 2)
        fill policy b rest room) := by
  simp only [fill]

/-- A property in a block is set. -/
theorem fill_property (name : String) (value : PropertyValue) :
    fill policy b (.property name value :: rest) room =
      (do
        let b ← assign policy b name value (room.below 1)
        fill policy b rest room) := by
  simp only [fill]

/-- From any other command in a block the body may have a child. -/
theorem fill_command (hdefinition : ∀ name e, c ≠ .definition name e)
    (hproperty : ∀ name value, c ≠ .property name value) :
    fill policy b (c :: rest) room =
      (do
        let child ← load? policy c (room.below 1)
        fill policy (b.withChild child) rest room) := by
  rw [fill.eq_4 policy b room c rest hdefinition hproperty]
  refine bind_congr fun child => ?_
  cases child <;> rfl

end Equations

/-- Whatever a declaration has from what its block makes of a body, and whatever a block makes of a
body from one command and the rest, commands and blocks have. -/
theorem load_induction {P : Command → Room → Prop} {Q : Body → List Command → Room → Prop}
    (declaration : ∀ room name block rest, Q { name } block room →
      P (.invocation (.word declarationWord :: .word name :: .block block :: rest)) room)
    (other : ∀ c room, (∀ name block rest,
      c ≠ .invocation (.word declarationWord :: .word name :: .block block :: rest)) → P c room)
    (nil : ∀ b room, Q b [] room)
    (definition : ∀ b room name e rest, Q b rest room → Q b (.definition name e :: rest) room)
    (property : ∀ b room name value rest, (∀ b, Q b rest room) →
      Q b (.property name value :: rest) room)
    (command : ∀ b room c rest, (∀ name e, c ≠ .definition name e) →
      (∀ name value, c ≠ .property name value) → P c (room.below 1) →
      (∀ child, Q (b.withChild child) rest room) → Q b (c :: rest) room) :
    (∀ c room, P c room) ∧ ∀ b cs room, Q b cs room := by
  refine load?.mutual_induct P Q declaration ?_ ?_ ?_ nil definition property ?_
  · intro room first name block rest hfirst
    refine other _ room fun name block rest hform => hfirst ?_
    cases hform
    rfl
  · intro room c hc _ _
    exact other c room fun name block rest => hc _ name block rest
  · intro room c hc _ _
    exact other c room fun name block rest => hc _ name block rest
  · intro b room c rest hdefinition hproperty hc hsome hnone
    refine command b room c rest hdefinition hproperty hc fun child => ?_
    cases child with
    | none => exact hnone
    | some child => exact hsome child

end Body
end Planetarium
