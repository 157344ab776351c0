import Planetarium.Scene.Body

/-!
# Textures

The texture files that the bodies of a document name, without evaluating anything: every quoted
texture of every declaration, in document order.  Blocks are gone through as deep as they go: the
search has no answer of its own for a stack that ends, and is taken to have what it needs.
-/
namespace Planetarium

mutual
/-- The textures of a declaration, with those of the declarations inside it; none of other
commands. -/
def Command.textures : Command → Except DeclarationError (List String)
  | .invocation (.word first :: .word _ :: .block commands :: _) =>
    if first = declarationWord then Command.blockTextures commands else .ok []
  | c => c.declaration?.map fun _ => []

/-- The textures of the commands of a block. -/
def Command.blockTextures : List Command → Except DeclarationError (List String)
  | [] => .ok []
  | .property name value :: rest => do
    let later ← Command.blockTextures rest
    match value with
    | .text file => return if name = textureName then file :: later else later
    | _ => return later
  | c :: rest => do
    let inner ← c.textures
    let later ← Command.blockTextures rest
    return inner ++ later
end

/-- The textures of some commands. -/
def textures : List Command → Except DeclarationError (List String)
  | [] => .ok []
  | c :: rest => do
    let inner ← c.textures
    let later ← textures rest
    return inner ++ later

end Planetarium
