import Mathlib.Data.List.Forall2
import Planetarium.Proofs.Scene.Meaning
import Planetarium.Proofs.Scene.Order
import Planetarium.Scene.Texture

/-!
# The textures of a scene

Loading a scene and collecting its textures are two ways through the same document.  The first
evaluates, keeps of every block the last quoted texture and may fail; the second only looks, and
lists every quoted texture.  `Dressed` walks through the document once more, with the bodies of
the one and the list of the other side by side: one body for each declaration, dressed in the last
quoted texture of its block, and in the list all quoted textures of all these blocks in document
order.

What the list tells about the bodies then follows by induction along this walk.
-/
namespace Planetarium
open Pass

/-- The texture that the command sets, if it sets one. -/
def Command.texture? : Command → Option String
  | .property name (.text file) => if name = textureName then some file else none
  | _ => none

/-- The body wears the last quoted texture that stands in the block itself, if there is one. -/
def WearsLast (block : List Command) (b : Body) : Prop :=
  b.texture = (block.filterMap Command.texture?).getLast?

/-- The bodies of the declarations among some commands, in order, and the quoted textures there in
document order: those of the block of a body, which wears the last one, and those of the
declarations there.  What stands outside all declarations is not in the list. -/
inductive Dressed : Bool → List Command → List Body → List String → Prop
  | nil {inside : Bool} : Dressed inside [] [] []
  | declaration {inside : Bool} {name : String} {block : List Command} {rest : List Arg}
      {cs : List Command} {b : Body} {bs : List Body} {shown later : List String} :
    b.name = name →
    WearsLast block b →
    Dressed true block b.children shown →
    Dressed inside cs bs later →
    Dressed inside
      (.invocation (.word declarationWord :: .word name :: .block block :: rest) :: cs) (b :: bs)
      (shown ++ later)
  | other {inside : Bool} {c : Command} {cs : List Command} {bs : List Body}
      {later : List String} :
    c.declares = false →
    Dressed inside cs bs later →
    Dressed inside (c :: cs) bs ((if inside then c.texture?.toList else []) ++ later)

mutual
/-- The blocks of a declaration and of the declarations in it, from the outside in. -/
def Command.declaredBlocks : Command → List (List Command)
  | .invocation (.word first :: .word _ :: .block commands :: _) =>
    if first = declarationWord then commands :: Command.declaredBlocksAll commands else []
  | _ => []

/-- The blocks of the declarations among some commands. -/
def Command.declaredBlocksAll : List Command → List (List Command)
  | [] => []
  | c :: cs => c.declaredBlocks ++ Command.declaredBlocksAll cs
end

/-- At most one quoted texture stands in the block, and before all declarations. -/
structure TextureLeads (block : List Command) : Prop where
  atMostOne : (block.filterMap Command.texture?).length ≤ 1
  first : block.Pairwise fun earlier later => earlier.declares → later.texture? = none

variable {c : Command} {cs : List Command} {bs : List Body} {inside : Bool} {shown : List String}

/-! ## What is loaded is dressed -/

theorem texture?_property {key : String} {v : PropertyValue}
    (h : key = textureName → ∀ file, v ≠ .text file) :
    (Command.property key v).texture? = none := by
  cases v with
  | text file => exact if_neg fun hkey => h hkey file rfl
  | expr _ | stray _ => rfl

theorem texture?_of_declares (h : c.declares) : c.texture? = none := by
  cases c with
  | invocation args => rfl
  | property _ _ | definition _ _ | stray _ => cases h

namespace Body
variable {policy : Option Policy} {b b' : Body} {room : Room} {j k : Journal}

/-- A warning changes nothing of the body. -/
theorem eq_of_warned {w : Warning}
    (h : (do Pass.emit policy w; return b : Pass Body).go j = (.ok b', k)) : b' = b := by
  obtain ⟨_, i, -, hpure⟩ := go_bind_eq_ok.mp h
  obtain ⟨rfl, -⟩ : b = b' ∧ i = k := by simpa using hpure
  rfl

/-- A quoted texture is put on, and no other property changes what a body wears. -/
theorem texture_of_assign {key : String} {v : PropertyValue}
    (h : (b.assign policy key v room).go j = (.ok b', k)) :
    b'.texture = (Command.property key v).texture?.or b.texture := by
  unfold assign at h
  split at h
  · obtain ⟨x, i, -, hpure⟩ := go_bind_eq_ok.mp h
    obtain ⟨rfl, -⟩ : b.set _ x = b' ∧ i = k := by simpa using hpure
    exact texture_set b _ x
  · -- no quantity is called like the texture
    rename_i q hq _
    obtain rfl := Quantity.name_of_named? hq
    have hname : q.name ≠ textureName := by cases q <;> decide
    rw [eq_of_warned h, texture?_property fun heq => absurd heq hname]
    rfl
  · split at h
    · rename_i htexture
      split at h
      · rename_i file
        obtain ⟨rfl, -⟩ : { b with texture := some file } = b' ∧ j = k := by simpa using h
        simp [Command.texture?, htexture]
      · rename_i hno
        rw [eq_of_warned h, texture?_property fun _ => hno]
        rfl
    · rename_i htexture
      rw [eq_of_warned h, texture?_property fun heq => absurd heq htexture]
      rfl

/-- What a command that has been loaded is: the declaration of a dressed body, or none. -/
inductive Adds : Command → Option Body → Prop
  | body {name : String} {block : List Command} {rest : List Arg} {b : Body}
      {shown : List String} :
    b.name = name →
    WearsLast block b →
    Dressed true block b.children shown →
    Adds (.invocation (.word declarationWord :: .word name :: .block block :: rest)) (some b)
  | other {c : Command} : c.declares = false → Adds c none

theorem Adds.dressed {r : Option Body} {later : List String} (h : Adds c r)
    (hs : Dressed inside cs bs later) :
    ∃ shown, Dressed inside (c :: cs) (r.toList ++ bs) shown := by
  cases h with
  | body hname htexture hblock => exact ⟨_, .declaration hname htexture hblock hs⟩
  | other hc => exact ⟨_, .other hc hs⟩

/-- What the commands of a block make of a body. -/
structure Dresses (b : Body) (cs : List Command) (b' : Body) : Prop where
  name : b'.name = b.name
  texture : b'.texture = (cs.filterMap Command.texture?).getLast?.or b.texture
  children : ∃ more shown, b'.children = b.children ++ more ∧ Dressed true cs more shown

theorem Dresses.nil (b : Body) : Dresses b [] b :=
  ⟨rfl, rfl, [], [], (List.append_nil _).symm, .nil⟩

theorem Dresses.cons {b₁ : Body} {new : List Body} (h : Dresses b₁ cs b')
    (hname : b₁.name = b.name) (htexture : b₁.texture = c.texture?.or b.texture)
    (hchildren : b₁.children = b.children ++ new)
    (hnew : ∀ bs later, Dressed true cs bs later →
      ∃ shown, Dressed true (c :: cs) (new ++ bs) shown) : Dresses b (c :: cs) b' := by
  refine ⟨h.name.trans hname, ?_, ?_⟩
  · rw [h.texture, htexture, ← Option.or_assoc]
    cases hc : c.texture? with
    | none => rw [List.filterMap_cons_none hc, Option.or_none]
    | some file =>
      rw [List.filterMap_cons_some hc, List.getLast?_cons, Option.or_some]
  · obtain ⟨more, later, hmore, hs⟩ := h.children
    obtain ⟨shown, hall⟩ := hnew more later hs
    exact ⟨new ++ more, shown, by rw [hmore, hchildren, List.append_assoc], hall⟩

theorem adds_load?_fill :
    (∀ c room j r k, (load? policy c room).go j = (.ok r, k) → Adds c r) ∧
    ∀ b cs room j b' k, (fill policy b cs room).go j = (.ok b', k) → Dresses b cs b' := by
  have hall := load_induction
    (P := fun c room => ∀ j r k, (load? policy c room).go j = (.ok r, k) → Adds c r)
    (Q := fun b cs room => ∀ j b' k, (fill policy b cs room).go j = (.ok b', k) →
      Dresses b cs b')
  refine hall ?declaration ?other ?nil ?definition ?property ?command
  case declaration =>
    intro room name block rest ih j r k h
    rw [load?_declaration, map_eq_pure_bind] at h
    obtain ⟨b, i, hfill, hpure⟩ := go_bind_eq_ok.mp h
    obtain ⟨rfl, rfl⟩ : some b = r ∧ i = k := by simpa using hpure
    have hdresses := ih j b i hfill
    obtain ⟨more, shown, hmore, hall⟩ := hdresses.children
    rw [List.nil_append] at hmore
    have hwears : WearsLast block b := hdresses.texture.trans Option.or_none
    exact .body hdresses.name hwears (hmore ▸ hall)
  case other =>
    intro c room hc j r k h
    rcases load?_other room hc with ⟨hdeclaration, hload⟩ | ⟨reason, hload⟩
    · obtain ⟨rfl, rfl⟩ : none = r ∧ j = k := by simpa [hload] using h
      exact .other (declares_of_declaration? hdeclaration)
    · simp [hload] at h
  case nil =>
    intro b room j b' k h
    obtain ⟨rfl, rfl⟩ : b = b' ∧ j = k := by simpa [fill_nil] using h
    exact .nil b
  case definition =>
    intro b room name e rest ih j b' k h
    rw [fill_definition] at h
    obtain ⟨x, i, -, hfill⟩ := go_bind_eq_ok.mp h
    exact (ih i b' k hfill).cons rfl rfl (List.append_nil _).symm
      fun _ _ hs => ⟨_, .other rfl hs⟩
  case property =>
    intro b room name value rest ih j b' k h
    rw [fill_property] at h
    obtain ⟨b₁, i, hassign, hfill⟩ := go_bind_eq_ok.mp h
    have hassigned := assigned_of_assign .refl hassign
    exact (ih b₁ i b' k hfill).cons hassigned.name (texture_of_assign hassign)
      (hassigned.children.trans (List.append_nil _).symm) fun _ _ hs => ⟨_, .other rfl hs⟩
  case command =>
    intro b room c rest hdefinition hproperty ihc ih j b' k h
    rw [fill_command _ _ _ _ hdefinition hproperty] at h
    obtain ⟨r, i, hload, hfill⟩ := go_bind_eq_ok.mp h
    have hadds := ihc j r i hload
    have htexture : c.texture? = none := by
      cases c with
      | property name value => exact absurd rfl (hproperty name value)
      | invocation _ | definition _ _ | stray _ => rfl
    refine (ih r i b' k hfill).cons (name_withChild b r) ?_ (children_withChild b r)
      fun _ _ hs => hadds.dressed hs
    rw [texture_withChild, htexture, Option.none_or]

/-- The bodies that are loaded are dressed by the document. -/
theorem dressed_of_loadAll {bodies : List Body}
    (h : (loadAll policy cs room).go j = (.ok bodies, k)) :
    ∃ shown, Dressed false cs bodies shown := by
  induction cs generalizing bodies j with
  | nil =>
    obtain ⟨rfl, -⟩ : [] = bodies ∧ j = k := by simpa [loadAll] using h
    exact ⟨[], .nil⟩
  | cons c cs ih =>
    rw [loadAll] at h
    obtain ⟨_, i, -, hrest⟩ := go_bind_eq_ok.mp h
    obtain ⟨r, i', hload, hrest⟩ := go_bind_eq_ok.mp hrest
    obtain ⟨bs, i'', hbodies, hpure⟩ := go_bind_eq_ok.mp hrest
    obtain ⟨rfl, rfl⟩ : r.toList ++ bs = bodies ∧ i'' = k := by simpa using hpure
    obtain ⟨later, hs⟩ := ih hbodies
    exact (adds_load?_fill.1 c _ i r i' hload).dressed hs

end Body

/-! ## What is dressed is listed -/

theorem Command.declaration?_of_not_declares (h : c.declares = false) :
    c.declaration? = .ok none := by
  unfold Command.declaration?
  split
  · exact if_neg (by simpa [Command.declares] using h)
  · rfl

theorem Command.textures_of_not_declares (h : c.declares = false) : c.textures = .ok [] := by
  unfold Command.textures
  split
  · exact if_neg (by simpa [Command.declares] using h)
  · rw [Command.declaration?_of_not_declares h]
    rfl

theorem Command.textures_declaration (name : String) (block : List Command) (rest : List Arg) :
    (Command.invocation (.word declarationWord :: .word name :: .block block :: rest)).textures =
      Command.blockTextures block := by
  rw [Command.textures, if_pos rfl]

/-- The textures of a block are those that stand in it and those of the declarations in it. -/
theorem Command.blockTextures_cons (c : Command) (cs : List Command) :
    Command.blockTextures (c :: cs) = do
      let inner ← c.textures
      let later ← Command.blockTextures cs
      return c.texture?.toList ++ (inner ++ later) := by
  cases c with
  | property name value =>
    have hinner : (Command.property name value).textures = .ok [] :=
      Command.textures_of_not_declares rfl
    rw [Command.blockTextures, hinner]
    cases Command.blockTextures cs with
    | error reason => rfl
    | ok later =>
      cases value with
      | text file =>
        simp only [Command.texture?]
        by_cases hname : name = textureName
        · simp only [if_pos hname]
          rfl
        · simp only [if_neg hname]
          rfl
      | expr _ | stray _ => rfl
  | invocation _ | definition _ _ | stray _ =>
    rw [Command.blockTextures]
    · rfl
    · nofun

/-- The textures of some commands, with those that stand there or without. -/
def texturesIn (inside : Bool) (cs : List Command) : Except DeclarationError (List String) :=
  if inside then Command.blockTextures cs else textures cs

theorem texturesIn_cons {inner later : List String} (hc : c.textures = .ok inner)
    (hcs : texturesIn inside cs = .ok later) :
    texturesIn inside (c :: cs) =
      .ok ((if inside then c.texture?.toList else []) ++ (inner ++ later)) := by
  cases inside with
  | true =>
    simp only [texturesIn, if_true] at hcs ⊢
    rw [Command.blockTextures_cons, hc, hcs]
    rfl
  | false =>
    simp only [texturesIn, Bool.false_eq_true, if_false] at hcs ⊢
    rw [textures, hc, hcs]
    rfl

/-- The list is what is collected. -/
theorem Dressed.texturesIn_eq (h : Dressed inside cs bs shown) :
    texturesIn inside cs = .ok shown := by
  induction h with
  | @nil inside => cases inside <;> rfl
  | @declaration inside name block rest _ _ _ _ _ _ _ _ _ ihblock ih =>
    have hinner := (Command.textures_declaration name block rest).trans ihblock
    rw [texturesIn_cons hinner ih, texture?_of_declares rfl]
    cases inside <;> rfl
  | other hc _ ih =>
    rw [texturesIn_cons (Command.textures_of_not_declares hc) ih, List.nil_append]

/-! ## What the list tells about the bodies -/

theorem Command.declaredBlocks_of_not_declares (h : c.declares = false) :
    c.declaredBlocks = [] := by
  unfold Command.declaredBlocks
  split
  · exact if_neg (by simpa [Command.declares] using h)
  · rfl

theorem filterMap_cons_append {α β : Type} (f : α → Option β) (a : α) (as : List α) :
    (a :: as).filterMap f = (f a).toList ++ as.filterMap f := by
  rw [List.filterMap_cons]
  cases f a <;> rfl

/-- The textures that stand in a block itself are in the list. -/
theorem Dressed.own_subset (h : Dressed inside cs bs shown) (hinside : inside = true) :
    ∀ file ∈ cs.filterMap Command.texture?, file ∈ shown := by
  induction h with
  | nil => nofun
  | declaration _ _ _ _ _ ih =>
    rw [filterMap_cons_append, texture?_of_declares rfl]
    exact fun file hfile => List.mem_append_right _ (ih hinside file hfile)
  | other _ _ ih =>
    rw [filterMap_cons_append, if_pos hinside, List.forall_mem_append]
    exact ⟨fun file hfile => List.mem_append_left _ hfile,
      fun file hfile => List.mem_append_right _ (ih hinside file hfile)⟩

/-- What a body wears is in the list. -/
theorem Dressed.mem_shown (h : Dressed inside cs bs shown) :
    ∀ d ∈ Body.preorderAll bs, ∀ file ∈ d.texture, file ∈ shown := by
  induction h with
  | nil => nofun
  | declaration _ htexture hblock _ ihblock ih =>
    rw [Body.preorderAll_cons, List.cons_append, List.forall_mem_cons, List.forall_mem_append]
    refine ⟨fun file hfile => ?_, fun d hd file hfile => ?_, fun d hd file hfile => ?_⟩
    · rw [htexture] at hfile
      exact List.mem_append_left _ (hblock.own_subset rfl file (List.mem_of_getLast? hfile))
    · exact List.mem_append_left _ (ihblock d hd file hfile)
    · exact List.mem_append_right _ (ih d hd file hfile)
  | other _ _ ih => exact fun d hd file hfile => List.mem_append_right _ (ih d hd file hfile)

/-- The list is empty only if no texture stands in the block itself and no body wears any. -/
theorem Dressed.shown_eq_nil_iff (h : Dressed inside cs bs shown) :
    shown = [] ↔ (inside = true → cs.filterMap Command.texture? = []) ∧
      ∀ d ∈ Body.preorderAll bs, d.texture = none := by
  induction h with
  | nil => simp
  | declaration _ htexture _ _ ihblock ih =>
    rw [List.append_eq_nil_iff, ihblock, ih, filterMap_cons_append,
      texture?_of_declares rfl, Body.preorderAll_cons, List.cons_append, List.forall_mem_cons,
      List.forall_mem_append, htexture, List.getLast?_eq_none_iff]
    constructor
    · rintro ⟨⟨hown, hinner⟩, hcs, hlater⟩
      exact ⟨hcs, hown rfl, hinner, hlater⟩
    · rintro ⟨hcs, hown, hinner, hlater⟩
      exact ⟨⟨fun _ => hown, hinner⟩, hcs, hlater⟩
  | @other inside c _ _ _ _ _ ih =>
    rw [List.append_eq_nil_iff, ih, filterMap_cons_append]
    cases inside <;> simp [and_assoc]

/-- Where at most one texture stands in a block it is the one that is worn. -/
theorem TextureLeads.worn {block : List Command} (h : TextureLeads block) :
    (block.filterMap Command.texture?).getLast?.toList = block.filterMap Command.texture? := by
  have hone := h.atMostOne
  generalize block.filterMap Command.texture? = own at hone
  match own, hone with
  | [], _ => rfl
  | [file], _ => rfl

/-- Where textures come first, and one at most, the list goes through the bodies from the top
down. -/
theorem Dressed.shown_eq (h : Dressed inside cs bs shown)
    (hblocks : ∀ block ∈ Command.declaredBlocksAll cs, TextureLeads block)
    (hfirst : inside = true →
      cs.Pairwise fun earlier later => earlier.declares → later.texture? = none) :
    shown = (if inside then cs.filterMap Command.texture? else []) ++
      (Body.preorderAll bs).filterMap Body.texture := by
  induction h with
  | @nil inside => cases inside <;> rfl
  | @declaration inside name block rest cs b bs shown later _ htexture _ _ ihblock ih =>
    rw [Command.declaredBlocksAll, Command.declaredBlocks, if_pos rfl, List.cons_append,
      List.forall_mem_cons, List.forall_mem_append] at hblocks
    obtain ⟨hblock, hinner, hlater⟩ := hblocks
    -- behind a declaration there is no texture any more
    have hnone : inside = true → cs.filterMap Command.texture? = [] := fun hinside =>
      List.filterMap_eq_nil_iff.mpr fun c hc =>
        (List.pairwise_cons.mp (hfirst hinside)).1 c hc rfl
    have hrest := ih hlater fun hinside => (List.pairwise_cons.mp (hfirst hinside)).2
    rw [ihblock hinner fun _ => hblock.first, hrest, if_pos rfl, ← hblock.worn, ← htexture,
      Body.preorderAll_cons, List.cons_append, filterMap_cons_append, filterMap_cons_append,
      List.filterMap_append, texture?_of_declares rfl]
    cases inside with
    | true => simp [hnone rfl]
    | false => simp
  | @other inside c _ _ _ _ _ ih =>
    rw [Command.declaredBlocksAll, List.forall_mem_append] at hblocks
    rw [ih hblocks.2 fun hinside => (List.pairwise_cons.mp (hfirst hinside)).2,
      filterMap_cons_append]
    cases inside <;> simp

/-- There is one body for each block of a declaration, from the outside in. -/
theorem Dressed.forall₂_blocks (h : Dressed inside cs bs shown) :
    List.Forall₂ WearsLast (Command.declaredBlocksAll cs) (Body.preorderAll bs) := by
  induction h with
  | nil => exact .nil
  | declaration _ htexture _ _ ihblock ih =>
    rw [Command.declaredBlocksAll, Command.declaredBlocks, if_pos rfl, Body.preorderAll_cons]
    have hfirst := List.Forall₂.cons htexture ihblock
    exact List.rel_append hfirst ih
  | other hc _ ih =>
    rw [Command.declaredBlocksAll, Command.declaredBlocks_of_not_declares hc]
    exact ih

/-- **The textures of a document and the bodies of its scene agree.**  Where the scene can be
loaded the textures can be collected.  The list names, in document order, the quoted textures of
the blocks that have become bodies.  Each body wears the last one of its own block; so what is worn
is in the list, which is empty only if nothing is worn, and where each block names one texture at
most and names it first, the list is what the bodies wear from the top down. -/
theorem textures_of_loadAll (policy : Option Policy) (cs : List Command) (room : Room)
    (j : Journal) (bodies : List Body) (k : Journal)
    (h : (Body.loadAll policy cs room).go j = (.ok bodies, k)) :
    ∃ shown, textures cs = .ok shown ∧ Dressed false cs bodies shown ∧
      List.Forall₂ WearsLast (Command.declaredBlocksAll cs) (Body.preorderAll bodies) ∧
      (∀ b ∈ Body.preorderAll bodies, ∀ file ∈ b.texture, file ∈ shown) ∧
      (shown = [] ↔ ∀ b ∈ Body.preorderAll bodies, b.texture = none) ∧
      ((∀ block ∈ Command.declaredBlocksAll cs, TextureLeads block) →
        shown = (Body.preorderAll bodies).filterMap Body.texture) := by
  obtain ⟨shown, hdressed⟩ := Body.dressed_of_loadAll h
  refine ⟨shown, hdressed.texturesIn_eq, hdressed, hdressed.forall₂_blocks, hdressed.mem_shown,
    ?_, fun hblocks => hdressed.shown_eq hblocks nofun⟩
  simpa using hdressed.shown_eq_nil_iff

/-- A scene in which a texture is replaced after that of a child. -/
def texturedScene : List Command := [
  .invocation [.word "astro", .word "Sun", .block [
    .property "texture" (.text "spots.png"),
    .invocation [.word "astro", .word "Moon", .block [.property "texture" (.text "grey.png")]],
    .property "texture" (.text "plain.png")]],
  .property "texture" (.text "nobody.png")]

theorem textures_of_loadAll_sample : ∃ bodies k,
    (Body.loadAll none texturedScene).go {} = (.ok bodies, k) ∧
      (Body.preorderAll bodies).map Body.texture = [some "plain.png", some "grey.png"] ∧
      Dressed false texturedScene bodies ["spots.png", "grey.png", "plain.png"] := by
  obtain ⟨shown, hshown, hdressed, -⟩ := textures_of_loadAll none texturedScene .standard {} _ _ rfl
  have heq : shown = ["spots.png", "grey.png", "plain.png"] := Except.ok.inj (hshown.symm.trans rfl)
  exact ⟨_, _, rfl, rfl, heq ▸ hdressed⟩

end Planetarium
