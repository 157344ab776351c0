import Planetarium.Scene.Body

/-!
# The bodies of a scene in order

The bodies of a scene are met from the top down: a body first, then all that belongs to it, then
what comes beside it.  Where a body is in the scene is told by its chain, the bodies from the
outermost one down to it.
-/
namespace Planetarium.Body

mutual
/-- A body and all that belongs to it, from the top down. -/
def preorder : Body → List Body
  | ⟨name, radius, axis, omega, spin, texture, children⟩ =>
    ⟨name, radius, axis, omega, spin, texture, children⟩ :: preorderAll children

/-- Some bodies and all that belongs to them, from the top down. -/
def preorderAll : List Body → List Body
  | [] => []
  | b :: bs => b.preorder ++ preorderAll bs
end

mutual
/-- The chains of a body and of all that belongs to it, from the top down, behind the bodies
`above`. -/
def chains (above : List Body) : Body → List (List Body)
  | ⟨name, radius, axis, omega, spin, texture, children⟩ =>
    (above ++ [⟨name, radius, axis, omega, spin, texture, children⟩]) ::
      chainsAll (above ++ [⟨name, radius, axis, omega, spin, texture, children⟩]) children

/-- The chains of some bodies and of all that belongs to them. -/
def chainsAll (above : List Body) : List Body → List (List Body)
  | [] => []
  | b :: bs => b.chains above ++ chainsAll above bs
end

theorem preorder_eq (b : Body) : b.preorder = b :: preorderAll b.children := by
  cases b
  rfl

theorem chains_eq (above : List Body) (b : Body) :
    b.chains above = (above ++ [b]) :: chainsAll (above ++ [b]) b.children := by
  cases b
  rfl

@[simp] theorem preorderAll_nil : preorderAll [] = [] := rfl

@[simp] theorem preorderAll_cons (b : Body) (bs : List Body) :
    preorderAll (b :: bs) = b :: preorderAll b.children ++ preorderAll bs := by
  rw [preorderAll, preorder_eq]

@[simp] theorem chainsAll_nil (above : List Body) : chainsAll above [] = [] := rfl

@[simp] theorem chainsAll_cons (above : List Body) (b : Body) (bs : List Body) :
    chainsAll above (b :: bs) =
      (above ++ [b]) :: chainsAll (above ++ [b]) b.children ++ chainsAll above bs := by
  rw [chainsAll, chains_eq]

/-- What holds of no bodies, and of a body with those beside it if it holds of its children and of
those beside it, holds of all bodies. -/
@[elab_as_elim] theorem forest_induction {motive : List Body → Prop} (nil : motive [])
    (cons : ∀ b bs, motive b.children → motive bs → motive (b :: bs)) : ∀ bs, motive bs
  | [] => nil
  | ⟨name, radius, axis, omega, spin, texture, children⟩ :: bs =>
    cons ⟨name, radius, axis, omega, spin, texture, children⟩ bs
      (forest_induction nil cons children) (forest_induction nil cons bs)

/-- Every body ends one chain. -/
theorem map_getLast?_chainsAll (above bs : List Body) :
    (chainsAll above bs).map List.getLast? = (preorderAll bs).map some := by
  induction bs using forest_induction generalizing above with
  | nil => rfl
  | cons b bs ihc ih => simp [ihc, ih]

/-- A chain leads from the bodies above down through the scene. -/
theorem mem_of_mem_chainsAll {above bs chain : List Body} {b : Body}
    (h : chain ∈ chainsAll above bs) (hb : b ∈ chain) : b ∈ above ∨ b ∈ preorderAll bs := by
  induction bs using forest_induction generalizing above with
  | nil => cases h
  | cons d bs ihc ih =>
    rw [chainsAll_cons, List.cons_append, List.mem_cons, List.mem_append] at h
    rcases h with rfl | h | h
    · rcases List.mem_append.mp hb with hb | hb
      · exact .inl hb
      · simp [List.mem_singleton.mp hb]
    · rcases ihc h with hb | hb
      · rcases List.mem_append.mp hb with hb | hb
        · exact .inl hb
        · simp [List.mem_singleton.mp hb]
      · simp [hb]
    · rcases ih h with hb | hb
      · exact .inl hb
      · simp [hb]

end Planetarium.Body
