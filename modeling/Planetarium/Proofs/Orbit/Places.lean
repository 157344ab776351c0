import Planetarium.Orbit.Position
import Planetarium.Proofs.Document.Parsed
import Planetarium.Proofs.Scene.Meaning
import Planetarium.Proofs.Scene.Order
import Planetarium.Proofs.Table

/-!
# The places of a scene

Where a body is depends on nothing but the time and the orbits on the way down to it
(`Orbit.placeAlong`).  The table of places has an entry for each path.  Bodies that share a path
share its entry, which stands where the first of them is met and says where the last of them is.
Names without dots tell paths apart.
-/
namespace Planetarium

/-! ## Paths -/

/-- What is in front of the last of some texts is each of the others with a separator. -/
theorem intercalate_append_singleton (separator : String) (texts : List String) (last : String) :
    separator.intercalate (texts ++ [last]) = String.join (texts.map (· ++ separator)) ++ last := by
  induction texts with
  | nil => simp
  | cons text texts ih =>
    rw [List.cons_append, String.intercalate_cons_of_ne_nil (by simp), ih, List.map_cons,
      String.join_cons, String.append_assoc, String.append_assoc, String.append_assoc]

namespace Body
variable {above bs chain : List Body} {b : Body}

/-- The path of a chain: its names joined by dots. -/
def path (chain : List Body) : String := ".".intercalate (chain.map name)

/-- What a path begins with that leads through these bodies and on. -/
def lead (above : List Body) : String := String.join (above.map fun b => b.name ++ ".")

@[simp] theorem lead_append_singleton (above : List Body) (b : Body) :
    lead (above ++ [b]) = lead above ++ b.name ++ "." := by
  simp [lead, String.append_assoc]

@[simp] theorem path_append_singleton (above : List Body) (b : Body) :
    path (above ++ [b]) = lead above ++ b.name := by
  rw [path, List.map_append, List.map_cons, List.map_nil, intercalate_append_singleton,
    List.map_map]
  rfl

/-- Names without dots can be read off a path. -/
theorem names_eq_of_path_eq {c d : List Body} (hc : c ≠ []) (hd : d ≠ [])
    (hdot : ∀ b ∈ c ++ d, '.' ∉ b.name.toList) (h : path c = path d) :
    c.map name = d.map name := by
  have hsplit (chain : List Body) (hne : chain ≠ []) (hchain : ∀ b ∈ chain, '.' ∉ b.name.toList) :
      List.splitOn '.' (path chain).toList = chain.map fun b => b.name.toList := by
    rw [path, String.toList_intercalate, List.map_map]
    exact List.splitOn_intercalate '.' (by simpa using hchain) (by simpa using hne)
  have hlists : c.map (fun b => b.name.toList) = d.map fun b => b.name.toList := by
    rw [← hsplit c hc fun b hb => hdot b (List.mem_append_left d hb), h,
      hsplit d hd fun b hb => hdot b (List.mem_append_right c hb)]
  have hback : c.map name = (c.map fun b => b.name.toList).map String.ofList := by
    rw [List.map_map]
    exact List.map_congr_left fun b _ => String.ofList_toList.symm
  rw [hback, hlists, List.map_map]
  exact List.map_congr_left fun b _ => String.ofList_toList

theorem ne_nil_of_mem_chainsAll (h : chain ∈ chainsAll above bs) : chain ≠ [] := by
  rintro rfl
  have hmem := List.mem_map_of_mem (f := List.getLast?) h
  rw [map_getLast?_chainsAll] at hmem
  simp at hmem

end Body

/-! ## Loaded bodies -/

variable {env : Environment} {room : Room}

theorem Command.isName_of_wellFormed {name : String} {block cs : List Command} {rest : List Arg}
    (hw : Command.wellFormedAll
      (.invocation (.word declarationWord :: .word name :: .block block :: rest) :: cs)) :
    Parsing.isName name.toList ∧ Command.wellFormedAll block ∧ Command.wellFormedAll cs := by
  simp only [wellFormedAll, wellFormed, Arg.wellFormedAll, Arg.wellFormed, Bool.and_eq_true] at hw
  exact ⟨hw.1.2.2.1, hw.1.2.2.2.1, hw.2⟩

mutual
/-- The bodies in a tree that well-formed commands stand for have names. -/
theorem Tree.isName {earlier : List Definition} {name : String} {block : List Command} {b : Body}
    (hname : Parsing.isName name.toList) (hw : Command.wellFormedAll block) :
    Tree env room earlier name block b → ∀ d ∈ b.preorder, Parsing.isName d.name.toList
  | .body hb _ _ hforest => by
    intro d hd
    rw [Body.preorder_eq, List.mem_cons] at hd
    rcases hd with rfl | hd
    · rw [hb]
      exact hname
    · exact Forest.isName hw hforest d hd

theorem Forest.isName {earlier : List Definition} {cs : List Command} {bs : List Body}
    (hw : Command.wellFormedAll cs) :
    Forest env room earlier cs bs → ∀ d ∈ Body.preorderAll bs, Parsing.isName d.name.toList
  | .nil => by simp
  | .declaration htree hforest => by
    obtain ⟨hname, hblock, hcs⟩ := Command.isName_of_wellFormed hw
    intro d hd
    rw [Body.preorderAll, List.mem_append] at hd
    rcases hd with hd | hd
    · exact Tree.isName hname hblock htree d hd
    · exact Forest.isName hcs hforest d hd
  | .other _ hforest => Forest.isName (Bool.and_eq_true_iff.mp hw).2 hforest
end

/-- No name in a document has a dot in it. -/
theorem Body.no_dot_of_loadAll {policy : Option Policy} {text : String} {limits : Parsing.Limits}
    {cs : List Command} {j k : Journal} {bodies : List Body}
    (hparse : Document.parse text limits = .ok cs)
    (hload : (loadAll policy cs room).go j = (.ok bodies, k)) :
    ∀ b ∈ preorderAll bodies, '.' ∉ b.name.toList := by
  intro b hb hdot
  obtain ⟨rest, hread, -⟩ := Grammar.parse_document.mp hparse
  have hforest : Forest j.env room [] cs bodies := forest_of_loadAll .refl rfl hload
  have hname := Forest.isName (hread.wellFormed : Command.wellFormedAll cs) hforest b hb
  have hchar := List.all_eq_true.mp (Parsing.all_isWordChar hname) '.' hdot
  exact absurd hchar (by decide)

/-! ## Places -/

/-- What the place of a body is made of: its angular speed and its distance. -/
def Body.orbit (b : Body) : Float × Float := (b.omega, b.semimajorAxis)

namespace Orbit
open Body

variable {time : Float} {bodies bs : List Body} {b : Body} {arms : List (Arm Float)}

/-- The frame at the end of some orbits, each of them in the frame of the one before. -/
def frameAlong (time : Float) (orbits : List (Float × Float)) : Except AngleError (Frame Float) :=
  orbits.foldlM
    (fun base (omega, axis) => (turn (time * omega)).map fun (c, s) => swing base c s axis)
    .identity

/-- The place at the end of some orbits. -/
def placeAlong (time : Float) (orbits : List (Float × Float)) : Except AngleError (List Float) :=
  (frameAlong time orbits).map Frame.place

/-- The frame along a chain is that of the chain above, with one body more. -/
theorem frameAlong_append_singleton (above : List Body) (b : Body) {base : Frame Float}
    (h : frameAlong time (above.map orbit) = .ok base) :
    frameAlong time ((above ++ [b]).map orbit) = frameOf b base time := by
  rw [frameAlong] at h
  rw [frameAlong, List.map_append, List.foldlM_append, h]
  simp [frameOf, orbit]
  rfl

theorem turn_of_not_isInfinite {degrees : Float}
    (h : Decimal.isInfinite (degrees * degree) = false) :
    turn degrees = .ok ((degrees * degree).cos, (degrees * degree).sin) := by
  simp [turn, h]

theorem armsOf_cons_eq_ok : armsOf time (b :: bs) = .ok arms ↔
    ∃ turned inner rest, turn (time * b.omega) = .ok turned ∧
      armsOf time b.children = .ok inner ∧ armsOf time bs = .ok rest ∧
      arms = ⟨b.name, turned.1, turned.2, b.semimajorAxis, inner⟩ :: rest := by
  obtain ⟨name, radius, axis, omega, spin, texture, children⟩ := b
  simp only [armsOf, armOf]
  cases turn (time * omega) <;> cases armsOf time children <;> cases armsOf time bs <;>
    simp [bind, Except.bind, pure, Except.pure, eq_comm]

/-- What stands in the table, entry by entry: the paths of the chains and the places along them. -/
theorem map_placesAll (bs : List Body) (above : List Body) {base : Frame Float}
    {arms : List (Arm Float)} (harms : armsOf time bs = .ok arms)
    (hbase : frameAlong time (above.map orbit) = .ok base) :
    (Arm.placesAll base (lead above) arms).map (fun e => (e.1, Except.ok e.2)) =
      (chainsAll above bs).map fun chain => (path chain, placeAlong time (chain.map orbit)) := by
  induction bs using forest_induction generalizing above base arms with
  | nil =>
    obtain rfl : [] = arms := Except.ok.inj harms
    rfl
  | cons b bs ihc ih =>
    obtain ⟨⟨c, s⟩, inner, rest, hturn, hinner, hrest, rfl⟩ := armsOf_cons_eq_ok.mp harms
    have hframe : frameAlong time ((above ++ [b]).map orbit) =
        .ok (swing base c s b.semimajorAxis) := by
      rw [frameAlong_append_singleton above b hbase, frameOf, hturn]
      rfl
    have hchildren := ihc (above ++ [b]) hinner hframe
    rw [lead_append_singleton] at hchildren
    rw [Arm.placesAll, Arm.places, chainsAll_cons, List.map_append, List.map_append, List.map_cons,
      List.map_cons, hchildren, ih above hrest hbase, path_append_singleton, placeAlong, hframe]
    rfl

/-- No body has turned by an infinite angle. -/
def NoInfiniteAngle (bodies : List Body) (time : Float) : Prop :=
  ∀ b ∈ preorderAll bodies, Decimal.isInfinite (time * b.omega * degree) = false

/-- Without an infinite angle every body has an arm. -/
theorem exists_armsOf (h : NoInfiniteAngle bs time) : ∃ arms, armsOf time bs = .ok arms := by
  induction bs using forest_induction with
  | nil => exact ⟨[], rfl⟩
  | cons b bs ihc ih =>
    obtain ⟨inner, hinner⟩ := ihc fun d hd => h d (by simp [hd])
    obtain ⟨rest, hrest⟩ := ih fun d hd => h d (by simp [hd])
    have hturn := turn_of_not_isInfinite (h b (by simp))
    exact ⟨_, armsOf_cons_eq_ok.mpr ⟨_, inner, rest, hturn, hinner, hrest, rfl⟩⟩

theorem armsOf_append {xs ys : List Body} (h : armsOf time (xs ++ ys) = .ok arms) :
    ∃ front back, armsOf time xs = .ok front ∧ armsOf time ys = .ok back ∧
      arms = front ++ back := by
  induction xs generalizing arms with
  | nil => exact ⟨[], arms, rfl, h, rfl⟩
  | cons b xs ih =>
    obtain ⟨turned, inner, rest, hturn, hinner, hrest, rfl⟩ := armsOf_cons_eq_ok.mp h
    obtain ⟨front, back, hfront, hback, rfl⟩ := ih hrest
    exact ⟨_, back, armsOf_cons_eq_ok.mpr ⟨turned, inner, front, hturn, hinner, hfront, rfl⟩,
      hback, rfl⟩

/-- Bodies side by side are placed side by side. -/
theorem placesAll_append (base : Frame Float) (above : String) (front back : List (Arm Float)) :
    Arm.placesAll base above (front ++ back) =
      Arm.placesAll base above front ++ Arm.placesAll base above back := by
  induction front with
  | nil => rfl
  | cons arm front ih => simp only [List.cons_append, Arm.placesAll, ih, List.append_assoc]

/-- Two lists with the same images can be cut at the same place. -/
theorem exists_cut_of_map_eq {α β γ : Type} {f : α → γ} {g : β → γ} {before after : List α} {a : α}
    {bs : List β} (h : (before ++ a :: after).map f = bs.map g) :
    ∃ before' b after', bs = before' ++ b :: after' ∧ f a = g b ∧ after.map f = after'.map g := by
  rw [List.map_append, List.map_cons] at h
  obtain ⟨before', tail, rfl, -, htail⟩ := List.map_eq_append_iff.mp h.symm
  obtain ⟨b, after', rfl, hb, hafter⟩ := List.map_eq_cons_iff.mp htail
  exact ⟨before', b, after', rfl, hb.symm, hafter.symm⟩

/-- The paths in the table are those of the chains. -/
theorem paths_eq {entries : List (String × List Float)} {chains : List (List Body)}
    (h : entries.map (fun e => (e.1, Except.ok e.2)) =
      chains.map fun chain => (path chain, placeAlong time (chain.map orbit))) :
    entries.map Prod.fst = chains.map path := by
  have hfirst := congrArg (List.map Prod.fst) h
  rwa [List.map_map, List.map_map] at hfirst

/-- What the table of the places of some bodies holds at a time. -/
structure Mapped (bodies : List Body) (time : Float) (table : Table (List Float)) : Prop where
  names : table.names = ((chainsAll [] bodies).map path).eraseDups
  get? : ∀ name place, table.get? name = some place ↔
    ∃ before chain after, chainsAll [] bodies = before ++ chain :: after ∧ path chain = name ∧
      name ∉ after.map path ∧ placeAlong time (chain.map orbit) = .ok place
  overlay : ∀ xs ys, bodies = xs ++ ys → ∃ first second, positions xs time = .ok first ∧
    positions ys time = .ok second ∧ table = first.insertAll second.entries

/-- The table of places maps the chains. -/
theorem mapped_of_armsOf (harms : armsOf time bodies = .ok arms) :
    Mapped bodies time (places arms) := by
  have hentries : (Arm.placesAll .identity "" arms).map (fun e => (e.1, Except.ok e.2)) =
      (chainsAll [] bodies).map fun chain => (path chain, placeAlong time (chain.map orbit)) :=
    map_placesAll bodies [] harms rfl
  refine ⟨?_, fun name place => Table.get?_ofList.trans ⟨?_, ?_⟩, ?_⟩
  · exact (Table.names_ofList _).trans (congrArg List.eraseDups (paths_eq hentries))
  · rintro ⟨before, after, hes, hlast⟩
    rw [hes] at hentries
    obtain ⟨before', chain, after', hchains, hentry, hafter⟩ := exists_cut_of_map_eq hentries
    obtain ⟨rfl, hplace⟩ := Prod.mk.inj hentry
    rw [paths_eq hafter] at hlast
    exact ⟨before', chain, after', hchains, rfl, hlast, hplace.symm⟩
  · rintro ⟨before, chain, after, hchains, rfl, hlast, hplace⟩
    rw [hchains] at hentries
    obtain ⟨before', ⟨key, value⟩, after', hes, hentry, hafter⟩ :=
      exists_cut_of_map_eq hentries.symm
    obtain ⟨rfl, hvalue⟩ := Prod.mk.inj hentry
    obtain rfl := Except.ok.inj (hplace.symm.trans hvalue)
    rw [← paths_eq hafter.symm] at hlast
    exact ⟨before', after', hes, hlast⟩
  · rintro xs ys rfl
    obtain ⟨front, back, hfront, hback, rfl⟩ := armsOf_append harms
    refine ⟨places front, places back, ?_, ?_, ?_⟩
    · rw [positions, hfront]
      rfl
    · rw [positions, hback]
      rfl
    · rw [places, placesAll_append, Table.ofList_append, ← Table.insertAll_entries_ofList]
      rfl

/-- **What the table of places holds.**  Its names are the paths of the bodies, each where it is
first met on the way through the scene.  With a path stands the place of the last body that has it,
and that is made of the time and the orbits on the way down to that body.  The places of two scenes
side by side are those of the first with those of the second laid over them.  As long as no name
has a dot in it, as in every scene that was read from a document, bodies with one path have the same
names above them. -/
theorem positions_mapped (bodies : List Body) :
    (∀ time, NoInfiniteAngle bodies time →
      ∃ table, positions bodies time = .ok table ∧ Mapped bodies time table) ∧
    (chainsAll [] bodies).map List.getLast? = (preorderAll bodies).map some ∧
    ((∀ b ∈ preorderAll bodies, '.' ∉ b.name.toList) →
      ∀ c ∈ chainsAll [] bodies, ∀ d ∈ chainsAll [] bodies,
        path c = path d → c.map name = d.map name) ∧
    ∀ text limits policy cs room j k, Document.parse text limits = .ok cs →
      (loadAll policy cs room).go j = (.ok bodies, k) →
        ∀ b ∈ preorderAll bodies, '.' ∉ b.name.toList := by
  refine ⟨fun time h => ?_, map_getLast?_chainsAll [] bodies, fun hdot c hc d hd hpath => ?_,
    fun text limits policy cs room j k hparse hload => no_dot_of_loadAll hparse hload⟩
  · obtain ⟨arms, harms⟩ := exists_armsOf h
    exact ⟨places arms, by rw [positions, harms]; rfl, mapped_of_armsOf harms⟩
  · refine names_eq_of_path_eq (ne_nil_of_mem_chainsAll hc) (ne_nil_of_mem_chainsAll hd) ?_ hpath
    intro b hb
    rcases List.mem_append.mp hb with hb | hb
    · exact hdot b ((mem_of_mem_chainsAll hc hb).resolve_left List.not_mem_nil)
    · exact hdot b ((mem_of_mem_chainsAll hd hb).resolve_left List.not_mem_nil)

/-- Two suns of one name, each with an earth, and a moon beside them. -/
def samplePlaces : List Body := [
  { name := "Sun", children := [{ name := "Earth" }] },
  { name := "Moon", omega := -3 },
  { name := "Sun", semimajorAxis := 2, children := [{ name := "Earth", omega := 0.5 }] }]

theorem positions_mapped_sample : NoInfiniteAngle samplePlaces 0.25 ∧
    (∃ table, positions samplePlaces 0.25 = .ok table ∧
      table.names = ["Sun", "Sun.Earth", "Moon"]) ∧
    (∀ b ∈ preorderAll samplePlaces, '.' ∉ b.name.toList) ∧
    ∀ c ∈ chainsAll [] samplePlaces, ∀ d ∈ chainsAll [] samplePlaces,
      path c = path d → c.map name = d.map name := by
  have hangles : NoInfiniteAngle samplePlaces 0.25 := by
    unfold NoInfiniteAngle
    decide
  have hdot : ∀ b ∈ preorderAll samplePlaces, '.' ∉ b.name.toList := by decide
  obtain ⟨hplaces, -, hpaths, -⟩ := positions_mapped samplePlaces
  obtain ⟨table, htable, hmapped⟩ := hplaces 0.25 hangles
  exact ⟨hangles, ⟨table, htable, hmapped.names.trans (by decide)⟩, hdot, hpaths hdot⟩

end Orbit
end Planetarium
