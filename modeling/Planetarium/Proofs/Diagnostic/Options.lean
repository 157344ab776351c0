import Planetarium.Proofs.Diagnostic.Entries
import Mathlib.Data.List.Sort

/-!
# Lists of codes as sets

The codes of a list are those it names, and there are codes for a list just when it names nothing
else.  What a policy is made of two lists, and why there is none, is worked out from the two sets
of texts that they name.
-/
namespace Planetarium
open Text

/-- The text is a code. -/
def Registered (t : String) : Prop := ∃ c : Code, c.text = t

/-- The texts are those with a property, in order and each once. -/
structure Lists (texts : List String) (p : String → Prop) : Prop where
  sorted : texts.Pairwise (· < ·)
  mem_iff : ∀ t, t ∈ texts ↔ p t

theorem Lists.congr {texts : List String} {p q : String → Prop} (h : Lists texts p)
    (hpq : ∀ t, p t ↔ q t) : Lists texts q :=
  ⟨h.sorted, fun t => (h.mem_iff t).trans (hpq t)⟩

/-- Only one list is in order and has just those texts in it. -/
theorem Lists.unique {texts texts' : List String} {p : String → Prop} (h : Lists texts p)
    (h' : Lists texts' p) : texts = texts' :=
  h.sorted.eq_of_mem_iff h'.sorted fun t => (h.mem_iff t).trans (h'.mem_iff t).symm

/-! ## Sorted texts -/

theorem pairwise_insertSorted (s : String) {ts : List String} (h : ts.Pairwise (· < ·)) :
    (insertSorted s ts).Pairwise (· < ·) := by
  induction ts with
  | nil => exact List.pairwise_singleton _ _
  | cons t ts ih =>
    obtain ⟨hhead, htail⟩ := List.pairwise_cons.mp h
    rw [insertSorted]
    split
    · exact h
    · rename_i hne
      split
      · rename_i hlt
        refine List.pairwise_cons.mpr ⟨List.forall_mem_cons.mpr ⟨hlt, fun u hu => ?_⟩, h⟩
        exact String.lt_trans hlt (hhead u hu)
      · rename_i hge
        have hlt : t < s := String.not_le.mp fun hle =>
          hne (String.le_antisymm hle (String.not_lt.mp hge))
        refine List.pairwise_cons.mpr ⟨fun u hu => ?_, ih htail⟩
        rcases mem_insertSorted.mp hu with rfl | hu
        · exact hlt
        · exact hhead u hu

/-- Sorting gives that list. -/
theorem lists_sortedTexts (texts : List String) : Lists (sortedTexts texts) (· ∈ texts) where
  sorted := by
    induction texts with
    | nil => exact List.Pairwise.nil
    | cons t texts ih => exact pairwise_insertSorted t ih
  mem_iff _ := mem_sortedTexts

/-! ## The codes among some texts -/

theorem mem_knownCodes {texts : List String} {c : Code} :
    c ∈ knownCodes texts ↔ c.text ∈ texts := by
  simp [knownCodes, Code.mem_all]

theorem registered_iff {t : String} : Registered t ↔ (Code.ofText? t).isSome := by
  constructor
  · rintro ⟨c, rfl⟩
    rw [Code.ofText?_text]
    rfl
  · intro h
    obtain ⟨c, hc⟩ := Option.isSome_iff_exists.mp h
    exact ⟨c, Code.text_of_ofText? hc⟩

theorem lists_unknownCodes (texts : List String) :
    Lists (unknownCodes texts) fun t => t ∈ texts ∧ ¬ Registered t :=
  (lists_sortedTexts _).congr fun t => by simp [registered_iff]

theorem knownCodes_congr {texts texts' : List String} (h : ∀ t, t ∈ texts ↔ t ∈ texts') :
    knownCodes texts = knownCodes texts' :=
  List.filter_congr fun c _ => by rw [Bool.eq_iff_iff]; simp [h]

theorem unknownCodes_congr {texts texts' : List String} (h : ∀ t, t ∈ texts ↔ t ∈ texts') :
    unknownCodes texts = unknownCodes texts' :=
  (lists_unknownCodes texts).unique <|
    (lists_unknownCodes texts').congr fun t => by rw [h t]

theorem pairwise_filter_knownCodes (texts : List String) (p : Code → Bool) :
    (((knownCodes texts).filter p).map Code.text).Pairwise (· < ·) := by
  have hall : (Code.all.map Code.text).Pairwise (· < ·) := by decide
  exact hall.sublist (List.Sublist.map _ (List.filter_sublist.trans List.filter_sublist))

namespace Policy

/-! ## One list -/

theorem codesOfList_eq_ok {list : String} (h : ∀ t, Names list t → Registered t) :
    codesOfList list = .ok (knownCodes (tokens list)) := by
  have hnone : unknownCodes (tokens list) = [] := by
    refine List.eq_nil_iff_forall_not_mem.mpr fun t ht => ?_
    obtain ⟨hmem, hnot⟩ := ((lists_unknownCodes _).mem_iff t).mp ht
    exact hnot (h t (mem_tokens.mp hmem))
  rw [codesOfList, codesOf, hnone]

theorem codesOfList_eq_error {list : String} (h : ∃ t, Names list t ∧ ¬ Registered t) :
    ∃ ts, Lists ts (fun t => Names list t ∧ ¬ Registered t) ∧
      codesOfList list = .error (.unknownCodes ts) := by
  have hlists : Lists (unknownCodes (tokens list)) fun t => Names list t ∧ ¬ Registered t :=
    (lists_unknownCodes _).congr fun t => and_congr_left' mem_tokens
  refine ⟨unknownCodes (tokens list), hlists, ?_⟩
  obtain ⟨t, ht⟩ := h
  have hmem := (hlists.mem_iff t).mpr ht
  rw [codesOfList, codesOf]
  split
  · rename_i hnil
    rw [hnil] at hmem
    cases hmem
  · rfl

/-- A list of codes is read just if every code in it is known. -/
theorem exists_codesOfList_iff {list : String} :
    (∃ cs, codesOfList list = .ok cs) ↔ ∀ t, Names list t → Registered t := by
  refine ⟨fun ⟨cs, hcs⟩ => ?_, fun h => ⟨_, codesOfList_eq_ok h⟩⟩
  by_contra hnot
  push Not at hnot
  obtain ⟨ts, -, herror⟩ := codesOfList_eq_error hnot
  rw [hcs] at herror
  cases herror

/-- What is read are the codes it names. -/
theorem mem_codesOfList {list : String} {cs : List Code} (h : codesOfList list = .ok cs)
    (c : Code) : c ∈ cs ↔ Names list c.text := by
  rw [codesOfList_eq_ok (exists_codesOfList_iff.mp ⟨cs, h⟩)] at h
  rw [← Except.ok.inj h, mem_knownCodes, mem_tokens]

theorem codesOfList_congr {a b : String} (h : ∀ t, Names a t ↔ Names b t) :
    codesOfList a = codesOfList b := by
  have htokens : ∀ t, t ∈ tokens a ↔ t ∈ tokens b := fun t => by rw [mem_tokens, mem_tokens, h]
  rw [codesOfList, codesOfList, codesOf, codesOf, unknownCodes_congr htokens,
    knownCodes_congr htokens]

theorem exists_codesOfList_append {a b : String} :
    (∃ cs, codesOfList (a ++ "," ++ b) = .ok cs) ↔
      (∃ as, codesOfList a = .ok as) ∧ ∃ bs, codesOfList b = .ok bs := by
  simp only [exists_codesOfList_iff, names_append, or_imp, forall_and]

/-! ## Two sets -/

theorem ofCodes_eq_ok {escalated suppressed : List Code} (h : ∀ c ∈ escalated, c ∉ suppressed) :
    ofCodes escalated suppressed = .ok ⟨escalated, suppressed, h⟩ := by
  have hnil : escalated.filter (· ∈ suppressed) = [] := by simpa using h
  rw [ofCodes]
  split
  · rfl
  · rename_i hne
    exact absurd hnil hne

/-- Codes that are escalated and suppressed are a conflict. -/
theorem ofCodes_eq_error {escalated suppressed : List Code}
    (h : ∃ c ∈ escalated, c ∈ suppressed) :
    ofCodes escalated suppressed = .error (.conflict (escalated.filter (· ∈ suppressed))) := by
  obtain ⟨c, hc, hs⟩ := h
  have hmem : c ∈ escalated.filter (· ∈ suppressed) := by simp [hc, hs]
  rw [ofCodes]
  split
  · rename_i hnil
    rw [hnil] at hmem
    cases hmem
  · rfl

/-! ## Two lists -/

/-- The policy for two lists. -/
def ofLists (escalated suppressed : String) : Except PolicyError Policy :=
  (codesOfList escalated).bind fun es => (codesOfList suppressed).bind fun ss => ofCodes es ss

section Faults
variable {w s : String}

/-- Unknown codes that are to be escalated are reported first. -/
theorem ofLists_eq_error_left (h : ∃ t, Names w t ∧ ¬ Registered t) :
    ∃ ts, Lists ts (fun t => Names w t ∧ ¬ Registered t) ∧
      ofLists w s = .error (.unknownCodes ts) := by
  obtain ⟨ts, hts, herror⟩ := codesOfList_eq_error h
  exact ⟨ts, hts, by rw [ofLists, herror]; rfl⟩

variable (hw : ∀ t, Names w t → Registered t)
include hw

/-- Then those that are to be suppressed. -/
theorem ofLists_eq_error_right (h : ∃ t, Names s t ∧ ¬ Registered t) :
    ∃ ts, Lists ts (fun t => Names s t ∧ ¬ Registered t) ∧
      ofLists w s = .error (.unknownCodes ts) := by
  obtain ⟨ts, hts, herror⟩ := codesOfList_eq_error h
  exact ⟨ts, hts, by rw [ofLists, codesOfList_eq_ok hw, herror]; rfl⟩

variable (hs : ∀ t, Names s t → Registered t)
include hs

theorem ofLists_eq_ofCodes :
    ofLists w s = ofCodes (knownCodes (tokens w)) (knownCodes (tokens s)) := by
  rw [ofLists, codesOfList_eq_ok hw, codesOfList_eq_ok hs]
  rfl

/-- Then those that are to be both. -/
theorem ofLists_eq_error_both (h : ∃ t, Names w t ∧ Names s t) :
    ∃ cs : List Code, Lists (cs.map Code.text) (fun t => Names w t ∧ Names s t) ∧
      ofLists w s = .error (.conflict cs) := by
  obtain ⟨t, ht, ht'⟩ := h
  obtain ⟨c, rfl⟩ := hw t ht
  rw [ofLists_eq_ofCodes hw hs, ofCodes_eq_error
    ⟨c, mem_knownCodes.mpr (mem_tokens.mpr ht), mem_knownCodes.mpr (mem_tokens.mpr ht')⟩]
  refine ⟨_, ⟨pairwise_filter_knownCodes _ _, fun u => ?_⟩, rfl⟩
  simp only [List.mem_map, List.mem_filter, mem_knownCodes, decide_eq_true_eq, mem_tokens]
  constructor
  · rintro ⟨c, hc, rfl⟩
    exact hc
  · intro hu
    obtain ⟨c, rfl⟩ := hw u hu.1
    exact ⟨c, hu, rfl⟩

/-- Otherwise there is a policy for them. -/
theorem ofLists_eq_ok (h : ¬ ∃ t, Names w t ∧ Names s t) : ∃ p, ofLists w s = .ok p ∧
    (∀ c, c ∈ p.escalated ↔ Names w c.text) ∧ ∀ c, c ∈ p.suppressed ↔ Names s c.text := by
  have hdisjoint : ∀ c ∈ knownCodes (tokens w), c ∉ knownCodes (tokens s) := fun c hc hc' =>
    h ⟨c.text, mem_tokens.mp (mem_knownCodes.mp hc), mem_tokens.mp (mem_knownCodes.mp hc')⟩
  refine ⟨_, by rw [ofLists_eq_ofCodes hw hs, ofCodes_eq_ok hdisjoint], ?_, ?_⟩
  · exact fun c => mem_knownCodes.trans mem_tokens
  · exact fun c => mem_knownCodes.trans mem_tokens

end Faults

section Outcome
variable {w s : String}

/-- Each of the three faults excludes that there is a policy, and without any there is one. -/
theorem exists_ofLists_iff : (∃ p, ofLists w s = .ok p) ↔
    (∀ t, Names w t ∨ Names s t → Registered t) ∧ ¬ ∃ t, Names w t ∧ Names s t := by
  constructor
  · rintro ⟨p, hp⟩
    have hw : ∀ t, Names w t → Registered t := by
      by_contra hnot
      push Not at hnot
      obtain ⟨ts, -, herror⟩ := ofLists_eq_error_left (s := s) hnot
      simp [hp] at herror
    have hs : ∀ t, Names s t → Registered t := by
      by_contra hnot
      push Not at hnot
      obtain ⟨ts, -, herror⟩ := ofLists_eq_error_right hw hnot
      simp [hp] at herror
    refine ⟨fun t ht => ht.elim (hw t) (hs t), fun hboth => ?_⟩
    obtain ⟨cs, -, herror⟩ := ofLists_eq_error_both hw hs hboth
    simp [hp] at herror
  · rintro ⟨hall, hnot⟩
    obtain ⟨p, hp, -⟩ := ofLists_eq_ok (fun t ht => hall t (.inl ht))
      (fun t ht => hall t (.inr ht)) hnot
    exact ⟨p, hp⟩

/-- A policy has just the codes that the lists name. -/
theorem mem_of_ofLists {p : Policy} (h : ofLists w s = .ok p) :
    (∀ c, c ∈ p.escalated ↔ Names w c.text) ∧ ∀ c, c ∈ p.suppressed ↔ Names s c.text := by
  obtain ⟨hall, hnot⟩ := exists_ofLists_iff.mp ⟨p, h⟩
  obtain ⟨q, hq, hmem⟩ := ofLists_eq_ok (fun t ht => hall t (.inl ht))
    (fun t ht => hall t (.inr ht)) hnot
  obtain rfl : p = q := Except.ok.inj (h.symm.trans hq)
  exact hmem

/-- Only what the lists name counts. -/
theorem ofLists_congr {w' s' : String} (hw : ∀ t, Names w' t ↔ Names w t)
    (hs : ∀ t, Names s' t ↔ Names s t) : ofLists w' s' = ofLists w s := by
  rw [ofLists, ofLists, codesOfList_congr hw, codesOfList_congr hs]

end Outcome

/-! ## Two options -/

/-- An option that is not given counts as an empty list, if the other one is given. -/
theorem ofOptions_eq {escalated suppressed : Option String}
    (h : escalated.isSome ∨ suppressed.isSome) : ofOptions escalated suppressed =
      (ofLists (escalated.getD "") (suppressed.getD "")).map some := by
  have hbind (w s : String) : ((codesOfList w).bind fun es =>
      (codesOfList s).bind fun ss => some <$> ofCodes es ss) = (ofLists w s).map some := by
    rw [ofLists]
    cases codesOfList w with
    | error e => rfl
    | ok es => cases codesOfList s <;> rfl
  cases escalated with
  | some w => exact hbind w (suppressed.getD "")
  | none =>
    cases suppressed with
    | some s => exact hbind "" s
    | none => simp at h

/-- **Lists of codes mean sets.**  For the lists `w` and `s` of two options, of which at least one
is given, there is a policy just when both name codes only and none in common, and it is made of
the codes they name.  Otherwise the error lists the texts that `w` names and that are no codes, if
there are any, else those of `s`, else the codes in common.  The codes of two lists put together
are those of the one and of the other, and nothing but the texts that a list names makes a
difference, neither what is around them nor how often, in which order and in which case they
stand there. -/
theorem option_lists_mean_sets {escalated suppressed : Option String}
    (hgiven : escalated.isSome ∨ suppressed.isSome) {w s : String}
    (hw : escalated.getD "" = w) (hs : suppressed.getD "" = s) :
    ((∃ p, ofOptions escalated suppressed = .ok (some p)) ↔
      (∀ t, Names w t ∨ Names s t → Registered t) ∧ ¬ ∃ t, Names w t ∧ Names s t) ∧
    (∀ p, ofOptions escalated suppressed = .ok (some p) →
      (∀ c, c ∈ p.escalated ↔ Names w c.text) ∧ (∀ c, c ∈ p.suppressed ↔ Names s c.text) ∧
      ∀ c ∈ p.escalated, c ∉ p.suppressed) ∧
    ((∃ t, Names w t ∧ ¬ Registered t) →
      ∃ ts, Lists ts (fun t => Names w t ∧ ¬ Registered t) ∧
        ofOptions escalated suppressed = .error (.unknownCodes ts)) ∧
    ((∀ t, Names w t → Registered t) → (∃ t, Names s t ∧ ¬ Registered t) →
      ∃ ts, Lists ts (fun t => Names s t ∧ ¬ Registered t) ∧
        ofOptions escalated suppressed = .error (.unknownCodes ts)) ∧
    ((∀ t, Names w t → Registered t) → (∀ t, Names s t → Registered t) →
      (∃ t, Names w t ∧ Names s t) →
      ∃ cs : List Code, Lists (cs.map Code.text) (fun t => Names w t ∧ Names s t) ∧
        ofOptions escalated suppressed = .error (.conflict cs)) ∧
    (∀ a b, ((∃ cs, codesOfList (a ++ "," ++ b) = .ok cs) ↔
        (∃ as, codesOfList a = .ok as) ∧ ∃ bs, codesOfList b = .ok bs) ∧
      ∀ cs as bs, codesOfList (a ++ "," ++ b) = .ok cs → codesOfList a = .ok as →
        codesOfList b = .ok bs → ∀ c, c ∈ cs ↔ c ∈ as ∨ c ∈ bs) ∧
    (∀ w' s', (∀ t, Names w' t ↔ Names w t) → (∀ t, Names s' t ↔ Names s t) →
      ofOptions (some w') (some s') = ofOptions escalated suppressed) ∧
    (∀ a b, (∀ t, Names a t ↔ Names b t) → codesOfList a = codesOfList b) ∧
    (∀ a b : String, uppercase a.toList = uppercase b.toList → ∀ t, Names a t ↔ Names b t) ∧
    (∀ pieces pieces' : List (List Char), (∀ piece ∈ pieces ++ pieces', ',' ∉ piece) →
      (∀ word ≠ [], (∃ piece ∈ pieces, uppercase (strip piece) = word) ↔
        ∃ piece ∈ pieces', uppercase (strip piece) = word) →
      ∀ t, Names (listOf pieces) t ↔ Names (listOf pieces') t) := by
  have hoptions : ofOptions escalated suppressed = (ofLists w s).map some := by
    rw [← hw, ← hs]
    exact ofOptions_eq hgiven
  have hok (p : Policy) : ofOptions escalated suppressed = .ok (some p) ↔ ofLists w s = .ok p := by
    rw [hoptions]
    cases ofLists w s <;> simp [Except.map]
  have herror {e : PolicyError} (h : ofLists w s = .error e) :
      ofOptions escalated suppressed = .error e := by
    rw [hoptions, h]
    rfl
  refine ⟨?_, fun p hp => ?_, fun h => ?_, fun hleft h => ?_, fun hleft hright h => ?_,
    fun a b => ?_, fun w' s' hleft hright => ?_, fun a b => codesOfList_congr,
    fun a b => names_congr_uppercase, fun pieces pieces' => names_listOf_congr⟩
  · simp only [hok]
    exact exists_ofLists_iff
  · obtain ⟨hescalated, hsuppressed⟩ := mem_of_ofLists ((hok p).mp hp)
    exact ⟨hescalated, hsuppressed, p.disjoint⟩
  · obtain ⟨ts, hts, h⟩ := ofLists_eq_error_left (s := s) h
    exact ⟨ts, hts, herror h⟩
  · obtain ⟨ts, hts, h⟩ := ofLists_eq_error_right hleft h
    exact ⟨ts, hts, herror h⟩
  · obtain ⟨cs, hcs, h⟩ := ofLists_eq_error_both hleft hright h
    exact ⟨cs, hcs, herror h⟩
  · refine ⟨exists_codesOfList_append, fun cs as bs hcs has hbs c => ?_⟩
    rw [mem_codesOfList hcs, mem_codesOfList has, mem_codesOfList hbs, names_append]
  · rw [hoptions, ofOptions_eq (.inl rfl)]
    exact congrArg (Except.map some) (ofLists_congr hleft hright)

theorem option_lists_mean_sets_repeated :
    (some " w01,,W01 ").isSome ∧
    ∃ p, ofOptions (some " w01,,W01 ") (some "w03") = .ok (some p) ∧
      p.escalated = [.unknownProperty] ∧ p.suppressed = [.wrongKind] ∧
      (∀ c : Code, Names " w01,,W01 " c.text ↔ c = .unknownProperty) ∧
      ∀ c : Code, Names "w03" c.text ↔ c = .wrongKind := by
  have hp : ofOptions (some " w01,,W01 ") (some "w03") =
      .ok (some ⟨[.unknownProperty], [.wrongKind], by decide⟩) := by
    set_option maxRecDepth 4000 in
    rfl
  obtain ⟨hescalated, hsuppressed, -⟩ := (option_lists_mean_sets (.inl rfl) rfl rfl).2.1 _ hp
  exact ⟨rfl, _, hp, rfl, rfl, fun c => (hescalated c).symm.trans List.mem_singleton,
    fun c => (hsuppressed c).symm.trans List.mem_singleton⟩

end Policy

end Planetarium
