import Planetarium.Proofs.Parsing.Nesting
import Planetarium.Proofs.Parsing.Outcome

/-!
# How often a place is opened

The log of an attempt tells at which offsets a block, group or call was opened, over all
alternatives.  A reading that goes on from where it has matched opens further and further on; what
can go wrong is that it goes back.  A rule that ends in front of a character which nothing after it
can use may already have looked behind that character, and the attempts that follow there must open
nothing (`Silent`) or count twice.

`Climbs` says of an attempt how often it opens each offset, and that it opens further and further
on unless a block has been rejected on the way.  It is kept by doing one attempt after another.
-/
namespace Planetarium.Text.Cursor

variable {text w r : List Char} {s : Cursor}

/-- A place stays in the text when some characters are passed. -/
theorem Within.advance (h : s.Within text) (hs : s.rest = w ++ r) :
    Within text ⟨s.offset + w.length, r⟩ := by
  have hl := h.offset_add_left
  rw [left, hs, List.length_append] at hl
  refine ⟨by simp only; omega, ?_⟩
  simp only
  rw [← List.drop_drop, ← h.2, hs, List.drop_left]

/-- The character at a place, by its offset. -/
theorem Within.getElem? (h : s.Within text) : text[s.offset]? = s.rest.head? := by
  rw [h.2, List.head?_drop]

/-- Of two places of a text the one with less left is further on. -/
theorem Within.offset_le {t : Cursor} (h : s.Within text) (ht : t.Within text)
    (hle : t.left ≤ s.left) : s.offset ≤ t.offset := by
  have := h.offset_add_left
  have := ht.offset_add_left
  omega

/-- Of two places in a text the one with less left is further on. -/
theorem Within.offset_lt {t : Cursor} (h : s.Within text) (ht : t.Within text)
    (hlt : t.left < s.left) : s.offset < t.offset := by
  have := h.offset_add_left
  have := ht.offset_add_left
  omega

/-- A place of a text is the one at which the same is left. -/
theorem Within.eq_facing (h : s.Within text) : s = facing text.length s.rest := by
  have := h.offset_add_left
  obtain ⟨k, rest⟩ := s
  simp only [left_mk, facing, mk.injEq, and_true] at this ⊢
  omega

end Planetarium.Text.Cursor

namespace Planetarium.Parsing
open Text

/-! ## Braces -/

/-- How many blocks may begin at the offsets from `i` to `k`. -/
def braces (text : List Char) (i k : Nat) : Nat := ((text.take (k + 1)).drop i).count '{'

variable {text : List Char} {i j k : Nat}

/-- A shorter stretch has no more braces. -/
theorem braces_le (h : i ≤ j) : braces text j k ≤ braces text i k :=
  ((text.take (k + 1)).drop_sublist_drop_left h).count_le '{'

/-- A brace at the beginning of a stretch counts once. -/
theorem braces_eq_succ (hi : text[i]? = some '{') (h : i ≤ k) :
    braces text i k = braces text (i + 1) k + 1 := by
  have htake : (text.take (k + 1))[i]? = some '{' := by
    rw [List.getElem?_take_of_lt (Nat.lt_succ_of_le h), hi]
  obtain ⟨hlt, hget⟩ := List.getElem?_eq_some_iff.mp htake
  rw [braces, List.drop_eq_getElem_cons hlt, hget, List.count_cons_self, braces]

namespace Attempt

variable {α β : Type} {n m : Nat} {s t u : Cursor} {halt halt' : List Char → Prop}
  {a : Attempt α n} {b : Attempt β m} {v : α}

/-- A block was opened in the attempt and given up. -/
def Rejects (a : Attempt α n) : Prop := ∃ k, .missed k .closeBrace ∈ a.log

/-- From a place on, the attempt opens an offset at most twice as often for each brace on the way,
and opens further and further on unless a block is rejected.  Where it matches, all that it opened
is behind, or nothing can go on from there. -/
structure Climbs (text : List Char) (s : Cursor) (halt : List Char → Prop) (a : Attempt α n) :
    Prop where
  opens : ∀ k ∈ openings a.log, ∃ c ∈ text[k]?, opens c
  offset_le : ∀ k ∈ openings a.log, s.offset ≤ k
  count_le : ∀ k, (openings a.log).count k ≤ 2 ^ braces text s.offset k
  rises : a.Rejects ∨ (openings a.log).Pairwise (· < ·)
  ends : ∀ v t, a.Gives v t → t.Within text ∧ s.offset ≤ t.offset ∧
    (((openings a.log).Pairwise (· < ·) ∧ ∀ k ∈ openings a.log, k < t.offset) ∨ halt t.rest)

/-- From a place on, the attempt opens nothing, and it matches only where nothing can go on. -/
structure Silent (text : List Char) (s : Cursor) (halt : List Char → Prop) (a : Attempt α n) :
    Prop where
  openings_eq : openings a.log = []
  ends : ∀ v t, a.Gives v t → t.Within text ∧ s.offset ≤ t.offset ∧ halt t.rest

/-- An attempt that opens nothing climbs. -/
theorem climbs_of_openings (h : openings a.log = [])
    (hends : ∀ v t, a.Gives v t → t.Within text ∧ s.offset ≤ t.offset) :
    Climbs text s halt a where
  opens := by simp [h]
  offset_le := by simp [h]
  count_le k := by simp [h]
  rises := .inr (by simp [h])
  ends v t hg := ⟨(hends v t hg).1, (hends v t hg).2, .inl (by simp [h])⟩

/-- What opens nothing climbs. -/
theorem Silent.climbs (h : Silent text s halt a) : Climbs text s halt' a :=
  climbs_of_openings h.openings_eq fun v t hg => ⟨(h.ends v t hg).1, (h.ends v t hg).2.1⟩

/-- What climbs from a place climbs from every earlier one. -/
theorem Climbs.mono (h : Climbs text t halt a) (hst : s.offset ≤ t.offset)
    (hhalt : ∀ r, halt r → halt' r) : Climbs text s halt' a where
  opens := h.opens
  offset_le k hk := Nat.le_trans hst (h.offset_le k hk)
  count_le k := Nat.le_trans (h.count_le k)
    (Nat.pow_le_pow_right (by decide) (braces_le hst))
  rises := h.rises
  ends v u hg := by
    obtain ⟨hwithin, hle, hends⟩ := h.ends v u hg
    exact ⟨hwithin, Nat.le_trans hst hle, hends.imp_right (hhalt _)⟩

/-- What is silent at a place is silent at every earlier one. -/
theorem Silent.mono (h : Silent text t halt a) (hst : s.offset ≤ t.offset)
    (hhalt : ∀ r, halt r → halt' r) : Silent text s halt' a where
  openings_eq := h.openings_eq
  ends v u hg := by
    obtain ⟨hwithin, hle, hends⟩ := h.ends v u hg
    exact ⟨hwithin, Nat.le_trans hst hle, hhalt _ hends⟩

theorem climbs_accept {h : t.left < n} (ht : t.Within text) (hst : s.offset ≤ t.offset) :
    Climbs text s halt (accept v t h) := by
  refine climbs_of_openings rfl fun w u hg => ?_
  obtain ⟨-, rfl⟩ := gives_accept.mp hg
  exact ⟨ht, hst⟩

theorem silent_accept {h : t.left < n} (ht : t.Within text) (hst : s.offset ≤ t.offset)
    (hhalt : halt t.rest) : Silent text s halt (accept v t h) := by
  refine ⟨rfl, fun w u hg => ?_⟩
  obtain ⟨-, rfl⟩ := gives_accept.mp hg
  exact ⟨ht, hst, hhalt⟩

/-- An attempt that opens nothing and never matches is silent. -/
theorem silent_of_not_gives (h : openings a.log = []) (hno : ∀ v t, ¬ a.Gives v t) :
    Silent text s halt a := ⟨h, fun v t hg => absurd hg (hno v t)⟩

theorem silent_mismatch : Silent text s halt (mismatch : Attempt α n) :=
  silent_of_not_gives rfl nofun

theorem silent_miss {k : Nat} {e : Expected} : Silent text s halt (miss k e : Attempt α n) :=
  silent_of_not_gives rfl nofun

theorem silent_stop {r : Stop} : Silent text s halt (stop r : Attempt α n) :=
  silent_of_not_gives rfl nofun

theorem climbs_mismatch : Climbs text s halt (mismatch : Attempt α n) :=
  climbs_of_openings rfl nofun

theorem climbs_stop {r : Stop} : Climbs text s halt (stop r : Attempt α n) :=
  climbs_of_openings rfl nofun

theorem climbs_miss {k : Nat} {e : Expected} : Climbs text s halt (miss k e : Attempt α n) :=
  climbs_of_openings rfl nofun

/-! ## Earlier events -/

variable {log : List Event}

theorem Rejects.since (h : a.Rejects) : (a.since log).Rejects := by
  obtain ⟨k, hk⟩ := h
  exact ⟨k, List.mem_append_right _ hk⟩

/-- Misses before an attempt open nothing. -/
theorem Climbs.since_misses (h : Climbs text s halt a) (hlog : openings log = []) :
    Climbs text s halt (a.since log) := by
  have hopenings : openings (a.since log).log = openings a.log := by
    rw [log_since, openings_append, hlog, List.nil_append]
  exact ⟨by rw [hopenings]; exact h.opens, by rw [hopenings]; exact h.offset_le,
    by rw [hopenings]; exact h.count_le, by rw [hopenings]; exact h.rises.imp_left Rejects.since,
    by rw [hopenings]; exact h.ends⟩

theorem Silent.since_misses (h : Silent text s halt a) (hlog : openings log = []) :
    Silent text s halt (a.since log) :=
  ⟨by rw [log_since, openings_append, hlog, h.openings_eq]; rfl, h.ends⟩

/-- What opens at a place and then climbs from further on. -/
theorem Climbs.opened (h : Climbs text t halt a) (hst : s.offset < t.offset)
    (hs : ∃ c ∈ text[s.offset]?, Parsing.opens c) :
    Climbs text s halt (a.since [.opened s.offset]) := by
  have hopenings : openings (a.since [.opened s.offset]).log = s.offset :: openings a.log := rfl
  have hlt : ∀ k ∈ openings a.log, s.offset < k := fun k hk =>
    Nat.lt_of_lt_of_le hst (h.offset_le k hk)
  have hnot : s.offset ∉ openings a.log := fun hmem => Nat.lt_irrefl _ (hlt _ hmem)
  refine ⟨?_, ?_, fun k => ?_, ?_, fun v u hg => ?_⟩
  · rw [hopenings]
    exact List.forall_mem_cons.mpr ⟨hs, h.opens⟩
  · rw [hopenings]
    exact List.forall_mem_cons.mpr ⟨Nat.le_refl _, fun k hk => Nat.le_of_lt (hlt k hk)⟩
  · rw [hopenings]
    by_cases hk : k = s.offset
    · rw [hk, List.count_cons_self, List.count_eq_zero_of_not_mem hnot]
      exact Nat.one_le_two_pow
    · rw [List.count_cons_of_ne (Ne.symm hk)]
      exact (h.mono (s := s) (Nat.le_of_lt hst) fun _ hr => hr).count_le k
  · rw [hopenings]
    exact h.rises.imp Rejects.since fun hpairwise => List.pairwise_cons.mpr ⟨hlt, hpairwise⟩
  · obtain ⟨hwithin, hle, hends⟩ := h.ends v u hg
    refine ⟨hwithin, Nat.le_of_lt (Nat.lt_of_lt_of_le hst hle), hends.imp_left ?_⟩
    rintro ⟨hpairwise, hbehind⟩
    rw [hopenings]
    exact ⟨List.pairwise_cons.mpr ⟨hlt, hpairwise⟩,
      List.forall_mem_cons.mpr ⟨Nat.lt_of_lt_of_le hst hle, hbehind⟩⟩

/-- A rule climbs if it does where there is room for it. -/
theorem climbs_within {l : Level} {k : Nat} {rule : Unit → Attempt α n}
    (h : l.lacks k = false → Climbs text s halt (rule ())) :
    Climbs text s halt (l.within k rule) := by
  cases hroom : l.lacks k with
  | true =>
    rw [Level.within_of_lacks hroom]
    exact climbs_stop
  | false =>
    rw [Level.within_of_room hroom]
    exact h hroom

/-- A block may be opened twice as often as the braces behind its own one allow. -/
theorem Climbs.two_mul_count_opened (h : Climbs text t halt a) (hst : s.offset < t.offset)
    (hs : text[s.offset]? = some '{') (k : Nat) :
    2 * (openings (a.since [.opened s.offset]).log).count k ≤ 2 ^ braces text s.offset k := by
  have hopenings : openings (a.since [.opened s.offset]).log = s.offset :: openings a.log := rfl
  have hnot : s.offset ∉ openings a.log := fun hmem =>
    Nat.lt_irrefl _ (Nat.lt_of_lt_of_le hst (h.offset_le _ hmem))
  rw [hopenings]
  rcases Nat.lt_trichotomy s.offset k with hk | rfl | hk
  · rw [List.count_cons_of_ne (Nat.ne_of_lt hk), braces_eq_succ hs (Nat.le_of_lt hk), Nat.pow_succ',
      Nat.mul_le_mul_left_iff (by decide)]
    exact (h.mono (s := ⟨s.offset + 1, []⟩) hst fun _ hr => hr).count_le k
  · rw [List.count_cons_self, List.count_eq_zero_of_not_mem hnot, braces_eq_succ hs (Nat.le_refl _),
      Nat.pow_succ']
    exact Nat.mul_le_mul_left 2 Nat.one_le_two_pow
  · have hmem : k ∉ s.offset :: openings a.log := by
      rintro (_ | ⟨_, hmem⟩)
      · exact Nat.lt_irrefl _ hk
      · exact Nat.lt_asymm hk (Nat.lt_of_lt_of_le hst (h.offset_le _ hmem))
    rw [List.count_eq_zero_of_not_mem hmem]
    exact Nat.zero_le _

/-! ## One attempt after another -/

/-- What two attempts open are brackets, and no further back than the first one. -/
theorem Climbs.openings_since (h : Climbs text t halt b) (ha : Climbs text s halt' a)
    (hst : s.offset ≤ t.offset) :
    (∀ k ∈ openings (b.since a.log).log, ∃ c ∈ text[k]?, Parsing.opens c) ∧
      ∀ k ∈ openings (b.since a.log).log, s.offset ≤ k := by
  rw [log_since, openings_append]
  exact ⟨List.forall_mem_append.mpr ⟨ha.opens, h.opens⟩, List.forall_mem_append.mpr
    ⟨ha.offset_le, fun k hk => Nat.le_trans hst (h.offset_le k hk)⟩⟩

/-- An attempt behind what an earlier one has opened. -/
theorem Climbs.since_behind (h : Climbs text t halt b) (ha : Climbs text s halt' a)
    (hpairwise : (openings a.log).Pairwise (· < ·)) (hbehind : ∀ k ∈ openings a.log, k < t.offset)
    (hst : s.offset ≤ t.offset) : Climbs text s halt (b.since a.log) := by
  have h' := h.mono hst fun _ hr => hr
  have hcross : ∀ k ∈ openings a.log, ∀ j ∈ openings b.log, k < j := fun k hk j hj =>
    Nat.lt_of_lt_of_le (hbehind k hk) (h.offset_le j hj)
  obtain ⟨hopens, hoffset⟩ := h.openings_since ha hst
  refine ⟨hopens, hoffset, fun k => ?_, ?_, fun v u hg => ?_⟩
  · rw [log_since, openings_append, List.count_append]
    by_cases hk : k ∈ openings a.log
    · rw [List.count_eq_zero_of_not_mem fun hmem => Nat.lt_irrefl _ (hcross k hk k hmem)]
      exact ha.count_le k
    · rw [List.count_eq_zero_of_not_mem hk, Nat.zero_add]
      exact h'.count_le k
  · refine h.rises.imp Rejects.since fun hrises => ?_
    rw [log_since, openings_append]
    exact List.pairwise_append.mpr ⟨hpairwise, hrises, hcross⟩
  · obtain ⟨hwithin, hle, hends⟩ := h.ends v u hg
    refine ⟨hwithin, Nat.le_trans hst hle, hends.imp_left ?_⟩
    rintro ⟨hrises, hfurther⟩
    rw [log_since, openings_append]
    refine ⟨List.pairwise_append.mpr ⟨hpairwise, hrises, hcross⟩, ?_⟩
    exact List.forall_mem_append.mpr
      ⟨fun k hk => Nat.lt_of_lt_of_le (hbehind k hk) hle, hfurther⟩

/-- An attempt that is silent after all that an earlier one has opened. -/
theorem Climbs.since_silent (ha : Climbs text s halt' a) (h : Silent text s halt b) :
    Climbs text s halt (b.since a.log) := by
  have hopenings : openings (b.since a.log).log = openings a.log := by
    rw [log_since, openings_append, h.openings_eq, List.append_nil]
  refine ⟨by rw [hopenings]; exact ha.opens, by rw [hopenings]; exact ha.offset_le,
    by rw [hopenings]; exact ha.count_le, ?_, fun v u hg => ?_⟩
  · rw [hopenings]
    exact ha.rises.imp_left fun ⟨k, hk⟩ => ⟨k, List.mem_append_left _ hk⟩
  · obtain ⟨hwithin, hle, hhalt⟩ := h.ends v u hg
    exact ⟨hwithin, hle, .inr hhalt⟩

/-- Behind the end of an attempt only the next one counts. -/
theorem Climbs.count_since (ha : Climbs text s (fun _ => False) a) (hg : a.Gives v t)
    (hk : t.offset ≤ k) :
    (openings (b.since a.log).log).count k = (openings b.log).count k := by
  obtain ⟨-, -, hends⟩ := ha.ends v t hg
  obtain ⟨-, hbehind⟩ := hends.resolve_right id
  rw [log_since, openings_append, List.count_append,
    List.count_eq_zero_of_not_mem fun hmem => Nat.not_lt_of_le hk (hbehind k hmem), Nat.zero_add]

/-- An attempt that opens once more what an earlier one has opened from the same place on. -/
theorem Climbs.since_again (h : Climbs text t halt b) (ha : Climbs text s halt' a)
    (htwice : ∀ k, 2 * (openings b.log).count k ≤ 2 ^ braces text t.offset k)
    (hagain : ∀ k, t.offset ≤ k → (openings a.log).count k ≤ (openings b.log).count k)
    (hst : s.offset ≤ t.offset) (hrejects : b.Rejects) (hhalt : ∀ v u, b.Gives v u → halt u.rest) :
    Climbs text s halt (b.since a.log) := by
  obtain ⟨hopens, hoffset⟩ := h.openings_since ha hst
  refine ⟨hopens, hoffset, fun k => ?_, .inl hrejects.since, fun v u hg => ?_⟩
  · rw [log_since, openings_append, List.count_append]
    rcases Nat.lt_or_ge k t.offset with hk | hk
    · rw [List.count_eq_zero_of_not_mem fun hmem => Nat.lt_irrefl _
        (Nat.lt_of_lt_of_le hk (h.offset_le k hmem))]
      exact ha.count_le k
    · calc (openings a.log).count k + (openings b.log).count k
          ≤ 2 * (openings b.log).count k := by have := hagain k hk; omega
        _ ≤ 2 ^ braces text t.offset k := htwice k
        _ ≤ 2 ^ braces text s.offset k := Nat.pow_le_pow_right (by decide) (braces_le hst)
  · obtain ⟨hwithin, hle, -⟩ := h.ends v u hg
    exact ⟨hwithin, Nat.le_trans hst hle, .inr (hhalt v u hg)⟩

variable {f : (value : α) → (next : Cursor) → next.left < n → Attempt β m}
  {g : Unit → Attempt β m}

/-- Attempts one after another climb if each of them does, and if those are looked after apart that
follow on what was looked at in vain. -/
theorem Climbs.branch_of (ha : Climbs text s halt a)
    (hf : ∀ v t (h : a.Gives v t), t.Within text → s.offset ≤ t.offset →
      Climbs text t halt' (f v t h.progress) ∧
        (halt t.rest → Climbs text s halt' ((f v t h.progress).since a.log)))
    (hg : a.Fails → Climbs text s halt' ((g ()).since a.log)) :
    Climbs text s halt' (a.branch f g) := by
  obtain ⟨outcome, log⟩ := a
  cases outcome with
  | matched v t p =>
    have hgives : (⟨.matched v t p, log⟩ : Attempt α n).Gives v t := ⟨p, rfl⟩
    obtain ⟨ht, hst, hends⟩ := ha.ends v t hgives
    obtain ⟨hnext, hhalted⟩ := hf v t hgives ht hst
    rcases hends with ⟨hpairwise, hbehind⟩ | hhalt
    · exact hnext.since_behind ha hpairwise hbehind hst
    · exact hhalted hhalt
  | mismatched => exact hg rfl
  | stopped r => exact ⟨ha.opens, ha.offset_le, ha.count_le, ha.rises, nofun⟩

/-- Attempts one after another climb if each of them does, and if those are silent that follow on
what was looked at in vain. -/
theorem Climbs.branch (ha : Climbs text s halt a)
    (hf : ∀ v t (h : a.Gives v t), t.Within text → s.offset ≤ t.offset →
      Climbs text t halt' (f v t h.progress) ∧
        (halt t.rest → Silent text t halt' (f v t h.progress)))
    (hg : a.Fails → openings a.log = [] ∧ Climbs text s halt' (g ()) ∨
      Silent text s halt' (g ())) :
    Climbs text s halt' (a.branch f g) := by
  refine ha.branch_of (fun v t h ht hst => ?_) fun hfails => ?_
  · obtain ⟨hnext, hsilent⟩ := hf v t h ht hst
    exact ⟨hnext, fun hhalt => ha.since_silent ((hsilent hhalt).mono hst fun _ hr => hr)⟩
  · rcases hg hfails with ⟨hnil, hnext⟩ | hsilent
    · exact hnext.since_misses hnil
    · exact ha.since_silent hsilent

/-- Two attempts climb if the second one climbs from where the first one ends, and is silent where
the first one got stuck. -/
theorem Climbs.andThen (ha : Climbs text s halt a)
    (hf : ∀ v t (h : a.Gives v t), t.Within text → s.offset ≤ t.offset →
      Climbs text t halt' (f v t h.progress) ∧
        (halt t.rest → Silent text t halt' (f v t h.progress))) :
    Climbs text s halt' (a.andThen f) :=
  ha.branch hf fun _ => .inr silent_mismatch

/-- After an attempt that opens nothing it depends on the next one alone. -/
theorem climbs_branch (hnil : openings a.log = [])
    (hf : ∀ v t (h : a.Gives v t), Climbs text s halt (f v t h.progress))
    (hg : a.Fails → Climbs text s halt (g ())) : Climbs text s halt (a.branch f g) := by
  obtain ⟨outcome, log⟩ := a
  cases outcome with
  | matched v t p => exact (hf v t ⟨p, rfl⟩).since_misses hnil
  | mismatched => exact (hg rfl).since_misses hnil
  | stopped r => exact climbs_of_openings hnil nofun

theorem climbs_andThen (hnil : openings a.log = [])
    (hf : ∀ v t (h : a.Gives v t), Climbs text s halt (f v t h.progress)) :
    Climbs text s halt (a.andThen f) :=
  climbs_branch hnil hf fun _ => climbs_mismatch

/-- Nothing is opened by two attempts that open nothing, the second one where it fails. -/
theorem openings_andThen (hnil : openings a.log = []) (hfails : (a.andThen f).Fails)
    (hf : ∀ v t (h : a.Gives v t), (f v t h.progress).Fails →
      openings (f v t h.progress).log = []) : openings (a.andThen f).log = [] := by
  obtain ⟨outcome, log⟩ := a
  cases outcome with
  | matched v t p =>
    have hnext := hf v t ⟨p, rfl⟩ hfails
    change openings ((f v t p).since log).log = []
    rw [log_since, openings_append, hnil, hnext, List.append_nil]
  | mismatched =>
    change openings (log ++ []) = []
    rw [List.append_nil, hnil]
  | stopped r => exact hnil

/-- The first of two alternatives opens all that they open, if the second one opens nothing. -/
theorem openings_orElse {o : Unit → Attempt α n} (ho : a.Fails → openings (o ()).log = []) :
    openings (a.orElse o).log = openings a.log := by
  obtain ⟨outcome, log⟩ := a
  cases outcome with
  | matched v t p => exact congrArg openings (List.append_nil log)
  | mismatched =>
    change openings ((o ()).since log).log = _
    rw [log_since, openings_append, ho rfl, List.append_nil]
  | stopped r => rfl

/-- A branch is silent if its test opens nothing and both ways on are silent. -/
theorem silent_branch (hnil : openings a.log = [])
    (hf : ∀ v t (h : a.Gives v t), Silent text s halt (f v t h.progress))
    (hg : a.Fails → Silent text s halt (g ())) : Silent text s halt (a.branch f g) := by
  obtain ⟨outcome, log⟩ := a
  cases outcome with
  | matched v t p => exact (hf v t ⟨p, rfl⟩).since_misses hnil
  | mismatched => exact (hg rfl).since_misses hnil
  | stopped r => exact ⟨hnil, nofun⟩

theorem silent_andThen (hnil : openings a.log = [])
    (hf : ∀ v t (h : a.Gives v t), Silent text s halt (f v t h.progress)) :
    Silent text s halt (a.andThen f) :=
  silent_branch hnil hf fun _ => silent_mismatch

/-- The first of two alternatives decides, if it opens nothing in vain. -/
theorem Climbs.orElse {o : Unit → Attempt α n} (ha : Climbs text s halt a)
    (ho : a.Fails → openings a.log = [] ∧ Climbs text s halt (o ()) ∨
      Silent text s halt (o ())) : Climbs text s halt (a.orElse o) :=
  ha.branch (fun _ _ _ ht _ => ⟨climbs_accept ht (Nat.le_refl _),
    fun hhalt => silent_accept ht (Nat.le_refl _) hhalt⟩) ho

/-- One or the other is silent if both are. -/
theorem Silent.orElse {o : Unit → Attempt α n} (ha : Silent text s halt a)
    (ho : a.Fails → Silent text s halt (o ())) : Silent text s halt (a.orElse o) := by
  refine silent_branch ha.openings_eq (fun v t hg => ?_) ho
  obtain ⟨ht, hst, hhalt⟩ := ha.ends v t hg
  exact silent_accept ht hst hhalt

/-! ## Tokens -/

/-- The attempt opens nothing and stays in the text. -/
structure Moves (text : List Char) (a : Attempt α n) : Prop where
  openings_eq : openings a.log = []
  within : ∀ {v t}, a.Gives v t → t.Within text

/-- What moves does not move backwards. -/
theorem Moves.offset_le {a : Attempt α s.left} (h : Moves text a) (hs : s.Within text)
    (hg : a.Gives v t) : s.offset ≤ t.offset :=
  hs.offset_le (h.within hg) (Nat.le_of_lt hg.progress)

/-- What moves opens nothing, so it climbs. -/
theorem Moves.climbs {a : Attempt α s.left} (h : Moves text a) (hs : s.Within text) :
    Climbs text s halt a :=
  climbs_of_openings h.openings_eq fun _ _ hg => ⟨h.within hg, h.offset_le hs hg⟩

theorem Moves.map (h : Moves text a) (f : α → β) : Moves text (a.map f) := by
  refine ⟨?_, fun hg => ?_⟩
  · have hlog : (a.map f).log = a.log := by
      obtain ⟨_ | _ | _, log⟩ := a <;> simp [Attempt.map, andThen, Attempt.branch, accept, mismatch]
    rw [hlog, h.openings_eq]
  · obtain ⟨v, hv, -⟩ := gives_map.mp hg
    exact h.within hv

theorem moves_mismatch : Moves text (mismatch : Attempt α n) := ⟨rfl, nofun⟩

theorem moves_stop {r : Stop} : Moves text (stop r : Attempt α n) := ⟨rfl, nofun⟩

theorem moves_accept {h : t.left < n} (ht : t.Within text) : Moves text (accept v t h) := by
  refine ⟨rfl, fun hg => ?_⟩
  obtain ⟨-, rfl⟩ := gives_accept.mp hg
  exact ht

end Attempt

open Attempt
variable {α : Type} {s : Cursor}

/-- Reading a sign moves. -/
theorem moves_sign {meaning : Char → Option α} (h : s.Within text) :
    Moves text (sign meaning s) := by
  obtain ⟨k, _ | ⟨c, cs⟩⟩ := s
  · exact moves_mismatch
  · simp only [sign]
    split
    · exact moves_accept (h.advance (w := [c]) rfl)
    · exact moves_mismatch

theorem moves_char {c : Char} (h : s.Within text) : Moves text (char c s) := moves_sign h

/-- So does reading an identifier. -/
theorem moves_identifier (h : s.Within text) : Moves text (identifier s) := by
  obtain ⟨k, _ | ⟨c, cs⟩⟩ := s
  · exact moves_mismatch
  · simp only [identifier]
    split
    · have hnext : Cursor.Within text ⟨k + 1, cs⟩ := h.advance (w := [c]) rfl
      exact moves_accept hnext.skip
    · exact moves_mismatch

/-- So does reading a number. -/
theorem moves_number (h : s.Within text) : Moves text (number s) := by
  unfold number
  split
  · exact moves_mismatch
  · rename_i numeral rest hsplit
    split
    · exact moves_stop
    · split
      · exact moves_stop
      · exact moves_accept (h.advance (Decimal.Numeral.text_append_of_split? hsplit).symm)

/-- So does reading a string. -/
theorem moves_quotedString (h : s.Within text) : Moves text (quotedString s) := by
  unfold quotedString
  split
  · rename_i k cs
    have hnext : Cursor.Within text ⟨k + 1, cs⟩ := h.advance (w := ['"']) rfl
    split
    · exact moves_stop
    · rename_i j c rest hskip
      have hend : Cursor.Within text ⟨j, c :: rest⟩ := hskip ▸ hnext.skip
      exact moves_accept (hend.advance (w := [c]) rfl)
  · exact moves_mismatch

end Planetarium.Parsing
