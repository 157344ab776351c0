import Planetarium.Table
import Mathlib.Data.List.Induction

/-!
# What is in a table

A table is known by its names in order and by their values.  Made of some pairs it has each name at
its first place and with its last value, and laid over another table it does what its pairs do.
-/
namespace Planetarium.Table
variable {α : Type} {t : Table α} {name : String} {value : α}

/-- An entry is found under its name. -/
theorem get?_of_mem (h : (name, value) ∈ t.entries) : t.get? name = some value := by
  obtain ⟨es, hnodup⟩ := t
  change find name es = some value
  induction es with
  | nil => cases h
  | cons e es ih =>
    obtain ⟨k, v⟩ := e
    rw [List.map_cons, List.nodup_cons] at hnodup
    rcases List.mem_cons.mp h with he | he
    · cases he
      exact if_pos rfl
    · have hk : k ≠ name := fun hk => hnodup.1 (List.mem_map.mpr ⟨_, he, hk.symm⟩)
      rw [find, if_neg hk]
      exact ih hnodup.2 he

/-- A table is determined by its names in order and by their values. -/
theorem eq_of_get? {s t : Table α} (hnames : s.names = t.names)
    (hget : ∀ name, s.get? name = t.get? name) : s = t := by
  have hentries (u : Table α) :
      u.entries.map (fun e => (e.1, some e.2)) = u.names.map fun name => (name, u.get? name) := by
    rw [names, List.map_map]
    exact List.map_congr_left fun e he => congrArg (e.1, ·) (get?_of_mem he).symm
  have hmap : s.entries.map (fun e => (e.1, some e.2)) =
      t.entries.map fun e => (e.1, some e.2) := by
    rw [hentries s, hentries t, hnames]
    exact List.map_congr_left fun name _ => congrArg (name, ·) (hget name)
  refine ext (List.map_inj_right ?_ |>.mp hmap)
  rintro ⟨k, v⟩ ⟨k', v'⟩ h
  simpa using h

/-- What is set last is found first. -/
theorem get?_insertAll (es : List (String × α)) :
    (t.insertAll es).get? name = ((ofList es).get? name).or (t.get? name) := by
  induction es generalizing t with
  | nil => rfl
  | cons e es ih =>
    rw [ofList, insertAll_cons, insertAll_cons, ih, ih (t := empty.insert e.1 e.2), get?_insert,
      get?_insert]
    split <;> simp

theorem ofList_append (es fs : List (String × α)) : ofList (es ++ fs) = (ofList es).insertAll fs :=
  insertAll_append es fs

/-- Of the pairs of a name the last one counts. -/
theorem get?_ofList {es : List (String × α)} :
    (ofList es).get? name = some value ↔
      ∃ before after, es = before ++ (name, value) :: after ∧ name ∉ after.map Prod.fst := by
  constructor
  · intro h
    induction es using List.reverseRecOn with
    | nil => cases h
    | append_singleton es e ih =>
      rw [ofList_append, insertAll_cons, insertAll_nil, get?_insert] at h
      split at h
      · rename_i hname
        obtain rfl := hname
        obtain rfl := Option.some.inj h
        exact ⟨es, [], rfl, List.not_mem_nil⟩
      · rename_i hname
        obtain ⟨before, after, rfl, hafter⟩ := ih h
        exact ⟨before, after ++ [e], by simp, by simp [hname, hafter]⟩
  · rintro ⟨before, after, rfl, hafter⟩
    exact get?_insertAll_append_cons hafter

/-- The names are those of the list, in the order in which they come first. -/
theorem names_ofList (es : List (String × α)) :
    (ofList es).names = (es.map Prod.fst).eraseDups := by
  rw [ofList, names_insertAll, show (empty : Table α).names = [] from rfl,
    List.filter_eq_self.mpr (by simp), List.nil_append]

theorem put_of_notMem {es : List (String × α)} (h : name ∉ es.map Prod.fst) :
    put name value es = es ++ [(name, value)] := by
  induction es with
  | nil => rfl
  | cons e es ih =>
    rw [List.map_cons, List.mem_cons, not_or] at h
    rw [put, if_neg (Ne.symm h.1), ih h.2, List.cons_append]

/-- Entries with different names are the entries of their table. -/
theorem entries_ofList {es : List (String × α)} (h : (es.map Prod.fst).Nodup) :
    (ofList es).entries = es := by
  induction es using List.reverseRecOn with
  | nil => rfl
  | append_singleton es e ih =>
    rw [List.map_append, List.nodup_append] at h
    have hnew : e.1 ∉ es.map Prod.fst := fun he => h.2.2 _ he _ (List.mem_singleton.mpr rfl) rfl
    rw [ofList_append]
    change put e.1 e.2 (ofList es).entries = es ++ [e]
    rw [ih h.1, put_of_notMem hnew]

theorem eraseDups_filter_eraseDups (p : String → Bool) (l : List String) :
    (l.eraseDups.filter p).eraseDups = (l.filter p).eraseDups := by
  induction l using List.reverseRecOn with
  | nil => rfl
  | append_singleton l a ih =>
    rw [List.eraseDups_append, List.filter_append, List.filter_append, List.eraseDups_append,
      List.eraseDups_append, ih]
    congr 1
    by_cases hp : p a <;> by_cases ha : a ∈ l <;> simp [List.removeAll, List.eraseDups_cons, hp, ha]

/-- Laying a table over another one is entering the pairs that it was made of. -/
theorem insertAll_entries_ofList (es : List (String × α)) :
    t.insertAll (ofList es).entries = t.insertAll es := by
  refine eq_of_get? ?_ fun name => ?_
  · rw [names_insertAll, names_insertAll, ← names, names_ofList, eraseDups_filter_eraseDups]
  · rw [get?_insertAll, get?_insertAll, ext (entries_ofList (ofList es).nodup)]

end Planetarium.Table
