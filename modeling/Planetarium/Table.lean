/-!
# Tables in order of first entry

Environments and position tables are lists of named entries.  Every name occurs once; a new name
goes to the end, and a name that is entered again keeps its place and takes the new value.
-/
namespace Planetarium

/-- Named entries, each name once, in the order in which the names were first entered. -/
structure Table (α : Type) where
  entries : List (String × α) := []
  nodup : (entries.map Prod.fst).Nodup := by simp

namespace Table
variable {α : Type}

/-- The entries after one more: in its old place if the name is there, otherwise at the end. -/
def put (name : String) (value : α) : List (String × α) → List (String × α)
  | [] => [(name, value)]
  | (k, v) :: rest => if k = name then (k, value) :: rest else (k, v) :: put name value rest

/-- The first entry of a name. -/
def find (name : String) : List (String × α) → Option α
  | [] => none
  | (k, v) :: rest => if k = name then some v else find name rest

/-- A name that is put into entries keeps its place there, or comes last. -/
theorem map_fst_put (name : String) (value : α) (es : List (String × α)) :
    (put name value es).map Prod.fst =
      if name ∈ es.map Prod.fst then es.map Prod.fst else es.map Prod.fst ++ [name] := by
  induction es with
  | nil => simp [put]
  | cons e es ih =>
    obtain ⟨k, v⟩ := e
    by_cases h : k = name
    · simp [put, h]
    · simp only [put, if_neg h, List.map_cons, ih, List.mem_cons, Ne.symm h, false_or]
      split <;> simp

/-- No name is put in twice. -/
theorem nodup_put {es : List (String × α)} (name : String) (value : α)
    (h : (es.map Prod.fst).Nodup) : ((put name value es).map Prod.fst).Nodup := by
  rw [map_fst_put]
  split
  · exact h
  · rename_i hn
    rw [List.nodup_append]
    exact ⟨h, by simp, fun a ha b hb => by
      obtain rfl := List.mem_singleton.mp hb
      exact fun hab => hn (hab ▸ ha)⟩

/-- The table without entries. -/
def empty : Table α := {}

instance : Inhabited (Table α) := ⟨empty⟩

/-- The names in order. -/
def names (t : Table α) : List String := t.entries.map Prod.fst

/-- The value of a name. -/
def get? (t : Table α) (name : String) : Option α := find name t.entries

/-- Enters a value under a name. -/
def insert (t : Table α) (name : String) (value : α) : Table α :=
  ⟨put name value t.entries, nodup_put name value t.nodup⟩

/-- Enters some pairs one after the other. -/
def insertAll (t : Table α) (es : List (String × α)) : Table α :=
  es.foldl (fun t e => t.insert e.1 e.2) t

/-- The table of some pairs: a repeated name keeps its first place and its last value. -/
def ofList (es : List (String × α)) : Table α := empty.insertAll es

variable {t : Table α} {name other : String} {value : α}

/-- Tables are their entries. -/
@[ext] theorem ext {s t : Table α} (h : s.entries = t.entries) : s = t := by
  cases s; cases t; cases h; rfl

/-- A name that is set keeps its place among the names, or comes last. -/
theorem names_insert :
    (t.insert name value).names = if name ∈ t.names then t.names else t.names ++ [name] :=
  map_fst_put name value t.entries

/-- What is found is what was put in, and otherwise what was there. -/
private theorem find_put (name other : String) (value : α) (es : List (String × α)) :
    find other (put name value es) = if other = name then some value else find other es := by
  induction es with
  | nil => simp [put, find, eq_comm]
  | cons e es ih =>
    obtain ⟨k, v⟩ := e
    by_cases h : k = name
    · subst h
      by_cases ho : other = k
      · simp [put, find, ho]
      · simp [put, find, ho, Ne.symm ho]
    · by_cases ho : k = other
      · subst ho
        simp [put, find, h]
      · simp [put, find, h, ho, ih]

/-- The names are those a lookup finds. -/
theorem mem_names_iff : name ∈ t.names ↔ ∃ value, t.get? name = some value := by
  unfold names get?
  induction t.entries with
  | nil => simp [find]
  | cons e es ih =>
    obtain ⟨k, v⟩ := e
    by_cases h : k = name
    · simp [find, h]
    · simp [find, h, Ne.symm h, ← ih]

/-- A lookup finds what was set last. -/
theorem get?_insert :
    (t.insert name value).get? other = if other = name then some value else t.get? other :=
  find_put name other value t.entries

@[simp] theorem get?_insert_self : (t.insert name value).get? name = some value := by
  rw [get?_insert, if_pos rfl]

theorem get?_insert_of_ne (h : other ≠ name) : (t.insert name value).get? other = t.get? other := by
  rw [get?_insert, if_neg h]

@[simp] theorem get?_empty : (empty : Table α).get? name = none := rfl

@[simp] theorem insertAll_nil : t.insertAll [] = t := rfl

@[simp] theorem insertAll_cons (e : String × α) (es : List (String × α)) :
    t.insertAll (e :: es) = (t.insert e.1 e.2).insertAll es := rfl

/-- Entries are set one list after the other. -/
theorem insertAll_append (a b : List (String × α)) :
    t.insertAll (a ++ b) = (t.insertAll a).insertAll b := List.foldl_append

/-- New names come behind the old ones, in the order in which they are first entered. -/
theorem names_insertAll (es : List (String × α)) :
    (t.insertAll es).names =
      t.names ++ ((es.map Prod.fst).filter fun name => name ∉ t.names).eraseDups := by
  induction es generalizing t with
  | nil => simp
  | cons e es ih =>
    rw [insertAll_cons, ih, names_insert, List.map_cons, List.filter_cons]
    by_cases h : e.1 ∈ t.names
    · simp [h]
    · simp only [h, if_false, not_false_eq_true, decide_true, if_true, List.eraseDups_cons,
        List.append_assoc, List.filter_filter, List.singleton_append]
      congr 3
      apply List.filter_congr
      intro a _
      simp [and_comm, Bool.beq_eq_decide_eq]

/-- Names that are not set keep their values. -/
theorem get?_insertAll_of_notMem {es : List (String × α)} (h : name ∉ es.map Prod.fst) :
    (t.insertAll es).get? name = t.get? name := by
  induction es generalizing t with
  | nil => rfl
  | cons e es ih =>
    simp only [List.map_cons, List.mem_cons, not_or] at h
    rw [insertAll_cons, ih h.2, get?_insert_of_ne h.1]

/-- Of the pairs of a name the last one counts. -/
theorem get?_insertAll_append_cons {before after : List (String × α)}
    (h : name ∉ after.map Prod.fst) :
    (t.insertAll (before ++ (name, value) :: after)).get? name = some value := by
  rw [insertAll_append, insertAll_cons, get?_insertAll_of_notMem h, get?_insert_self]

end Table
end Planetarium
