/-! # Ordered maps

  A map from names to values that remembers the order in which its names first
  came.  A second value for a name replaces the first, in the first one's
  position, so that no name is listed twice.  What serves as a name is a string
  unless said otherwise.
-/

namespace BorrowFlow

variable {κ α : Type}

section Entries

variable [DecidableEq κ]

/-- Put a value under a name in a list of named values. -/
def putEntry (name : κ) (value : α) : List (κ × α) → List (κ × α)
  | [] => [(name, value)]
  | (n, v) :: rest => if n = name then (n, value) :: rest else (n, v) :: putEntry name value rest

/-- The value under a name in a list of named values. -/
def findEntry (name : κ) : List (κ × α) → Option α
  | [] => none
  | (n, v) :: rest => if n = name then some v else findEntry name rest

theorem findEntry_putEntry (name n : κ) (value : α) (l : List (κ × α)) :
    findEntry n (putEntry name value l) = if n = name then some value else findEntry n l := by
  induction l with
  | nil => by_cases h : n = name <;> simp [putEntry, findEntry, h, Ne.symm]
  | cons e rest ih =>
    obtain ⟨k, v⟩ := e
    by_cases hk : k = name
    · subst hk
      by_cases hn : n = k
      · simp [putEntry, findEntry, hn]
      · simp [putEntry, findEntry, hn, Ne.symm hn]
    · by_cases hn : k = n
      · subst hn
        simp [putEntry, findEntry, hk]
      · simp [putEntry, findEntry, hk, hn, ih]

/-- A new name comes last; a known one keeps its position. -/
theorem map_fst_putEntry (name : κ) (value : α) (l : List (κ × α)) :
    (putEntry name value l).map Prod.fst =
      if name ∈ l.map Prod.fst then l.map Prod.fst else l.map Prod.fst ++ [name] := by
  induction l with
  | nil => simp [putEntry]
  | cons e rest ih =>
    obtain ⟨k, v⟩ := e
    by_cases hk : k = name
    · simp [putEntry, hk]
    · have hk' : ¬ name = k := fun h => hk h.symm
      simp only [putEntry, if_neg hk, List.map_cons, ih, List.mem_cons, hk', false_or]
      split <;> rfl

theorem putEntry_of_not_mem {name : κ} (value : α) {l : List (κ × α)}
    (h : name ∉ l.map Prod.fst) : putEntry name value l = l ++ [(name, value)] := by
  induction l with
  | nil => rfl
  | cons e rest ih =>
    rw [List.map_cons, List.mem_cons, not_or] at h
    rw [putEntry, if_neg (Ne.symm h.1), ih h.2, List.cons_append]

theorem nodup_putEntry (name : κ) (value : α) {l : List (κ × α)}
    (h : (l.map Prod.fst).Nodup) : ((putEntry name value l).map Prod.fst).Nodup := by
  rw [map_fst_putEntry]
  split
  · exact h
  · next hname =>
    refine List.nodup_append.mpr ⟨h, by simp, fun a ha b hb hab => ?_⟩
    rw [List.mem_singleton] at hb
    exact hname (hb ▸ hab ▸ ha)

/-- Without repeated names, what is found under a name is what is listed there. -/
theorem findEntry_eq_some_iff {l : List (κ × α)} (h : (l.map Prod.fst).Nodup)
    {name : κ} {value : α} : findEntry name l = some value ↔ (name, value) ∈ l := by
  induction l with
  | nil => simp [findEntry]
  | cons e rest ih =>
    obtain ⟨k, v⟩ := e
    rw [List.map_cons, List.nodup_cons] at h
    by_cases hk : k = name
    · subst hk
      have hrest : ¬ (k, value) ∈ rest := fun hmem => h.1 (List.mem_map.mpr ⟨_, hmem, rfl⟩)
      simp [findEntry, hrest, eq_comm]
    · have hk' : ¬ name = k := fun hn => hk hn.symm
      simp [findEntry, hk, hk', ih h.2]

end Entries

/-- A map from names to values, in order of first arrival. -/
structure OrderedMap (α : Type) (κ : Type := String) where
  /-- The names with their values, in order. -/
  entries : List (κ × α)
  /-- No name is listed twice. -/
  distinct : (entries.map Prod.fst).Nodup

namespace OrderedMap

instance : EmptyCollection (OrderedMap α κ) := ⟨⟨[], List.nodup_nil⟩⟩
instance : Inhabited (OrderedMap α κ) := ⟨∅⟩

/-- The values, in order. -/
def values (m : OrderedMap α κ) : List α := m.entries.map Prod.snd

/-- The names, in order. -/
def names (m : OrderedMap α κ) : List κ := m.entries.map Prod.fst

variable [DecidableEq κ]

/-- The value under a name. -/
def get? (m : OrderedMap α κ) (name : κ) : Option α := findEntry name m.entries

/-- Is there a value under this name? -/
def contains (m : OrderedMap α κ) (name : κ) : Bool := (m.get? name).isSome

/-- Put a value under a name; an old one gives way and keeps its position. -/
def insert (m : OrderedMap α κ) (name : κ) (value : α) : OrderedMap α κ :=
  ⟨putEntry name value m.entries, nodup_putEntry name value m.distinct⟩

/-- Put a value under a name unless there is one already. -/
def insertNew (m : OrderedMap α κ) (name : κ) (value : α) : OrderedMap α κ :=
  if m.contains name then m else m.insert name value

/-- The map of a list of named values; the last one of a name counts. -/
def ofList (l : List (κ × α)) : OrderedMap α κ :=
  l.foldl (fun m e => m.insert e.1 e.2) ∅

/-- **Last write wins.**  A name holds the value put there last. -/
@[simp] theorem get?_insert (m : OrderedMap α κ) (name n : κ) (value : α) :
    (m.insert name value).get? n = if n = name then some value else m.get? n :=
  findEntry_putEntry name n value m.entries

/-- A new name leaves the others alone. -/
theorem get?_insert_of_new {m : OrderedMap α κ} {name n : κ} {value v : α}
    (hnew : m.get? name = none) (h : m.get? n = some v) : (m.insert name value).get? n = some v := by
  rw [get?_insert, if_neg, h]
  rintro rfl
  rw [hnew] at h
  cases h

/-- A new name comes last. -/
theorem entries_insert_of_not_mem {m : OrderedMap α κ} {name : κ} (value : α)
    (h : name ∉ m.names) : (m.insert name value).entries = m.entries ++ [(name, value)] :=
  putEntry_of_not_mem value h

theorem get?_eq_some_iff {m : OrderedMap α κ} {name : κ} {value : α} :
    m.get? name = some value ↔ (name, value) ∈ m.entries :=
  findEntry_eq_some_iff m.distinct

theorem contains_eq_true_iff {m : OrderedMap α κ} {name : κ} :
    m.contains name = true ↔ name ∈ m.names := by
  rw [contains, Option.isSome_iff_exists, names, List.mem_map]
  constructor
  · rintro ⟨value, h⟩
    exact ⟨_, get?_eq_some_iff.mp h, rfl⟩
  · rintro ⟨⟨_, value⟩, h, rfl⟩
    exact ⟨value, get?_eq_some_iff.mpr h⟩

theorem get?_eq_none_iff {m : OrderedMap α κ} {name : κ} :
    m.get? name = none ↔ name ∉ m.names := by
  rw [← contains_eq_true_iff, contains]
  cases m.get? name <;> simp

theorem names_insert (m : OrderedMap α κ) (name : κ) (value : α) :
    (m.insert name value).names = if name ∈ m.names then m.names else m.names ++ [name] :=
  map_fst_putEntry name value m.entries

/-- **First write wins** if only new names are taken. -/
theorem get?_insertNew (m : OrderedMap α κ) (name n : κ) (value : α) :
    (m.insertNew name value).get? n =
      if n = name then some ((m.get? name).getD value) else m.get? n := by
  rw [insertNew, contains]
  cases h : m.get? name with
  | none => simp
  | some old => by_cases hn : n = name <;> simp [hn, h]

theorem insertNew_of_mem {m : OrderedMap α κ} {name : κ} (h : name ∈ m.names) (value : α) :
    m.insertNew name value = m :=
  if_pos (contains_eq_true_iff.mpr h)

theorem insertNew_of_not_mem {m : OrderedMap α κ} {name : κ} (h : name ∉ m.names) (value : α) :
    m.insertNew name value = m.insert name value :=
  if_neg fun hname => h (contains_eq_true_iff.mp hname)

theorem names_insertNew (m : OrderedMap α κ) (name : κ) (value : α) :
    (m.insertNew name value).names = if name ∈ m.names then m.names else m.names ++ [name] := by
  split
  · next h => rw [insertNew_of_mem h]
  · next h => rw [insertNew_of_not_mem h, names_insert, if_neg h]

/-- Entries of different names stay as they are listed. -/
theorem entries_ofList {l : List (κ × α)} (h : (l.map Prod.fst).Nodup) :
    (ofList l).entries = l := by
  suffices hrun : ∀ (rest : List (κ × α)) (m : OrderedMap α κ),
      ((m.entries ++ rest).map Prod.fst).Nodup →
      (rest.foldl (fun m e => m.insert e.1 e.2) m).entries = m.entries ++ rest from
    hrun l ∅ h
  intro rest
  induction rest with
  | nil =>
    intro m _
    exact (List.append_nil _).symm
  | cons e rest ih =>
    intro m hnames
    have hnew : e.1 ∉ m.names := by
      intro hmem
      rw [List.map_append, List.nodup_append] at hnames
      exact hnames.2.2 _ hmem _ List.mem_cons_self rfl
    have hinsert := entries_insert_of_not_mem e.2 hnew
    rw [List.foldl_cons, ih, hinsert, List.append_assoc]
    · rfl
    · rw [hinsert, List.append_assoc]
      exact hnames

end OrderedMap

end BorrowFlow
