import BorrowFlow.Place.Overlap
import Mathlib.Data.List.Forall2

/-! # Places, concrete and shallow

    A place with index variables stands for many: `Place.Concrete` puts some number in the
    place of each variable.  `Place.shallowReaches_iff` says how far a write reaches into
    what the written place encloses, and `Place.mem_derefBases_iff` what is dereferenced on the
    way to a place.
-/

namespace BorrowFlow

/-! ## Concrete places -/

/-- The same step, where an index that a variable holds has become some number. -/
inductive Projection.Concrete : Projection → Projection → Prop where
  | deref : Concrete .deref .deref
  | field (name : String) : Concrete (.field name) (.field name)
  | constIndex (n : Int) : Concrete (.constIndex n) (.constIndex n)
  | varIndex (name : Option String) (n : Int) : Concrete (.varIndex name) (.constIndex n)

/-- The step with `n` in the place of an index variable. -/
def Projection.fixed (n : Int) : Projection → Projection
  | .varIndex _ => .constIndex n
  | step => step

theorem Projection.concrete_fixed (n : Int) (step : Projection) : step.Concrete (step.fixed n) := by
  cases step with
  | deref => exact .deref
  | field name => exact .field name
  | constIndex i => exact .constIndex i
  | varIndex name => exact .varIndex name n

/-- **A concrete place**: the same one, with some number for each index variable. -/
def Place.Concrete (p q : Place) : Prop :=
  q.base = p.base ∧ List.Forall₂ Projection.Concrete p.path q.path

/-- The place has no index variable. -/
def Place.IndexFree (p : Place) : Prop := ∀ name, Projection.varIndex name ∉ p.path

/-- The place with `n` for each index variable. -/
def Place.fixed (n : Int) (p : Place) : Place := { p with path := p.path.map (·.fixed n) }

theorem Place.concrete_fixed (n : Int) (p : Place) : p.Concrete (p.fixed n) := by
  refine ⟨rfl, ?_⟩
  show List.Forall₂ Projection.Concrete p.path (p.path.map (·.fixed n))
  rw [List.forall₂_map_right_iff]
  exact List.forall₂_same.mpr fun step _ => step.concrete_fixed n

/-- A path without index variables is concrete already. -/
theorem eq_of_forall₂_concrete {path path' : List Projection}
    (h : List.Forall₂ Projection.Concrete path path')
    (hfree : ∀ name, Projection.varIndex name ∉ path) : path' = path := by
  induction h with
  | nil => rfl
  | cons hstep _ ih =>
    have hrest := ih fun name hmem => hfree name (List.mem_cons_of_mem _ hmem)
    cases hstep with
    | deref => rw [hrest]
    | field => rw [hrest]
    | constIndex => rw [hrest]
    | varIndex name => exact absurd List.mem_cons_self (hfree name)

theorem encloses_iff {a b : Place} : a.encloses b = true ↔ a.base = b.base ∧ a.path <+: b.path := by
  simp [Place.encloses]

/-! ## What a shallow write reaches -/

namespace Place

theorem pathsOverlap_of_prefix {p q : List Projection} (h : p <+: q) : pathsOverlap p q = true := by
  induction p generalizing q with
  | nil => simp [pathsOverlap]
  | cons step p ih =>
    obtain ⟨rest, rfl⟩ := h
    rw [List.cons_append, pathsOverlap, if_pos rfl]
    exact ih (List.prefix_append p rest)

theorem overlaps_of_encloses {w p : Place} (h : w.encloses p = true) : w.overlaps p = true := by
  obtain ⟨hbase, hpath⟩ := encloses_iff.mp h
  rw [overlaps, pathsOverlap_of_prefix hpath, decide_eq_true hbase]
  rfl

/-- A shallow write reaches what it encloses, up to the first pointer on the way. -/
theorem shallowReaches_iff {w p : Place} (h : w.encloses p = true) :
    w.shallowReaches p = true ↔ Projection.deref ∉ p.path.drop w.path.length := by
  have hderef : ∀ path : List Projection, path.any Projection.isDeref = true ↔ .deref ∈ path := by
    intro path
    rw [List.any_eq_true]
    constructor
    · rintro ⟨step, hstep, hisDeref⟩
      cases step with
      | deref => exact hstep
      | _ => cases hisDeref
    · exact fun h => ⟨.deref, h, rfl⟩
  rw [shallowReaches, if_pos (overlaps_of_encloses h), if_pos h, ← hderef]
  simp

end Place

/-! ## Ways to a place -/

namespace Place

theorem mem_go_iff {p q : Place} {done path : List Projection} :
    q ∈ derefBases.go p done path ↔
      ∃ front back, path = front ++ .deref :: back ∧ q = ⟨p.base, done ++ front⟩ := by
  induction path generalizing done with
  | nil => simp [derefBases.go]
  | cons step rest ih =>
    -- a way to a dereference in the rest begins with the first step
    have hlater : (∃ front back, rest = front ++ .deref :: back ∧
        q = ⟨p.base, done ++ [step] ++ front⟩) ↔
        ∃ front back, step :: rest = step :: front ++ .deref :: back ∧
          q = ⟨p.base, done ++ step :: front⟩ := by
      simp
    constructor
    · intro h
      have hcases : (step = .deref ∧ q = ⟨p.base, done⟩) ∨
          q ∈ derefBases.go p (done ++ [step]) rest := by
        cases step <;> simpa [derefBases.go] using h
      obtain ⟨rfl, rfl⟩ | hrest := hcases
      · exact ⟨[], rest, rfl, by simp⟩
      · obtain ⟨front, back, hpath, hq⟩ := hlater.mp (ih.mp hrest)
        exact ⟨step :: front, back, hpath, hq⟩
    · intro h
      obtain ⟨front, back, hpath, rfl⟩ := h
      cases front with
      | nil =>
        obtain ⟨rfl, rfl⟩ := List.cons.inj hpath
        simp [derefBases.go]
      | cons step' front =>
        obtain ⟨rfl, hrest⟩ := List.cons.inj hpath
        have hmem := ih.mpr (hlater.mpr ⟨front, back, hpath, rfl⟩)
        cases step <;> simp [derefBases.go, hmem]

/-- **What is dereferenced on the way to a place**: whatever stands in front of one of its
    dereferences. -/
theorem mem_derefBases_iff {p q : Place} : q ∈ p.derefBases ↔
    ∃ front back, p.path = front ++ .deref :: back ∧ q = ⟨p.base, front⟩ :=
  mem_go_iff

/-- They belong to the same local. -/
theorem base_of_mem_derefBases {p q : Place} (h : q ∈ p.derefBases) : q.base = p.base := by
  obtain ⟨_, _, _, rfl⟩ := mem_derefBases_iff.mp h
  rfl

theorem mem_indexVars_iff {p : Place} {name : String} :
    name ∈ p.indexVars ↔ .varIndex (some name) ∈ p.path := by
  rw [indexVars, List.mem_filterMap]
  constructor
  · rintro ⟨step, hstep, hname⟩
    split at hname
    · exact hname ▸ hstep
    · cases hname
  · intro h
    exact ⟨_, h, rfl⟩

end Place

end BorrowFlow
