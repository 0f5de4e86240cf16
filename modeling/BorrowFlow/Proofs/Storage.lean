import BorrowFlow.Proofs.Place
import Mathlib.Data.Set.Lattice
import Mathlib.Order.CompletePartialOrder

/-! # Overlap and storage

    The storage of a place is everything that can be reached from it: all concrete paths
    that go on from it, with any number for each of its index variables.  Its surface is the
    part of it that is reached without following a pointer.

    The two tests on places never miss shared storage.  Where two places do not overlap their
    storages are disjoint, and where a shallow write does not reach a place, the surface of
    what is written has nothing of it.  In the other direction an overlap may be a mere
    suspicion: two variables may hold different indices, and a field may or may not be an
    element.  Without index variables and such mixtures it is not, and the storages do meet
    (`Place.overlaps_meets_storage`).
-/

namespace BorrowFlow.Place

/-! ## Storage -/

/-- **The storage of a place**: the concrete paths that go on from it, with some number for
    each of its index variables. -/
def storage (p : Place) : Set Place :=
  { q | q.IndexFree ∧ ∃ c, p.Concrete c ∧ c.encloses q = true }

/-- **The surface of a place**: the part of its storage to which no pointer is followed from
    the place on. -/
def surface (p : Place) : Set Place :=
  { q | q.IndexFree ∧ ∃ c, p.Concrete c ∧ c.encloses q = true ∧
      Projection.deref ∉ q.path.drop c.path.length }

/-- Where two paths part, the first two steps that differ are of the same kind. -/
def PartAlike (a b : Place) : Prop :=
  ∀ front x y as bs, a.path = front ++ x :: as → b.path = front ++ y :: bs → x ≠ y → x.tag = y.tag

/-- A path begins with the steps of another one, with numbers for its index variables. -/
inductive Leads : List Projection → List Projection → Prop where
  | nil (rest : List Projection) : Leads [] rest
  | cons {x y : Projection} {xs ys : List Projection} (h : x.Concrete y) (hrest : Leads xs ys) :
      Leads (x :: xs) (y :: ys)

theorem leads_of_forall₂ {xs front path : List Projection}
    (h : List.Forall₂ Projection.Concrete xs front) (hpath : front <+: path) : Leads xs path := by
  obtain ⟨rest, rfl⟩ := hpath
  induction h with
  | nil => exact .nil rest
  | cons hstep _ ih => exact .cons hstep ih

variable {a b p q w : Place}

/-- All of a place's storage is found along its path. -/
theorem leads_of_mem_storage (h : q ∈ p.storage) : q.base = p.base ∧ Leads p.path q.path := by
  obtain ⟨_, c, hc, hencloses⟩ := h
  obtain ⟨hbase, hpath⟩ := encloses_iff.mp hencloses
  exact ⟨hbase.symm.trans hc.1, leads_of_forall₂ hc.2 hpath⟩

theorem surface_subset (p : Place) : p.surface ⊆ p.storage := by
  intro q h
  obtain ⟨hfree, c, hc, hencloses, _⟩ := h
  exact ⟨hfree, c, hc, hencloses⟩

/-! ## Places that do not overlap -/

/-- Two steps that may be the same in the end are never told apart. -/
theorem mayMeet_of_concrete {x y z : Projection} (hx : x.Concrete z) (hy : y.Concrete z)
    (hne : x ≠ y) : x.mayMeet y = true := by
  cases hx with
  | deref =>
    cases hy
    exact absurd rfl hne
  | field name =>
    cases hy
    exact absurd rfl hne
  | constIndex n =>
    cases hy with
    | constIndex => exact absurd rfl hne
    | varIndex name => rfl
  | varIndex name n =>
    cases hy with
    | constIndex => rfl
    | varIndex name' => rfl

/-- A path that two others lead to is one where they overlap. -/
theorem pathsOverlap_of_leads {xs ys path : List Projection} (hx : Leads xs path)
    (hy : Leads ys path) : pathsOverlap xs ys = true := by
  induction hx generalizing ys with
  | nil => simp [pathsOverlap]
  | @cons x z xs zs hstep _ ih =>
    cases hy with
    | nil => simp [pathsOverlap]
    | @cons y _ ys _ hstep' hrest' =>
      rw [pathsOverlap]
      by_cases hxy : x = y
      · rw [if_pos hxy]
        exact ih hrest'
      · rw [if_neg hxy]
        exact mayMeet_of_concrete hstep hstep' hxy

/-- **Places that do not overlap share no storage.** -/
theorem disjoint_storage (h : a.overlaps b = false) : Disjoint a.storage b.storage := by
  rw [Set.disjoint_left]
  intro q ha hb
  obtain ⟨hbase, hlead⟩ := leads_of_mem_storage ha
  obtain ⟨hbase', hlead'⟩ := leads_of_mem_storage hb
  have hsame : a.base = b.base := hbase.symm.trans hbase'
  rw [overlaps, decide_eq_true hsame, pathsOverlap_of_leads hlead hlead'] at h
  cases h

/-! ## Writes that do not reach -/

/-- A pointer that is followed late in a path is followed late in what it leads to. -/
theorem Leads.deref_mem_drop {xs path : List Projection} (h : Leads xs path) {n : Nat}
    (hmem : Projection.deref ∈ xs.drop n) : Projection.deref ∈ path.drop n := by
  induction h generalizing n with
  | nil => simp at hmem
  | @cons x y xs ys hstep _ ih =>
    cases n with
    | succ n => exact ih hmem
    | zero =>
      obtain rfl | hlater := List.mem_cons.mp hmem
      · cases hstep
        exact List.mem_cons_self
      · exact List.mem_cons_of_mem _ (ih (n := 0) hlater)

/-- **A shallow write that does not reach a place** leaves its storage alone. -/
theorem disjoint_surface (h : w.shallowReaches b = false) : Disjoint w.surface b.storage := by
  by_cases hoverlaps : w.overlaps b = true
  · -- the write stops at a pointer, and `b` is behind it
    have hencloses : w.encloses b = true := by
      by_contra hnot
      rw [shallowReaches, if_pos hoverlaps, if_neg hnot] at h
      cases h
    have hpointer : Projection.deref ∈ b.path.drop w.path.length := by
      by_contra hnot
      rw [(shallowReaches_iff hencloses).mpr hnot] at h
      cases h
    rw [Set.disjoint_left]
    intro q hw hb
    obtain ⟨_, c, hc, _, hnone⟩ := hw
    have hlength : w.path.length = c.path.length := hc.2.length_eq
    have hlate := (leads_of_mem_storage hb).2.deref_mem_drop hpointer
    exact hnone (hlength ▸ hlate)
  · have hnot : w.overlaps b = false := by simpa using hoverlaps
    exact (disjoint_storage hnot).mono_left (surface_subset w)

/-! ## Overlap of prefixes -/

theorem mayMeet_comm (x y : Projection) : x.mayMeet y = y.mayMeet x := by
  cases x <;> cases y <;> simp [Projection.mayMeet, eq_comm]

theorem pathsOverlap_comm (xs ys : List Projection) : pathsOverlap xs ys = pathsOverlap ys xs := by
  induction xs generalizing ys with
  | nil => cases ys <;> simp [pathsOverlap]
  | cons x xs ih =>
    cases ys with
    | nil => simp [pathsOverlap]
    | cons y ys =>
      rw [pathsOverlap, pathsOverlap, ih ys, mayMeet_comm x y]
      by_cases hxy : x = y
      · rw [if_pos hxy, if_pos hxy.symm]
      · rw [if_neg hxy, if_neg (Ne.symm hxy)]

theorem overlaps_comm (a b : Place) : a.overlaps b = b.overlaps a := by
  rw [overlaps, overlaps, pathsOverlap_comm]
  simp [eq_comm]

theorem overlaps_of_shallowReaches (h : w.shallowReaches b = true) : w.overlaps b = true := by
  by_contra hnot
  rw [shallowReaches, if_neg hnot] at h
  cases h

theorem pathsOverlap_of_prefix_left {xs xs' ys : List Projection} (hfront : xs' <+: xs)
    (h : pathsOverlap xs ys = true) : pathsOverlap xs' ys = true := by
  induction xs' generalizing xs ys with
  | nil => simp [pathsOverlap]
  | cons x xs' ih =>
    obtain ⟨rest, rfl⟩ := hfront
    cases ys with
    | nil => simp [pathsOverlap]
    | cons y ys =>
      rw [List.cons_append, pathsOverlap] at h
      rw [pathsOverlap]
      by_cases hxy : x = y
      · rw [if_pos hxy] at h ⊢
        exact ih (List.prefix_append xs' rest) h
      · rw [if_neg hxy] at h ⊢
        exact h

/-- A place that encloses one overlaps what this one overlaps. -/
theorem overlaps_of_encloses_left {a' : Place} (hencloses : a'.encloses a = true)
    (h : a.overlaps b = true) : a'.overlaps b = true := by
  obtain ⟨hbase, hpath⟩ := encloses_iff.mp hencloses
  rw [overlaps, Bool.and_eq_true, decide_eq_true_eq] at h ⊢
  exact ⟨hbase.trans h.1, pathsOverlap_of_prefix_left hpath h.2⟩

theorem overlaps_of_encloses_right {b' : Place} (hencloses : b'.encloses b = true)
    (h : a.overlaps b = true) : a.overlaps b' = true := by
  rw [overlaps_comm] at h ⊢
  exact overlaps_of_encloses_left hencloses h

/-! ## Overlap without doubt -/

/-- A place without index variables is its only concrete one. -/
theorem IndexFree.concrete_self (h : p.IndexFree) : p.Concrete p := by
  refine ⟨rfl, List.forall₂_same.mpr ?_⟩
  intro x hx
  cases x with
  | deref => exact .deref
  | field name => exact .field name
  | constIndex n => exact .constIndex n
  | varIndex name => exact absurd hx (h name)

theorem IndexFree.mem_storage (hp : p.IndexFree) (hq : q.IndexFree) (h : p.encloses q = true) :
    q ∈ p.storage :=
  ⟨hq, p, hp.concrete_self, h⟩

/-- Two steps of one kind that differ and have no variable tell places apart. -/
theorem mayMeet_eq_false {x y : Projection} (hx : ∀ name, x ≠ .varIndex name) (hne : x ≠ y)
    (hkind : x.tag = y.tag) : x.mayMeet y = false := by
  cases x with
  | varIndex name => exact absurd rfl (hx name)
  | deref => cases y <;> simp_all [Projection.tag]
  | field name => cases y <;> simp_all [Projection.tag, Projection.mayMeet]
  | constIndex n => cases y <;> simp_all [Projection.tag, Projection.mayMeet]

/-- Paths that overlap and part alike, if at all, do not part. -/
theorem prefix_or_prefix {xs ys : List Projection} (h : pathsOverlap xs ys = true)
    (hfree : ∀ name, Projection.varIndex name ∉ xs)
    (halike : ∀ front x y as bs, xs = front ++ x :: as → ys = front ++ y :: bs → x ≠ y →
      x.tag = y.tag) : xs <+: ys ∨ ys <+: xs := by
  induction xs generalizing ys with
  | nil => exact Or.inl List.nil_prefix
  | cons x xs ih =>
    cases ys with
    | nil => exact Or.inr List.nil_prefix
    | cons y ys =>
      rw [pathsOverlap] at h
      by_cases hxy : x = y
      · subst hxy
        rw [if_pos rfl] at h
        have hrest := ih h (fun name hmem => hfree name (List.mem_cons_of_mem _ hmem))
          (fun front x' y' as bs hxs hys => halike (x :: front) x' y' as bs (by rw [hxs]; rfl)
            (by rw [hys]; rfl))
        exact hrest.imp (fun hp => (List.prefix_cons_inj x).mpr hp)
          (fun hp => (List.prefix_cons_inj x).mpr hp)
      · -- the first two steps differ, and one kind of step would keep the places apart
        rw [if_neg hxy] at h
        have hx : ∀ name, x ≠ .varIndex name := by
          intro name heq
          exact hfree name (heq ▸ List.mem_cons_self)
        rw [mayMeet_eq_false hx hxy (halike [] x y xs ys rfl rfl hxy)] at h
        cases h

/-- **Overlap without doubt**: places without index variables that part alike overlap exactly
    if their storages meet. -/
theorem overlaps_iff_meet (ha : a.IndexFree) (hb : b.IndexFree) (halike : a.PartAlike b) :
    a.overlaps b = true ↔ (a.storage ∩ b.storage).Nonempty := by
  constructor
  · intro h
    rw [overlaps, Bool.and_eq_true, decide_eq_true_eq] at h
    obtain hfront | hfront := prefix_or_prefix h.2 ha halike
    · have hencloses : a.encloses b = true := encloses_iff.mpr ⟨h.1, hfront⟩
      exact ⟨b, ha.mem_storage hb hencloses, hb.mem_storage hb (by simp [encloses])⟩
    · have hencloses : b.encloses a = true := encloses_iff.mpr ⟨h.1.symm, hfront⟩
      exact ⟨a, ha.mem_storage ha (by simp [encloses]), hb.mem_storage ha hencloses⟩
  · intro h
    obtain ⟨q, hqa, hqb⟩ := h
    by_contra hnot
    have hdisjoint := disjoint_storage (by simpa using hnot : a.overlaps b = false)
    exact Set.disjoint_left.mp hdisjoint hqa hqb

/-- **The tests on places against the storage they stand for.**  Places that do not overlap
    have disjoint storages, and a shallow write that does not reach a place has nothing of its
    storage on the surface.  Overlap is symmetric, follows from being reached, and goes over
    to places that enclose the two.  For places without index variables whose first
    different steps are of the same kind, overlap means that the storages meet. -/
theorem overlaps_meets_storage (a b w : Place) :
    (a.overlaps b = false → Disjoint a.storage b.storage) ∧
    (w.shallowReaches b = false → Disjoint w.surface b.storage) ∧
    a.overlaps b = b.overlaps a ∧
    (w.shallowReaches b = true → w.overlaps b = true) ∧
    (a.overlaps b = true → ∀ a' b' : Place, a'.encloses a = true → b'.encloses b = true →
      a'.overlaps b = true ∧ a.overlaps b' = true ∧ a'.overlaps b' = true) ∧
    (a.IndexFree → b.IndexFree → a.PartAlike b →
      (a.overlaps b = true ↔ (a.storage ∩ b.storage).Nonempty)) := by
  refine ⟨disjoint_storage, disjoint_surface, overlaps_comm a b, overlaps_of_shallowReaches, ?_,
    overlaps_iff_meet⟩
  intro h a' b' ha' hb'
  have hleft : a'.overlaps b = true := overlaps_of_encloses_left ha' h
  exact ⟨hleft, overlaps_of_encloses_right hb' h, overlaps_of_encloses_right hb' hleft⟩

/-- Two elements are apart, what an element points to is not on the surface of the list, and
    the list has its elements in it. -/
theorem elements_meet_storage :
    let items : Place := ⟨"x", [.field "items"]⟩
    let first : Place := items.project (.constIndex 0)
    let second : Place := items.project (.constIndex 1)
    Disjoint first.storage second.storage ∧
      Disjoint items.surface (second.project .deref).storage ∧
      (items.storage ∩ first.storage).Nonempty := by
  intro items first second
  have hpart : items.PartAlike first := by
    intro front x y as bs hx hy hne
    cases front with
    | nil =>
      cases hx
      cases hy
      exact absurd rfl hne
    | cons z front => simp [items] at hx
  have hitems : items.IndexFree := by simp [IndexFree, items]
  have hfirst : first.IndexFree := by simp [IndexFree, first, project, items]
  refine ⟨?_, ?_, ?_⟩
  · exact (overlaps_meets_storage first second items).1 (by decide)
  · exact (overlaps_meets_storage first (second.project .deref) items).2.1 (by decide)
  · have hmeet := (overlaps_meets_storage items first items).2.2.2.2.2 hitems hfirst hpart
    exact hmeet.mp (by decide)

end BorrowFlow.Place
