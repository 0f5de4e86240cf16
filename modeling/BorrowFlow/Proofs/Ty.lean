import BorrowFlow.Ty.Relate

/-! # Regions of types

    `Ty.regions` walks over an explicit stack, `Ty.Mentions` says by the structure
    of a type which regions it has; they agree (`Ty.mem_regions_iff`).  Relating
    two types brings in no region that neither of them mentions
    (`Ty.edgesIn_relate`).
-/

namespace BorrowFlow.Ty

/-- A region occurs in a type. -/
inductive Mentions : Ty → Region → Prop where
  | region (r : Region) : Mentions (.region r) r
  | outer (r : Region) (mutable : Bool) (t : Ty) : Mentions (.ref r mutable t) r
  | inner {t : Ty} {s : Region} (r : Region) (mutable : Bool) (h : Mentions t s) :
      Mentions (.ref r mutable t) s
  | arg {t : Ty} {args : List Ty} {s : Region} (name : String) (ht : t ∈ args)
      (h : Mentions t s) : Mentions (.adt name args) s

@[simp] theorem mentions_region {r s : Region} : (Ty.region r).Mentions s ↔ s = r := by
  constructor
  · rintro ⟨⟩
    rfl
  · rintro rfl
    exact .region s

@[simp] theorem not_mentions_scalar {name : String} {s : Region} :
    ¬ (Ty.scalar name).Mentions s := by
  rintro ⟨⟩

@[simp] theorem mentions_ref {r s : Region} {mutable : Bool} {t : Ty} :
    (Ty.ref r mutable t).Mentions s ↔ s = r ∨ t.Mentions s := by
  constructor
  · intro h
    cases h with
    | outer => exact Or.inl rfl
    | inner _ _ h => exact Or.inr h
  · rintro (rfl | h)
    · exact .outer s mutable t
    · exact .inner r mutable h

@[simp] theorem mentions_adt {name : String} {args : List Ty} {s : Region} :
    (Ty.adt name args).Mentions s ↔ ∃ t ∈ args, t.Mentions s := by
  constructor
  · rintro ⟨⟩
    exact ⟨_, ‹_›, ‹_›⟩
  · rintro ⟨t, ht, h⟩
    exact .arg name ht h

theorem mem_note {seen : List Region} {r s : Region} : s ∈ note seen r ↔ s ∈ seen ∨ s = r := by
  rw [note]
  split
  · next hr =>
    constructor
    · exact Or.inl
    · rintro (hs | rfl)
      · exact hs
      · exact hr
  · simp

/-- What the walk notes: what was noted before and what the stack mentions. -/
theorem mem_regionsFrom {seen : List Region} {stack : List Ty} {s : Region} :
    s ∈ regionsFrom seen stack ↔ s ∈ seen ∨ ∃ t ∈ stack, t.Mentions s := by
  fun_induction regionsFrom seen stack with
  | case1 seen => simp
  | case2 seen r rest ih => simp [ih, mem_note, or_assoc]
  | case3 seen name rest ih => simp [ih]
  | case4 seen r mutable referent rest ih => simp [ih, mem_note, or_assoc]
  | case5 seen name args rest ih => simp [ih, or_and_right, exists_or]

/-- **The regions of a type** are those that it mentions. -/
theorem mem_regions_iff {t : Ty} {r : Region} : r ∈ t.regions ↔ t.Mentions r := by
  simp [regions, mem_regionsFrom]

/-! ## Relating types -/

/-- Both ends of every edge satisfy a property. -/
def EdgesIn (Q : Region → Prop) (edges : List RegionEdge) : Prop := ∀ e ∈ edges, Q e.1 ∧ Q e.2

variable {Q : Region → Prop}

theorem edgesIn_nil : EdgesIn Q [] := fun _ h => absurd h List.not_mem_nil

theorem edgesIn_append {edges edges' : List RegionEdge} (h : EdgesIn Q edges)
    (h' : EdgesIn Q edges') : EdgesIn Q (edges ++ edges') :=
  fun e he => (List.mem_append.mp he).elim (h e) (h' e)

theorem edgesIn_addEdge {edges : List RegionEdge} (h : EdgesIn Q edges) {e : RegionEdge}
    (he : Q e.1 ∧ Q e.2) : EdgesIn Q (addEdge edges e) := by
  rw [addEdge]
  split
  · exact h
  · exact edgesIn_append h fun e' he' => List.mem_singleton.mp he' ▸ he

theorem edgesIn_relateRegions {edges : List RegionEdge} (h : EdgesIn Q edges) {r s : Region}
    (hr : Q r) (hs : Q s) (v : Variance) : EdgesIn Q (relateRegions v r s edges) := by
  cases v with
  | covariant => exact edgesIn_addEdge h ⟨hr, hs⟩
  | invariant => exact edgesIn_addEdge (edgesIn_addEdge h ⟨hr, hs⟩) ⟨hs, hr⟩

mutual

/-- Relating two types adds edges between their regions only. -/
theorem edgesIn_relateInto (v : Variance) (a b : Ty) {edges out : List RegionEdge}
    (h : relateInto v a b edges = .ok out) (ha : ∀ r, a.Mentions r → Q r)
    (hb : ∀ r, b.Mentions r → Q r) (hedges : EdgesIn Q edges) : EdgesIn Q out := by
  match a, b with
  | .region r, .region s =>
    cases h
    exact edgesIn_relateRegions hedges (ha r (.region r)) (hb s (.region s)) v
  | .scalar n, .scalar n' =>
    rw [relateInto] at h
    split at h
    · cases h
      exact hedges
    · cases h
  | .ref r m t, .ref r' m' t' =>
    rw [relateInto] at h
    split at h
    · refine edgesIn_relateInto _ t t' h (fun s hs => ha s (.inner r m hs))
        (fun s hs => hb s (.inner r' m' hs)) ?_
      exact edgesIn_relateRegions hedges (ha r (.outer r m t)) (hb r' (.outer r' m' t')) v
    · cases h
  | .adt n args, .adt n' args' =>
    rw [relateInto] at h
    split at h
    · exact edgesIn_relateAllInto v args args' h (fun s t ht hs => ha s (.arg n ht hs))
        (fun s t ht hs => hb s (.arg n' ht hs)) hedges
    · cases h
  | .region _, .scalar _ | .region _, .ref .. | .region _, .adt ..
  | .scalar _, .region _ | .scalar _, .ref .. | .scalar _, .adt ..
  | .ref .., .region _ | .ref .., .scalar _ | .ref .., .adt ..
  | .adt .., .region _ | .adt .., .scalar _ | .adt .., .ref .. => cases h

theorem edgesIn_relateAllInto (v : Variance) (as bs : List Ty) {edges out : List RegionEdge}
    (h : relateAllInto v as bs edges = .ok out) (ha : ∀ r, ∀ t ∈ as, t.Mentions r → Q r)
    (hb : ∀ r, ∀ t ∈ bs, t.Mentions r → Q r) (hedges : EdgesIn Q edges) : EdgesIn Q out := by
  match as, bs with
  | a :: as, b :: bs =>
    rw [relateAllInto] at h
    split at h
    · next middle hmiddle =>
      have hfirst := edgesIn_relateInto v a b hmiddle (fun r => ha r a List.mem_cons_self)
        (fun r => hb r b List.mem_cons_self) hedges
      exact edgesIn_relateAllInto v as bs h (fun r t ht => ha r t (List.mem_cons_of_mem _ ht))
        (fun r t ht => hb r t (List.mem_cons_of_mem _ ht)) hfirst
    · cases h
  | [], _ | _ :: _, [] =>
    rw [relateAllInto] at h
    · cases h
      exact hedges
    · simp

end

/-- **The edges between two types** have their regions at both ends. -/
theorem edgesIn_relate {src dst : Ty} {out : List RegionEdge} (h : src.relate dst = .ok out)
    (hsrc : ∀ r ∈ src.regions, Q r) (hdst : ∀ r ∈ dst.regions, Q r) : EdgesIn Q out := by
  refine edgesIn_relateInto .covariant src dst h ?_ ?_ edgesIn_nil
  · exact fun r hr => hsrc r (mem_regions_iff.mpr hr)
  · exact fun r hr => hdst r (mem_regions_iff.mpr hr)

end BorrowFlow.Ty
