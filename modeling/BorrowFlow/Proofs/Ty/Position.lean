import BorrowFlow.Proofs.Ty

/-! # Positions in a type

    A position is the way from a type down to one of its parts.  What a flow between two
    types requires is said position by position: which regions stand there in the one and
    in the other (`Ty.regionAt`), and whether the way leads behind a mutable reference
    (`Ty.behindMutable`).

    `Ty.erase` forgets which regions a type has and keeps where they are.  Types that agree
    up to that have their regions at the same positions (`Ty.exists_regionAt_of_erase_eq`).
-/

namespace BorrowFlow.Ty

/-! ## Regions at positions -/

/-- One step down from a type. -/
inductive Descent where
  /-- To the region of a reference. -/
  | lifetime
  /-- To what a reference points to. -/
  | referent
  /-- To an argument of an aggregate. -/
  | arg (i : Nat)
  deriving DecidableEq

/-- The way down to a part of a type, outermost step first. -/
abbrev Position := List Descent

/-- The part of a type that a step leads to. -/
def child? : Ty → Descent → Option Ty
  | .ref r _ _, .lifetime => some (.region r)
  | .ref _ _ referent, .referent => some referent
  | .adt _ args, .arg i => args[i]?
  | _, _ => none

/-- Does the step lead behind a mutable reference? -/
def entersMutable : Ty → Descent → Bool
  | .ref _ mutable _, .referent => mutable
  | _, _ => false

/-- **The region at a position**, if a region stands there. -/
def regionAt : Ty → Position → Option Region
  | .region r, [] => some r
  | _, [] => none
  | t, d :: pos => (t.child? d).bind fun part => part.regionAt pos

/-- **Is the position behind a mutable reference**, at any depth? -/
def behindMutable : Ty → Position → Bool
  | _, [] => false
  | t, d :: pos => t.entersMutable d || (t.child? d).any fun part => part.behindMutable pos

@[simp] theorem regionAt_cons (t : Ty) (d : Descent) (pos : Position) :
    t.regionAt (d :: pos) = (t.child? d).bind fun part => part.regionAt pos := by
  cases t <;> rfl

theorem regionAt_region {r s : Region} {pos : Position} :
    (Ty.region r).regionAt pos = some s ↔ pos = [] ∧ r = s := by
  cases pos with
  | nil => simp [regionAt]
  | cons d pos => cases d <;> simp [child?]

theorem regionAt_scalar (name : String) (pos : Position) :
    (Ty.scalar name).regionAt pos = none := by
  cases pos with
  | nil => rfl
  | cons d pos => cases d <;> rfl

/-- A region of a reference is its own or one of the referent. -/
theorem regionAt_ref {r s : Region} {mutable : Bool} {t : Ty} {pos : Position} :
    (Ty.ref r mutable t).regionAt pos = some s ↔
      (pos = [.lifetime] ∧ r = s) ∨ ∃ rest, pos = .referent :: rest ∧ t.regionAt rest = some s := by
  cases pos with
  | nil => simp [regionAt]
  | cons d pos => cases d <;> simp [child?, regionAt_region]

/-- A region of an aggregate is one of an argument. -/
theorem regionAt_adt {name : String} {args : List Ty} {s : Region} {pos : Position} :
    (Ty.adt name args).regionAt pos = some s ↔
      ∃ i rest t, pos = .arg i :: rest ∧ args[i]? = some t ∧ t.regionAt rest = some s := by
  cases pos with
  | nil => simp [regionAt]
  | cons d rest =>
    cases d with
    | lifetime => simp [child?]
    | referent => simp [child?]
    | arg i =>
      rw [regionAt_cons, Option.bind_eq_some_iff]
      constructor
      · intro h
        obtain ⟨t, ht, hregion⟩ := h
        exact ⟨i, rest, t, rfl, ht, hregion⟩
      · intro h
        obtain ⟨j, _, t, ⟨⟩, ht, hregion⟩ := h
        exact ⟨t, ht, hregion⟩

/-! ## Shapes -/

mutual

/-- **The shape of a type**: all of its regions have become the same one. -/
def erase : Ty → Ty
  | .region _ => .region default
  | .scalar name => .scalar name
  | .ref _ mutable referent => .ref default mutable referent.erase
  | .adt name args => .adt name (eraseAll args)

/-- The shapes of the arguments of an aggregate. -/
def eraseAll : List Ty → List Ty
  | [] => []
  | t :: ts => t.erase :: eraseAll ts

end

theorem eraseAll_eq_map (ts : List Ty) : eraseAll ts = ts.map erase := by
  induction ts with
  | nil => rfl
  | cons t ts ih => rw [eraseAll, ih, List.map_cons]

theorem child?_erase (t : Ty) (d : Descent) : t.erase.child? d = (t.child? d).map erase := by
  cases t <;> cases d <;> simp [erase, child?, eraseAll_eq_map]

theorem entersMutable_erase (t : Ty) (d : Descent) :
    t.erase.entersMutable d = t.entersMutable d := by
  cases t <;> cases d <;> simp [erase, entersMutable]

/-- A shape has regions where the type has them. -/
theorem regionAt_erase (t : Ty) (pos : Position) :
    t.erase.regionAt pos = (t.regionAt pos).map fun _ => default := by
  induction pos generalizing t with
  | nil => cases t <;> simp [erase, regionAt]
  | cons d pos ih =>
    rw [regionAt_cons, regionAt_cons, child?_erase]
    cases t.child? d with
    | none => rfl
    | some part => exact ih part

theorem behindMutable_erase (t : Ty) (pos : Position) :
    t.erase.behindMutable pos = t.behindMutable pos := by
  induction pos generalizing t with
  | nil => simp [behindMutable]
  | cons d pos ih =>
    rw [behindMutable, behindMutable, entersMutable_erase, child?_erase]
    cases t.child? d with
    | none => rfl
    | some part => simp [ih part]

variable {s t : Ty}

/-- **Types of one shape have their regions at the same positions.** -/
theorem exists_regionAt_of_erase_eq (h : s.erase = t.erase) {pos : Position} {r : Region}
    (hr : s.regionAt pos = some r) : ∃ r', t.regionAt pos = some r' := by
  have hshape := congrArg (regionAt · pos) h
  simp only [regionAt_erase, hr, Option.map_some] at hshape
  obtain ⟨r', hr', _⟩ := Option.map_eq_some_iff.mp hshape.symm
  exact ⟨r', hr'⟩

/-- Types of one shape have the same positions behind mutable references. -/
theorem behindMutable_eq_of_erase_eq (h : s.erase = t.erase) (pos : Position) :
    s.behindMutable pos = t.behindMutable pos := by
  rw [← behindMutable_erase s, h, behindMutable_erase]

end BorrowFlow.Ty
