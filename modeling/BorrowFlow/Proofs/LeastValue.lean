import BorrowFlow.Proofs.RegionValue
import Mathlib.Data.Set.Basic

/-! # Region values are the least solution

    A body asks two things of the values of its regions, along the same obligations but in
    opposite directions: loans flow from the sub to the sup, and points from the sup back
    to the sub.  Each loan starts in the regions that it is issued into, each point in the
    regions that are live there, and a universal region has all points.

    An assignment of loans and points to the regions that does all this is a *solution*
    (`Body.Solves`).  The values that are read off the graph are one, and are part of
    every other (`regionValues_least`): a flow takes loans and points along in any solution
    (`Solves.loans_subset`, `Solves.points_subset`), and the values hold what a flow brings
    and nothing else.
-/

namespace BorrowFlow

/-! ## Solutions -/

/-- Loans and points for every region. -/
structure RegionAssignment where
  loans : Region → Set Loan
  points : Region → Set Point

namespace RegionAssignment

/-- The assignment that a list of values makes. -/
def ofValues (vs : List RegionValue) : RegionAssignment where
  loans := fun r => { loan | ∃ v ∈ vs, v.region = r ∧ loan ∈ v.loans }
  points := fun r => { p | ∃ v ∈ vs, v.region = r ∧ p ∈ v.points }

/-- One assignment is part of another, region by region. -/
def Within (x y : RegionAssignment) : Prop :=
  ∀ r, x.loans r ⊆ y.loans r ∧ x.points r ⊆ y.points r

end RegionAssignment

namespace Body

/-- **A solution** of the region constraints of a body, given its liveness. -/
structure Solves (b : Body) (l : Liveness) (x : RegionAssignment) : Prop where
  /-- The loans of a region are in those that it has to be part of. -/
  flows : ∀ o ∈ b.obligations, x.loans o.sub ⊆ x.loans o.sup
  /-- A region covers the points of those that it has to be part of. -/
  covers : ∀ o ∈ b.obligations, x.points o.sup ⊆ x.points o.sub
  issued : ∀ issue, b.Issues issue → ∀ r ∈ issue.regions, issue.loan ∈ x.loans r
  live : ∀ r ∈ b.regions, ∀ p ∈ l.regionPoints r, p ∈ x.points r
  everywhere : ∀ r ∈ b.regions, r.universal = true → ∀ p ∈ b.points, p ∈ x.points r

namespace Solves

variable {b : Body} {l : Liveness} {x : RegionAssignment} {r s : Region}

/-- **A flow takes loans along** in every solution. -/
theorem loans_subset (h : b.Solves l x) (hflow : b.FlowsInto r s) : x.loans r ⊆ x.loans s := by
  induction hflow with
  | refl => exact fun _ => id
  | tail _ hstep ih =>
    obtain ⟨o, ho, rfl, rfl⟩ := hstep
    intro loan hloan
    exact h.flows o ho (ih hloan)

/-- **A flow brings points back** in every solution. -/
theorem points_subset (h : b.Solves l x) (hflow : b.FlowsInto r s) : x.points s ⊆ x.points r := by
  induction hflow with
  | refl => exact fun _ => id
  | tail _ hstep ih =>
    obtain ⟨o, ho, rfl, rfl⟩ := hstep
    intro p hp
    exact ih (h.covers o ho hp)

end Solves

/-! ## The values that are read off the graph -/

section Values

variable {b : Body} {l : Liveness} {g : SubsetGraph} {r : Region}

theorem mem_regionPoints (hl : l.body = b) {p : Point} :
    p ∈ l.regionPoints r ↔ p ∈ b.points ∧ r ∈ l.regionsLive p := by
  simp [Liveness.regionPoints, Liveness.pointsIn, Liveness.regionTable, hl]

/-- A region of the body has one value, which is its own. -/
theorem exists_value_iff (hl : l.body = b) (hr : r ∈ b.regions) {P : RegionValue → Prop} :
    (∃ v ∈ l.regionValues g, v.region = r ∧ P v) ↔ P (Liveness.regionValue g l.ownPoints r) := by
  constructor
  · rintro ⟨v, hv, rfl, hP⟩
    obtain ⟨r, _, rfl⟩ := (Liveness.mem_regionValues_iff hl).mp hv
    exact hP
  · intro hP
    exact ⟨_, (Liveness.mem_regionValues_iff hl).mpr ⟨r, hr, rfl⟩, rfl, hP⟩

/-- The loans of a region are issued into regions that flow into it. -/
theorem WellFormed.mem_ofValues_loans (h : b.WellFormed) (hl : l.body = b)
    (hg : b.subsetGraph = .ok g) (hr : r ∈ b.regions) {loan : Loan} :
    loan ∈ (RegionAssignment.ofValues (l.regionValues g)).loans r ↔
      ∃ issue, b.Issues issue ∧ issue.loan = loan ∧ ∃ s ∈ issue.regions, b.FlowsInto s r := by
  rw [← h.mem_loansInto_iff hg hr]
  exact exists_value_iff hl hr

/-- The points of a region are those where a region that it flows into is live. -/
theorem WellFormed.mem_ofValues_points (h : b.WellFormed) (hl : l.body = b)
    (hg : b.subsetGraph = .ok g) (hr : r ∈ b.regions) {p : Point} :
    p ∈ (RegionAssignment.ofValues (l.regionValues g)).points r ↔
      p ∈ b.points ∧ ∃ s ∈ b.regions, b.FlowsInto r s ∧ s ∈ l.regionsLive p := by
  rw [← h.mem_points_regionValue hl hg hr]
  exact exists_value_iff hl hr

/-- **The values are a solution.** -/
theorem WellFormed.solves_regionValues (h : b.WellFormed) (hl : l.body = b)
    (hg : b.subsetGraph = .ok g) : b.Solves l (.ofValues (l.regionValues g)) where
  flows := by
    intro o ho loan hloan
    obtain ⟨hsub, hsup⟩ := h.regions_of_mem_obligations ho
    rw [h.mem_ofValues_loans hl hg hsub] at hloan
    rw [h.mem_ofValues_loans hl hg hsup]
    obtain ⟨issue, hissue, heq, s, hs, hflow⟩ := hloan
    exact ⟨issue, hissue, heq, s, hs, hflow.tail ⟨o, ho, rfl, rfl⟩⟩
  covers := by
    intro o ho p hp
    obtain ⟨hsub, hsup⟩ := h.regions_of_mem_obligations ho
    rw [h.mem_ofValues_points hl hg hsup] at hp
    rw [h.mem_ofValues_points hl hg hsub]
    obtain ⟨hmem, s, hs, hflow, hlive⟩ := hp
    exact ⟨hmem, s, hs, .head ⟨o, ho, rfl, rfl⟩ hflow, hlive⟩
  issued := by
    intro issue hissue r hr
    have hregion := h.region_mem_of_issues hissue hr
    rw [h.mem_ofValues_loans hl hg hregion]
    exact ⟨issue, hissue, rfl, r, hr, .refl⟩
  live := by
    intro r hr p hp
    obtain ⟨hmem, hlive⟩ := (mem_regionPoints hl).mp hp
    rw [h.mem_ofValues_points hl hg hr]
    exact ⟨hmem, r, hr, .refl, hlive⟩
  everywhere := by
    intro r hr huniversal p hp
    -- a universal region is live at every point
    have hown := (Liveness.mem_own_iff (p := p) hl hr).mp (by simp [huniversal, hp])
    rw [h.mem_ofValues_points hl hg hr]
    exact ⟨hp, r, hr, .refl, hown.2⟩

/-- **The values are part of every solution.** -/
theorem WellFormed.regionValues_within (h : b.WellFormed) (hl : l.body = b)
    (hg : b.subsetGraph = .ok g) {x : RegionAssignment} (hx : b.Solves l x) :
    (RegionAssignment.ofValues (l.regionValues g)).Within x := by
  intro r
  -- there are no values but those of the body's regions
  have hregion : ∀ {P : RegionValue → Prop},
      (∃ v ∈ l.regionValues g, v.region = r ∧ P v) → r ∈ b.regions := by
    rintro P ⟨v, hv, rfl, _⟩
    obtain ⟨r, hr, rfl⟩ := (Liveness.mem_regionValues_iff hl).mp hv
    exact hr
  constructor
  · intro loan hloan
    obtain ⟨issue, hissue, rfl, s, hs, hflow⟩ :=
      (h.mem_ofValues_loans hl hg (hregion hloan)).mp hloan
    exact hx.loans_subset hflow (hx.issued issue hissue s hs)
  · intro p hp
    obtain ⟨hmem, s, hs, hflow, hlive⟩ := (h.mem_ofValues_points hl hg (hregion hp)).mp hp
    exact hx.points_subset hflow (hx.live s hs p ((mem_regionPoints hl).mpr ⟨hmem, hlive⟩))

end Values

end Body

/-- **Region values are the least solution.**  On a checked body, with any liveness result
    of it, every region gets one value, and these values solve the constraints of the body:
    each obligation takes loans forwards and points backwards, each loan is in the regions
    it is issued into, and each region covers the points where it is live, a universal one
    all of them.  Any other solution has these loans and points in every region. -/
theorem regionValues_least {d : Draft} {b : Body} (hb : d.check = .ok b) {l : Liveness}
    (hl : l.body = b) :
    ∃ g, b.subsetGraph = .ok g ∧ (l.regionValues g).map RegionValue.region = b.regions ∧
      (b.regions.map Region.name).Nodup ∧
      b.Solves l (.ofValues (l.regionValues g)) ∧
      ∀ x, b.Solves l x → (RegionAssignment.ofValues (l.regionValues g)).Within x := by
  have h := Draft.wellFormed_of_check hb
  obtain ⟨g, hg, _⟩ := h.exists_subsetGraph
  have hregions : (l.regionValues g).map RegionValue.region = b.regions := by
    rw [Liveness.regionValues, hl, List.map_map]
    exact List.map_id b.regions
  exact ⟨g, hg, hregions, h.regionNames, h.solves_regionValues hl hg,
    fun x hx => h.regionValues_within hl hg hx⟩

/-- In the sample loop the loan of `v` is issued into the region of `t`, which has to be part
    of that of `w`.  So every solution has the loan in the second and, as `w` is live where
    the loop begins, this point in the first. -/
theorem loop_regionValues_least : ∃ (b : Body) (l : Liveness), Sample.body .loop = .ok b ∧
    b.liveness = .ok l ∧ (∃ x, b.Solves l x) ∧
    ∀ x, b.Solves l x → (⟨"L0", ⟨"bb1", 1⟩, .ofLocal "v", .shared⟩ : Loan) ∈ x.loans ⟨"'w", false⟩ ∧
      (⟨"bb1", 0⟩ : Point) ∈ x.points ⟨"'t", false⟩ := by
  have hrun : ((Sample.body .loop).toOption.any fun b => b.liveness.toOption.any fun l =>
      b.subsetGraph.toOption.any fun g =>
        (l.regionValues g).any (fun v => decide (v.region = ⟨"'w", false⟩ ∧
          ⟨"L0", ⟨"bb1", 1⟩, .ofLocal "v", .shared⟩ ∈ v.loans)) &&
        (l.regionValues g).any fun v => decide (v.region = ⟨"'t", false⟩ ∧
          ⟨"bb1", 0⟩ ∈ v.points)) = true := by
    decide +kernel
  simp only [Option.any_eq_true, toOption_eq_some, Bool.and_eq_true, List.any_eq_true,
    decide_eq_true_eq] at hrun
  obtain ⟨b, hb, l, hl, g, hg, hloan, hpoint⟩ := hrun
  obtain ⟨d, hd⟩ := Sample.exists_draft hb
  obtain ⟨g', hg', _, _, hsolves, hleast⟩ := regionValues_least hd (Body.liveness_ok hl).1
  obtain rfl : g = g' := Except.ok.inj (hg.symm.trans hg')
  refine ⟨b, l, hb, hl, ⟨_, hsolves⟩, fun x hx => ⟨?_, ?_⟩⟩
  · exact (hleast x hx _).1 hloan
  · exact (hleast x hx _).2 hpoint

end BorrowFlow
