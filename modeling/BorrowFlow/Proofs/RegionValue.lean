import BorrowFlow.Proofs.Analysis

/-! # The two views of a region's value

    A region is known by the loans that flow into it and by the points that it has
    to cover.  The loans are found backwards from the region, the points forwards
    from it, and both views meet in the flows of the body:

    * `mem_points_regionValue`: a region covers the points where some region that
      it flows into is live.
    * `relevant_iff_covered`: a loan is relevant at a point if and only if the point
      is in the value of a region that the loan is issued into.
-/

namespace BorrowFlow

variable {b : Body} {l : Liveness} {g : SubsetGraph} {p : Point} {r : Region}

namespace Liveness

/-- Where a region of the body is live on its own account. -/
theorem mem_ownPoints_iff (hbody : l.body = b) {points : PointSet} :
    (r, points) ∈ l.ownPoints ↔ r ∈ b.regions ∧
      points = if r.universal then .ofList b.points else pointsIn l.regionTable r := by
  simp only [ownPoints, hbody, List.mem_map, Prod.mk.injEq]
  constructor
  · rintro ⟨r, hr, rfl, rfl⟩
    exact ⟨hr, rfl⟩
  · rintro ⟨hr, rfl⟩
    exact ⟨r, hr, rfl, rfl⟩

/-- A universal region is listed with all points, and live at all of them. -/
theorem mem_own_iff (hbody : l.body = b) (hr : r ∈ b.regions) :
    (p ∈ if r.universal then SortedSet.ofList b.points else pointsIn l.regionTable r) ↔
      p ∈ b.points ∧ r ∈ l.regionsLive p := by
  cases huniversal : r.universal with
  | true =>
    have hlive : r ∈ l.regionsLive p := by
      simp only [regionsLive, Body.liveRegions, SortedSet.mem_ofList, List.mem_append]
      refine Or.inl (Or.inl ?_)
      rw [hbody]
      exact List.mem_filter.mpr ⟨hr, huniversal⟩
    simp [hlive]
  | false =>
    simp [pointsIn, regionTable, hbody]

/-- Every region of the body has its value. -/
theorem mem_regionValues_iff (hbody : l.body = b) {v : RegionValue} :
    v ∈ l.regionValues g ↔ ∃ r ∈ b.regions, v = regionValue g l.ownPoints r := by
  simp [regionValues, hbody, eq_comm]

end Liveness

namespace Body.WellFormed

/-- **The points of a region** are those where a region that it flows into is live. -/
theorem mem_points_regionValue (h : b.WellFormed) (hbody : l.body = b)
    (hg : b.subsetGraph = .ok g) (hr : r ∈ b.regions) :
    p ∈ (Liveness.regionValue g l.ownPoints r).points ↔
      p ∈ b.points ∧ ∃ s ∈ b.regions, b.FlowsInto r s ∧ s ∈ l.regionsLive p := by
  simp only [Liveness.regionValue, SortedSet.mem_unions, List.mem_map, List.mem_filter,
    decide_eq_true_eq, Prod.exists, Liveness.mem_ownPoints_iff hbody]
  constructor
  · rintro ⟨_, ⟨s, _, ⟨⟨hs, rfl⟩, hafter⟩, rfl⟩, hp⟩
    obtain ⟨hmem, hlive⟩ := (Liveness.mem_own_iff hbody hs).mp hp
    exact ⟨hmem, s, hs, (h.mem_nodesAfter_iff hg hr hs).mp hafter, hlive⟩
  · rintro ⟨hmem, s, hs, hflow, hlive⟩
    exact ⟨_, ⟨s, _, ⟨⟨hs, rfl⟩, (h.mem_nodesAfter_iff hg hr hs).mpr hflow⟩, rfl⟩,
      (Liveness.mem_own_iff hbody hs).mpr ⟨hmem, hlive⟩⟩

/-- A loan is *covered* at a point by the value of a region it is issued into. -/
theorem exists_covering_value_iff (h : b.WellFormed) (hbody : l.body = b)
    (hg : b.subsetGraph = .ok g) {issue : LoanIssue} (hissue : b.Issues issue) :
    (∃ r ∈ issue.regions, ∃ v ∈ l.regionValues g, v.region = r ∧ p ∈ v.points) ↔
      p ∈ b.points ∧ ∃ s ∈ b.regions, s ∈ l.regionsLive p ∧ issue.loan ∈ g.loansInto s := by
  constructor
  · rintro ⟨r, hr, v, hv, rfl, hp⟩
    obtain ⟨r', hr', rfl⟩ := (Liveness.mem_regionValues_iff hbody).mp hv
    obtain ⟨hmem, s, hs, hflow, hlive⟩ := (h.mem_points_regionValue hbody hg hr').mp hp
    exact ⟨hmem, s, hs, hlive,
      (h.mem_loansInto_iff hg hs).mpr ⟨issue, hissue, rfl, r', hr, hflow⟩⟩
  · rintro ⟨hmem, s, hs, hlive, hloan⟩
    obtain ⟨other, hother, heq, r, hr, hflow⟩ := (h.mem_loansInto_iff hg hs).mp hloan
    obtain rfl : other = issue := h.issue_unique hother hissue (congrArg Loan.name heq)
    have hregion := h.region_mem_of_issues hissue hr
    exact ⟨r, hr, _, (Liveness.mem_regionValues_iff hbody).mpr ⟨r, hregion, rfl⟩, rfl,
      (h.mem_points_regionValue hbody hg hregion).mpr ⟨hmem, s, hs, hflow, hlive⟩⟩

end Body.WellFormed

/-- **The two views agree.**  A loan is relevant at a point if and only if the point
    is in the value of a region that the loan is issued into.  So at every point,
    each active loan is covered by such a region, whatever the run of the active
    loans started from. -/
theorem relevant_iff_covered {d : Draft} {b : Body} {options : LivenessOptions}
    {seed : Option Liveness} {l : Liveness} (hb : d.check = .ok b)
    (hl : b.liveness options seed = .ok l) :
    ∃ g rules, b.subsetGraph = .ok g ∧ b.loanRules l g = .ok rules ∧
      (∀ p ∈ b.points, ∀ issue, b.Issues issue →
        (issue.loan ∈ (rules.read {} p).relevant ↔
          ∃ r ∈ issue.regions, ∃ v ∈ l.regionValues g, v.region = r ∧ p ∈ v.points)) ∧
      ∀ loanOptions start a, b.activeLoans rules loanOptions start = .ok a →
        ∀ p loan, loan ∈ a.active p → ∃ issue, b.Issues issue ∧ issue.loan = loan ∧
          ∃ r ∈ issue.regions, ∃ v ∈ l.regionValues g, v.region = r ∧ p ∈ v.points := by
  have h := Draft.wellFormed_of_check hb
  have hbody := (Body.liveness_ok hl).1
  obtain ⟨g, hg, _⟩ := h.exists_subsetGraph
  obtain ⟨rules, hrules⟩ : ∃ rules, b.loanRules l g = .ok rules :=
    ⟨_, by rw [Body.loanRules, if_pos (congrArg Body.serial hbody)]⟩
  have hrelevant : ∀ p ∈ b.points, ∀ issue, b.Issues issue →
      (issue.loan ∈ (rules.read {} p).relevant ↔
        ∃ r ∈ issue.regions, ∃ v ∈ l.regionValues g, v.region = r ∧ p ∈ v.points) := by
    intro p hp issue hissue
    rw [h.exists_covering_value_iff hbody hg hissue, Body.read_loanRules h hrules hp,
      Body.mem_relevant]
    exact (and_iff_right hp).symm
  refine ⟨g, rules, hg, hrules, hrelevant, ?_⟩
  intro loanOptions start a ha p loan hactive
  obtain ⟨hp, hloan, _⟩ := (Body.mem_active_of_activeLoans h ha).mp hactive
  -- a relevant loan is one that the body issues
  have hinto := hloan
  rw [Body.read_loanRules h hrules hp, Body.mem_relevant] at hinto
  obtain ⟨r, hr, _, hinto⟩ := hinto
  obtain ⟨issue, hissue, rfl, _⟩ := (h.mem_loansInto_iff hg hr).mp hinto
  exact ⟨issue, hissue, rfl, (hrelevant p hp issue hissue).mp hloan⟩

/-- In the sample loop, the region of the reference covers the head of the loop,
    where its loan is still active. -/
theorem loan_covered_around_loop :
    ∃ (b : Body) (l : Liveness) (g : SubsetGraph), Sample.body .loop = .ok b ∧
      b.liveness = .ok l ∧ b.subsetGraph = .ok g ∧ ∃ issue, b.Issues issue ∧
        issue.loan.name = "L0" ∧ ∃ r ∈ issue.regions, ∃ v ∈ l.regionValues g,
          v.region = r ∧ ⟨"bb1", 0⟩ ∈ v.points := by
  obtain ⟨d, b, a, f, hbody, hb, ha, hf, hactive⟩ := Sample.exists_of_finds .loop {}
    (fun _ f => decide (⟨"L0", ⟨"bb1", 1⟩, .ofLocal "v", .shared⟩ ∈ f.active.active ⟨"bb1", 0⟩))
    (by decide +kernel)
  obtain ⟨rules, hfinds⟩ := Body.analyze_complete ha hf
  obtain ⟨g, rules', hg, hrules', _, hcovered⟩ := relevant_iff_covered hb hfinds.liveness
  obtain rfl : f.graph = g := Except.ok.inj (hfinds.graph.symm.trans hg)
  obtain rfl : rules = rules' := Except.ok.inj (hfinds.ruled.symm.trans hrules')
  obtain ⟨issue, hissue, hloan, hvalue⟩ :=
    hcovered _ _ _ hfinds.active _ _ (of_decide_eq_true hactive)
  exact ⟨b, f.liveness, f.graph, hbody, hfinds.liveness, hg, issue, hissue, by rw [hloan], hvalue⟩

end BorrowFlow
