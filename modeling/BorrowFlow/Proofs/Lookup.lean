import BorrowFlow.Proofs.PointIndex

/-! # Every lookup is answered

    The passes look things up all the time: what stands at a point, where control goes from
    there, the value of a table at a point, a loan or a region by its name, the nodes before
    and after a region.  Each of these lookups has a form that reports a miss.  On a checked
    body none of them does (`Body.Finds.answered`).

    * **Sweeps**: a sweep that reports misses renews the same table
      (`Problem.trySweep_eq`).
    * **The graph** has all regions and loans of the body, and nothing else is reached in it
      (`Body.WellFormed.exists_of_mem_nodes`).
-/

namespace BorrowFlow

/-! ## Sweeps that report a miss -/

namespace Problem

variable {ρ σ : Type} {P : Problem ρ σ} {ps : List Point} {a : Arena σ}

/-- Renew one point, or say which point has no slot. -/
def tryRenew (P : Problem ρ σ) (a : Arena σ) (v : Visit ρ) : Except ArenaFault (Arena σ) := do
  let around ← v.neighbours.mapM a.get
  a.put v.point (P.transfer v.rule around)

/-- Renew every point in turn, or say which point has no slot. -/
def trySweep (P : Problem ρ σ) (a : Arena σ) : Except ArenaFault (Arena σ) :=
  P.visits.foldlM P.tryRenew a

theorem tryRenew_eq (ha : a.Covers ps) {v : Visit ρ} (hpoint : v.point ∈ ps)
    (haround : ∀ q ∈ v.neighbours, q ∈ ps) : P.tryRenew a v = .ok (P.renew a v) := by
  have hread : v.neighbours.mapM a.get = .ok (v.neighbours.map (a.read P.bottom)) :=
    mapM_eq_ok_map fun q hq => ha.get_eq (haround q hq) P.bottom
  rw [tryRenew, hread]
  exact ha.put_eq hpoint _

/-- **A sweep finds a slot** wherever it reads or writes. -/
theorem trySweep_eq (h : P.VisitsEach ps) (haround : ∀ v ∈ P.visits, ∀ q ∈ v.neighbours, q ∈ ps)
    (ha : a.Covers ps) : P.trySweep a = .ok (P.sweep a) := by
  -- the induction is on the visits; a renewed table has the slots that it had before
  suffices hrun : ∀ vs : List (Visit ρ), (∀ v ∈ vs, v ∈ P.visits) → ∀ a : Arena σ, a.Covers ps →
      vs.foldlM P.tryRenew a = .ok (vs.foldl P.renew a) from hrun P.visits (fun _ => id) a ha
  intro vs
  induction vs with
  | nil => exact fun _ _ _ => rfl
  | cons v vs ih =>
    intro hvs a ha
    rw [List.forall_mem_cons] at hvs
    rw [List.foldlM_cons, tryRenew_eq ha (h.point_mem hvs.1) (haround v hvs.1)]
    exact ih hvs.2 _ (ha.write v.point _)

/-- **Run lemma**: so do the sweeps of a run, however many there are. -/
theorem trySweep_iterate (h : P.VisitsEach ps)
    (haround : ∀ v ∈ P.visits, ∀ q ∈ v.neighbours, q ∈ ps) (ha : a.Covers ps) (k : Nat) :
    P.trySweep (P.sweep^[k] a) = .ok (P.sweep^[k + 1] a) := by
  rw [Function.iterate_succ_apply']
  exact trySweep_eq h haround (covers_iterate ha k)

end Problem

/-! ## The graph -/

namespace Body.WellFormed

variable {b : Body} {g : SubsetGraph} {r : Region} {loan : Loan} {n : Node}

theorem regionNamed_subsetGraph (h : b.WellFormed) (hg : b.subsetGraph = .ok g)
    (hr : r ∈ b.regions) : g.regionNamed r.name = .ok r := by
  rw [SubsetGraph.regionNamed, (h.shows_subsetGraph hg).regions.get?_of_mem hr]

theorem loanNamed_subsetGraph (h : b.WellFormed) (hg : b.subsetGraph = .ok g)
    (hloan : loan ∈ b.loans) : g.loanNamed loan.name = .ok loan := by
  rw [SubsetGraph.loanNamed, (h.shows_subsetGraph hg).loans.get?_of_mem hloan]

theorem loansReaching_subsetGraph (h : b.WellFormed) (hg : b.subsetGraph = .ok g)
    (hr : r ∈ b.regions) : g.loansReaching r = .ok (g.loansInto r) := by
  rw [SubsetGraph.loansReaching, if_pos ((h.shows_subsetGraph hg).regions.get?_of_mem hr)]

/-- **A node stands for a region or a loan** of the body. -/
theorem exists_of_mem_nodes (h : b.WellFormed) (hg : b.subsetGraph = .ok g) (hn : n ∈ g.nodes) :
    (∃ s ∈ b.regions, n = .ofRegion s) ∨ ∃ loan ∈ b.loans, n = .ofLoan loan := by
  have hshows := h.shows_subsetGraph hg
  rw [SubsetGraph.nodes, SortedSet.mem_ofList, hshows.regions.names_eq, hshows.loans.names_eq,
    List.map_map, List.map_map] at hn
  rcases List.mem_append.mp hn with hn | hn
  · obtain ⟨s, hs, rfl⟩ := List.mem_map.mp hn
    exact Or.inl ⟨s, hs, rfl⟩
  · obtain ⟨loan, hloan, rfl⟩ := List.mem_map.mp hn
    exact Or.inr ⟨loan, hloan, rfl⟩

/-- Nothing but nodes is found before a region. -/
theorem mem_nodes_of_mem_nodesBefore (h : b.WellFormed) (hg : b.subsetGraph = .ok g)
    (hr : r ∈ b.regions) (hn : n ∈ g.nodesBefore (.ofRegion r)) : n ∈ g.nodes := by
  have hclosed := h.closed_subsetGraph hg
  have hnode := h.region_mem_nodes hg hr
  rw [hclosed.mem_nodesBefore_iff hnode] at hn
  -- the path is empty, or its first edge leaves a node
  rcases hn.cases_head with rfl | ⟨m, hstep, _⟩
  · exact hnode
  · exact (hclosed _ hstep).1

end Body.WellFormed

/-! ## All lookups -/

namespace Body

variable {b : Body} {options : AnalysisOptions} {f : Findings} {rules : Arena LoanRule}

/-- **Every lookup of an analysis is answered.** -/
structure Answered (b : Body) (f : Findings) : Prop where
  /-- Control enters at a point of the body. -/
  entered : b.entryPoint ∈ b.points
  /-- The points of the body are visited, and no others. -/
  visited : b.reversePostorder.Perm b.points
  /-- Something stands at each of them. -/
  occupied : ∀ p ∈ b.points, ∃ slot, b.slotAt p = .ok slot ∧ b.facts p = slot.statement
  /-- It is known where control goes from there, which is to points of the body. -/
  next : ∀ p ∈ b.points, b.successorsOf p = .ok (b.successors p) ∧
    ∀ q ∈ b.successors p, q ∈ b.points
  /-- It is known where control comes from, which is from points of the body. -/
  previous : ∀ p ∈ b.points, b.predecessorsOf p = .ok (b.predecessors p) ∧
    ∀ q ∈ b.predecessors p, q ∈ b.points
  /-- A sweep over what is live finds a slot wherever it reads or writes. -/
  liveSweeps : ∀ k, b.livenessProblem.trySweep (b.livenessProblem.sweep^[k] b.noneLive) =
    .ok (b.livenessProblem.sweep^[k + 1] b.noneLive)
  /-- What is live at a point is known, and all of it is declared. -/
  live : ∀ p ∈ b.points, f.liveness.table.get p = .ok (f.liveness.table.read {} p) ∧
    f.liveness.liveAt p = .ok (f.liveness.liveIn p) ∧
    ∀ x, x ∈ f.liveness.liveIn p ∨ x ∈ f.liveness.dropLiveIn p → ∃ v, b.var? x = some v
  /-- The live regions of a point are known, and regions of the body. -/
  liveRegions : ∀ p ∈ b.points, f.liveness.regionsLiveAt p = .ok (f.liveness.regionsLive p) ∧
    ∀ r ∈ f.liveness.regionsLive p, r ∈ b.regions
  /-- The graph has the loans of the body under their names. -/
  loans : ∀ loan ∈ b.loans, f.graph.loanNamed loan.name = .ok loan
  /-- It has the regions of the body, and says which loans flow into them. -/
  regions : ∀ r ∈ b.regions, f.graph.regionNamed r.name = .ok r ∧
    f.graph.loansReaching r = .ok (f.graph.loansInto r)
  /-- What comes before a region is known: regions and loans of the body. -/
  before : ∀ r ∈ b.regions,
    f.graph.reaching (.ofRegion r) = .ok (f.graph.nodesBefore (.ofRegion r)) ∧
    ∀ n ∈ f.graph.nodesBefore (.ofRegion r),
      (∃ s ∈ b.regions, n = .ofRegion s) ∨ ∃ loan ∈ b.loans, n = .ofLoan loan
  /-- What comes after a region is known: regions of the body. -/
  after : ∀ r ∈ b.regions,
    f.graph.reachableFrom (.ofRegion r) = .ok (f.graph.nodesAfter (.ofRegion r)) ∧
    ∀ n ∈ f.graph.nodesAfter (.ofRegion r), ∃ s ∈ b.regions, n = .ofRegion s
  /-- There is a rule for each point, and a sweep over the loans finds a slot wherever it
      reads or writes. -/
  loanSweeps : ∃ rules, b.loanRules f.liveness f.graph = .ok rules ∧
    (∀ p ∈ b.points, rules.get p = .ok (rules.read {} p)) ∧
    ∀ k, (b.loanProblem rules).trySweep
        ((b.loanProblem rules).sweep^[k] (.ofPoints b.points {})) =
      .ok ((b.loanProblem rules).sweep^[k + 1] (.ofPoints b.points {}))
  /-- The active loans of a point are known, and loans of the body. -/
  active : ∀ p ∈ b.points, f.active.table.get p = .ok (f.active.table.read {} p) ∧
    f.active.activeAt p = .ok (f.active.active p) ∧ ∀ loan ∈ f.active.active p, loan ∈ b.loans

namespace WellFormed

theorem mem_points_of_mem_predecessors (h : b.WellFormed) {p q : Point}
    (hq : q ∈ b.predecessors p) : q ∈ b.points :=
  h.mem_points_of_successors (h.mem_predecessors.mp hq)

theorem mem_points_of_liveNeighbour (h : b.WellFormed) :
    ∀ v ∈ b.livenessProblem.visits, ∀ q ∈ v.neighbours, q ∈ b.points := by
  intro v hv q hq
  obtain ⟨p, _, rfl⟩ := mem_livenessProblem_visits.mp hv
  exact h.mem_points_of_mem_successors hq

theorem mem_points_of_loanNeighbour (h : b.WellFormed) (rules : Arena LoanRule) :
    ∀ v ∈ (b.loanProblem rules).visits, ∀ q ∈ v.neighbours, q ∈ b.points := by
  intro v hv q hq
  obtain ⟨p, _, rfl⟩ := mem_loanProblem_visits.mp hv
  exact h.mem_points_of_mem_predecessors hq

end WellFormed

theorem covers_loanRules (h : b.WellFormed) {l : Liveness} {g : SubsetGraph}
    (hrules : b.loanRules l g = .ok rules) : rules.Covers b.points := by
  rw [loanRules] at hrules
  split at hrules
  · cases hrules
    exact Arena.covers_tabulate h.nodup_points _
  · cases hrules

/-- **The lookups of an analysis are all answered.** -/
theorem Finds.answered (h : b.Finds options f rules) (hb : b.WellFormed) : b.Answered f where
  entered := hb.entryPoint_mem
  visited := hb.reversePostorder_perm
  occupied := by
    intro p hp
    obtain ⟨slot, hslot⟩ := hb.exists_slotAt_iff.mpr hp
    refine ⟨slot, hslot, ?_⟩
    rw [Body.facts, slotAt_eq_ok.mp hslot]
    rfl
  next := by
    intro p hp
    obtain ⟨slot, hslot⟩ := hb.exists_slotAt_iff.mpr hp
    refine ⟨by rw [successorsOf, hslot]; rfl, fun q hq => hb.mem_points_of_mem_successors hq⟩
  previous := by
    intro p hp
    obtain ⟨slot, hslot⟩ := hb.exists_slotAt_iff.mpr hp
    refine ⟨by rw [predecessorsOf, hslot]; rfl, fun q hq => hb.mem_points_of_mem_predecessors hq⟩
  liveSweeps := Problem.trySweep_iterate hb.livenessProblem_visitsEach
    hb.mem_points_of_liveNeighbour hb.covers_noneLive
  live := by
    intro p hp
    refine ⟨(hb.covers_liveness h.liveness).get_eq hp _, ?_, ?_⟩
    · rw [Liveness.liveAt, Liveness.covered, (liveness_ok h.liveness).1, if_pos hp]
    · rintro x (huse | hdrop)
      · exact hb.exists_var?_of_ahead ((hb.mem_live_iff h.liveness .use).mp huse)
      · exact hb.exists_var?_of_ahead ((hb.mem_live_iff h.liveness .drop).mp hdrop)
  liveRegions := by
    intro p hp
    refine ⟨?_, fun r hr => ((hb.mem_regionsLive_iff h.liveness).mp hr).1⟩
    rw [Liveness.regionsLiveAt, Liveness.covered, (liveness_ok h.liveness).1, if_pos hp]
  loans := fun _ hloan => hb.loanNamed_subsetGraph h.graph hloan
  regions := fun _ hr =>
    ⟨hb.regionNamed_subsetGraph h.graph hr, hb.loansReaching_subsetGraph h.graph hr⟩
  before := by
    intro r hr
    refine ⟨?_, fun n hn =>
      hb.exists_of_mem_nodes h.graph (hb.mem_nodes_of_mem_nodesBefore h.graph hr hn)⟩
    rw [SubsetGraph.reaching, if_pos ((hb.shows_subsetGraph h.graph).hasNode_region hr)]
  after := by
    intro r hr
    constructor
    · rw [SubsetGraph.reachableFrom, if_pos ((hb.shows_subsetGraph h.graph).hasNode_region hr)]
    · intro n hn
      rw [(hb.closed_subsetGraph h.graph).mem_nodesAfter_iff
        (hb.region_mem_nodes h.graph hr)] at hn
      -- no edge leads into a loan
      obtain ⟨s, hs, heq, _⟩ := hb.flowsInto_of_path h.graph hr hn
      exact ⟨s, hs, heq⟩
  loanSweeps :=
    ⟨rules, h.ruled, fun _ hp => (covers_loanRules hb h.ruled).get_eq hp _,
      Problem.trySweep_iterate (hb.loanProblem_visitsEach rules)
        (hb.mem_points_of_loanNeighbour rules) (Arena.covers_ofPoints hb.nodup_points _)⟩
  active := by
    intro p hp
    refine ⟨(covers_of_activeLoans hb h.active).get_eq hp _, ?_,
      fun loan => hb.mem_loans_of_mem_active h.graph h.ruled h.active⟩
    rw [ActiveLoans.activeAt, (activeLoans_ok h.active).1, if_pos hp]

end Body

end BorrowFlow
