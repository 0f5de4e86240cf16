import BorrowFlow.Proofs.Except
import BorrowFlow.Proofs.Flow
import BorrowFlow.Proofs.Reach
import BorrowFlow.Proofs.Walk

/-! # Subset graphs are flows between regions

    The graph of a well-formed body is always built, and holds what the body says
    and nothing else (`Body.WellFormed.exists_subsetGraph`).  Its paths are the
    flows of the body:

    * `mem_nodesAfter_iff`: a path from a region leads to where the region flows.
    * `mem_loansInto_iff`: the loans of a region are those issued into a region
      that flows there.
-/

namespace BorrowFlow

open Relation (ReflTransGen)

/-! ## Tables of named things -/

/-- The map holds just these values, in order, each under its own name. -/
def OrderedMap.Lists {α : Type} (m : OrderedMap α) (name : α → String) (vs : List α) : Prop :=
  m.entries = vs.map fun v => (name v, v)

namespace OrderedMap.Lists

variable {α : Type} {m : OrderedMap α} {name : α → String} {vs : List α}

theorem names_eq (h : m.Lists name vs) : m.names = vs.map name := by
  rw [names, h, List.map_map]
  rfl

theorem values_eq (h : m.Lists name vs) : m.values = vs := by
  rw [values, h, List.map_map]
  exact List.map_id vs

theorem contains_of_mem (h : m.Lists name vs) {v : α} (hv : v ∈ vs) :
    m.contains (name v) = true := by
  rw [contains_eq_true_iff, h.names_eq]
  exact List.mem_map_of_mem hv

theorem get?_of_mem (h : m.Lists name vs) {v : α} (hv : v ∈ vs) : m.get? (name v) = some v := by
  rw [get?_eq_some_iff, h]
  exact List.mem_map_of_mem hv

theorem get?_of_new (h : m.Lists name vs) {n : String} (hnew : n ∉ vs.map name) :
    m.get? n = none := by
  rw [Option.eq_none_iff_forall_ne_some]
  intro v hv
  rw [← h.names_eq] at hnew
  exact hnew (List.mem_map.mpr ⟨_, get?_eq_some_iff.mp hv, rfl⟩)

theorem insert_new (h : m.Lists name vs) {v : α} (hnew : name v ∉ vs.map name) :
    (m.insert (name v) v).Lists name (vs ++ [v]) := by
  rw [← h.names_eq] at hnew
  show putEntry (name v) v m.entries = _
  rw [putEntry_of_not_mem v hnew, h, List.map_append]
  rfl

end OrderedMap.Lists

/-! ## Paths in a graph -/

namespace SubsetGraph

variable {g : SubsetGraph}

/-- One node leads to another along an edge. -/
def Leads (g : SubsetGraph) (m n : Node) : Prop := (⟨m, n⟩ : Edge) ∈ g.edges

/-- The edges are between nodes of the graph. -/
def Closed (g : SubsetGraph) : Prop := ∀ e ∈ g.edges, e.src ∈ g.nodes ∧ e.dst ∈ g.nodes

theorem mem_nextTo {m n : Node} : n ∈ g.nextTo m ↔ g.Leads m n := by
  simp only [nextTo, List.mem_map, List.mem_filter, SortedSet.mem_toList, decide_eq_true_eq]
  constructor
  · rintro ⟨e, ⟨he, rfl⟩, rfl⟩
    exact he
  · intro h
    exact ⟨_, ⟨h, rfl⟩, rfl⟩

theorem mem_previousTo {m n : Node} : m ∈ g.previousTo n ↔ g.Leads m n := by
  simp only [previousTo, List.mem_map, List.mem_filter, SortedSet.mem_toList, decide_eq_true_eq]
  constructor
  · rintro ⟨e, ⟨he, rfl⟩, rfl⟩
    exact he
  · intro h
    exact ⟨_, ⟨h, rfl⟩, rfl⟩

/-- Forwards, the search finds the nodes at the end of a path. -/
theorem Closed.mem_nodesAfter_iff (h : g.Closed) {m n : Node} (hm : m ∈ g.nodes) :
    n ∈ g.nodesAfter m ↔ ReflTransGen g.Leads m n := by
  have hnext : (fun m n => n ∈ g.nextTo m) = g.Leads := by
    funext m n
    exact propext mem_nextTo
  rw [nodesAfter, mem_closure_iff (u := g.nodes) _ _ (Nat.le_refl _), hnext]
  · simp
  · intro m _ n hn
    exact (h _ (mem_nextTo.mp hn)).2
  · intro x hx
    rw [SortedSet.mem_single] at hx
    exact hx ▸ hm

/-- Backwards, the search finds the nodes at the start of a path. -/
theorem Closed.mem_nodesBefore_iff (h : g.Closed) {m n : Node} (hn : n ∈ g.nodes) :
    m ∈ g.nodesBefore n ↔ ReflTransGen g.Leads m n := by
  have hprevious : (fun n m => m ∈ g.previousTo n) = Function.swap g.Leads := by
    funext n m
    exact propext mem_previousTo
  rw [nodesBefore, mem_closure_iff (u := g.nodes) _ _ (Nat.le_refl _), hprevious]
  · simp [Relation.reflTransGen_swap]
  · intro n _ m hm
    exact (h _ (mem_previousTo.mp hm)).1
  · intro x hx
    rw [SortedSet.mem_single] at hx
    exact hx ▸ hn

end SubsetGraph

/-! ## What a graph shows -/

/-- The edge of an obligation. -/
def Obligation.edge (o : Obligation) : Edge := ⟨.ofRegion o.sub, .ofRegion o.sup⟩

/-- The edges of a loan into the regions it is assigned into. -/
def LoanIssue.edges (i : LoanIssue) : List Edge :=
  i.regions.map fun r => ⟨.ofLoan i.loan, .ofRegion r⟩

/-- The edges that a statement contributes. -/
def Statement.edges (s : Statement) : List Edge :=
  s.loan.toList.flatMap LoanIssue.edges ++
    (s.obligations.filter fun o => o.sub ≠ o.sup).map Obligation.edge

/-- The edges of a body: its bounds, then those of each point. -/
def Body.edges (b : Body) : List Edge :=
  b.bounds.map Obligation.edge ++ b.points.flatMap fun p => (b.facts p).edges

namespace SubsetGraph

section Register

variable {α : Type} [DecidableEq α] {g g' : SubsetGraph} {table : SubsetGraph → OrderedMap α}
  {update : SubsetGraph → OrderedMap α → SubsetGraph} {name : String} {value : α}
  {fault : GraphFault}

theorem register_of_new (hnew : (table g).get? name = none) :
    g.register table update name value fault = .ok (update g ((table g).insert name value)) := by
  rw [register, hnew]

theorem register_of_known {known : α} (hknown : (table g).get? name = some known) :
    g.register table update name value fault = if known = value then .ok g else .error fault := by
  rw [register, hknown]

/-- A value that is met with no fault is new and goes in, or it is there already. -/
theorem eq_of_register (h : g.register table update name value fault = .ok g') :
    g' = update g ((table g).insert name value) ∨ g' = g := by
  cases hget : (table g).get? name with
  | none =>
    rw [register_of_new hget] at h
    exact Or.inl (Except.ok.inj h).symm
  | some known =>
    rw [register_of_known hget] at h
    split at h
    · exact Or.inr (Except.ok.inj h).symm
    · cases h

end Register

/-- **The contents of a graph**: its regions and loans under their own names, and
    its edges. -/
structure Shows (g : SubsetGraph) (rs : List Region) (ls : List Loan) (es : List Edge) : Prop where
  regions : g.regions.Lists Region.name rs
  loans : g.loans.Lists Loan.name ls
  edges : ∀ e, e ∈ g.edges ↔ e ∈ es

variable {g : SubsetGraph} {rs : List Region} {ls : List Loan} {es : List Edge}

namespace Shows

theorem hasNode_region (h : g.Shows rs ls es) {r : Region} (hr : r ∈ rs) :
    g.hasNode (.ofRegion r) = true := h.regions.contains_of_mem hr

theorem hasNode_loan (h : g.Shows rs ls es) {l : Loan} (hl : l ∈ ls) :
    g.hasNode (.ofLoan l) = true := h.loans.contains_of_mem hl

/-- A new region goes in after the others. -/
theorem addRegion (h : g.Shows rs ls es) {r : Region} (hnew : r.name ∉ rs.map Region.name) :
    ∃ g', g.addRegion r = .ok g' ∧ g'.Shows (rs ++ [r]) ls es :=
  ⟨_, register_of_new (h.regions.get?_of_new hnew), h.regions.insert_new hnew, h.loans, h.edges⟩

/-- A new loan goes in after the others. -/
theorem addLoan (h : g.Shows rs ls es) {l : Loan} (hnew : l.name ∉ ls.map Loan.name) :
    ∃ g', g.addLoan l = .ok g' ∧ g'.Shows rs (ls ++ [l]) es :=
  ⟨_, register_of_new (h.loans.get?_of_new hnew), h.regions, h.loans.insert_new hnew, h.edges⟩

/-- An edge between nodes that are there goes in. -/
theorem link (h : g.Shows rs ls es) {src : Node} (hsrc : g.hasNode src = true) {r : Region}
    (hr : r ∈ rs) (origin : Option Point) :
    ∃ g', g.link src (.ofRegion r) origin = .ok g' ∧
      g'.Shows rs ls (es ++ [⟨src, .ofRegion r⟩]) := by
  have hdst := h.hasNode_region hr
  have hkind : (Node.ofRegion r).isLoan = false := rfl
  refine ⟨{ g with
      edges := g.edges.insert ⟨src, .ofRegion r⟩
      sources := g.sources ++ [(⟨src, .ofRegion r⟩, origin)] }, ?_, h.regions, h.loans, ?_⟩
  · simp [SubsetGraph.link, addEdge, hsrc, hdst, hkind, Except.map]
  · intro e
    rw [SortedSet.mem_insert, h.edges, List.mem_append, List.mem_singleton, or_comm]

/-- Obligations between regions that are there go in, one after the other. -/
theorem linkAll (h : g.Shows rs ls es) {os : List Obligation}
    (hos : ∀ o ∈ os, o.sub ∈ rs ∧ o.sup ∈ rs) (origin : Option Point) :
    ∃ g', os.foldlM (fun g o => g.link (.ofRegion o.sub) (.ofRegion o.sup) origin) g = .ok g' ∧
      g'.Shows rs ls (es ++ os.map Obligation.edge) := by
  refine exists_foldlM_ok (fun done (g : SubsetGraph) => g.Shows rs ls (es ++ done.map Obligation.edge))
    (by simpa using h) ?_
  intro done o rest hsplit g hg
  obtain ⟨hsub, hsup⟩ := hos o (by simp [hsplit])
  obtain ⟨g', hlink, hg'⟩ := hg.link (hg.hasNode_region hsub) hsup origin
  refine ⟨g', hlink, ?_⟩
  rw [List.map_append, ← List.append_assoc]
  exact hg'

/-- A new loan goes in with its edges. -/
theorem addIssue (h : g.Shows rs ls es) {issue : LoanIssue}
    (hnew : issue.loan.name ∉ ls.map Loan.name) (hregions : ∀ r ∈ issue.regions, r ∈ rs)
    (p : Point) :
    ∃ g', g.addIssue p issue = .ok g' ∧ g'.Shows rs (ls ++ [issue.loan]) (es ++ issue.edges) := by
  obtain ⟨g₁, hloan, hg₁⟩ := h.addLoan hnew
  obtain ⟨g', hfold, hg'⟩ := exists_foldlM_ok (l := issue.regions) (b := g₁)
    (f := fun g r => g.link (.ofLoan issue.loan) (.ofRegion r) (some p))
    (fun done (g : SubsetGraph) => g.Shows rs (ls ++ [issue.loan])
      (es ++ done.map fun r => ⟨.ofLoan issue.loan, .ofRegion r⟩))
    (by simpa using hg₁) (by
      intro done r rest hsplit g hg
      have hnode : g.hasNode (.ofLoan issue.loan) = true :=
        hg.hasNode_loan (List.mem_append_right ls List.mem_cons_self)
      obtain ⟨g', hlink, hg'⟩ := hg.link hnode (hregions r (by simp [hsplit])) (some p)
      refine ⟨g', hlink, ?_⟩
      rw [List.map_append, ← List.append_assoc]
      exact hg')
  exact ⟨g', bind_eq_ok.mpr ⟨g₁, hloan, hfold⟩, hg'⟩

/-- A point adds its loan and its edges. -/
theorem addPoint {b : Body} (h : g.Shows rs ls es) {p : Point} {vars : List String}
    (hs : (b.facts p).InOrder vars rs p)
    (hnew : ∀ issue, (b.facts p).loan = some issue → issue.loan.name ∉ ls.map Loan.name) :
    ∃ g', SubsetGraph.addPoint b g p = .ok g' ∧
      g'.Shows rs (ls ++ ((b.facts p).loan.map LoanIssue.loan).toList)
        (es ++ (b.facts p).edges) := by
  have hobligations : ∀ o ∈ (b.facts p).obligations.filter (fun o => o.sub ≠ o.sup),
      o.sub ∈ rs ∧ o.sup ∈ rs :=
    fun o ho => (hs.obligations o (List.mem_of_mem_filter ho)).2
  cases hloan : (b.facts p).loan with
  | none =>
    obtain ⟨g', hlink, hg'⟩ := h.linkAll hobligations (some p)
    refine ⟨g', ?_, by simpa [Statement.edges, hloan] using hg'⟩
    simp only [SubsetGraph.addPoint, hloan]
    exact bind_eq_ok.mpr ⟨g, rfl, hlink⟩
  | some issue =>
    obtain ⟨g₁, hissue, hg₁⟩ := h.addIssue (hnew issue hloan) (hs.loan issue hloan).2.2 p
    obtain ⟨g', hlink, hg'⟩ := hg₁.linkAll hobligations (some p)
    refine ⟨g', ?_, by simpa [Statement.edges, hloan] using hg'⟩
    simp only [SubsetGraph.addPoint, hloan]
    exact bind_eq_ok.mpr ⟨g₁, hissue, hlink⟩

end Shows

end SubsetGraph

/-! ## The graph of a body -/

namespace Body.WellFormed

variable {b : Body} {g : SubsetGraph}

theorem map_name_loans (h : b.WellFormed) :
    b.loans.map Loan.name = b.blocks.flatMap Block.loanNames := by
  have hpoints : b.loans.map Loan.name = (b.points.map b.facts).flatMap Statement.loanNames := by
    rw [loans, List.map_filterMap, List.flatMap_map, List.filterMap_eq_flatMap_toList]
    refine List.flatMap_congr fun p _ => ?_
    rw [Statement.loanNames]
    cases (b.facts p).loan <;> rfl
  rw [hpoints, h.map_facts_points, List.flatMap_assoc]
  rfl

theorem nodup_loans (h : b.WellFormed) : (b.loans.map Loan.name).Nodup :=
  h.map_name_loans ▸ h.loanNames

/-- **The graph of a body is always built**, and shows what the body says. -/
theorem exists_subsetGraph (h : b.WellFormed) :
    ∃ g, b.subsetGraph = .ok g ∧ g.Shows b.regions b.loans b.edges := by
  have hempty : SubsetGraph.Shows {} [] [] [] := ⟨rfl, rfl, fun e => by simp⟩
  obtain ⟨g₁, hregions, hg₁⟩ := exists_foldlM_ok (l := b.regions) (f := SubsetGraph.addRegion)
    (fun done (g : SubsetGraph) => g.Shows done [] []) hempty (by
      intro done r rest hsplit g hg
      have hnodup := h.regionNames
      rw [hsplit, List.map_append, List.map_cons, List.nodup_append] at hnodup
      exact hg.addRegion fun hmem => hnodup.2.2 _ hmem _ List.mem_cons_self rfl)
  obtain ⟨g₂, hbounds, hg₂⟩ := hg₁.linkAll h.bounds none
  obtain ⟨g₃, hpoints, hg₃⟩ := exists_foldlM_ok (l := b.points) (f := SubsetGraph.addPoint b)
    (fun done (g : SubsetGraph) => g.Shows b.regions
      (done.filterMap fun p => (b.facts p).loan.map LoanIssue.loan)
      (b.bounds.map Obligation.edge ++ done.flatMap fun p => (b.facts p).edges))
    (by simpa using hg₂) (by
      intro done p rest hsplit g hg
      have hnodup := h.nodup_loans
      rw [loans, hsplit, List.filterMap_append, List.map_append, List.nodup_append] at hnodup
      have hmem : p ∈ b.points := by simp [hsplit]
      obtain ⟨g', hadd, hg'⟩ := hg.addPoint (h.inOrder_facts hmem) (by
        intro issue hissue hmem
        refine hnodup.2.2 _ hmem issue.loan.name ?_ rfl
        rw [List.filterMap_cons_some (b := issue.loan) (by rw [hissue]; rfl)]
        exact List.mem_cons_self)
      refine ⟨g', hadd, ?_⟩
      have hone : [p].filterMap (fun p => (b.facts p).loan.map LoanIssue.loan) =
          ((b.facts p).loan.map LoanIssue.loan).toList := by
        rw [List.filterMap_eq_flatMap_toList, List.flatMap_singleton]
      rw [List.filterMap_append, hone, List.flatMap_append, ← List.append_assoc,
        List.flatMap_singleton]
      exact hg')
  refine ⟨g₃, ?_, hg₃⟩
  exact bind_eq_ok.mpr ⟨g₁, hregions, bind_eq_ok.mpr ⟨g₂, hbounds, hpoints⟩⟩

theorem shows_subsetGraph (h : b.WellFormed) (hg : b.subsetGraph = .ok g) :
    g.Shows b.regions b.loans b.edges := by
  obtain ⟨g', hg', hshows⟩ := h.exists_subsetGraph
  obtain rfl : g' = g := Except.ok.inj (hg'.symm.trans hg)
  exact hshows

/-! ## Issues -/

theorem mem_points_of_issues (h : b.WellFormed) {issue : LoanIssue} (hissue : b.Issues issue) :
    issue.loan.point ∈ b.points := by
  by_contra hmem
  rw [Issues, h.facts_of_not_mem hmem] at hissue
  cases hissue

theorem region_mem_of_issues (h : b.WellFormed) {issue : LoanIssue} (hissue : b.Issues issue)
    {r : Region} (hr : r ∈ issue.regions) : r ∈ b.regions :=
  ((h.inOrder_facts (h.mem_points_of_issues hissue)).loan issue hissue).2.2 r hr

/-- What stands at a point issues its loan there. -/
theorem issues_of_loan (h : b.WellFormed) {p : Point} {issue : LoanIssue}
    (hissue : (b.facts p).loan = some issue) : p ∈ b.points ∧ b.Issues issue := by
  have hp : p ∈ b.points := by
    by_contra hnot
    rw [h.facts_of_not_mem hnot] at hissue
    cases hissue
  have hpoint := ((h.inOrder_facts hp).loan issue hissue).1
  refine ⟨hp, ?_⟩
  rw [Issues, hpoint]
  exact hissue

/-- The loans of a body are those that it issues. -/
theorem mem_loans_iff (h : b.WellFormed) {l : Loan} :
    l ∈ b.loans ↔ ∃ issue, b.Issues issue ∧ issue.loan = l := by
  simp only [loans, List.mem_filterMap, Option.map_eq_some_iff]
  constructor
  · rintro ⟨p, hp, issue, hissue, rfl⟩
    exact ⟨issue, (h.issues_of_loan hissue).2, rfl⟩
  · rintro ⟨issue, hissue, rfl⟩
    exact ⟨issue.loan.point, h.mem_points_of_issues hissue, issue, hissue, rfl⟩

/-- A loan's name tells its issue. -/
theorem issue_unique (h : b.WellFormed) {i j : LoanIssue} (hi : b.Issues i) (hj : b.Issues j)
    (hname : i.loan.name = j.loan.name) : i = j := by
  have hloan : i.loan = j.loan := List.inj_on_of_nodup_map h.nodup_loans
    (h.mem_loans_iff.mpr ⟨i, hi, rfl⟩) (h.mem_loans_iff.mpr ⟨j, hj, rfl⟩) hname
  rw [Issues, hloan] at hi
  exact Option.some.inj (hi.symm.trans hj)

/-! ## Where edges come from -/

theorem region_unique (h : b.WellFormed) {r s : Region} (hr : r ∈ b.regions) (hs : s ∈ b.regions)
    (heq : Node.ofRegion r = Node.ofRegion s) : r = s :=
  List.inj_on_of_nodup_map h.regionNames hr hs (Node.region.inj heq)

/-- The obligations of a body are between its regions. -/
theorem regions_of_mem_obligations (h : b.WellFormed) {o : Obligation} (ho : o ∈ b.obligations) :
    o.sub ∈ b.regions ∧ o.sup ∈ b.regions := by
  rcases List.mem_append.mp ho with ho | ho
  · exact h.bounds o ho
  · obtain ⟨p, hp, ho⟩ := List.mem_flatMap.mp ho
    exact ((h.inOrder_facts hp).obligations o ho).2

/-- An edge comes from a loan or from an obligation. -/
theorem mem_edges (h : b.WellFormed) {e : Edge} (he : e ∈ b.edges) :
    (∃ issue, b.Issues issue ∧ ∃ r ∈ issue.regions, e = ⟨.ofLoan issue.loan, .ofRegion r⟩) ∨
      ∃ o ∈ b.obligations, e = o.edge := by
  rcases List.mem_append.mp he with he | he
  · obtain ⟨o, ho, rfl⟩ := List.mem_map.mp he
    exact Or.inr ⟨o, List.mem_append_left _ ho, rfl⟩
  · obtain ⟨p, hp, he⟩ := List.mem_flatMap.mp he
    rcases List.mem_append.mp he with he | he
    · obtain ⟨issue, hissue, he⟩ := List.mem_flatMap.mp he
      obtain ⟨r, hr, rfl⟩ := List.mem_map.mp he
      rw [Option.mem_toList] at hissue
      have hpoint := ((h.inOrder_facts hp).loan issue hissue).1
      exact Or.inl ⟨issue, by rw [Issues, hpoint]; exact hissue, r, hr, rfl⟩
    · obtain ⟨o, ho, rfl⟩ := List.mem_map.mp he
      exact Or.inr ⟨o, List.mem_append_right _
        (List.mem_flatMap.mpr ⟨p, hp, List.mem_of_mem_filter ho⟩), rfl⟩

theorem edge_mem_of_issues (h : b.WellFormed) {issue : LoanIssue} (hissue : b.Issues issue)
    {r : Region} (hr : r ∈ issue.regions) :
    (⟨.ofLoan issue.loan, .ofRegion r⟩ : Edge) ∈ b.edges := by
  refine List.mem_append_right _ (List.mem_flatMap.mpr
    ⟨issue.loan.point, h.mem_points_of_issues hissue, List.mem_append_left _ ?_⟩)
  exact List.mem_flatMap.mpr
    ⟨issue, Option.mem_toList.mpr hissue, List.mem_map_of_mem hr⟩

theorem edge_mem_of_obligation {o : Obligation} (ho : o ∈ b.obligations) (hne : o.sub ≠ o.sup) :
    o.edge ∈ b.edges := by
  rcases List.mem_append.mp ho with ho | ho
  · exact List.mem_append_left _ (List.mem_map_of_mem ho)
  · obtain ⟨p, hp, ho⟩ := List.mem_flatMap.mp ho
    refine List.mem_append_right _ (List.mem_flatMap.mpr ⟨p, hp, List.mem_append_right _ ?_⟩)
    exact List.mem_map_of_mem (List.mem_filter.mpr ⟨ho, decide_eq_true hne⟩)

/-! ## Paths are flows -/

theorem region_mem_nodes (h : b.WellFormed) (hg : b.subsetGraph = .ok g) {r : Region}
    (hr : r ∈ b.regions) : .ofRegion r ∈ g.nodes := by
  have hnames := (h.shows_subsetGraph hg).regions.names_eq
  rw [SubsetGraph.nodes, SortedSet.mem_ofList, hnames, List.map_map]
  exact List.mem_append_left _ (List.mem_map_of_mem hr)

theorem loan_mem_nodes (h : b.WellFormed) (hg : b.subsetGraph = .ok g) {l : Loan}
    (hl : l ∈ b.loans) : .ofLoan l ∈ g.nodes := by
  have hnames := (h.shows_subsetGraph hg).loans.names_eq
  rw [SubsetGraph.nodes, SortedSet.mem_ofList, hnames, List.map_map]
  exact List.mem_append_right _ (List.mem_map_of_mem (f := Node.ofLoan) hl)

theorem leads_iff (h : b.WellFormed) (hg : b.subsetGraph = .ok g) {m n : Node} :
    g.Leads m n ↔ (⟨m, n⟩ : Edge) ∈ b.edges := (h.shows_subsetGraph hg).edges ⟨m, n⟩

theorem closed_subsetGraph (h : b.WellFormed) (hg : b.subsetGraph = .ok g) : g.Closed := by
  intro e he
  rcases h.mem_edges (((h.shows_subsetGraph hg).edges e).mp he) with
    ⟨issue, hissue, r, hr, rfl⟩ | ⟨o, ho, rfl⟩
  · exact ⟨h.loan_mem_nodes hg (h.mem_loans_iff.mpr ⟨issue, hissue, rfl⟩),
      h.region_mem_nodes hg (h.region_mem_of_issues hissue hr)⟩
  · obtain ⟨hsub, hsup⟩ := h.regions_of_mem_obligations ho
    exact ⟨h.region_mem_nodes hg hsub, h.region_mem_nodes hg hsup⟩

/-- A flow is a path; an obligation of a region to itself is no step of it. -/
theorem path_of_flowsInto (h : b.WellFormed) (hg : b.subsetGraph = .ok g) {r s : Region}
    (hflow : b.FlowsInto r s) : ReflTransGen g.Leads (.ofRegion r) (.ofRegion s) := by
  induction hflow with
  | refl => exact .refl
  | tail _ hstep ih =>
    obtain ⟨o, ho, rfl, rfl⟩ := hstep
    by_cases hself : o.sub = o.sup
    · rw [← hself]
      exact ih
    · exact ih.tail ((h.leads_iff hg).mpr (edge_mem_of_obligation ho hself))

/-- A path from a region is a flow. -/
theorem flowsInto_of_path (h : b.WellFormed) (hg : b.subsetGraph = .ok g) {r : Region}
    (hr : r ∈ b.regions) {n : Node} (hpath : ReflTransGen g.Leads (.ofRegion r) n) :
    ∃ s ∈ b.regions, n = .ofRegion s ∧ b.FlowsInto r s := by
  induction hpath with
  | refl => exact ⟨r, hr, rfl, .refl⟩
  | tail _ hstep ih =>
    obtain ⟨s, hs, rfl, hflow⟩ := ih
    rcases h.mem_edges ((h.leads_iff hg).mp hstep) with ⟨_, _, _, _, heq⟩ | ⟨o, ho, heq⟩
    · -- no region is a loan
      injection heq with hsrc _
      cases hsrc
    · injection heq with hsrc hdst
      obtain ⟨hsub, hsup⟩ := h.regions_of_mem_obligations ho
      obtain rfl : s = o.sub := h.region_unique hs hsub hsrc
      exact ⟨o.sup, hsup, hdst, hflow.tail ⟨o, ho, rfl, rfl⟩⟩

/-- **After a region** come the regions that it flows into. -/
theorem mem_nodesAfter_iff (h : b.WellFormed) (hg : b.subsetGraph = .ok g) {r s : Region}
    (hr : r ∈ b.regions) (hs : s ∈ b.regions) :
    .ofRegion s ∈ g.nodesAfter (.ofRegion r) ↔ b.FlowsInto r s := by
  rw [(h.closed_subsetGraph hg).mem_nodesAfter_iff (h.region_mem_nodes hg hr)]
  constructor
  · intro hpath
    obtain ⟨s', hs', heq, hflow⟩ := h.flowsInto_of_path hg hr hpath
    exact h.region_unique hs hs' heq ▸ hflow
  · exact h.path_of_flowsInto hg

/-- The loans of a region are those of the body with a path to it. -/
theorem mem_loansInto_iff_path (h : b.WellFormed) (hg : b.subsetGraph = .ok g) {r : Region}
    (hr : r ∈ b.regions) {l : Loan} :
    l ∈ g.loansInto r ↔ l ∈ b.loans ∧ ReflTransGen g.Leads (.ofLoan l) (.ofRegion r) := by
  simp only [SubsetGraph.loansInto, SortedSet.mem_ofList, List.mem_filter, decide_eq_true_eq,
    (h.shows_subsetGraph hg).loans.values_eq,
    (h.closed_subsetGraph hg).mem_nodesBefore_iff (h.region_mem_nodes hg hr)]

/-- **The loans of a region** are issued into regions that flow into it. -/
theorem mem_loansInto_iff (h : b.WellFormed) (hg : b.subsetGraph = .ok g) {r : Region}
    (hr : r ∈ b.regions) {l : Loan} :
    l ∈ g.loansInto r ↔
      ∃ issue, b.Issues issue ∧ issue.loan = l ∧ ∃ s ∈ issue.regions, b.FlowsInto s r := by
  rw [h.mem_loansInto_iff_path hg hr]
  constructor
  · rintro ⟨hl, hpath⟩
    obtain ⟨issue, hissue, rfl⟩ := h.mem_loans_iff.mp hl
    refine ⟨issue, hissue, rfl, ?_⟩
    -- the path leaves the loan by one of its own edges
    rcases hpath.cases_head with heq | ⟨n, hstep, hpath⟩
    · cases heq
    · rcases h.mem_edges ((h.leads_iff hg).mp hstep) with
        ⟨issue', hissue', s, hs, heq⟩ | ⟨o, _, heq⟩
      · injection heq with hsrc hdst
        obtain rfl : issue = issue' := h.issue_unique hissue hissue' (Node.loan.inj hsrc)
        rw [hdst] at hpath
        obtain ⟨r', hr', heq, hflow⟩ :=
          h.flowsInto_of_path hg (h.region_mem_of_issues hissue hs) hpath
        exact ⟨s, hs, h.region_unique hr hr' heq ▸ hflow⟩
      · injection heq with hsrc _
        cases hsrc
  · rintro ⟨issue, hissue, rfl, s, hs, hflow⟩
    refine ⟨h.mem_loans_iff.mpr ⟨issue, hissue, rfl⟩, ?_⟩
    exact .head ((h.leads_iff hg).mpr (h.edge_mem_of_issues hissue hs)) (h.path_of_flowsInto hg hflow)

end Body.WellFormed

end BorrowFlow
