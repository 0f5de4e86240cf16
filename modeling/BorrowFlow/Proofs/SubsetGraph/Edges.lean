import BorrowFlow.Proofs.Builder.Run
import BorrowFlow.Proofs.Layout
import BorrowFlow.Proofs.SubsetGraph.Plain

/-! # Where the edges of a graph come from

    Edges come into the graph of a body along three ways: bounds of the signature, loans
    that are issued, and obligations of statements.  Every link is recorded with its origin,
    so all the records of a finished graph can be written down (`sources_subsetGraph`), and
    the edges and their origins are read off them (`subsetGraph_exact`).

    A statement leaves out an obligation of a region to itself; the signature does not.  Such
    a bound is the only way to an edge from a region to itself (`self_edge_iff`).
-/

namespace BorrowFlow

/-! ## Records of links -/

namespace SubsetGraph

variable {g g' : SubsetGraph} {p : Point}

/-- A value that goes into a table records nothing. -/
theorem sources_of_register {α : Type} [DecidableEq α] {table : SubsetGraph → OrderedMap α}
    {update : SubsetGraph → OrderedMap α → SubsetGraph} {name : String} {value : α}
    {fault : GraphFault} (hkept : ∀ t, (update g t).sources = g.sources)
    (h : g.register table update name value fault = .ok g') : g'.sources = g.sources := by
  rcases eq_of_register h with rfl | rfl
  · exact hkept _
  · rfl

/-- A link is recorded with its origin, whether its edge is new or not. -/
theorem sources_of_link {src dst : Node} {origin : Option Point}
    (h : g.link src dst origin = .ok g') : g'.sources = g.sources ++ [(⟨src, dst⟩, origin)] := by
  obtain ⟨added, hadd, rfl⟩ := map_eq_ok.mp h
  rw [addEdge] at hadd
  repeat' split at hadd
  all_goals cases hadd
  rfl

/-- **A run of additions** records what each of them records, one after the other. -/
theorem sources_of_foldlM {α : Type} {add : SubsetGraph → α → Except GraphFault SubsetGraph}
    {l : List α} (h : l.foldlM add g = .ok g') {new : α → List (Edge × Option Point)}
    (hstep : ∀ g x g', add g x = .ok g' → g'.sources = g.sources ++ new x) :
    g'.sources = g.sources ++ l.flatMap new := by
  induction l generalizing g with
  | nil =>
    cases h
    rw [List.flatMap_nil, List.append_nil]
  | cons x rest ih =>
    rw [List.foldlM_cons] at h
    obtain ⟨g₁, hx, hrest⟩ := bind_eq_ok.mp h
    rw [ih hrest, hstep g x g₁ hx, List.flatMap_cons, List.append_assoc]

theorem sources_of_linkAll {os : List Obligation} {origin : Option Point}
    (h : os.foldlM (fun g o => g.link (.ofRegion o.sub) (.ofRegion o.sup) origin) g = .ok g') :
    g'.sources = g.sources ++ os.map fun o => (o.edge, origin) := by
  rw [sources_of_foldlM h fun _ _ _ => sources_of_link, ← List.map_eq_flatMap]
  rfl

theorem sources_of_addIssue {issue : LoanIssue} (h : g.addIssue p issue = .ok g') :
    g'.sources = g.sources ++ issue.edges.map fun e => (e, some p) := by
  obtain ⟨g₁, hloan, hlinks⟩ := bind_eq_ok.mp h
  rw [sources_of_foldlM hlinks fun _ _ _ => sources_of_link, sources_of_register (fun _ => rfl) hloan,
    ← List.map_eq_flatMap, LoanIssue.edges, List.map_map]
  rfl

/-- A point records the edges of what stands there. -/
theorem sources_of_addPoint {b : Body} (h : addPoint b g p = .ok g') :
    g'.sources = g.sources ++ (b.facts p).edges.map fun e => (e, some p) := by
  cases hloan : (b.facts p).loan with
  | none =>
    simp only [addPoint, hloan] at h
    obtain ⟨_, hsame, hlinks⟩ := bind_eq_ok.mp h
    cases hsame
    rw [sources_of_linkAll hlinks, Statement.edges, hloan, List.map_append, List.map_map]
    rfl
  | some issue =>
    simp only [addPoint, hloan] at h
    obtain ⟨g₁, hissue, hlinks⟩ := bind_eq_ok.mp h
    rw [sources_of_linkAll hlinks, sources_of_addIssue hissue, Statement.edges, hloan,
      List.map_append, List.map_map, List.append_assoc, Option.toList_some, List.flatMap_singleton]
    rfl

/-- **All records of a body's graph**: its bounds, then the edges of each point. -/
theorem sources_subsetGraph {b : Body} (h : b.subsetGraph = .ok g) :
    g.sources = b.bounds.map (fun o => (o.edge, none)) ++
      b.points.flatMap fun p => (b.facts p).edges.map fun e => (e, some p) := by
  obtain ⟨g₁, hregions, h⟩ := bind_eq_ok.mp h
  obtain ⟨g₂, hbounds, hpoints⟩ := bind_eq_ok.mp h
  have hnone : g₁.sources = [] := by
    have hstep : ∀ (g : SubsetGraph) (r : Region) (g' : SubsetGraph), g.addRegion r = .ok g' →
        g'.sources = g.sources ++ [] := by
      intro g r g' hr
      rw [sources_of_register (fun _ => rfl) hr, List.append_nil]
    rw [sources_of_foldlM hregions hstep]
    simp
  rw [sources_of_foldlM hpoints fun _ _ _ => sources_of_addPoint, sources_of_linkAll hbounds,
    hnone, List.nil_append]

end SubsetGraph

/-! ## Edges of a body -/

theorem Statement.mem_edges_iff {s : Statement} {e : Edge} :
    e ∈ s.edges ↔
      (∃ issue, s.loan = some issue ∧ ∃ r ∈ issue.regions, e = ⟨.ofLoan issue.loan, .ofRegion r⟩) ∨
        ∃ o ∈ s.obligations, o.sub ≠ o.sup ∧ e = o.edge := by
  simp only [edges, LoanIssue.edges, List.mem_append, List.mem_flatMap, Option.mem_toList,
    List.mem_map, List.mem_filter, decide_eq_true_eq, and_assoc, eq_comm (a := e)]

namespace Body

variable {b : Body} {g : SubsetGraph} {e : Edge} {p : Point}

/-- **A point issues an edge** if it issues a loan into a region, or an obligation between two
    different regions. -/
def IssuesEdge (b : Body) (p : Point) (e : Edge) : Prop :=
  (∃ issue, (b.facts p).loan = some issue ∧
    ∃ r ∈ issue.regions, e = ⟨.ofLoan issue.loan, .ofRegion r⟩) ∨
  ∃ o ∈ (b.facts p).obligations, o.sub ≠ o.sup ∧ e = ⟨.ofRegion o.sub, .ofRegion o.sup⟩

/-- An edge that the signature is the origin of is that of a bound. -/
theorem none_mem_origins_iff (hg : b.subsetGraph = .ok g) :
    none ∈ g.origins e ↔ ∃ o ∈ b.bounds, e = ⟨.ofRegion o.sub, .ofRegion o.sup⟩ := by
  rw [SubsetGraph.mem_origins_iff, SubsetGraph.sources_subsetGraph hg]
  simp [Obligation.edge, eq_comm (a := e)]

namespace WellFormed

theorem mem_points_of_issuesEdge (h : b.WellFormed) (he : b.IssuesEdge p e) : p ∈ b.points := by
  by_contra hmem
  rw [IssuesEdge, h.facts_of_not_mem hmem] at he
  obtain ⟨_, hloan, _⟩ | ⟨_, ho, _⟩ := he
  · cases hloan
  · cases ho

/-- The points among the origins of an edge are those that issue it. -/
theorem some_mem_origins_iff (h : b.WellFormed) (hg : b.subsetGraph = .ok g) :
    some p ∈ g.origins e ↔ b.IssuesEdge p e := by
  have hissues : e ∈ (b.facts p).edges ↔ b.IssuesEdge p e := Statement.mem_edges_iff
  rw [SubsetGraph.mem_origins_iff, SubsetGraph.sources_subsetGraph hg, ← hissues]
  simp only [List.mem_append, List.mem_map, List.mem_flatMap, Prod.mk.injEq, reduceCtorEq,
    and_false, exists_false, false_or, Option.some.injEq]
  constructor
  · rintro ⟨_, _, _, he, rfl, rfl⟩
    exact he
  · intro he
    exact ⟨p, h.mem_points_of_issuesEdge (hissues.mp he), e, he, rfl, rfl⟩

/-- **The edges of a body's graph** are those of its loans, those of obligations between
    different regions, and those of all bounds. -/
theorem mem_subsetGraph_edges_iff (h : b.WellFormed) (hg : b.subsetGraph = .ok g) :
    e ∈ g.edges ↔
      (∃ issue, b.Issues issue ∧ ∃ r ∈ issue.regions, e = ⟨.ofLoan issue.loan, .ofRegion r⟩) ∨
        ∃ o ∈ b.obligations, (o.sub ≠ o.sup ∨ o ∈ b.bounds) ∧
          e = ⟨.ofRegion o.sub, .ofRegion o.sup⟩ := by
  rw [(h.shows_subsetGraph hg).edges]
  constructor
  · intro he
    obtain hbound | hpoint := List.mem_append.mp he
    · obtain ⟨o, ho, rfl⟩ := List.mem_map.mp hbound
      exact Or.inr ⟨o, List.mem_append_left _ ho, Or.inr ho, rfl⟩
    · obtain ⟨p, hp, he⟩ := List.mem_flatMap.mp hpoint
      obtain ⟨issue, hissue, hregion⟩ | ⟨o, ho, hne, rfl⟩ := Statement.mem_edges_iff.mp he
      · exact Or.inl ⟨issue, (h.issues_of_loan hissue).2, hregion⟩
      · exact Or.inr ⟨o, List.mem_append_right _ (List.mem_flatMap.mpr ⟨p, hp, ho⟩), Or.inl hne, rfl⟩
  · rintro (⟨issue, hissue, r, hr, rfl⟩ | ⟨o, ho, hne | hbound, rfl⟩)
    · exact h.edge_mem_of_issues hissue hr
    · exact edge_mem_of_obligation ho hne
    · exact List.mem_append_left _ (List.mem_map_of_mem hbound)

/-- **An edge from a region to itself** is that of a bound. -/
theorem self_edge_iff (h : b.WellFormed) (hg : b.subsetGraph = .ok g) {r : Region}
    (hr : r ∈ b.regions) :
    (⟨.ofRegion r, .ofRegion r⟩ : Edge) ∈ g.edges ↔ ∃ o ∈ b.bounds, o.sub = r ∧ o.sup = r := by
  rw [h.mem_subsetGraph_edges_iff hg]
  constructor
  · rintro (⟨issue, _, s, _, heq⟩ | ⟨o, ho, hkind, heq⟩)
    · injection heq with hsrc _
      cases hsrc
    · injection heq with hsrc hdst
      obtain ⟨hsub, hsup⟩ := h.regions_of_mem_obligations ho
      obtain rfl : r = o.sub := h.region_unique hr hsub hsrc
      have hself : o.sub = o.sup := h.region_unique hr hsup hdst
      obtain hne | hbound := hkind
      · exact absurd hself hne
      · exact ⟨o, hbound, rfl, hself.symm⟩
  · rintro ⟨o, ho, rfl, hsup⟩
    exact Or.inr ⟨o, List.mem_append_left _ ho, Or.inr ho, by rw [hsup]⟩

end WellFormed

/-- **The graph of a body, exactly.**  It is always built.  Its edges, each once, are those of
    issued loans, of obligations between different regions, and of bounds, whatever regions
    these are between.  The origins of an edge, each once, are the points that issue it, and
    the signature if it is the edge of a bound.  So a region has an edge to itself if and only
    if the signature bounds it by itself. -/
theorem subsetGraph_exact {d : Draft} (hb : d.check = .ok b) :
    ∃ g, b.subsetGraph = .ok g ∧ g.edges.toList.Nodup ∧
      (∀ e, e ∈ g.edges ↔
        (∃ issue, b.Issues issue ∧ ∃ r ∈ issue.regions, e = ⟨.ofLoan issue.loan, .ofRegion r⟩) ∨
          ∃ o ∈ b.obligations, (o.sub ≠ o.sup ∨ o ∈ b.bounds) ∧
            e = ⟨.ofRegion o.sub, .ofRegion o.sup⟩) ∧
      (∀ e, (g.origins e).Nodup ∧
        (none ∈ g.origins e ↔ ∃ o ∈ b.bounds, e = ⟨.ofRegion o.sub, .ofRegion o.sup⟩) ∧
        ∀ p, some p ∈ g.origins e ↔ b.IssuesEdge p e) ∧
      ∀ r ∈ b.regions, ⟨.ofRegion r, .ofRegion r⟩ ∈ g.edges ↔
        ∃ o ∈ b.bounds, o.sub = r ∧ o.sup = r := by
  have h := Draft.wellFormed_of_check hb
  obtain ⟨g, hg, _⟩ := h.exists_subsetGraph
  refine ⟨g, hg, g.edges.nodup_toList, fun e => h.mem_subsetGraph_edges_iff hg, fun e => ?_,
    fun r hr => h.self_edge_iff hg hr⟩
  exact ⟨nodup_eraseDups _, none_mem_origins_iff hg, fun p => h.some_mem_origins_iff hg⟩

/-! ## A region bounded by itself -/

/-- The region of the parameter. -/
def ownRegion : Region := ⟨"'a", true⟩

/-- The region of the local reference. -/
def localRegion : Region := ⟨"'p", false⟩

/-- The signature bounds `'a` by itself.  A statement does the same with `'p`, and two more
    let `'p` flow into `'a`. -/
def selfBound : List Request :=
  [{ operation := .declare "a" (.ref ownRegion false (.scalar "i32")) none true },
    { operation := .bound ownRegion ownRegion },
    { operation := .declare "p" (.ref localRegion false (.scalar "i32")) none false },
    { operation := .openBlock "bb0" },
    { operation := .outlives "bb0" localRegion localRegion },
    { operation := .outlives "bb0" localRegion ownRegion },
    { operation := .outlives "bb0" localRegion ownRegion },
    { operation := .ret "bb0" }]

/-- The draft of these requests passes its check, with a graph in which `'a` leads to itself:
    the signature makes an edge of an obligation that a statement would leave out. -/
theorem selfBound_self_edge : ∃ d b g, (Builder.after { name := "f" } selfBound).draft = .ok d ∧
    d.check = .ok b ∧ b.subsetGraph = .ok g ∧ ⟨ownRegion, ownRegion, none⟩ ∈ b.obligations ∧
    (⟨.ofRegion ownRegion, .ofRegion ownRegion⟩ : Edge) ∈ g.edges := by
  have hrun : ((Builder.after { name := "f" } selfBound).draft.toOption.any fun d =>
      d.check.toOption.any fun b => b.subsetGraph.toOption.any fun g =>
        decide (⟨ownRegion, ownRegion, none⟩ ∈ b.obligations ∧
          (⟨.ofRegion ownRegion, .ofRegion ownRegion⟩ : Edge) ∈ g.edges)) = true := by
    decide +kernel
  simp only [Option.any_eq_true, toOption_eq_some, decide_eq_true_eq] at hrun
  obtain ⟨d, hd, b, hb, g, hg, hself⟩ := hrun
  exact ⟨d, b, g, hd, hb, hg, hself⟩

/-- In the same graph `'p` does not lead to itself, though a statement says so, and the edge
    to `'a` has both its points for origins and not the signature. -/
theorem selfBound_edges_exact : ∃ d b g, (Builder.after { name := "f" } selfBound).draft = .ok d ∧
    d.check = .ok b ∧ b.subsetGraph = .ok g ∧
    (⟨.ofRegion ownRegion, .ofRegion ownRegion⟩ : Edge) ∈ g.edges ∧
    ¬ (⟨.ofRegion localRegion, .ofRegion localRegion⟩ : Edge) ∈ g.edges ∧
    some ⟨"bb0", 1⟩ ∈ g.origins ⟨.ofRegion localRegion, .ofRegion ownRegion⟩ ∧
    some ⟨"bb0", 2⟩ ∈ g.origins ⟨.ofRegion localRegion, .ofRegion ownRegion⟩ ∧
    none ∉ g.origins ⟨.ofRegion localRegion, .ofRegion ownRegion⟩ := by
  have hrun : ((Builder.after { name := "f" } selfBound).draft.toOption.any fun d =>
      d.check.toOption.any fun b =>
        decide (b.bounds = [⟨ownRegion, ownRegion, none⟩] ∧ b.regions = [ownRegion, localRegion] ∧
          (b.facts ⟨"bb0", 1⟩).obligations = [⟨localRegion, ownRegion, some ⟨"bb0", 1⟩⟩] ∧
          (b.facts ⟨"bb0", 2⟩).obligations = [⟨localRegion, ownRegion, some ⟨"bb0", 2⟩⟩])) =
      true := by
    decide +kernel
  simp only [Option.any_eq_true, toOption_eq_some, decide_eq_true_eq] at hrun
  obtain ⟨d, hd, b, hb, hbounds, hregions, hfirst, hsecond⟩ := hrun
  obtain ⟨g, hg, _, _, horigins, hself⟩ := subsetGraph_exact hb
  obtain ⟨_, hsignature, hpoints⟩ := horigins ⟨.ofRegion localRegion, .ofRegion ownRegion⟩
  have hne : localRegion ≠ ownRegion := by decide
  refine ⟨d, b, g, hd, hb, hg, ?_, ?_, ?_, ?_, ?_⟩
  · rw [hself ownRegion (by simp [hregions])]
    exact ⟨_, by rw [hbounds]; exact List.mem_cons_self, rfl, rfl⟩
  · rw [hself localRegion (by simp [hregions]), hbounds]
    decide
  · rw [hpoints]
    exact Or.inr ⟨_, by rw [hfirst]; exact List.mem_cons_self, hne, rfl⟩
  · rw [hpoints]
    exact Or.inr ⟨_, by rw [hsecond]; exact List.mem_cons_self, hne, rfl⟩
  · rw [hsignature, hbounds]
    decide

end Body

end BorrowFlow
