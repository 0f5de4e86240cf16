import BorrowFlow.Proofs.SubsetGraph
import BorrowFlow.SubsetGraph.Indexed

/-! # Requests to a plain graph

    A plain graph has a set of edges and nothing to remember.  This is what its answers are:
    a question is about paths (`Sound.mem_loansInto_iff`), and a request that is met adds one
    region, loan or edge and keeps the graph sound.

    An answer stands as long as there is no new edge.  Regions and loans may come in; they
    have no edges yet, so no answer changes (`Sound.loansReaching_of_keeps`).
-/

namespace BorrowFlow

open Relation (ReflTransGen)

namespace SubsetGraph

variable {s s' : SubsetGraph}

/-! ## Sound graphs -/

theorem mem_nodes_iff {n : Node} : n ∈ s.nodes ↔ s.hasNode n = true := by
  cases n <;> simp [nodes, hasNode, OrderedMap.contains_eq_true_iff]

theorem mem_origins_iff {e : Edge} {origin : Option Point} :
    origin ∈ s.origins e ↔ (e, origin) ∈ s.sources := by
  simp only [origins, List.mem_eraseDups, List.mem_filterMap]
  constructor
  · rintro ⟨⟨e', origin'⟩, hmem, heq⟩
    split at heq
    · next he =>
      cases heq
      exact he ▸ hmem
    · cases heq
  · intro hmem
    exact ⟨_, hmem, if_pos rfl⟩

/-- **A sound graph**: its edges lead from node to node but never into a loan, each of them
    comes from somewhere, and the loans are kept under their own names. -/
structure Sound (s : SubsetGraph) : Prop where
  closed : s.Closed
  intoRegions : ∀ e ∈ s.edges, e.dst.isLoan = false
  sourced : ∀ e, e ∈ s.edges ↔ ∃ origin, (e, origin) ∈ s.sources
  loanNames : ∀ name l, s.loans.get? name = some l → l.name = name

theorem sound_empty : Sound {} where
  closed := fun _ he => absurd he SortedSet.not_mem_empty
  intoRegions := fun _ he => absurd he SortedSet.not_mem_empty
  sourced := by
    intro e
    constructor
    · exact fun he => absurd he SortedSet.not_mem_empty
    · rintro ⟨_, h⟩
      cases h
  loanNames := by
    intro name l h
    cases h

theorem region_mem_nodes {r : Region} (h : s.regions.get? r.name = some r) :
    .ofRegion r ∈ s.nodes := by
  rw [mem_nodes_iff]
  show (s.regions.get? r.name).isSome = true
  rw [h]
  rfl

theorem loan_mem_nodes_iff {l : Loan} :
    .ofLoan l ∈ s.nodes ↔ ∃ known, s.loans.get? l.name = some known := by
  rw [mem_nodes_iff]
  exact Option.isSome_iff_exists

/-- The loans of a region are those of the graph with a path to it. -/
theorem Sound.mem_loansInto_iff (h : s.Sound) {r : Region} (hr : s.regions.get? r.name = some r)
    {l : Loan} : l ∈ s.loansInto r ↔
      s.loans.get? l.name = some l ∧ ReflTransGen s.Leads (.ofLoan l) (.ofRegion r) := by
  have hvalues : l ∈ s.loans.values ↔ s.loans.get? l.name = some l := by
    rw [OrderedMap.values, List.mem_map]
    constructor
    · rintro ⟨⟨name, _⟩, hmem, rfl⟩
      have hget := OrderedMap.get?_eq_some_iff.mpr hmem
      rwa [h.loanNames _ _ hget]
    · intro hget
      exact ⟨_, OrderedMap.get?_eq_some_iff.mp hget, rfl⟩
  rw [loansInto, SortedSet.mem_ofList, List.mem_filter, decide_eq_true_eq, hvalues,
    h.closed.mem_nodesBefore_iff (region_mem_nodes hr)]

theorem loansReaching_eq_ok {r : Region} {loans : LoanSet} :
    s.loansReaching r = .ok loans ↔ s.regions.get? r.name = some r ∧ s.loansInto r = loans := by
  rw [loansReaching]
  split <;> simp_all

/-- **An answer stands as long as there is no new edge**, whatever regions and loans come in:
    one that is new has no path to anywhere. -/
theorem Sound.loansReaching_of_keeps (h : s.Sound) (h' : s'.Sound)
    (hedges : ∀ e, e ∈ s'.edges ↔ e ∈ s.edges)
    (hregions : ∀ name r, s.regions.get? name = some r → s'.regions.get? name = some r)
    (hloans : ∀ name l, s.loans.get? name = some l → s'.loans.get? name = some l)
    {r : Region} {loans : LoanSet} (hfound : s.loansReaching r = .ok loans) :
    s'.loansReaching r = .ok loans := by
  obtain ⟨hr, rfl⟩ := loansReaching_eq_ok.mp hfound
  have hr' := hregions _ _ hr
  have hleads : s'.Leads = s.Leads := by
    funext m n
    exact propext (hedges ⟨m, n⟩)
  refine loansReaching_eq_ok.mpr ⟨hr', SortedSet.ext fun l => ?_⟩
  rw [h'.mem_loansInto_iff hr', h.mem_loansInto_iff hr, hleads]
  constructor
  · rintro ⟨hl, hpath⟩
    -- the path starts with an edge, so its loan was there before
    have hnode : .ofLoan l ∈ s.nodes := by
      rcases hpath.cases_head with heq | ⟨n, hstep, _⟩
      · cases heq
      · exact (h.closed _ hstep).1
    obtain ⟨known, hknown⟩ := loan_mem_nodes_iff.mp hnode
    obtain rfl : known = l := Option.some.inj ((hloans _ _ hknown).symm.trans hl)
    exact ⟨hknown, hpath⟩
  · rintro ⟨hl, hpath⟩
    exact ⟨hloans _ _ hl, hpath⟩

/-! ## Growth -/

section Table

variable {α : Type} {table : SubsetGraph → OrderedMap α}
  {update : SubsetGraph → OrderedMap α → SubsetGraph} {loans : Bool}

/-- **A table of nodes**: it names the nodes of one kind, and a change to it is no change to
    the nodes of the other kind or to the edges. -/
structure IsTable (loans : Bool) (table : SubsetGraph → OrderedMap α)
    (update : SubsetGraph → OrderedMap α → SubsetGraph) : Prop where
  get : ∀ s t, table (update s t) = t
  own : ∀ s n, n.isLoan = loans → s.hasNode n = (table s).contains n.name
  other : ∀ s t n, n.isLoan ≠ loans → (update s t).hasNode n = s.hasNode n
  edges : ∀ s t, (update s t).edges = s.edges
  sources : ∀ s t, (update s t).sources = s.sources

theorem isTable_regions : IsTable false regions fun s t => { s with regions := t } where
  get := fun _ _ => rfl
  own := by
    intro s n hn
    cases n with
    | region name => rfl
    | loan name => cases hn
  other := by
    intro s t n hn
    cases n with
    | region name => exact absurd rfl hn
    | loan name => rfl
  edges := fun _ _ => rfl
  sources := fun _ _ => rfl

theorem isTable_loans : IsTable true SubsetGraph.loans fun s t => { s with loans := t } where
  get := fun _ _ => rfl
  own := by
    intro s n hn
    cases n with
    | region name => cases hn
    | loan name => rfl
  other := by
    intro s t n hn
    cases n with
    | region name => rfl
    | loan name => exact absurd rfl hn
  edges := fun _ _ => rfl
  sources := fun _ _ => rfl

/-- A value in a table is one node more. -/
theorem IsTable.mem_nodes_insert (ht : IsTable loans table update) (node : Node)
    (hnode : node.isLoan = loans) {value : α} {n : Node} :
    n ∈ (update s ((table s).insert node.name value)).nodes ↔ n ∈ s.nodes ∨ n = node := by
  rw [mem_nodes_iff, mem_nodes_iff]
  -- the nodes of the other kind are not in this table
  by_cases hkind : n.isLoan = loans
  · rw [ht.own _ n hkind, ht.own s n hkind, ht.get, OrderedMap.contains, OrderedMap.get?_insert,
      OrderedMap.contains]
    by_cases hname : n.name = node.name
    · simp [Node.eq_of_kind_of_name (hkind.trans hnode.symm) hname]
    · have hne : n ≠ node := fun heq => hname (heq ▸ rfl)
      simp [hname, hne]
  · have hne : n ≠ node := fun heq => hkind (heq ▸ hnode)
    simp [ht.other _ _ n hkind, hne]

/-- A sound graph stays so, with a value more in a table. -/
theorem Sound.insert (h : s.Sound) (ht : IsTable loans table update) (node : Node)
    (hnode : node.isLoan = loans) {value : α}
    (hnames : ∀ name l, (update s ((table s).insert node.name value)).loans.get? name = some l →
      l.name = name) : (update s ((table s).insert node.name value)).Sound where
  closed := by
    intro e he
    rw [ht.edges] at he
    obtain ⟨hsrc, hdst⟩ := h.closed e he
    exact ⟨(ht.mem_nodes_insert node hnode).mpr (Or.inl hsrc),
      (ht.mem_nodes_insert node hnode).mpr (Or.inl hdst)⟩
  intoRegions := by
    rw [ht.edges]
    exact h.intoRegions
  sourced := by
    rw [ht.edges, ht.sources]
    exact h.sourced
  loanNames := hnames

end Table

theorem Sound.addRegion (h : s.Sound) (r : Region) :
    Sound { s with regions := s.regions.insert r.name r } :=
  h.insert isTable_regions (.ofRegion r) rfl h.loanNames

theorem Sound.addLoan (h : s.Sound) (l : Loan) :
    Sound { s with loans := s.loans.insert l.name l } := by
  refine h.insert isTable_loans (.ofLoan l) rfl ?_
  intro name l' hget
  rw [OrderedMap.get?_insert] at hget
  split at hget
  · next hname =>
    cases hget
    exact hname.symm
  · exact h.loanNames name l' hget

/-- The graph with one edge more, or with one origin more if the edge is there. -/
def withEdge (s : SubsetGraph) (e : Edge) (origin : Option Point) : SubsetGraph :=
  { s with edges := s.edges.insert e, sources := s.sources ++ [(e, origin)] }

theorem leads_withEdge {src dst a b : Node} {origin : Option Point} :
    (s.withEdge ⟨src, dst⟩ origin).Leads a b ↔ (a = src ∧ b = dst) ∨ s.Leads a b := by
  unfold Leads withEdge
  rw [SortedSet.mem_insert, Edge.mk.injEq]

theorem leads_withEdge_of_leads {src dst : Node} (h : s.Leads src dst) (origin : Option Point)
    (a b : Node) : (s.withEdge ⟨src, dst⟩ origin).Leads a b ↔ s.Leads a b := by
  rw [leads_withEdge, or_iff_right_iff_imp]
  intro hedge
  rw [hedge.1, hedge.2]
  exact h

theorem Sound.withEdge (h : s.Sound) {src dst : Node} (hsrc : src ∈ s.nodes) (hdst : dst ∈ s.nodes)
    (hloan : dst.isLoan = false) (origin : Option Point) :
    (s.withEdge ⟨src, dst⟩ origin).Sound where
  closed := by
    intro e he
    rcases SortedSet.mem_insert.mp he with rfl | hold
    · exact ⟨hsrc, hdst⟩
    · exact h.closed e hold
  intoRegions := by
    intro e he
    rcases SortedSet.mem_insert.mp he with rfl | hold
    · exact hloan
    · exact h.intoRegions e hold
  sourced := by
    intro e
    simp only [SubsetGraph.withEdge, SortedSet.mem_insert, h.sourced, List.mem_append,
      List.mem_singleton, Prod.mk.injEq]
    constructor
    · rintro (rfl | ⟨origin', hold⟩)
      · exact ⟨origin, Or.inr ⟨rfl, rfl⟩⟩
      · exact ⟨origin', Or.inl hold⟩
    · rintro ⟨origin', hold | ⟨rfl, _⟩⟩
      · exact Or.inr ⟨origin', hold⟩
      · exact Or.inl rfl
  loanNames := h.loanNames

/-! ## Answers -/

/-- An answer and the graph after it; a fault leaves the graph as it was. -/
def settle (s : SubsetGraph) (x : Except GraphFault (GraphAnswer × SubsetGraph)) :
    Except GraphFault GraphAnswer × SubsetGraph :=
  (x.map Prod.fst, (x.map Prod.snd).toOption.getD s)

/-- What a graph says to a request, and the graph that it is afterwards. -/
def answer (s : SubsetGraph) : GraphRequest → Except GraphFault GraphAnswer × SubsetGraph
  | .addRegion r => s.settle ((s.addRegion r).map fun s' => (.node (.ofRegion r), s'))
  | .addLoan l => s.settle ((s.addLoan l).map fun s' => (.node (.ofLoan l), s'))
  | .addEdge src dst origin =>
    s.settle ((s.addEdge src dst origin).map fun added => (.truth added.2, added.1))
  | .nodes => (.ok (.nodes s.nodes), s)
  | .edges => (.ok (.edges s.edges), s)
  | .origins e => (.ok (.origins (.ofList (s.origins e))), s)
  | .regionNamed name => ((s.regionNamed name).map .region, s)
  | .loanNamed name => ((s.loanNamed name).map .loan, s)
  | .reachableFrom n => ((s.reachableFrom n).map .nodes, s)
  | .reaching n => ((s.reaching n).map .nodes, s)
  | .loansReaching r => ((s.loansReaching r).map .loans, s)
  | .canReach l r => ((s.canReach l r).map .truth, s)

/-- The graph after a list of requests; one that fails is passed over. -/
def after (s : SubsetGraph) : List GraphRequest → SubsetGraph
  | [] => s
  | q :: qs => (s.answer q).2.after qs

/-- A value that is new goes in; of a known name nothing changes. -/
theorem settle_register {α : Type} [DecidableEq α] (s : SubsetGraph)
    (table : SubsetGraph → OrderedMap α) (update : SubsetGraph → OrderedMap α → SubsetGraph)
    (name : String) (value : α) (fault : GraphFault) (a : GraphAnswer) :
    s.settle ((s.register table update name value fault).map fun s' => (a, s')) =
      if (table s).get? name = none then (.ok a, update s ((table s).insert name value))
      else if (table s).get? name = some value then (.ok a, s)
      else (.error fault, s) := by
  cases hget : (table s).get? name with
  | none =>
    rw [register_of_new hget]
    rfl
  | some known =>
    rw [register_of_known hget]
    by_cases hknown : known = value <;> simp [hknown, settle, Except.map, Except.toOption]

theorem answer_addRegion (s : SubsetGraph) (r : Region) : s.answer (.addRegion r) =
    if s.regions.get? r.name = none then
      (.ok (.node (.ofRegion r)), { s with regions := s.regions.insert r.name r })
    else if s.regions.get? r.name = some r then (.ok (.node (.ofRegion r)), s)
    else (.error (.regionConflict r.name), s) := settle_register ..

theorem answer_addLoan (s : SubsetGraph) (l : Loan) : s.answer (.addLoan l) =
    if s.loans.get? l.name = none then
      (.ok (.node (.ofLoan l)), { s with loans := s.loans.insert l.name l })
    else if s.loans.get? l.name = some l then (.ok (.node (.ofLoan l)), s)
    else (.error (.loanConflict l.name), s) := settle_register ..

theorem answer_addEdge (s : SubsetGraph) (src dst : Node) (origin : Option Point) :
    s.answer (.addEdge src dst origin) =
      if s.hasNode src = false then (.error (.noNode src), s)
      else if s.hasNode dst = false then (.error (.noNode dst), s)
      else if dst.isLoan = true then (.error (.intoLoan src dst), s)
      else (.ok (.truth (decide (⟨src, dst⟩ ∉ s.edges))), s.withEdge ⟨src, dst⟩ origin) := by
  rw [answer, addEdge]
  cases s.hasNode src <;> cases s.hasNode dst <;> cases dst.isLoan <;> rfl

end SubsetGraph

end BorrowFlow
