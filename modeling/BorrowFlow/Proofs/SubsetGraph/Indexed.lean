import BorrowFlow.Proofs.SubsetGraph.Plain
import BorrowFlow.Proofs.SubsetGraph.Step

/-! # Indexed graphs answer for the graph as it is

    A graph that is asked while it grows keeps two tables of neighbours and remembers what it
    has found.  Here it is run beside a plain graph, which has a set of edges and nothing to
    remember.

    * `Mirrors`: the tables hold what the plain graph holds, and what is remembered is what
      the plain graph would say.
    * `Mirrors.answer`: one request gets the same answer from both, and they stay alike.
    * `Mirrors.after`: hence so do all requests, in any order.
-/

namespace BorrowFlow

open Relation (ReflTransGen)

namespace IndexedGraph

open GraphM

variable {g : IndexedGraph}

/-! ## Side by side -/

/-- One node leads to another along an edge. -/
def Leads (g : IndexedGraph) (m n : Node) : Prop := n ∈ g.succs.next m

/-- **The plain graph in the tables**: they list its nodes and edges, both ways, and what is
    remembered is what the plain graph says. -/
structure Mirrors (g : IndexedGraph) (s : SubsetGraph) : Prop where
  sound : s.Sound
  regions : g.regions = s.regions
  loans : g.loans = s.loans
  listed : ∀ n, n ∈ g.succs.names ↔ n ∈ s.nodes
  names : g.preds.names = g.succs.names
  succs : ∀ m n, n ∈ g.succs.next m ↔ s.Leads m n
  preds : ∀ m n, m ∈ g.preds.next n ↔ s.Leads m n
  origins : ∀ e origin, origin ∈ g.origins e ↔ (e, origin) ∈ s.sources
  remembered : ∀ r loans, g.remembered.get? r = some loans → s.loansReaching r = .ok loans

/-- Both graphs say the same to a request, and stay alike. -/
def Agrees (g : IndexedGraph) (s : SubsetGraph) (q : GraphRequest) : Prop :=
  (g.answer q).1 = (s.answer q).1 ∧ (g.answer q).2.Mirrors (s.answer q).2

theorem mirrors_empty : Mirrors {} {} where
  sound := SubsetGraph.sound_empty
  regions := rfl
  loans := rfl
  listed := by
    intro n
    constructor
    · intro hn
      cases hn
    · intro hn
      rw [SubsetGraph.mem_nodes_iff] at hn
      cases n <;> cases hn
  names := rfl
  -- there is nothing on either side
  succs := by
    intro m n
    constructor <;> intro h <;> cases h
  preds := by
    intro m n
    constructor <;> intro h <;> cases h
  origins := by
    intro e origin
    constructor <;> intro h <;> cases h
  remembered := by
    intro r loans h
    cases h

namespace Mirrors

variable {s : SubsetGraph}

theorem hasNode_eq (h : g.Mirrors s) (n : Node) : g.hasNode n = s.hasNode n := by
  rw [Bool.eq_iff_iff, hasNode, OrderedMap.contains_eq_true_iff, h.listed, SubsetGraph.mem_nodes_iff]

theorem leads_eq (h : g.Mirrors s) : g.Leads = s.Leads := by
  funext m n
  exact propext (h.succs m n)

/-- A walk along the edges finds what the plain graph finds. -/
theorem succs_walk_eq (h : g.Mirrors s) {n : Node} (hn : n ∈ s.nodes) :
    g.succs.walk n = s.nodesAfter n := by
  have hinside : ∀ a b, b ∈ g.succs.next a → b ∈ g.succs.names := fun a b hb =>
    (h.listed b).mpr (h.sound.closed _ ((h.succs a b).mp hb)).2
  refine SortedSet.ext fun x => ?_
  rw [h.sound.closed.mem_nodesAfter_iff hn, ← h.leads_eq]
  exact Adjacency.mem_walk_iff hinside ((h.listed n).mpr hn)

/-- A walk against the edges finds what the plain graph finds. -/
theorem preds_walk_eq (h : g.Mirrors s) {n : Node} (hn : n ∈ s.nodes) :
    g.preds.walk n = s.nodesBefore n := by
  have hnext : (fun n m => m ∈ g.preds.next n) = Function.swap s.Leads := by
    funext n m
    exact propext (h.preds m n)
  have hlisted : ∀ m, m ∈ g.preds.names ↔ m ∈ s.nodes := fun m => by rw [h.names, h.listed]
  refine SortedSet.ext fun x => ?_
  rw [h.sound.closed.mem_nodesBefore_iff hn, Adjacency.mem_walk_iff _ ((hlisted n).mpr hn), hnext,
    Relation.reflTransGen_swap]
  intro b a ha
  exact (hlisted a).mpr (h.sound.closed _ ((h.preds a b).mp ha)).1

/-- The loans that are looked for are those of the plain graph. -/
theorem loansOf_eq (h : g.Mirrors s) {r : Region} (hr : s.regions.get? r.name = some r) :
    g.loansOf (g.preds.walk (.ofRegion r)) = s.loansInto r := by
  have hnode := SubsetGraph.region_mem_nodes hr
  refine SortedSet.ext fun l => ?_
  rw [h.sound.mem_loansInto_iff hr, ← h.sound.closed.mem_nodesBefore_iff hnode, loansOf,
    h.preds_walk_eq hnode, SortedSet.mem_ofList, List.mem_filterMap]
  constructor
  · rintro ⟨n, hn, hl⟩
    cases n with
    | region name => cases hl
    | loan name =>
      have hget : s.loans.get? name = some l := h.loans ▸ hl
      obtain rfl := h.sound.loanNames _ _ hget
      exact ⟨hget, hn⟩
  · rintro ⟨hget, hn⟩
    refine ⟨.ofLoan l, hn, ?_⟩
    show g.loans.get? l.name = some l
    rw [h.loans]
    exact hget

/-- Listing a node that is new in the plain graph too, and has no edges there. -/
theorem enter (h : g.Mirrors s) {g' : IndexedGraph} {s' : SubsetGraph} (hs' : s'.Sound) (n : Node)
    (hedges : s'.edges = s.edges) (hsources : s'.sources = s.sources)
    (hnodes : ∀ m, m ∈ s'.nodes ↔ m ∈ s.nodes ∨ m = n)
    (hregions : ∀ name r, s.regions.get? name = some r → s'.regions.get? name = some r)
    (hloans : ∀ name l, s.loans.get? name = some l → s'.loans.get? name = some l)
    (hg' : g' = enter { g with regions := s'.regions, loans := s'.loans } n) : g'.Mirrors s' := by
  subst hg'
  have hlisted : ∀ m, m ∈ (g.succs.insertNew n ∅).names ↔ m ∈ s'.nodes := by
    intro m
    rw [OrderedMap.names_insertNew, hnodes, ← h.listed]
    split
    · next hn =>
      constructor
      · exact Or.inl
      · rintro (hm | rfl)
        · exact hm
        · exact hn
    · rw [List.mem_append, List.mem_singleton]
  have hleads : s'.Leads = s.Leads := by
    funext a b
    show ((⟨a, b⟩ : Edge) ∈ s'.edges) = _
    rw [hedges]
    rfl
  exact
    { sound := hs'
      regions := rfl
      loans := rfl
      listed := hlisted
      names := by
        show (g.preds.insertNew n ∅).names = (g.succs.insertNew n ∅).names
        rw [OrderedMap.names_insertNew, OrderedMap.names_insertNew, h.names]
      succs := by
        intro a b
        show b ∈ Adjacency.next (g.succs.insertNew n ∅) a ↔ _
        rw [Adjacency.next_insertNew, h.succs, hleads]
      preds := by
        intro a b
        show a ∈ Adjacency.next (g.preds.insertNew n ∅) b ↔ _
        rw [Adjacency.next_insertNew, h.preds, hleads]
      origins := by
        rw [hsources]
        exact h.origins
      remembered := fun r loans hr => h.sound.loansReaching_of_keeps hs'
        (fun e => by rw [hedges]) hregions hloans (h.remembered r loans hr) }

/-- A node that is listed stays as it is. -/
theorem enter_of_mem (h : g.Mirrors s) {n : Node} (hn : n ∈ s.nodes) : g.enter n = g := by
  have hsuccs := (h.listed n).mpr hn
  have hpreds : n ∈ g.preds.names := h.names ▸ hsuccs
  rw [IndexedGraph.enter, OrderedMap.insertNew_of_mem hsuccs, OrderedMap.insertNew_of_mem hpreds]

theorem mem_origins_withEdge (h : g.Mirrors s) (e : Edge) (origin : Option Point) (e' : Edge)
    (o : Option Point) :
    o ∈ (g.addOrigin e origin).origins e' ↔ (e', o) ∈ (s.withEdge e origin).sources := by
  unfold SubsetGraph.withEdge
  rw [mem_origins_addOrigin, h.origins, List.mem_append, List.mem_singleton, Prod.mk.injEq]
  exact or_comm

/-- Of an edge that is there, only the origin is noted. -/
theorem addOrigin (h : g.Mirrors s) {src dst : Node} {origin : Option Point}
    (hsound : (s.withEdge ⟨src, dst⟩ origin).Sound) (hedge : s.Leads src dst) :
    (g.addOrigin ⟨src, dst⟩ origin).Mirrors (s.withEdge ⟨src, dst⟩ origin) := by
  have hsame := SubsetGraph.leads_withEdge_of_leads hedge origin
  exact
    { sound := hsound
      regions := h.regions
      loans := h.loans
      listed := h.listed
      names := h.names
      succs := fun a b => (h.succs a b).trans (hsame a b).symm
      preds := fun a b => (h.preds a b).trans (hsame a b).symm
      origins := h.mem_origins_withEdge ⟨src, dst⟩ origin
      remembered := fun r loans hr => h.sound.loansReaching_of_keeps hsound
        (fun e => hsame e.src e.dst) (fun _ _ => id) (fun _ _ => id) (h.remembered r loans hr) }

/-- A new edge goes into both tables, and all that was found is forgotten. -/
theorem link (h : g.Mirrors s) {src dst : Node} {origin : Option Point} (hsrc : src ∈ s.nodes)
    (hdst : dst ∈ s.nodes) (hsound : (s.withEdge ⟨src, dst⟩ origin).Sound) :
    ((g.addOrigin ⟨src, dst⟩ origin).link src dst).Mirrors (s.withEdge ⟨src, dst⟩ origin) := by
  have hsuccs : (g.succs.join src dst).names = g.succs.names :=
    Adjacency.names_join ((h.listed src).mpr hsrc)
  have hpreds : (g.preds.join dst src).names = g.preds.names :=
    Adjacency.names_join (h.names ▸ (h.listed dst).mpr hdst)
  exact
    { sound := hsound
      regions := h.regions
      loans := h.loans
      listed := by
        intro n
        show n ∈ (g.succs.join src dst).names ↔ _
        rw [hsuccs]
        exact h.listed n
      names := by
        show (g.preds.join dst src).names = (g.succs.join src dst).names
        rw [hpreds, hsuccs, h.names]
      succs := by
        intro a b
        show b ∈ (g.succs.join src dst).next a ↔ _
        rw [Adjacency.mem_next_join, h.succs, SubsetGraph.leads_withEdge]
      preds := by
        intro a b
        show a ∈ (g.preds.join dst src).next b ↔ _
        rw [Adjacency.mem_next_join, h.preds, SubsetGraph.leads_withEdge, and_comm]
      origins := h.mem_origins_withEdge ⟨src, dst⟩ origin
      remembered := by
        intro r loans hr
        cases hr }

/-- Remembering what the plain graph says. -/
theorem remember (h : g.Mirrors s) {r : Region} {loans : LoanSet}
    (hr : s.loansReaching r = .ok loans) :
    Mirrors { g with remembered := g.remembered.insert r loans } s where
  sound := h.sound
  regions := h.regions
  loans := h.loans
  listed := h.listed
  names := h.names
  succs := h.succs
  preds := h.preds
  origins := h.origins
  remembered := by
    intro r' loans' hr'
    rw [OrderedMap.get?_insert] at hr'
    split at hr'
    · next heq =>
      cases hr'
      exact heq ▸ hr
    · exact h.remembered r' loans' hr'

/-- **The loans of a region**, remembered or not, are those of the plain graph. -/
theorem loansReaching (h : g.Mirrors s) (r : Region) :
    ((loansReaching r).perform g).1 = s.loansReaching r ∧
      ((loansReaching r).perform g).2.Mirrors s := by
  rw [perform_loansReaching]
  cases hr : g.remembered.get? r with
  | some loans => exact ⟨(h.remembered r loans hr).symm, h⟩
  | none =>
    rw [Option.elim_none]
    by_cases hregion : g.regions.get? r.name = some r
    · have hregion' : s.regions.get? r.name = some r := h.regions ▸ hregion
      have hnode : g.hasNode (.ofRegion r) = true := by
        rw [h.hasNode_eq, ← SubsetGraph.mem_nodes_iff]
        exact SubsetGraph.region_mem_nodes hregion'
      have hfound : s.loansReaching r = .ok (g.loansOf (g.preds.walk (.ofRegion r))) :=
        SubsetGraph.loansReaching_eq_ok.mpr ⟨hregion', (h.loansOf_eq hregion').symm⟩
      rw [if_neg (not_not.mpr hregion), if_neg (Bool.not_eq_false _ ▸ hnode)]
      exact ⟨hfound.symm, h.remember hfound⟩
    · rw [if_pos hregion, SubsetGraph.loansReaching, if_neg (h.regions ▸ hregion)]
      exact ⟨rfl, h⟩

/-- Adding a region to both. -/
theorem addRegion (h : g.Mirrors s) (r : Region) : Agrees g s (.addRegion r) := by
  rw [Agrees, answer_addRegion, SubsetGraph.answer_addRegion, ← h.regions]
  split_ifs with hnew hknown
  · have hkeeps : ∀ name r', s.regions.get? name = some r' →
        (s.regions.insert r.name r).get? name = some r' :=
      fun name r' => OrderedMap.get?_insert_of_new (h.regions ▸ hnew)
    refine ⟨rfl, ?_⟩
    rw [h.regions]
    exact h.enter (h.sound.addRegion r) (.ofRegion r) rfl rfl
      (fun _ => SubsetGraph.isTable_regions.mem_nodes_insert (.ofRegion r) rfl) hkeeps
      (fun _ _ => id) (by rw [h.loans])
  · refine ⟨rfl, ?_⟩
    rw [h.enter_of_mem (SubsetGraph.region_mem_nodes (h.regions ▸ hknown))]
    exact h
  · exact ⟨rfl, h⟩

/-- Adding a loan to both. -/
theorem addLoan (h : g.Mirrors s) (l : Loan) : Agrees g s (.addLoan l) := by
  rw [Agrees, answer_addLoan, SubsetGraph.answer_addLoan, ← h.loans]
  split_ifs with hnew hknown
  · have hkeeps : ∀ name l', s.loans.get? name = some l' →
        (s.loans.insert l.name l).get? name = some l' :=
      fun name l' => OrderedMap.get?_insert_of_new (h.loans ▸ hnew)
    refine ⟨rfl, ?_⟩
    rw [h.loans]
    exact h.enter (h.sound.addLoan l) (.ofLoan l) rfl rfl
      (fun _ => SubsetGraph.isTable_loans.mem_nodes_insert (.ofLoan l) rfl) (fun _ _ => id)
      hkeeps (by rw [h.regions])
  · refine ⟨rfl, ?_⟩
    rw [h.enter_of_mem (SubsetGraph.loan_mem_nodes_iff.mpr ⟨l, h.loans ▸ hknown⟩)]
    exact h
  · exact ⟨rfl, h⟩

/-- Adding an edge to both. -/
theorem addEdge (h : g.Mirrors s) (src dst : Node) (origin : Option Point) :
    Agrees g s (.addEdge src dst origin) := by
  rw [Agrees, answer_addEdge, SubsetGraph.answer_addEdge, h.hasNode_eq, h.hasNode_eq]
  split_ifs with hsrc hdst hloan hold
  · exact ⟨rfl, h⟩
  · exact ⟨rfl, h⟩
  · exact ⟨rfl, h⟩
  all_goals
    have hsrc' := SubsetGraph.mem_nodes_iff.mpr (eq_true_of_ne_false hsrc)
    have hdst' := SubsetGraph.mem_nodes_iff.mpr (eq_true_of_ne_false hdst)
    have hsound := h.sound.withEdge hsrc' hdst' (eq_false_of_ne_true hloan) origin
  · have hedge : ⟨src, dst⟩ ∈ s.edges := (h.succs src dst).mp hold
    refine ⟨?_, h.addOrigin hsound hedge⟩
    rw [decide_eq_false (not_not.mpr hedge)]
  · have hedge : ⟨src, dst⟩ ∉ s.edges := fun hedge => hold ((h.succs src dst).mpr hedge)
    refine ⟨?_, h.link hsrc' hdst' hsound⟩
    rw [decide_eq_true hedge]

theorem nodes_eq (h : g.Mirrors s) : g.nodes = s.nodes := by
  refine SortedSet.ext fun n => ?_
  rw [nodes, SortedSet.mem_ofList, h.listed]

theorem edges_eq (h : g.Mirrors s) : g.edges = s.edges := by
  refine SortedSet.ext fun e => ?_
  have hleads : e ∈ s.edges ↔ e.dst ∈ g.succs.next e.src := (h.succs e.src e.dst).symm
  rw [hleads, edges, SortedSet.mem_ofList, List.mem_flatMap]
  constructor
  · rintro ⟨⟨m, ns⟩, hmem, he⟩
    obtain ⟨n, hn, rfl⟩ := List.mem_map.mp he
    rw [Adjacency.next, OrderedMap.get?_eq_some_iff.mpr hmem]
    exact hn
  · intro he
    obtain ⟨⟨m, ns⟩, hmem, hm⟩ := List.mem_map.mp (Adjacency.mem_names_of_mem_next he)
    refine ⟨_, hmem, List.mem_map.mpr ⟨e.dst, ?_, ?_⟩⟩
    · rw [Adjacency.next, ← hm, OrderedMap.get?_eq_some_iff.mpr hmem] at he
      exact he
    · rw [hm]

theorem origins_eq (h : g.Mirrors s) (e : Edge) : g.origins e = .ofList (s.origins e) := by
  refine SortedSet.ext fun origin => ?_
  rw [h.origins, SortedSet.mem_ofList, SubsetGraph.mem_origins_iff]

/-- **One request**: both graphs say the same to it, and stay alike. -/
theorem answer (h : g.Mirrors s) (q : GraphRequest) : Agrees g s q := by
  cases q with
  | addRegion r => exact h.addRegion r
  | addLoan l => exact h.addLoan l
  | addEdge src dst origin => exact h.addEdge src dst origin
  | nodes => exact ⟨congrArg (Except.ok ∘ GraphAnswer.nodes) h.nodes_eq, h⟩
  | edges => exact ⟨congrArg (Except.ok ∘ GraphAnswer.edges) h.edges_eq, h⟩
  | origins e => exact ⟨congrArg (Except.ok ∘ GraphAnswer.origins) (h.origins_eq e), h⟩
  | regionNamed name =>
    rw [Agrees, IndexedGraph.answer, step, perform_map, regionNamed, perform_named, h.regions]
    refine ⟨?_, h⟩
    show _ = (s.regionNamed name).map _
    rw [SubsetGraph.regionNamed]
    cases s.regions.get? name <;> rfl
  | loanNamed name =>
    rw [Agrees, IndexedGraph.answer, step, perform_map, loanNamed, perform_named, h.loans]
    refine ⟨?_, h⟩
    show _ = (s.loanNamed name).map _
    rw [SubsetGraph.loanNamed]
    cases s.loans.get? name <;> rfl
  | reachableFrom n =>
    rw [Agrees, IndexedGraph.answer, step, perform_map, reachableFrom, perform_walkIn,
      h.hasNode_eq, SubsetGraph.answer, SubsetGraph.reachableFrom]
    cases hn : s.hasNode n with
    | false => exact ⟨rfl, h⟩
    | true =>
      rw [if_neg (by decide), if_pos rfl, h.succs_walk_eq (SubsetGraph.mem_nodes_iff.mpr hn)]
      exact ⟨rfl, h⟩
  | reaching n =>
    rw [Agrees, IndexedGraph.answer, step, perform_map, reaching, perform_walkIn, h.hasNode_eq,
      SubsetGraph.answer, SubsetGraph.reaching]
    cases hn : s.hasNode n with
    | false => exact ⟨rfl, h⟩
    | true =>
      rw [if_neg (by decide), if_pos rfl, h.preds_walk_eq (SubsetGraph.mem_nodes_iff.mpr hn)]
      exact ⟨rfl, h⟩
  | loansReaching r =>
    obtain ⟨hanswer, hmirrors⟩ := h.loansReaching r
    rw [Agrees, IndexedGraph.answer, step, perform_map, hanswer]
    exact ⟨rfl, hmirrors⟩
  | canReach l r =>
    obtain ⟨hanswer, hmirrors⟩ := h.loansReaching r
    rw [Agrees, IndexedGraph.answer, step, perform_map, perform_canReach, hanswer]
    exact ⟨rfl, hmirrors⟩

end Mirrors

/-- **All requests**: after any of them, in any order, the graphs are alike. -/
theorem Mirrors.after {s : SubsetGraph} (h : g.Mirrors s) (qs : List GraphRequest) :
    (g.after qs).Mirrors (s.after qs) := by
  induction qs generalizing g s with
  | nil => exact h
  | cons q qs ih => exact ih (h.answer q).2

/-! ## The graph as it is -/

/-- **Coherent tables**: both list the nodes, which are the regions and loans that were added,
    and the one is the other turned around.  Edges are between nodes and never end in a loan;
    they are what has an origin. -/
structure Coherent (g : IndexedGraph) : Prop where
  regionNodes : ∀ name, .region name ∈ g.succs.names ↔ name ∈ g.regions.names
  loanNodes : ∀ name, .loan name ∈ g.succs.names ↔ name ∈ g.loans.names
  sameNodes : g.preds.names = g.succs.names
  mirrored : ∀ m n, n ∈ g.succs.next m ↔ m ∈ g.preds.next n
  betweenNodes : ∀ m n, g.Leads m n → m ∈ g.succs.names ∧ n ∈ g.succs.names
  intoRegions : ∀ m n, g.Leads m n → n.isLoan = false
  sourced : ∀ m n, (∃ origin, origin ∈ g.origins ⟨m, n⟩) ↔ g.Leads m n

/-- **Answers for the graph as it is**: what is asked about a node or a region of the graph
    is answered by the paths that there are now; what is asked about another one fails. -/
structure AnswersNow (g : IndexedGraph) : Prop where
  reachableFrom : ∀ m ∈ g.succs.names, ∃ ns, (g.answer (.reachableFrom m)).1 = .ok (.nodes ns) ∧
    ∀ n, n ∈ ns ↔ ReflTransGen g.Leads m n
  reaching : ∀ n ∈ g.succs.names, ∃ ms, (g.answer (.reaching n)).1 = .ok (.nodes ms) ∧
    ∀ m, m ∈ ms ↔ ReflTransGen g.Leads m n
  loansReaching : ∀ r, g.regions.get? r.name = some r →
    ∃ ls, (g.answer (.loansReaching r)).1 = .ok (.loans ls) ∧
      ∀ l, l ∈ ls ↔ g.loans.get? l.name = some l ∧ ReflTransGen g.Leads (.ofLoan l) (.ofRegion r)
  canReach : ∀ l r, g.regions.get? r.name = some r →
    ∃ yes, (g.answer (.canReach l r)).1 = .ok (.truth yes) ∧
      (yes = true ↔ g.loans.get? l.name = some l ∧ ReflTransGen g.Leads (.ofLoan l) (.ofRegion r))
  unknownNode : ∀ n, n ∉ g.succs.names → (g.answer (.reachableFrom n)).1 = .error (.noNode n) ∧
    (g.answer (.reaching n)).1 = .error (.noNode n)
  unknownRegion : ∀ r, g.regions.get? r.name ≠ some r →
    (g.answer (.loansReaching r)).1 = .error (.noRegion r)

namespace Mirrors

variable {s : SubsetGraph}

theorem coherent (h : g.Mirrors s) : g.Coherent where
  regionNodes := by
    intro name
    rw [h.listed, SubsetGraph.mem_nodes_iff, h.regions]
    exact OrderedMap.contains_eq_true_iff
  loanNodes := by
    intro name
    rw [h.listed, SubsetGraph.mem_nodes_iff, h.loans]
    exact OrderedMap.contains_eq_true_iff
  sameNodes := h.names
  mirrored := fun m n => (h.succs m n).trans (h.preds m n).symm
  betweenNodes := by
    intro m n hleads
    have hends := h.sound.closed _ ((h.succs m n).mp hleads)
    exact ⟨(h.listed m).mpr hends.1, (h.listed n).mpr hends.2⟩
  intoRegions := fun m n hleads => h.sound.intoRegions _ ((h.succs m n).mp hleads)
  sourced := by
    intro m n
    rw [h.leads_eq]
    simp only [h.origins]
    exact (h.sound.sourced ⟨m, n⟩).symm

theorem answersNow (h : g.Mirrors s) : g.AnswersNow where
  reachableFrom := by
    intro m hm
    have hnode := (h.listed m).mp hm
    refine ⟨s.nodesAfter m, ?_, fun n => ?_⟩
    · rw [(h.answer _).1, SubsetGraph.answer, SubsetGraph.reachableFrom,
        if_pos (SubsetGraph.mem_nodes_iff.mp hnode)]
      rfl
    · rw [h.leads_eq]
      exact h.sound.closed.mem_nodesAfter_iff hnode
  reaching := by
    intro n hn
    have hnode := (h.listed n).mp hn
    refine ⟨s.nodesBefore n, ?_, fun m => ?_⟩
    · rw [(h.answer _).1, SubsetGraph.answer, SubsetGraph.reaching,
        if_pos (SubsetGraph.mem_nodes_iff.mp hnode)]
      rfl
    · rw [h.leads_eq]
      exact h.sound.closed.mem_nodesBefore_iff hnode
  loansReaching := by
    intro r hr
    rw [h.regions] at hr
    refine ⟨s.loansInto r, ?_, fun l => ?_⟩
    · rw [(h.answer _).1, SubsetGraph.answer, SubsetGraph.loansReaching, if_pos hr]
      rfl
    · rw [h.leads_eq, h.loans]
      exact h.sound.mem_loansInto_iff hr
  canReach := by
    intro l r hr
    rw [h.regions] at hr
    refine ⟨decide (l ∈ s.loansInto r), ?_, ?_⟩
    · rw [(h.answer _).1, SubsetGraph.answer, SubsetGraph.canReach, SubsetGraph.loansReaching,
        if_pos hr]
      rfl
    · rw [h.leads_eq, h.loans, decide_eq_true_eq]
      exact h.sound.mem_loansInto_iff hr
  unknownNode := by
    intro n hn
    have hnode : s.hasNode n = false := by
      rw [h.listed, SubsetGraph.mem_nodes_iff] at hn
      exact eq_false_of_ne_true hn
    rw [(h.answer _).1, (h.answer _).1, SubsetGraph.answer, SubsetGraph.answer,
      SubsetGraph.reachableFrom, SubsetGraph.reaching, hnode]
    exact ⟨rfl, rfl⟩
  unknownRegion := by
    intro r hr
    rw [h.regions] at hr
    rw [(h.answer _).1, SubsetGraph.answer, SubsetGraph.loansReaching, if_neg hr]
    rfl

end Mirrors

/-- **An indexed graph is never out of date.**  After any requests, met or not and in any
    order, its tables are coherent, a request that fails leaves it as it was, and it answers
    for the paths that there are at this moment.  Whatever is asked next, the answer is that
    of the plain graph after the same requests, which has no tables and remembers nothing. -/
theorem never_out_of_date (qs : List GraphRequest) :
    (after {} qs).Coherent ∧ (after {} qs).AnswersNow ∧
      (∀ q fault, ((after {} qs).answer q).1 = .error fault →
        ((after {} qs).answer q).2 = after {} qs) ∧
      ∀ q, ((after {} qs).answer q).1 = ((SubsetGraph.after {} qs).answer q).1 := by
  have hmirrors := mirrors_empty.after qs
  refine ⟨hmirrors.coherent, hmirrors.answersNow, ?_, fun q => (hmirrors.answer q).1⟩
  intro q fault hfault
  exact unchanged_of_error _ q hfault

/-- No loan has a path to `'b` until there is an edge from `'a`, and then one has, although
    it had been asked before. -/
example :
    let a : Region := ⟨"'a", false⟩
    let b : Region := ⟨"'b", false⟩
    let l : Loan := ⟨"L0", ⟨"bb0", 0⟩, .ofLocal "x", .shared⟩
    let g := after {}
      [.addRegion a, .addRegion b, .addLoan l, .addEdge (.ofLoan l) (.ofRegion a) none]
    (g.answer (.loansReaching b)).1 = .ok (.loans ∅) ∧
      ((g.after [.loansReaching b, .addEdge (.ofRegion a) (.ofRegion b) none]).answer
        (.loansReaching b)).1 = .ok (.loans (.single l)) := by
  decide +kernel

end IndexedGraph

end BorrowFlow