import BorrowFlow.Proofs.Except
import BorrowFlow.Proofs.Reach
import BorrowFlow.SubsetGraph.Indexed

/-! # Steps of an indexed graph

    One equation for each request says what the answer is and which graph is left behind, so
    that no later proof runs a step by hand.  From these: a request that fails leaves the
    graph as it was (`IndexedGraph.unchanged_of_error`).
-/

namespace BorrowFlow

open Relation (ReflTransGen)

/-! ## Tables of neighbours -/

namespace Adjacency

variable {t : Adjacency}

theorem mem_names_of_mem_next {m n : Node} (h : n ∈ t.next m) : m ∈ t.names := by
  by_contra hm
  rw [next, OrderedMap.get?_eq_none_iff.mpr hm] at h
  exact SortedSet.not_mem_empty h

/-- A node that is new has nothing next to it. -/
theorem next_insertNew (t : Adjacency) (n m : Node) : next (t.insertNew n ∅) m = t.next m := by
  rw [next, next, OrderedMap.get?_insertNew]
  split
  · next hm =>
    subst hm
    rfl
  · rfl

theorem mem_next_join {m n k x : Node} :
    x ∈ (t.join m n).next k ↔ (k = m ∧ x = n) ∨ x ∈ t.next k := by
  rw [next, join, OrderedMap.get?_insert]
  split
  · next hk =>
    subst hk
    simp
  · next hk => simp [hk, next]

theorem names_join {m n : Node} (hm : m ∈ t.names) : (t.join m n).names = t.names := by
  rw [join, OrderedMap.names_insert, if_pos hm]

/-- **A walk finds what there is a path to**, in a table that lists all neighbours. -/
theorem mem_walk_iff (hclosed : ∀ m n, n ∈ t.next m → n ∈ t.names) {m n : Node}
    (hm : m ∈ t.names) : n ∈ t.walk m ↔ ReflTransGen (fun a b => b ∈ t.next a) m n := by
  have hsize : (SortedSet.ofList t.names).size ≤ t.names.length :=
    (SortedSet.nodup_toList _).length_le_of_subset fun _ ha => SortedSet.mem_ofList.mp ha
  rw [walk, mem_closure_iff (u := .ofList t.names) _ _ hsize]
  · simp
  · intro a _ b hb
    exact SortedSet.mem_ofList.mpr (hclosed a b hb)
  · intro a ha
    rw [SortedSet.mem_single] at ha
    exact SortedSet.mem_ofList.mpr (ha ▸ hm)

end Adjacency

/-! ## Steps -/

namespace GraphM

variable {α β : Type}

theorem perform_map (f : α → β) (step : GraphM α) (g : IndexedGraph) :
    (f <$> step).perform g = ((step.perform g).1.map f, (step.perform g).2) := by
  simp only [perform, Functor.map, ExceptT.map, ExceptT.mk, StateT.bind, bind, ExceptT.run,
    StateT.run, Id.run]
  rcases step g with ⟨_ | _, g'⟩ <;> rfl

theorem perform_modify_bind (f : IndexedGraph → IndexedGraph) (k : PUnit → GraphM α)
    (g : IndexedGraph) : (modify f >>= k).perform g = (k ⟨⟩).perform (f g) := rfl

theorem perform_get_bind (k : IndexedGraph → GraphM α) (g : IndexedGraph) :
    (get >>= k).perform g = (k g).perform g := rfl

end GraphM

namespace IndexedGraph

open GraphM

variable {g : IndexedGraph}

theorem perform_require_bind (n : Node) {α : Type} (k : PUnit → GraphM α) (g : IndexedGraph) :
    (require n >>= k).perform g =
      if g.hasNode n = false then (.error (.noNode n), g) else (k ⟨⟩).perform g := by
  rw [require, bind_assoc, perform_get_bind]
  cases g.hasNode n <;> rfl

section Register

variable {α : Type} [DecidableEq α] {table : IndexedGraph → OrderedMap α}
  {update : IndexedGraph → OrderedMap α → IndexedGraph}

/-- A value that is new is kept and its node listed; of a known name nothing changes but,
    perhaps, that its node is listed. -/
theorem perform_register (hget : ∀ g t, table (update g t) = t) (hput : ∀ g, update g (table g) = g)
    (name : String) (value : α) (n : Node) (fault : GraphFault) (g : IndexedGraph) :
    (register table update name value n fault).perform g =
      if (table g).get? name = none then
        (.ok n, (update g ((table g).insert name value)).enter n)
      else if (table g).get? name = some value then (.ok n, g.enter n)
      else (.error fault, g) := by
  rw [register, perform_modify_bind, perform_get_bind, hget, OrderedMap.get?_insertNew,
    if_pos rfl, OrderedMap.insertNew, OrderedMap.contains]
  cases (table g).get? name with
  | none =>
    simp only [Option.isSome_none, Option.getD_none, ne_eq, not_true_eq_false, Bool.false_eq_true,
      ↓reduceIte]
    rfl
  | some known =>
    by_cases hknown : known = value <;>
    · simp only [Option.isSome_some, Option.getD_some, Option.some.injEq, hknown, ne_eq,
        reduceCtorEq, not_true_eq_false, not_false_eq_true, ↓reduceIte, hput]
      rfl

end Register

theorem answer_addRegion (g : IndexedGraph) (r : Region) : g.answer (.addRegion r) =
    if g.regions.get? r.name = none then
      (.ok (.node (.ofRegion r)),
        enter { g with regions := g.regions.insert r.name r } (.ofRegion r))
    else if g.regions.get? r.name = some r then (.ok (.node (.ofRegion r)), g.enter (.ofRegion r))
    else (.error (.regionConflict r.name), g) := by
  rw [answer, step, perform_map, addRegion, perform_register (fun _ _ => rfl) fun _ => rfl]
  split_ifs <;> rfl

theorem answer_addLoan (g : IndexedGraph) (l : Loan) : g.answer (.addLoan l) =
    if g.loans.get? l.name = none then
      (.ok (.node (.ofLoan l)), enter { g with loans := g.loans.insert l.name l } (.ofLoan l))
    else if g.loans.get? l.name = some l then (.ok (.node (.ofLoan l)), g.enter (.ofLoan l))
    else (.error (.loanConflict l.name), g) := by
  rw [answer, step, perform_map, addLoan, perform_register (fun _ _ => rfl) fun _ => rfl]
  split_ifs <;> rfl

theorem answer_addEdge (g : IndexedGraph) (src dst : Node) (origin : Option Point) :
    g.answer (.addEdge src dst origin) =
      if g.hasNode src = false then (.error (.noNode src), g)
      else if g.hasNode dst = false then (.error (.noNode dst), g)
      else if dst.isLoan = true then (.error (.intoLoan src dst), g)
      else if dst ∈ g.succs.next src then (.ok (.truth false), g.addOrigin ⟨src, dst⟩ origin)
      else (.ok (.truth true), (g.addOrigin ⟨src, dst⟩ origin).link src dst) := by
  rw [answer, step, perform_map, addEdge, perform_require_bind, perform_require_bind]
  split
  · rfl
  · split
    · rfl
    · split
      · rfl
      · have hsuccs : (g.addOrigin ⟨src, dst⟩ origin).succs = g.succs := rfl
        simp only [perform_modify_bind, perform_get_bind, hsuccs]
        split <;> rfl

theorem perform_walkIn (table : IndexedGraph → Adjacency) (n : Node) (g : IndexedGraph) :
    (walkIn table n).perform g =
      if g.hasNode n = false then (.error (.noNode n), g) else (.ok ((table g).walk n), g) := by
  rw [walkIn, perform_require_bind]
  rfl

theorem perform_named {α : Type} (table : IndexedGraph → OrderedMap α) (name : String)
    (fault : GraphFault) (g : IndexedGraph) : (named table name fault).perform g =
      (((table g).get? name).elim (.error fault) .ok, g) := by
  rw [named, perform_get_bind]
  cases (table g).get? name <;> rfl

theorem perform_loansReaching (g : IndexedGraph) (r : Region) : (loansReaching r).perform g =
    (g.remembered.get? r).elim
      (if g.regions.get? r.name ≠ some r then (.error (.noRegion r), g)
      else if g.hasNode (.ofRegion r) = false then (.error (.noNode (.ofRegion r)), g)
      else
        let loans := g.loansOf (g.preds.walk (.ofRegion r))
        (.ok loans, { g with remembered := g.remembered.insert r loans }))
      fun loans => (.ok loans, g) := by
  rw [loansReaching, perform_get_bind]
  cases g.remembered.get? r with
  | some loans => rfl
  | none =>
    by_cases hr : g.regions.get? r.name = some r
    · simp only [hr, ne_eq, not_true_eq_false, ↓reduceIte, reaching, walkIn, bind_assoc,
        perform_require_bind, Option.elim_none]
      split <;> rfl
    · simp only [hr, ne_eq, not_false_eq_true, ↓reduceIte, Option.elim_none]
      rfl

theorem perform_canReach (g : IndexedGraph) (l : Loan) (r : Region) : (canReach l r).perform g =
    (((loansReaching r).perform g).1.map (fun loans => decide (l ∈ loans)),
      ((loansReaching r).perform g).2) := by
  rw [canReach, bind_pure_comp, perform_map]

theorem loansReaching_unchanged {r : Region} {fault : GraphFault}
    (h : ((loansReaching r).perform g).1 = .error fault) :
    ((loansReaching r).perform g).2 = g := by
  rw [perform_loansReaching] at h ⊢
  cases hr : g.remembered.get? r with
  | some loans => rfl
  | none =>
    rw [hr, Option.elim_none] at h
    rw [Option.elim_none]
    split_ifs at h ⊢ <;> rfl

/-- **A request that fails leaves the graph as it was**, what it remembers included. -/
theorem unchanged_of_error (g : IndexedGraph) (q : GraphRequest) {fault : GraphFault}
    (h : (g.answer q).1 = .error fault) : (g.answer q).2 = g := by
  cases q with
  | addRegion r =>
    rw [answer_addRegion] at h ⊢
    split_ifs at h ⊢
    rfl
  | addLoan l =>
    rw [answer_addLoan] at h ⊢
    split_ifs at h ⊢
    rfl
  | addEdge src dst origin =>
    rw [answer_addEdge] at h ⊢
    split_ifs at h ⊢ <;> rfl
  | nodes => rfl
  | edges => rfl
  | origins e => rfl
  | regionNamed name => rw [answer, step, perform_map, regionNamed, perform_named]
  | loanNamed name => rw [answer, step, perform_map, loanNamed, perform_named]
  | reachableFrom n =>
    rw [answer, step, perform_map, reachableFrom, perform_walkIn]
    split <;> rfl
  | reaching n =>
    rw [answer, step, perform_map, reaching, perform_walkIn]
    split <;> rfl
  | loansReaching r =>
    rw [answer, step, perform_map] at h ⊢
    exact loansReaching_unchanged (map_eq_error.mp h)
  | canReach l r =>
    rw [answer, step, perform_map, perform_canReach] at h ⊢
    exact loansReaching_unchanged (map_eq_error.mp (map_eq_error.mp h))

theorem mem_origins_addOrigin {e e' : Edge} {o origin : Option Point} :
    o ∈ (g.addOrigin e origin).origins e' ↔ (e' = e ∧ o = origin) ∨ o ∈ g.origins e' := by
  rw [IndexedGraph.origins, addOrigin, OrderedMap.get?_insert]
  split
  · next he =>
    subst he
    simp
  · next he => simp [he, IndexedGraph.origins]

end IndexedGraph

end BorrowFlow
