import BorrowFlow.Proofs.Reach
import BorrowFlow.Proofs.Restart

/-! # The reverse postorder

    A depth-first search leaves a point after all that it entered from there.  So at the moment
    when a point is left, each of its successors has been left before, or is still open, and
    then it leads to the point that is being left (`visit_valid`).

    * **Reachable points first**: the search enters exactly the points that control can reach
      (`Body.WellFormed.mem_search_seen_iff`).
    * **Edges go forward** in the order, unless they close a cycle
      (`Body.WellFormed.idxOf_lt_or_leads`).
    * **One sweep is enough** where no edge closes a cycle: each visit finds its neighbours
      renewed (`Problem.Downstream.sweep_eq`), in the backward pass as in the forward one.

    All of it together is `reversePostorder_exact`.
-/

namespace BorrowFlow

open Relation (ReflTransGen TransGen)

/-- Some steps, or none, lead from one point to another. -/
def Leads (next : Point → List Point) : Point → Point → Prop := ReflTransGen fun p q => q ∈ next p

/-- At least one step leads from a point back to it. -/
def OnCycle (next : Point → List Point) (p : Point) : Prop := TransGen (fun p q => q ∈ next p) p p

variable {next : Point → List Point} {u : List Point} {root p q : Point}

/-- A step to a point that leads back closes a cycle. -/
theorem onCycle_of_leads (hq : q ∈ next p) (hback : Leads next q p) : OnCycle next p :=
  TransGen.head' hq hback

/-! ## The depth-first search -/

namespace Search

variable {s t : Search} {depth : Nat}

/-- A point is open while it has been entered and not been left. -/
def IsOpen (s : Search) (p : Point) : Prop := p ∈ s.seen ∧ p ∉ s.done

theorem Explores.mem_seen (h : Explores u s t) (hp : p ∈ s.seen) : p ∈ t.seen := by
  obtain ⟨new, _, _, hseen, _⟩ := h
  exact hseen.mem_iff.mpr (List.mem_append_right new hp)

/-- What was entered on the way has been left again. -/
theorem Explores.isOpen (h : Explores u s t) (hp : t.IsOpen p) : s.IsOpen p := by
  obtain ⟨new, _, _, hseen, hdone⟩ := h
  obtain ⟨hentered, hleft⟩ := hp
  rw [hdone.mem_iff, List.mem_append, not_or] at hleft
  rw [hseen.mem_iff, List.mem_append] at hentered
  exact ⟨hentered.resolve_left hleft.1, hleft.2⟩

/-- How many of the points `u` have not been entered. -/
def unseen (u : List Point) (s : Search) : Nat := (u.filter (· ∉ s.seen)).length

theorem unseen_le (h : ∀ p ∈ s.seen, p ∈ t.seen) : t.unseen u ≤ s.unseen u := by
  refine (List.monotone_filter_right u fun p hp => ?_).length_le
  rw [decide_eq_true_eq] at hp ⊢
  exact fun hmem => hp (h p hmem)

/-- Entering a point leaves fewer to enter. -/
theorem unseen_enter_lt (hp : p ∈ u) (hnew : p ∉ s.seen) :
    ({ s with seen := p :: s.seen } : Search).unseen u < s.unseen u := by
  have hfilter : u.filter (· ∉ p :: s.seen) = (u.filter (· ∉ s.seen)).filter (· ≠ p) := by
    rw [List.filter_filter]
    refine List.filter_congr fun x _ => ?_
    simp
  rw [unseen, unseen, hfilter, List.length_filter_lt_length_iff_exists]
  exact ⟨p, List.mem_filter.mpr ⟨hp, decide_eq_true hnew⟩, by simp⟩

/-- **Points left in order**, the last one first: a step from a point goes to one that was left
    before it, or to one that leads back to it. -/
def LeftInOrder (next : Point → List Point) : List Point → Prop
  | [] => True
  | p :: rest => (∀ q ∈ next p, q ∈ rest ∨ Leads next q p) ∧ LeftInOrder next rest

/-- In the list of the points left, a step goes further on unless it closes a cycle. -/
theorem LeftInOrder.idxOf_lt_or_leads {l : List Point} (h : LeftInOrder next l) (hl : l.Nodup)
    (hp : p ∈ l) (hq : q ∈ next p) : (q ∈ l ∧ l.idxOf p < l.idxOf q) ∨ Leads next q p := by
  induction l with
  | nil => cases hp
  | cons x rest ih =>
    obtain ⟨hfirst, hrest⟩ := h
    obtain ⟨hx, hnodup⟩ := List.nodup_cons.mp hl
    have hlater : ∀ y ∈ rest, (x :: rest).idxOf y = rest.idxOf y + 1 := by
      intro y hy
      exact List.idxOf_cons_ne rest fun hxy => hx (hxy ▸ hy)
    rcases List.mem_cons.mp hp with rfl | hp
    · refine (hfirst q hq).imp_left fun hmem => ⟨List.mem_cons_of_mem p hmem, ?_⟩
      rw [List.idxOf_cons_self, hlater q hmem]
      exact Nat.succ_pos _
    · refine (ih hrest hnodup hp).imp_left fun hlt => ⟨List.mem_cons_of_mem x hlt.1, ?_⟩
      rw [hlater p hp, hlater q hlt.1]
      exact Nat.succ_lt_succ hlt.2

/-- **What holds between two visits** of a search from `root`. -/
structure Valid (next : Point → List Point) (root : Point) (s : Search) : Prop where
  reached : ∀ p ∈ s.seen, Leads next root p
  followed : ∀ p ∈ s.done, ∀ q ∈ next p, q ∈ s.seen
  ordered : LeftInOrder next s.done

/-- **A search that comes to `p`**: it may go as deep as there are points left to enter, and
    each open point leads to `p`. -/
structure Arrives (next : Point → List Point) (u : List Point) (root : Point) (depth : Nat)
    (s : Search) (p : Point) : Prop where
  mem : p ∈ u
  room : s.unseen u ≤ depth
  fromRoot : Leads next root p
  fromOpen : ∀ x, s.IsOpen x → Leads next x p

/-- Visits of other points in between do no harm. -/
theorem Arrives.after (h : Arrives next u root depth s p) (hst : Explores u s t) :
    Arrives next u root depth t p where
  mem := h.mem
  room := Nat.le_trans (unseen_le fun _ => hst.mem_seen) h.room
  fromRoot := h.fromRoot
  fromOpen := fun x hx => h.fromOpen x (hst.isOpen hx)

/-- From a point that is entered, the search comes to its successors. -/
theorem Arrives.enter (h : Arrives next u root (depth + 1) s p)
    (hnext : ∀ p ∈ u, ∀ q ∈ next p, q ∈ u) (hnew : p ∉ s.seen) (hq : q ∈ next p) :
    Arrives next u root depth { s with seen := p :: s.seen } q where
  mem := hnext p h.mem q hq
  room := by
    have hlt := unseen_enter_lt h.mem hnew
    have hroom := h.room
    omega
  fromRoot := h.fromRoot.tail hq
  fromOpen := by
    rintro x ⟨hx, hleft⟩
    rcases List.mem_cons.mp hx with rfl | hx
    · exact ReflTransGen.single hq
    · exact (h.fromOpen x ⟨hx, hleft⟩).tail hq

/-- A point may be entered where the search comes to it. -/
theorem Valid.enter (h : s.Valid next root) (hp : Leads next root p) :
    ({ s with seen := p :: s.seen } : Search).Valid next root where
  reached := by
    intro x hx
    rcases List.mem_cons.mp hx with rfl | hx
    · exact hp
    · exact h.reached x hx
  followed := fun x hx y hy => List.mem_cons_of_mem p (h.followed x hx y hy)
  ordered := h.ordered

/-- A point may be left when its successors have been entered and those of them that are open
    lead to it. -/
theorem Valid.leave (h : s.Valid next root) (hentered : ∀ q ∈ next p, q ∈ s.seen)
    (hopen : ∀ q, s.IsOpen q → Leads next q p) :
    ({ s with done := p :: s.done } : Search).Valid next root where
  reached := h.reached
  followed := by
    intro x hx
    rcases List.mem_cons.mp hx with rfl | hx
    · exact hentered
    · exact h.followed x hx
  ordered := by
    refine ⟨fun q hq => ?_, h.ordered⟩
    by_cases hleft : q ∈ s.done
    · exact Or.inl hleft
    · exact Or.inr (hopen q ⟨hentered q hq, hleft⟩)

end Search

open Search

variable {s : Search} {depth : Nat}

theorem explores_foldl_visit (hnext : ∀ p ∈ u, ∀ q ∈ next p, q ∈ u) (depth : Nat)
    {l : List Point} (hl : ∀ q ∈ l, q ∈ u) (s : Search) :
    Explores u s (l.foldl (visit next depth) s) :=
  explores_foldl (fun s _ hq => explores_visit hnext depth s hq) hl s

/-- What visits keep, several of them keep, and all their points are entered. -/
theorem foldl_visit_valid (hnext : ∀ p ∈ u, ∀ q ∈ next p, q ∈ u)
    (hvisit : ∀ s p, s.Valid next root → Arrives next u root depth s p →
      (visit next depth s p).Valid next root ∧ p ∈ (visit next depth s p).seen)
    {l : List Point} (hs : s.Valid next root) (hl : ∀ q ∈ l, Arrives next u root depth s q) :
    (l.foldl (visit next depth) s).Valid next root ∧
      ∀ q ∈ l, q ∈ (l.foldl (visit next depth) s).seen := by
  induction l generalizing s with
  | nil => exact ⟨hs, fun q hq => absurd hq List.not_mem_nil⟩
  | cons p l ih =>
    obtain ⟨hp, hl⟩ := List.forall_mem_cons.mp hl
    obtain ⟨hvalid, hentered⟩ := hvisit s p hs hp
    have hfirst : Explores u s (visit next depth s p) := explores_visit hnext depth s hp.mem
    have hrest := explores_foldl_visit hnext depth (fun q hq => (hl q hq).mem) (visit next depth s p)
    obtain ⟨hlast, hmem⟩ := ih hvalid fun q hq => (hl q hq).after hfirst
    exact ⟨hlast, List.forall_mem_cons.mpr ⟨hrest.mem_seen hentered, hmem⟩⟩

/-- **A visit** keeps what holds between visits, and enters its point.  The induction is on the
    depth, which is enough as long as points are left to enter. -/
theorem visit_valid (hnext : ∀ p ∈ u, ∀ q ∈ next p, q ∈ u) (hs : s.Valid next root)
    (hp : Arrives next u root depth s p) :
    (visit next depth s p).Valid next root ∧ p ∈ (visit next depth s p).seen := by
  induction depth generalizing s p with
  | zero =>
    -- no point is left to enter
    have hseen : p ∈ s.seen := by
      by_contra hnew
      have hlt := unseen_enter_lt hp.mem hnew
      have hroom := hp.room
      omega
    exact ⟨hs, hseen⟩
  | succ depth ih =>
    rw [visit]
    split
    · next hseen => exact ⟨hs, hseen⟩
    · next hnew =>
      have hentered := hs.enter hp.fromRoot
      have harrives : ∀ q ∈ next p, Arrives next u root depth { s with seen := p :: s.seen } q :=
        fun q hq => hp.enter hnext hnew hq
      obtain ⟨hvalid, hmem⟩ := foldl_visit_valid hnext (fun s p hs hp => ih hs hp) hentered harrives
      have hexplored := explores_foldl_visit hnext depth (hnext p hp.mem)
        { s with seen := p :: s.seen }
      refine ⟨hvalid.leave hmem fun q hq => ?_, hexplored.mem_seen List.mem_cons_self⟩
      -- what is open now was open before, or is `p` itself
      obtain ⟨hq, hleft⟩ := hexplored.isOpen hq
      rcases List.mem_cons.mp hq with rfl | hq
      · exact ReflTransGen.refl
      · exact hp.fromOpen q ⟨hq, hleft⟩

/-! ## Orders of lists -/

/-- Where one element stands before another, it stands after it in the reversed list. -/
theorem idxOf_reverse_lt {l : List Point} (hl : l.Nodup) (hp : p ∈ l) (hq : q ∈ l)
    (hlt : l.idxOf p < l.idxOf q) : l.reverse.idxOf q < l.reverse.idxOf p := by
  have hplace : ∀ x ∈ l, l.reverse.idxOf x = l.length - 1 - l.idxOf x := by
    intro x hx
    have hlt := List.idxOf_lt_length_of_mem hx
    have hget : l.reverse[l.length - 1 - l.idxOf x]? = some x := by
      rw [List.getElem?_reverse (by omega)]
      have hindex : l.length - 1 - (l.length - 1 - l.idxOf x) = l.idxOf x := by omega
      rw [hindex, List.getElem?_eq_getElem hlt, List.getElem_idxOf hlt]
    obtain ⟨hbound, hget⟩ := List.getElem?_eq_some_iff.mp hget
    have hindex := (List.nodup_reverse.mpr hl).idxOf_getElem _ hbound
    rwa [hget] at hindex
  have hbound := List.idxOf_lt_length_of_mem hq
  rw [hplace p hp, hplace q hq]
  omega

namespace Body

variable {b : Body}

/-- The depth-first search from the entry of a body. -/
def search (b : Body) : Search := visit b.successors b.points.length ⟨[], []⟩ b.entryPoint

theorem reversePostorder_eq (b : Body) :
    b.reversePostorder = b.search.done ++ b.points.filter (· ∉ b.search.seen) := rfl

namespace WellFormed

/-! ## What the search finds -/

theorem explores_search (h : b.WellFormed) : Search.Explores b.points ⟨[], []⟩ b.search :=
  explores_visit (fun _ _ _ hq => h.mem_points_of_mem_successors hq) _ _ h.entryPoint_mem

theorem valid_search (h : b.WellFormed) :
    b.search.Valid b.successors b.entryPoint ∧ b.entryPoint ∈ b.search.seen := by
  have hstart : (⟨[], []⟩ : Search).Valid b.successors b.entryPoint :=
    ⟨fun _ hp => absurd hp List.not_mem_nil, fun _ hp => absurd hp List.not_mem_nil, trivial⟩
  refine visit_valid (u := b.points) (fun _ _ _ hq => h.mem_points_of_mem_successors hq) hstart ?_
  exact ⟨h.entryPoint_mem, List.length_filter_le _ _, ReflTransGen.refl,
    fun x hx => absurd hx.1 List.not_mem_nil⟩

/-- At the end of the search, all that was entered has been left. -/
theorem mem_search_done_iff (h : b.WellFormed) : p ∈ b.search.done ↔ p ∈ b.search.seen := by
  obtain ⟨new, _, _, hseen, hdone⟩ := h.explores_search
  rw [hseen.mem_iff, hdone.mem_iff]

theorem nodup_search_done (h : b.WellFormed) : b.search.done.Nodup := by
  obtain ⟨new, hnew, _, _, hdone⟩ := h.explores_search
  rw [List.append_nil] at hdone
  exact hdone.nodup_iff.mpr hnew

/-- **The search enters what the entry leads to.** -/
theorem mem_search_seen_iff (h : b.WellFormed) :
    p ∈ b.search.seen ↔ Leads b.successors b.entryPoint p := by
  obtain ⟨hvalid, hentry⟩ := h.valid_search
  constructor
  · exact hvalid.reached p
  · intro hleads
    induction hleads with
    | refl => exact hentry
    | tail _ hstep ih => exact hvalid.followed _ (h.mem_search_done_iff.mpr ih) _ hstep

/-- **The reachable points** are those that the entry leads to. -/
theorem mem_reachable_iff (h : b.WellFormed) :
    p ∈ b.reachable ↔ Leads b.successors b.entryPoint p := by
  have hsize : (SortedSet.ofList b.points).size ≤ b.points.length :=
    (SortedSet.nodup_toList _).length_le_of_subset fun _ hx => SortedSet.mem_ofList.mp hx
  rw [reachable, mem_closure_iff (u := .ofList b.points) _ _ hsize]
  · simp [Leads]
  · intro x _ y hy
    exact SortedSet.mem_ofList.mpr (h.mem_points_of_mem_successors hy)
  · intro x hx
    rw [SortedSet.mem_single] at hx
    exact SortedSet.mem_ofList.mpr (hx ▸ h.entryPoint_mem)

theorem mem_reachable_of_mem_successors (h : b.WellFormed) (hp : p ∈ b.reachable)
    (hq : q ∈ b.successors p) : q ∈ b.reachable :=
  h.mem_reachable_iff.mpr ((h.mem_reachable_iff.mp hp).tail hq)

theorem mem_search_done_iff_reachable (h : b.WellFormed) :
    p ∈ b.search.done ↔ p ∈ b.reachable := by
  rw [h.mem_search_done_iff, h.mem_search_seen_iff, h.mem_reachable_iff]

/-- **Reachable points first**, in the order of the search, then the others in layout order. -/
theorem reversePostorder_eq_append (h : b.WellFormed) :
    b.reversePostorder = b.search.done ++ b.points.filter (· ∉ b.reachable) := by
  rw [reversePostorder_eq]
  congr 1
  refine List.filter_congr fun x _ => decide_eq_decide.mpr (not_congr ?_)
  rw [h.mem_search_seen_iff, h.mem_reachable_iff]

theorem head?_reversePostorder (h : b.WellFormed) :
    b.reversePostorder.head? = some b.entryPoint := by
  obtain ⟨n, hn⟩ := Nat.exists_eq_succ_of_ne_zero (Nat.ne_of_gt h.points_length_pos)
  rw [reversePostorder_eq, search, hn, visit, if_neg List.not_mem_nil]
  rfl

/-! ## Edges and the order -/

theorem nodup_reversePostorder (h : b.WellFormed) : b.reversePostorder.Nodup :=
  h.reversePostorder_perm.nodup_iff.mpr h.nodup_points

/-- **An edge goes forward** in the order, unless it closes a cycle. -/
theorem idxOf_lt_or_leads (h : b.WellFormed) (hp : p ∈ b.reachable) (hq : q ∈ b.successors p) :
    b.reversePostorder.idxOf p < b.reversePostorder.idxOf q ∨ Leads b.successors q p := by
  have hleft := h.mem_search_done_iff_reachable.mpr hp
  have hordered := h.valid_search.1.ordered.idxOf_lt_or_leads h.nodup_search_done hleft hq
  refine hordered.imp_left fun hlt => ?_
  rw [reversePostorder_eq, List.idxOf_append_of_mem hleft, List.idxOf_append_of_mem hlt.1]
  exact hlt.2

/-- **The order is topological** where no point is on a cycle, and only there. -/
theorem topological_iff (h : b.WellFormed) :
    (∀ p ∈ b.reachable, ∀ q ∈ b.successors p,
      b.reversePostorder.idxOf p < b.reversePostorder.idxOf q) ↔
      ∀ p ∈ b.reachable, ¬ OnCycle b.successors p := by
  constructor
  · intro hforward p hp hcycle
    -- along a walk the place in the order grows
    have hgrows : ∀ q, TransGen (fun p q => q ∈ b.successors p) p q →
        q ∈ b.reachable ∧ b.reversePostorder.idxOf p < b.reversePostorder.idxOf q := by
      intro q hwalk
      induction hwalk with
      | single hstep =>
        exact ⟨h.mem_reachable_of_mem_successors hp hstep, hforward p hp _ hstep⟩
      | tail _ hstep ih =>
        exact ⟨h.mem_reachable_of_mem_successors ih.1 hstep, ih.2.trans (hforward _ ih.1 _ hstep)⟩
    exact Nat.lt_irrefl _ (hgrows p hcycle).2
  · intro hacyclic p hp q hq
    refine (h.idxOf_lt_or_leads hp hq).resolve_right fun hback => ?_
    exact hacyclic p hp (onCycle_of_leads hq hback)

end WellFormed

end Body

/-! ## One sweep -/

namespace Problem

variable {ρ σ : Type} {P : Problem ρ σ} {ps : List Point} {a a' : Arena σ}

/-- **Visits go downstream**: each comes after those of its neighbours. -/
def Downstream (P : Problem ρ σ) : Prop :=
  ∀ v ∈ P.visits, ∀ q ∈ v.neighbours, P.rank q < P.rank v.point

/-- **One sweep downstream forgets the start**, as each visit finds its neighbours renewed. -/
theorem Downstream.sweep_eq (h : P.Downstream) (hvisits : P.VisitsEach ps) (ha : a.Covers ps)
    (ha' : a'.Covers ps) : P.sweep a = P.sweep a' := by
  have hlook : ∀ r, ∀ p ∈ ps, P.rank p = r → P.look (P.sweep a) p = P.look (P.sweep a') p := by
    intro r
    induction r using Nat.strongRecOn with
    | ind r ih =>
      intro p hp hr
      obtain ⟨v, hv, rfl⟩ := hvisits.exists_visit hp
      rw [look_sweep hvisits ha hv, look_sweep hvisits ha' hv]
      congr 1
      refine List.map_congr_left fun q hq => ?_
      have hlt := h v hv q hq
      rw [if_pos hlt, if_pos hlt]
      -- what has a rank below another is visited
      have hq : q ∈ P.order := List.idxOf_lt_length_iff.mp (hlt.trans_le List.idxOf_le_length)
      exact ih (P.rank q) (hr ▸ hlt) q (hvisits.mem_order.mp hq) rfl
  exact (covers_sweep ha).ext (covers_sweep ha') fun p hp => hlook (P.rank p) p hp rfl

/-- So a table settles after one changing sweep, if not before. -/
theorem Downstream.exists_settles (h : P.Downstream) (hvisits : P.VisitsEach ps)
    (ha : a.Covers ps) : ∃ k ≤ 1, P.Settles a k :=
  Problem.exists_settles (n := 1) (h.sweep_eq hvisits (covers_sweep ha) ha)

end Problem

namespace Body

variable {b : Body}

theorem covers_livenessStart (h : b.WellFormed) {seed : Option Liveness} {start : Arena LiveSets}
    (hstart : b.livenessStart seed = .ok start) : start.Covers b.points := by
  cases seed with
  | none =>
    cases hstart
    exact h.covers_noneLive
  | some seed =>
    rw [livenessStart] at hstart
    split at hstart
    · cases hstart
    · cases hstart
      exact Arena.covers_tabulate h.nodup_points _

/-- **One way only**: control can reach every point, and it never comes back to one. -/
structure OneWay (b : Body) : Prop where
  reachable : ∀ p ∈ b.points, p ∈ b.reachable
  acyclic : ∀ p, ¬ OnCycle b.successors p

namespace WellFormed

/-- Whether control goes one way only can be read off the order. -/
theorem oneWay_iff (h : b.WellFormed) :
    b.OneWay ↔ (∀ p ∈ b.points, p ∈ b.reachable) ∧ ∀ p ∈ b.points, ∀ q ∈ b.successors p,
      b.reversePostorder.idxOf p < b.reversePostorder.idxOf q := by
  constructor
  · rintro ⟨hreachable, hacyclic⟩
    refine ⟨hreachable, fun p hp => ?_⟩
    exact h.topological_iff.mpr (fun p _ => hacyclic p) p (hreachable p hp)
  · rintro ⟨hreachable, hforward⟩
    refine ⟨hreachable, fun p hcycle => ?_⟩
    -- what is on a cycle has a successor, and so is a point of the body
    obtain ⟨_, hstep, _⟩ := TransGen.head'_iff.mp hcycle
    have hp := hreachable p (h.mem_points_of_successors hstep)
    have hnone := h.topological_iff.mp fun p _ q hq =>
      hforward p (h.mem_points_of_successors hq) q hq
    exact hnone p hp hcycle

theorem idxOf_lt_of_oneWay (h : b.WellFormed) (hb : b.OneWay) (hq : q ∈ b.successors p) :
    b.reversePostorder.idxOf p < b.reversePostorder.idxOf q :=
  (h.oneWay_iff.mp hb).2 p (h.mem_points_of_successors hq) q hq

/-- The loans are looked for downstream, from the predecessors of a point to the point. -/
theorem loanProblem_downstream (h : b.WellFormed) (hb : b.OneWay) (rules : Arena LoanRule) :
    (b.loanProblem rules).Downstream := by
  intro v hv q hq
  obtain ⟨p, _, rfl⟩ := mem_loanProblem_visits.mp hv
  rw [Problem.rank, Problem.rank, order_loanProblem]
  exact h.idxOf_lt_of_oneWay hb (h.mem_predecessors.mp hq)

/-- Liveness is looked for the other way round, from the successors of a point to the point. -/
theorem livenessProblem_downstream (h : b.WellFormed) (hb : b.OneWay) :
    b.livenessProblem.Downstream := by
  intro v hv q hq
  obtain ⟨p, hp, rfl⟩ := mem_livenessProblem_visits.mp hv
  rw [Problem.rank, Problem.rank, order_livenessProblem]
  exact idxOf_reverse_lt h.nodup_reversePostorder hp
    (h.mem_reversePostorder.mpr (h.mem_points_of_mem_successors hq)) (h.idxOf_lt_of_oneWay hb hq)

/-- **Liveness settles in one changing sweep** where control goes one way only, from whatever
    start: the sweep overwrites all there was. -/
theorem exists_liveness_of_oneWay (h : b.WellFormed) (hb : b.OneWay)
    {options : LivenessOptions} (hallows : (b.livenessBudget options).Allows 1)
    {seed : Option Liveness} {start : Arena LiveSets} (hstart : b.livenessStart seed = .ok start) :
    ∃ l, b.liveness options seed = .ok l ∧ l.sweeps ≤ 1 := by
  have hcovers := covers_livenessStart h hstart
  have hdown := h.livenessProblem_downstream hb
  obtain ⟨k, hk, hsettles⟩ := hdown.exists_settles h.livenessProblem_visitsEach hcovers
  have hone : b.livenessProblem.sweep^[k] start = b.livenessProblem.sweep^[1] b.noneLive := calc
    _ = b.livenessProblem.sweep (b.livenessProblem.sweep^[k] start) := hsettles.stable.symm
    _ = b.livenessProblem.sweep b.noneLive := hdown.sweep_eq h.livenessProblem_visitsEach
      (Problem.covers_iterate hcovers k) h.covers_noneLive
  refine ⟨_, (liveness_eq_ok_iff hstart).mpr ⟨k, hsettles, hallows.mono hk, ?_, rfl⟩, hk⟩
  rw [hone]
  exact h.strayVariable?_iterate 1

/-- **The loans settle in one changing sweep** where control goes one way only, from whatever
    start and under whatever rules. -/
theorem exists_activeLoans_of_oneWay (h : b.WellFormed) (hb : b.OneWay)
    (rules : Arena LoanRule) {options : LoanOptions} (hallows : (b.loanBudget options).Allows 1)
    {seed : Option ActiveLoans} {start : Arena LoanSets} (hstart : b.loanStart seed = .ok start) :
    ∃ a, b.activeLoans rules options seed = .ok a ∧ a.sweeps ≤ 1 := by
  obtain ⟨k, hk, hsettles⟩ := (h.loanProblem_downstream hb rules).exists_settles
    (h.loanProblem_visitsEach rules) (covers_loanStart h hstart)
  exact ⟨_, (activeLoans_eq_ok_iff hstart).mpr ⟨k, hsettles, hallows.mono hk, rfl⟩, hk⟩

/-- One changing sweep is allowed unless less was asked for. -/
theorem one_le_limit (h : b.WellFormed) {maxSweeps : Option Int} (hmax : ∀ n ∈ maxSweeps, 1 ≤ n) :
    1 ≤ maxSweeps.getD b.points.length := by
  cases maxSweeps with
  | none =>
    have hpos := h.points_length_pos
    rw [Option.getD_none]
    omega
  | some n => exact hmax n rfl

end WellFormed

end Body

/-- **The reverse postorder is what its name says.**  It lists each point of a checked body
    once, the entry first, then the other points that control can reach, and after them those
    that it cannot, in layout order.  From a reachable point, an edge that does not go forward
    in the order leads to a point from which a walk comes back; so the order is topological
    exactly if no reachable point is on a cycle.  And if control reaches every point and never
    comes back to one, then liveness and active loans both return after at most one changing
    sweep, from whatever start and under whatever rules, unless the deadline has passed or not
    even one such sweep is allowed. -/
theorem reversePostorder_exact {d : Draft} {b : Body} (hb : d.check = .ok b) :
    b.reversePostorder.Perm b.points ∧
    b.reversePostorder.head? = some b.entryPoint ∧
    (∀ p, p ∈ b.reachable ↔ Leads b.successors b.entryPoint p) ∧
    (∃ found, b.reversePostorder = found ++ b.points.filter (· ∉ b.reachable) ∧
      ∀ p, p ∈ found ↔ p ∈ b.reachable) ∧
    (∀ p ∈ b.reachable, ∀ q ∈ b.successors p,
      ¬ b.reversePostorder.idxOf p < b.reversePostorder.idxOf q → Leads b.successors q p) ∧
    ((∀ p ∈ b.reachable, ∀ q ∈ b.successors p,
        b.reversePostorder.idxOf p < b.reversePostorder.idxOf q) ↔
      ∀ p ∈ b.reachable, ¬ OnCycle b.successors p) ∧
    (b.OneWay →
      (∀ (options : LivenessOptions) (seed : Option Liveness) (start : Arena LiveSets),
        options.expired = false → (∀ n ∈ options.maxSweeps, 1 ≤ n) →
        b.livenessStart seed = .ok start →
          ∃ l, b.liveness options seed = .ok l ∧ l.sweeps ≤ 1) ∧
      ∀ (rules : Arena LoanRule) (options : LoanOptions) (seed : Option ActiveLoans)
        (start : Arena LoanSets), options.expired = false → (∀ n ∈ options.maxSweeps, 1 ≤ n) →
        b.loanStart seed = .ok start →
          ∃ a, b.activeLoans rules options seed = .ok a ∧ a.sweeps ≤ 1) := by
  have h := Draft.wellFormed_of_check hb
  refine ⟨h.reversePostorder_perm, h.head?_reversePostorder, fun p => h.mem_reachable_iff,
    ⟨_, h.reversePostorder_eq_append, fun p => h.mem_search_done_iff_reachable⟩, ?_,
    h.topological_iff, fun hway => ⟨?_, ?_⟩⟩
  · intro p hp q hq hnot
    exact (h.idxOf_lt_or_leads hp hq).resolve_left hnot
  · intro options seed start hexpired hmax hstart
    exact h.exists_liveness_of_oneWay hway ⟨hexpired, Or.inr (h.one_le_limit hmax)⟩ hstart
  · intro rules options seed start hexpired hmax hstart
    exact h.exists_activeLoans_of_oneWay hway rules ⟨hexpired, Or.inr (h.one_le_limit hmax)⟩ hstart

/-- Borrow `x`, then go on to use the reference, directly or by way of a block that is laid
    out after the use. -/
def detour : Draft where
  name := "f"
  locals := .ofList [("x", ⟨"x", .scalar "i32", none, false⟩),
    ("p", ⟨"p", .ref ⟨"'p", false⟩ false (.scalar "i32"), none, false⟩)]
  regions := .ofList [("'p", ⟨"'p", false⟩)]
  blocks := .ofList [
    ("bb0", ⟨"bb0", [.plain {
      kind := "borrow"
      write := some "p"
      loan := some ⟨⟨"L0", ⟨"bb0", 0⟩, .ofLocal "x", .shared⟩, [⟨"'p", false⟩]⟩ }],
      .jump { kind := "branch", targets := ["bb1", "bb2"] }⟩),
    ("bb1", ⟨"bb1", [.plain { kind := "use", reads := .single "p" }], .jump { kind := "return" }⟩),
    ("bb2", ⟨"bb2", [], .jump { kind := "goto", targets := ["bb1"] }⟩)]
  entry := "bb0"

/-- The detour goes back in the layout and forward in the order, so one changing sweep finds
    that the reference is live there, and one that its loan is active. -/
theorem detour_order_exact : ∃ b l g rules a, detour.check = .ok b ∧ b.OneWay ∧
    b.points = [⟨"bb0", 0⟩, ⟨"bb0", 1⟩, ⟨"bb1", 0⟩, ⟨"bb1", 1⟩, ⟨"bb2", 0⟩] ∧
    b.reversePostorder = [⟨"bb0", 0⟩, ⟨"bb0", 1⟩, ⟨"bb2", 0⟩, ⟨"bb1", 0⟩, ⟨"bb1", 1⟩] ∧
    b.liveness = .ok l ∧ "p" ∈ l.liveIn ⟨"bb2", 0⟩ ∧ l.sweeps ≤ 1 ∧
    b.subsetGraph = .ok g ∧ b.loanRules l g = .ok rules ∧
    b.activeLoans rules = .ok a ∧ a.active ⟨"bb2", 0⟩ ≠ ∅ ∧ a.sweeps ≤ 1 := by
  have hrun : (detour.check.toOption.any fun b => b.liveness.toOption.any fun l =>
      b.subsetGraph.toOption.any fun g => (b.loanRules l g).toOption.any fun rules =>
        (b.activeLoans rules).toOption.any fun a => decide (
          ((∀ p ∈ b.points, p ∈ b.reachable) ∧ ∀ p ∈ b.points, ∀ q ∈ b.successors p,
            b.reversePostorder.idxOf p < b.reversePostorder.idxOf q) ∧
          b.points = [⟨"bb0", 0⟩, ⟨"bb0", 1⟩, ⟨"bb1", 0⟩, ⟨"bb1", 1⟩, ⟨"bb2", 0⟩] ∧
          b.reversePostorder = [⟨"bb0", 0⟩, ⟨"bb0", 1⟩, ⟨"bb2", 0⟩, ⟨"bb1", 0⟩, ⟨"bb1", 1⟩] ∧
          "p" ∈ l.liveIn ⟨"bb2", 0⟩ ∧ a.active ⟨"bb2", 0⟩ ≠ ∅)) = true := by
    decide +kernel
  simp only [Option.any_eq_true, toOption_eq_some, decide_eq_true_eq] at hrun
  obtain ⟨b, hb, l, hl, g, hg, rules, hrules, a, ha, hforward, hpoints, horder, hlive, hactive⟩ :=
    hrun
  have hway := (Draft.wellFormed_of_check hb).oneWay_iff.mpr hforward
  obtain ⟨_, _, _, _, _, _, hsweeps⟩ := reversePostorder_exact hb
  obtain ⟨hliveness, hloans⟩ := hsweeps hway
  obtain ⟨l', hl', hone⟩ := hliveness {} none _ rfl (by simp) rfl
  obtain ⟨a', ha', hone'⟩ := hloans rules {} none _ rfl (by simp) rfl
  obtain rfl : l = l' := Except.ok.inj (hl.symm.trans hl')
  obtain rfl : a = a' := Except.ok.inj (ha.symm.trans ha')
  exact ⟨b, l, g, rules, a, hb, hway, hpoints, horder, hl, hlive, hone, hg, hrules, ha, hactive,
    hone'⟩

end BorrowFlow
