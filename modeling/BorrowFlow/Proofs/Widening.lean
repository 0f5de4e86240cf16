import BorrowFlow.Proofs.RegionValue
import Mathlib.Data.List.Forall2

/-! # More edges never find less

    One body *widens* another if it differs only in that terminators have more
    targets, statements and the signature more obligations, and loans more regions
    that they are issued into (`Body.Widens`).  Then every walk of the first body
    is one of the second, and every flow as well; so whatever the analysis finds in
    the first it finds in the second (`findings_grow_of_widens`).

    The visits of the two runs may come in different orders and the sweeps may
    differ in number: nothing of this shows in what the results mean.
-/

namespace BorrowFlow

open Relation (ReflTransGen)

instance {α : Type} [Ord α] : HasSubset (SortedSet α) := ⟨fun s t => ∀ a, a ∈ s → a ∈ t⟩

/-! ## Widening -/

/-- The same loan, issued into these regions and perhaps more. -/
structure LoanIssue.Widens (i j : LoanIssue) : Prop where
  loan : j.loan = i.loan
  regions : i.regions ⊆ j.regions

/-- The same facts, with these obligations and perhaps more. -/
structure Statement.Widens (s t : Statement) : Prop where
  reads : t.reads = s.reads
  write : t.write = s.write
  drops : t.drops = s.drops
  accesses : t.accesses = s.accesses
  assigned : t.assigned = s.assigned
  loan : ∀ i ∈ s.loan, ∃ j ∈ t.loan, i.Widens j
  obligations : s.obligations ⊆ t.obligations

/-- A block of the same name and length, with these targets and perhaps more. -/
structure Block.Widens (x y : Block) : Prop where
  name : y.name = x.name
  statements : List.Forall₂ Statement.Widens x.statements y.statements
  terminator : x.terminator.toStatement.Widens y.terminator.toStatement
  targets : x.terminator.targets ⊆ y.terminator.targets

/-- **A wider body**: the same variables, regions and layout, and more edges. -/
structure Body.Widens (b c : Body) : Prop where
  locals : ∀ v, v ∈ c.locals ↔ v ∈ b.locals
  regions : ∀ r, r ∈ c.regions ↔ r ∈ b.regions
  blocks : List.Forall₂ Block.Widens b.blocks c.blocks
  bounds : b.bounds ⊆ c.bounds

instance (i j : LoanIssue) : Decidable (i.Widens j) :=
  decidable_of_iff (j.loan = i.loan ∧ i.regions ⊆ j.regions)
    ⟨fun h => ⟨h.1, h.2⟩, fun h => ⟨h.loan, h.regions⟩⟩

instance (s t : Statement) : Decidable (s.Widens t) :=
  decidable_of_iff (t.reads = s.reads ∧ t.write = s.write ∧ t.drops = s.drops ∧
      t.accesses = s.accesses ∧ t.assigned = s.assigned ∧
      (∀ i ∈ s.loan, ∃ j ∈ t.loan, i.Widens j) ∧ s.obligations ⊆ t.obligations)
    ⟨fun ⟨h₁, h₂, h₃, h₄, h₅, h₆, h₇⟩ => ⟨h₁, h₂, h₃, h₄, h₅, h₆, h₇⟩,
      fun ⟨h₁, h₂, h₃, h₄, h₅, h₆, h₇⟩ => ⟨h₁, h₂, h₃, h₄, h₅, h₆, h₇⟩⟩

instance (x y : Block) : Decidable (x.Widens y) :=
  decidable_of_iff (y.name = x.name ∧ List.Forall₂ Statement.Widens x.statements y.statements ∧
      x.terminator.toStatement.Widens y.terminator.toStatement ∧
      x.terminator.targets ⊆ y.terminator.targets)
    ⟨fun ⟨h₁, h₂, h₃, h₄⟩ => ⟨h₁, h₂, h₃, h₄⟩, fun ⟨h₁, h₂, h₃, h₄⟩ => ⟨h₁, h₂, h₃, h₄⟩⟩

instance (b c : Body) : Decidable (b.Widens c) :=
  decidable_of_iff ((c.locals ⊆ b.locals ∧ b.locals ⊆ c.locals) ∧
      (c.regions ⊆ b.regions ∧ b.regions ⊆ c.regions) ∧
      List.Forall₂ Block.Widens b.blocks c.blocks ∧ b.bounds ⊆ c.bounds)
    ⟨fun ⟨h₁, h₂, h₃, h₄⟩ => ⟨fun _ => ⟨fun hv => h₁.1 hv, fun hv => h₁.2 hv⟩,
        fun _ => ⟨fun hr => h₂.1 hr, fun hr => h₂.2 hr⟩, h₃, h₄⟩,
      fun ⟨h₁, h₂, h₃, h₄⟩ => ⟨⟨fun v => (h₁ v).mp, fun v => (h₁ v).mpr⟩,
        ⟨fun r => (h₂ r).mp, fun r => (h₂ r).mpr⟩, h₃, h₄⟩⟩

/-- What findings have to include to be no smaller than others. -/
structure Findings.Grows (f f' : Findings) : Prop where
  liveIn : ∀ p, f.liveness.liveIn p ⊆ f'.liveness.liveIn p
  liveOut : ∀ p, f.liveness.liveOut p ⊆ f'.liveness.liveOut p
  dropLiveIn : ∀ p, f.liveness.dropLiveIn p ⊆ f'.liveness.dropLiveIn p
  regionsLive : ∀ p, f.liveness.regionsLive p ⊆ f'.liveness.regionsLive p
  active : ∀ p, f.active.active p ⊆ f'.active.active p
  out : ∀ p, f.active.out p ⊆ f'.active.out p
  values : ∀ v ∈ f.values, ∃ v' ∈ f'.values,
    v'.region = v.region ∧ v.loans ⊆ v'.loans ∧ v.points ⊆ v'.points
  conflicts : f.conflicts ⊆ f'.conflicts

/-! ## Points and facts -/

namespace Block.Widens

variable {x y : Block}

theorem facts (h : x.Widens y) : List.Forall₂ Statement.Widens x.facts y.facts :=
  List.rel_append h.statements (.cons h.terminator .nil)

theorem points_eq (h : x.Widens y) : y.points = x.points := by
  rw [points, points, size, size, h.name, h.statements.length_eq]

end Block.Widens

theorem Statement.Widens.refl (s : Statement) : s.Widens s where
  reads := rfl
  write := rfl
  drops := rfl
  accesses := rfl
  assigned := rfl
  loan := fun i hi => ⟨i, hi, rfl, List.Subset.refl _⟩
  obligations := List.Subset.refl _

theorem flatMap_points_of_widens {xs ys : List Block} (h : List.Forall₂ Block.Widens xs ys) :
    ys.flatMap Block.points = xs.flatMap Block.points := by
  induction h with
  | nil => rfl
  | cons hxy _ ih => rw [List.flatMap_cons, List.flatMap_cons, hxy.points_eq, ih]

namespace Body.Widens

theorem points_eq {b c : Body} (h : b.Widens c) : c.points = b.points :=
  flatMap_points_of_widens h.blocks

variable {b c : Body} (h : b.Widens c) (hb : b.WellFormed) (hc : c.WellFormed)

include h hb hc

/-- At each point the wider body has the same facts, or more. -/
theorem facts (p : Point) : (b.facts p).Widens (c.facts p) := by
  by_cases hp : p ∈ b.points
  · obtain ⟨x, hx, i, hi, rfl⟩ := mem_points.mp hp
    obtain ⟨y, hy, hxy⟩ := exists_mem_of_forall₂ h.blocks hx
    have hlength := hxy.facts.length_eq
    have hi' : i < x.facts.length := by rw [Block.length_facts]; exact hi
    have hi'' : i < y.facts.length := hlength ▸ hi'
    rw [hb.facts_eq hx (List.getElem?_eq_getElem hi'), ← hxy.name,
      hc.facts_eq hy (List.getElem?_eq_getElem hi'')]
    exact hxy.facts.get hi' hi''
  · rw [hb.facts_of_not_mem hp, hc.facts_of_not_mem (h.points_eq ▸ hp)]
    exact .refl _

/-- Control may go where it went before. -/
theorem successors {p q : Point} (hq : q ∈ b.successors p) : q ∈ c.successors p := by
  obtain ⟨x, hx, i, rfl, hnext⟩ := hb.mem_successors_iff.mp hq
  obtain ⟨y, hy, hxy⟩ := exists_mem_of_forall₂ h.blocks hx
  refine hc.mem_successors_iff.mpr ⟨y, hy, i, by rw [hxy.name], ?_⟩
  rw [hxy.name, ← hxy.statements.length_eq]
  rcases hnext with hnext | ⟨hlast, name, hname, rfl⟩
  · exact Or.inl hnext
  · exact Or.inr ⟨hlast, name, hxy.targets hname, rfl⟩

theorem var? {x : String} {v : Variable} (hv : b.var? x = some v) : c.var? x = some v := by
  obtain ⟨hmem, hname⟩ := hb.var?_eq_some_iff.mp hv
  exact hc.var?_eq_some_iff.mpr ⟨(h.locals v).mpr hmem, hname⟩

/-! ## Walks and flows -/

theorem walk {w : List Point} (hw : b.Walk w) : c.Walk w :=
  hw.imp fun _ _ hq => h.successors hb hc hq

theorem names_eq (want : Want) (p : Point) :
    want.names (c.facts p) = want.names (b.facts p) := by
  cases want with
  | use => exact (h.facts hb hc p).reads
  | drop => exact (h.facts hb hc p).drops

theorem ahead {want : Want} {x : String} {p : Point} (hahead : b.Ahead want x p) :
    c.Ahead want x p := by
  obtain ⟨before, q, hhead, hwalk, hwant, hkept⟩ := hahead
  refine ⟨before, q, hhead, h.walk hb hc hwalk, ?_, fun r hr => ?_⟩
  · rw [h.names_eq hb hc]
    exact hwant
  · rw [(h.facts hb hc r).write]
    exact hkept r hr

theorem needs {precise : Bool} {p : Point} {r : Region} (hneeds : b.Needs precise p r) :
    c.Needs precise p r := by
  rcases hneeds with huniversal | ⟨want, x, v, hv, hr, hahead⟩
  · exact Or.inl huniversal
  · exact Or.inr ⟨want, x, v, h.var? hb hc hv, hr, h.ahead hb hc hahead⟩

theorem obligations : b.obligations ⊆ c.obligations := by
  intro o ho
  rcases List.mem_append.mp ho with ho | ho
  · exact List.mem_append_left _ (h.bounds ho)
  · obtain ⟨p, hp, ho⟩ := List.mem_flatMap.mp ho
    refine List.mem_append_right _ (List.mem_flatMap.mpr ⟨p, h.points_eq ▸ hp, ?_⟩)
    exact (h.facts hb hc p).obligations ho

theorem flowsInto {r s : Region} (hflow : b.FlowsInto r s) : c.FlowsInto r s := by
  refine ReflTransGen.mono (fun r s hstep => ?_) r s hflow
  obtain ⟨o, ho, hsub, hsup⟩ := hstep
  exact ⟨o, h.obligations hb hc ho, hsub, hsup⟩

/-- A loan is issued in the wider body too, at the same point. -/
theorem issues {i : LoanIssue} (hi : b.Issues i) : ∃ j, c.Issues j ∧ i.Widens j := by
  obtain ⟨j, hj, hij⟩ := (h.facts hb hc i.loan.point).loan i hi
  exact ⟨j, by rw [Issues, hij.loan]; exact hj, hij⟩

theorem matters {precise : Bool} {i j : LoanIssue} (hij : i.Widens j) {p : Point}
    (hmatters : b.Matters precise i p) : c.Matters precise j p := by
  obtain ⟨r, hr, s, hflow, hneeds⟩ := hmatters
  exact ⟨r, hij.regions hr, s, h.flowsInto hb hc hflow, h.needs hb hc hneeds⟩

theorem overwrites_iff {l : Loan} {p : Point} : c.Overwrites l p ↔ b.Overwrites l p := by
  rw [Overwrites, Overwrites, (h.facts hb hc p).assigned]

theorem leaves {precise : Bool} {i j : LoanIssue} (hij : i.Widens j) {q : Point}
    (hleaves : b.Leaves precise i q) : c.Leaves precise j q := by
  obtain ⟨passed, hwalk, hlast, hkept⟩ := hleaves
  rw [← hij.loan] at hwalk hlast hkept
  refine ⟨passed, h.walk hb hc hwalk, hlast, fun x hx => ⟨?_, fun hne => ?_⟩⟩
  · exact h.matters hb hc hij (hkept x hx).1
  · rw [h.overwrites_iff hb hc]
    exact (hkept x hx).2 hne

theorem holds {precise : Bool} {i j : LoanIssue} (hij : i.Widens j) {p : Point}
    (hholds : b.Holds precise i p) : c.Holds precise j p := by
  obtain ⟨hmatters, q, hq, hleaves⟩ := holds_iff_leaves.mp hholds
  exact holds_iff_leaves.mpr ⟨h.matters hb hc hij hmatters, q, h.successors hb hc hq,
    h.leaves hb hc hij hleaves⟩

end Body.Widens

/-! ## Findings -/

section Findings

variable {b c : Body} {options : AnalysisOptions} {f f' : Findings} {rules rules' : Arena LoanRule}
  (h : b.Widens c) (hb : b.WellFormed) (hc : c.WellFormed)
  (hf : b.Finds options f rules) (hf' : c.Finds options f' rules')

include h hb hc hf hf'

theorem live_subset (want : Want) (p : Point) :
    want.live (f.liveness.table.read {} p) ⊆ want.live (f'.liveness.table.read {} p) := by
  intro x hx
  rw [hb.mem_live_iff hf.liveness] at hx
  rw [hc.mem_live_iff hf'.liveness]
  exact h.ahead hb hc hx

theorem liveOut_subset (p : Point) : f.liveness.liveOut p ⊆ f'.liveness.liveOut p := by
  have hbody := (Body.liveness_ok hf.liveness).1
  have hbody' := (Body.liveness_ok hf'.liveness).1
  intro x hx
  simp only [Liveness.liveOut, hbody, hbody', SortedSet.mem_unions, List.mem_map] at hx ⊢
  obtain ⟨_, ⟨q, hq, rfl⟩, hx⟩ := hx
  exact ⟨_, ⟨q, h.successors hb hc hq, rfl⟩, live_subset h hb hc hf hf' .use q x hx⟩

theorem regionsLive_subset (p : Point) :
    f.liveness.regionsLive p ⊆ f'.liveness.regionsLive p := by
  intro r hr
  obtain ⟨hmem, hneeds⟩ := (hb.mem_regionsLive_iff hf.liveness).mp hr
  exact (hc.mem_regionsLive_iff hf'.liveness).mpr ⟨(h.regions r).mpr hmem, h.needs hb hc hneeds⟩

theorem active_subset (p : Point) : f.active.active p ⊆ f'.active.active p := by
  intro l hl
  obtain ⟨i, hi, rfl, hholds⟩ := ((hf.prepared hb).mem_active_iff hf.active).mp hl
  obtain ⟨j, hj, hij⟩ := h.issues hb hc hi
  exact ((hf'.prepared hc).mem_active_iff hf'.active).mpr
    ⟨j, hj, hij.loan, h.holds hb hc hij hholds⟩

theorem out_subset (p : Point) : f.active.out p ⊆ f'.active.out p := by
  intro l hl
  obtain ⟨i, hi, rfl, hleaves⟩ := ((hf.prepared hb).mem_out_iff hf.active).mp hl
  obtain ⟨j, hj, hij⟩ := h.issues hb hc hi
  exact ((hf'.prepared hc).mem_out_iff hf'.active).mpr
    ⟨j, hj, hij.loan, h.leaves hb hc hij hleaves⟩

theorem loansInto_subset {r : Region} (hr : r ∈ b.regions) :
    f.graph.loansInto r ⊆ f'.graph.loansInto r := by
  intro l hl
  obtain ⟨i, hi, rfl, s, hs, hflow⟩ := (hb.mem_loansInto_iff hf.graph hr).mp hl
  obtain ⟨j, hj, hij⟩ := h.issues hb hc hi
  exact (hc.mem_loansInto_iff hf'.graph ((h.regions r).mpr hr)).mpr
    ⟨j, hj, hij.loan, s, hij.regions hs, h.flowsInto hb hc hflow⟩

theorem valuePoints_subset {r : Region} (hr : r ∈ b.regions) :
    (Liveness.regionValue f.graph f.liveness.ownPoints r).points ⊆
      (Liveness.regionValue f'.graph f'.liveness.ownPoints r).points := by
  have hbody := (Body.liveness_ok hf.liveness).1
  have hbody' := (Body.liveness_ok hf'.liveness).1
  intro p hp
  obtain ⟨hmem, s, hs, hflow, hlive⟩ := (hb.mem_points_regionValue hbody hf.graph hr).mp hp
  exact (hc.mem_points_regionValue hbody' hf'.graph ((h.regions r).mpr hr)).mpr
    ⟨h.points_eq ▸ hmem, s, (h.regions s).mpr hs, h.flowsInto hb hc hflow,
      regionsLive_subset h hb hc hf hf' p s hlive⟩

theorem conflicts_subset : f.conflicts ⊆ f'.conflicts := by
  intro k hk
  obtain ⟨⟨a, ha, haccess⟩, i, hi, hloan, hholds⟩ := (hf.mem_conflicts_iff hb).mp hk
  obtain ⟨j, hj, hij⟩ := h.issues hb hc hi
  refine (hf'.mem_conflicts_iff hc).mpr
    ⟨⟨a, ?_, haccess⟩, j, hj, hij.loan.trans hloan, h.holds hb hc hij hholds⟩
  rw [(h.facts hb hc k.point).accesses]
  exact ha

end Findings

/-- **The findings of a wider body are no smaller.**  Whatever is live, active,
    leaving a point, in the value of a region or reported in a body is so in a wider
    one, under the same options. -/
theorem findings_grow_of_widens {d d' : Draft} {b c : Body} {options : AnalysisOptions}
    {a a' : Analysis} {f f' : Findings} (hb : d.check = .ok b) (hc : d'.check = .ok c)
    (h : b.Widens c) (ha : b.analyze options = .ok a) (hf : a.outcome = .complete f)
    (ha' : c.analyze options = .ok a') (hf' : a'.outcome = .complete f') : f.Grows f' := by
  have hb := Draft.wellFormed_of_check hb
  have hc := Draft.wellFormed_of_check hc
  obtain ⟨rules, hf⟩ := Body.analyze_complete ha hf
  obtain ⟨rules', hf'⟩ := Body.analyze_complete ha' hf'
  have hbody := (Body.liveness_ok hf.liveness).1
  have hbody' := (Body.liveness_ok hf'.liveness).1
  refine
    { liveIn := live_subset h hb hc hf hf' .use
      liveOut := liveOut_subset h hb hc hf hf'
      dropLiveIn := live_subset h hb hc hf hf' .drop
      regionsLive := regionsLive_subset h hb hc hf hf'
      active := active_subset h hb hc hf hf'
      out := out_subset h hb hc hf hf'
      values := ?_
      conflicts := conflicts_subset h hb hc hf hf' }
  intro v hv
  rw [hf.values, Liveness.mem_regionValues_iff hbody] at hv
  obtain ⟨r, hr, rfl⟩ := hv
  rw [hf'.values]
  exact ⟨_, (Liveness.mem_regionValues_iff hbody').mpr ⟨r, (h.regions r).mpr hr, rfl⟩, rfl,
    loansInto_subset h hb hc hf hf' hr, valuePoints_subset h hb hc hf hf' hr⟩

/-- The sample branch with its third target widens the one without, so whatever is
    found without it is found with it. -/
theorem branching_findings_grow :
    ∃ (b c : Body) (f f' : Findings), Sample.body (.branching false) = .ok b ∧
      Sample.body (.branching true) = .ok c ∧ b.Widens c ∧
      b.analyze = .ok ⟨b, .complete f⟩ ∧ c.analyze = .ok ⟨c, .complete f'⟩ ∧ f.Grows f' := by
  have hbuilt : ((Sample.body (.branching false)).toOption.any fun b =>
      (Sample.body (.branching true)).toOption.any fun c =>
        decide (b.Widens c ∧ 2 ≤ b.points.length ∧ 2 ≤ c.points.length)) = true := by
    decide +kernel
  simp only [Option.any_eq_true, toOption_eq_some, decide_eq_true_eq] at hbuilt
  obtain ⟨b, hbody, c, hbody', h, hroom, hroom'⟩ := hbuilt
  obtain ⟨d, hb⟩ := Sample.exists_draft hbody
  obtain ⟨d', hc⟩ := Sample.exists_draft hbody'
  obtain ⟨f, hf⟩ := (Draft.wellFormed_of_check hb).exists_findings true (.inl hroom)
  obtain ⟨f', hf'⟩ := (Draft.wellFormed_of_check hc).exists_findings true (.inl hroom')
  exact ⟨b, c, f, f', hbody, hbody', h, hf, hf', findings_grow_of_widens hb hc h hf rfl hf' rfl⟩

end BorrowFlow
