import BorrowFlow.Proofs.RegionValue
import Mathlib.Data.List.Perm.Basic

/-! # Layout and entry do not matter

    One body *rearranges* another if it lists the same blocks, variables, regions and bounds
    in any order, wherever control enters (`Body.Rearranges`).  The order of the blocks and
    the entry decide in which order the solvers visit the points, so the tables of two runs
    may differ after every sweep.  But each point has the same facts and the same successors
    in both bodies, so they have the same walks and the same flows, and by these alone the
    results of complete runs are told (`findings_same_of_rearranges`).
-/

namespace BorrowFlow

/-! ## Rearrangement -/

/-- **A rearranged body**: the same blocks, variables, regions and bounds.  Nothing is said of
    the entry. -/
structure Body.Rearranges (b c : Body) : Prop where
  locals : c.locals.Perm b.locals
  regions : c.regions.Perm b.regions
  blocks : c.blocks.Perm b.blocks
  bounds : ∀ o, o ∈ c.bounds ↔ o ∈ b.bounds

instance (b c : Body) : Decidable (b.Rearranges c) :=
  decidable_of_iff (c.locals.Perm b.locals ∧ c.regions.Perm b.regions ∧ c.blocks.Perm b.blocks ∧
      c.bounds ⊆ b.bounds ∧ b.bounds ⊆ c.bounds)
    ⟨fun h => ⟨h.1, h.2.1, h.2.2.1, fun _ => ⟨fun ho => h.2.2.2.1 ho, fun ho => h.2.2.2.2 ho⟩⟩,
      fun h => ⟨h.locals, h.regions, h.blocks, fun o => (h.bounds o).mp, fun o => (h.bounds o).mpr⟩⟩

/-- Findings that differ at most in the order of regions and conflicts, and in the number of
    sweeps. -/
structure Findings.Same (f f' : Findings) : Prop where
  liveIn : ∀ p, f'.liveness.liveIn p = f.liveness.liveIn p
  liveOut : ∀ p, f'.liveness.liveOut p = f.liveness.liveOut p
  dropLiveIn : ∀ p, f'.liveness.dropLiveIn p = f.liveness.dropLiveIn p
  regionsLive : ∀ p, f'.liveness.regionsLive p = f.liveness.regionsLive p
  active : ∀ p, f'.active.active p = f.active.active p
  out : ∀ p, f'.active.out p = f.active.out p
  values : f'.values.Perm f.values
  conflicts : f'.conflicts.Perm f.conflicts

/-- In tables without repeated names, a lookup does not depend on the order. -/
theorem find?_name_eq_of_perm {α : Type} {name : α → String} {l m : List α}
    (h : (l.map name).Nodup) (hperm : m.Perm l) (n : String) :
    (m.find? fun y => name y = n) = l.find? fun y => name y = n := by
  have h' : (m.map name).Nodup := (hperm.map name).nodup_iff.mpr h
  apply Option.ext
  intro x
  rw [find?_name_eq_some_iff h, find?_name_eq_some_iff h', hperm.mem_iff]

namespace Body.Rearranges

variable {b c : Body} (h : b.Rearranges c)

include h

theorem mem_points_iff {p : Point} : p ∈ c.points ↔ p ∈ b.points := by
  simp only [mem_points, h.blocks.mem_iff]

variable (hb : b.WellFormed)

include hb

theorem slot?_eq (p : Point) : c.slot? p = b.slot? p := by
  have hblock : c.block? p.block = b.block? p.block :=
    find?_name_eq_of_perm hb.blockNames h.blocks p.block
  rw [slot?, slot?, hblock]

theorem facts_eq (p : Point) : c.facts p = b.facts p := by
  rw [facts, facts, h.slot?_eq hb]

theorem successors_eq (p : Point) : c.successors p = b.successors p := by
  rw [successors, successors, h.slot?_eq hb]

theorem var?_eq (x : String) : c.var? x = b.var? x :=
  find?_name_eq_of_perm hb.localNames h.locals x

/-! ## Walks and flows -/

theorem ahead_iff {want : Want} {x : String} {p : Point} :
    c.Ahead want x p ↔ b.Ahead want x p := by
  simp only [Ahead, Walk, h.facts_eq hb, h.successors_eq hb]

theorem needs_iff {precise : Bool} {p : Point} {r : Region} :
    c.Needs precise p r ↔ b.Needs precise p r := by
  simp only [Needs, h.var?_eq hb, h.ahead_iff hb]

theorem mem_obligations_iff {o : Obligation} : o ∈ c.obligations ↔ o ∈ b.obligations := by
  simp only [obligations, List.mem_append, List.mem_flatMap, h.bounds, h.mem_points_iff,
    h.facts_eq hb]

theorem flowsInto_iff {r s : Region} : c.FlowsInto r s ↔ b.FlowsInto r s := by
  simp only [FlowsInto, h.mem_obligations_iff hb]

theorem issues_iff {i : LoanIssue} : c.Issues i ↔ b.Issues i := by
  rw [Issues, Issues, h.facts_eq hb]

theorem matters_iff {precise : Bool} {i : LoanIssue} {p : Point} :
    c.Matters precise i p ↔ b.Matters precise i p := by
  simp only [Matters, h.flowsInto_iff hb, h.needs_iff hb]

theorem leaves_iff {precise : Bool} {i : LoanIssue} {p : Point} :
    c.Leaves precise i p ↔ b.Leaves precise i p := by
  simp only [Leaves, Walk, Overwrites, h.successors_eq hb, h.facts_eq hb, h.matters_iff hb]

theorem holds_iff {precise : Bool} {i : LoanIssue} {p : Point} :
    c.Holds precise i p ↔ b.Holds precise i p := by
  simp only [holds_iff_leaves, h.successors_eq hb, h.matters_iff hb, h.leaves_iff hb]

end Body.Rearranges

/-! ## Findings -/

/-- No conflict is listed twice. -/
theorem Body.WellFormed.nodup_conflicts {b : Body} (h : b.WellFormed) {active : ActiveLoans}
    {cs : List Conflict} (hcs : b.conflicts active = .ok cs) : cs.Nodup := by
  rw [conflicts] at hcs
  split at hcs
  · cases hcs
    refine List.nodup_flatMap.mpr ⟨fun p _ => nodup_eraseDups _, h.nodup_points.imp ?_⟩
    intro p q hne c hp hq
    -- a conflict says at which point it is
    have hpoint : ∀ r, c ∈ b.conflictsAt b.loans active r → c.point = r := by
      intro r hr
      simp only [conflictsAt, List.mem_eraseDups, List.mem_flatMap, List.mem_map] at hr
      obtain ⟨_, _, _, _, rfl⟩ := hr
      rfl
    exact hne ((hpoint p hp).symm.trans (hpoint q hq))
  · cases hcs

section Findings

variable {b c : Body} {options : AnalysisOptions} {f f' : Findings} {rules rules' : Arena LoanRule}
  (h : b.Rearranges c) (hb : b.WellFormed) (hc : c.WellFormed)
  (hf : b.Finds options f rules) (hf' : c.Finds options f' rules')

include h hb hc hf hf'

theorem live_same (want : Want) (p : Point) :
    want.live (f'.liveness.table.read {} p) = want.live (f.liveness.table.read {} p) := by
  apply SortedSet.ext
  intro x
  rw [hb.mem_live_iff hf.liveness, hc.mem_live_iff hf'.liveness, h.ahead_iff hb]

theorem liveOut_same (p : Point) : f'.liveness.liveOut p = f.liveness.liveOut p := by
  have hbody := (Body.liveness_ok hf.liveness).1
  have hbody' := (Body.liveness_ok hf'.liveness).1
  have hlive : f'.liveness.liveIn = f.liveness.liveIn :=
    funext fun q => live_same h hb hc hf hf' .use q
  rw [Liveness.liveOut, Liveness.liveOut, hbody, hbody', h.successors_eq hb, hlive]

theorem regionsLive_same (p : Point) : f'.liveness.regionsLive p = f.liveness.regionsLive p := by
  apply SortedSet.ext
  intro r
  rw [hb.mem_regionsLive_iff hf.liveness, hc.mem_regionsLive_iff hf'.liveness,
    h.regions.mem_iff, h.needs_iff hb]

theorem active_same (p : Point) : f'.active.active p = f.active.active p := by
  apply SortedSet.ext
  intro l
  simp only [(hf.prepared hb).mem_active_iff hf.active, (hf'.prepared hc).mem_active_iff hf'.active,
    h.issues_iff hb, h.holds_iff hb]

theorem out_same (p : Point) : f'.active.out p = f.active.out p := by
  apply SortedSet.ext
  intro l
  simp only [(hf.prepared hb).mem_out_iff hf.active, (hf'.prepared hc).mem_out_iff hf'.active,
    h.issues_iff hb, h.leaves_iff hb]

theorem regionValue_same {r : Region} (hr : r ∈ b.regions) :
    Liveness.regionValue f'.graph f'.liveness.ownPoints r =
      Liveness.regionValue f.graph f.liveness.ownPoints r := by
  have hbody := (Body.liveness_ok hf.liveness).1
  have hbody' := (Body.liveness_ok hf'.liveness).1
  have hr' := h.regions.mem_iff.mpr hr
  have hloans : f'.graph.loansInto r = f.graph.loansInto r := by
    apply SortedSet.ext
    intro l
    simp only [hb.mem_loansInto_iff hf.graph hr, hc.mem_loansInto_iff hf'.graph hr',
      h.issues_iff hb, h.flowsInto_iff hb]
  -- points and loans are kept in sorted sets, which forget in which order they came
  have hpoints : (Liveness.regionValue f'.graph f'.liveness.ownPoints r).points =
      (Liveness.regionValue f.graph f.liveness.ownPoints r).points := by
    apply SortedSet.ext
    intro p
    simp only [hb.mem_points_regionValue hbody hf.graph hr,
      hc.mem_points_regionValue hbody' hf'.graph hr', h.mem_points_iff, h.regions.mem_iff,
      h.flowsInto_iff hb, regionsLive_same h hb hc hf hf']
  rw [Liveness.regionValue, Liveness.regionValue, hloans]
  exact congrArg (RegionValue.mk r _) hpoints

theorem values_same : f'.values.Perm f.values := by
  have hbody := (Body.liveness_ok hf.liveness).1
  have hbody' := (Body.liveness_ok hf'.liveness).1
  rw [hf.values, hf'.values, Liveness.regionValues, Liveness.regionValues, hbody, hbody']
  have hvalues : b.regions.map (Liveness.regionValue f'.graph f'.liveness.ownPoints) =
      b.regions.map (Liveness.regionValue f.graph f.liveness.ownPoints) :=
    List.map_congr_left fun r hr => regionValue_same h hb hc hf hf' hr
  exact (h.regions.map _).trans (.of_eq hvalues)

theorem conflicts_same : f'.conflicts.Perm f.conflicts := by
  -- conflicts are listed by point, so the lists agree as sets only; each is free of repeats
  refine (List.perm_ext_iff_of_nodup (hc.nodup_conflicts hf'.conflicts)
    (hb.nodup_conflicts hf.conflicts)).mpr fun k => ?_
  simp only [hf.mem_conflicts_iff hb, hf'.mem_conflicts_iff hc, Body.Accesses, h.facts_eq hb,
    h.issues_iff hb, h.holds_iff hb]

end Findings

/-- **Layout and entry do not matter.**  If the analyses of two bodies end that list the same
    blocks, variables, regions and bounds, in whatever order and with whatever entry, they
    find the same under the same options: the same variables and regions are live at every
    point, the same loans are in force and leave it, each region has the same loans and
    points, and the same conflicts are reported, each once. -/
theorem findings_same_of_rearranges {d d' : Draft} {b c : Body} {options : AnalysisOptions}
    {a a' : Analysis} {f f' : Findings} (hb : d.check = .ok b) (hc : d'.check = .ok c)
    (h : b.Rearranges c) (ha : b.analyze options = .ok a) (hf : a.outcome = .complete f)
    (ha' : c.analyze options = .ok a') (hf' : a'.outcome = .complete f') : f.Same f' := by
  have hb := Draft.wellFormed_of_check hb
  have hc := Draft.wellFormed_of_check hc
  obtain ⟨rules, hf⟩ := Body.analyze_complete ha hf
  obtain ⟨rules', hf'⟩ := Body.analyze_complete ha' hf'
  exact
    { liveIn := live_same h hb hc hf hf' .use
      liveOut := liveOut_same h hb hc hf hf'
      dropLiveIn := live_same h hb hc hf hf' .drop
      regionsLive := regionsLive_same h hb hc hf hf'
      active := active_same h hb hc hf hf'
      out := out_same h hb hc hf hf'
      values := values_same h hb hc hf hf'
      conflicts := conflicts_same h hb hc hf hf' }

namespace Sample

/-- The sample loop written from its exit: its blocks, variables and regions are declared the
    other way around, so control enters at the exit and never comes to the loop. -/
def loopFromExit : BuildM Unit := do
  let w ← Builder.declareRegion "'w" false
  let t ← Builder.declareRegion "'t" false
  localVar "w" (.adt "Vec" [intRef w])
  localVar "t" (intRef t)
  localVar "v" int
  ["bb2", "bb1", "bb0"].forM fun name => Builder.openBlock name
  setConst "bb1" "v"
  share "bb1" "t" "v"
  let _ ← Builder.call "bb1" (.ofLocal "w") "push"
    [.move (.ofLocal "w"), .copy (.ofLocal "t")] [(t, w)]
  fork "bb1" ["bb1", "bb2"]
  setConst "bb0" "w"
  jump "bb0" "bb1"
  useCopy "bb2" "w"
  leave "bb2"

end Sample

/-- The same is found in the sample loop and in the one written from its exit. -/
theorem loop_findings_same :
    ∃ (b c : Body) (f f' : Findings), Sample.body .loop = .ok b ∧
      (Sample.loopFromExit.perform { name := "turned" }).2.finish = .ok c ∧ b.Rearranges c ∧
      c.entry = "bb2" ∧ b.analyze = .ok ⟨b, .complete f⟩ ∧ c.analyze = .ok ⟨c, .complete f'⟩ ∧
      f.Same f' := by
  have hbuilt : ((Sample.body .loop).toOption.any fun b =>
      (Sample.loopFromExit.perform { name := "turned" }).2.finish.toOption.any fun c =>
        decide (b.Rearranges c ∧ c.entry = "bb2" ∧ 2 ≤ b.points.length ∧ 2 ≤ c.points.length)) =
          true := by
    decide +kernel
  simp only [Option.any_eq_true, toOption_eq_some, decide_eq_true_eq] at hbuilt
  obtain ⟨b, hbody, c, hbody', h, hentry, hroom, hroom'⟩ := hbuilt
  obtain ⟨d, hb⟩ := Sample.exists_draft hbody
  obtain ⟨d', _, hc⟩ := Builder.finish_eq_ok.mp hbody'
  obtain ⟨f, hf⟩ := (Draft.wellFormed_of_check hb).exists_findings true (.inl hroom)
  obtain ⟨f', hf'⟩ := (Draft.wellFormed_of_check hc).exists_findings true (.inl hroom')
  exact ⟨b, c, f, f', hbody, hbody', h, hentry, hf, hf',
    findings_same_of_rearranges hb hc h hf rfl hf' rfl⟩

end BorrowFlow
