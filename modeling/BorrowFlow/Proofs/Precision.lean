import BorrowFlow.Proofs.Builder.Run
import BorrowFlow.Proofs.Widening

/-! # Precise drops find less

    A drop keeps regions live that the destructor may touch.  Told with precision these are the
    declared ones, or those of the type if it has a destructor; without it they are all regions
    of the type.  A declaration is only met if what it declares is part of the type, and one
    that fails leaves no variable behind.  So in a body that was built by requests, the precise
    regions of a variable are among the others (`Variable.DropsOwn.subset`).

    What is wanted ahead of a point does not depend on this.  But fewer regions are needed, fewer
    loans matter, and so each pass finds no more with precision than without
    (`precise_drops_refine`).
-/

namespace BorrowFlow

open BuildM

/-! ## Destructors that stay with their type -/

namespace Variable

/-- What the destructor is declared to touch are regions of the type. -/
def DropsOwn (v : Variable) : Prop := ∀ r ∈ v.drops.getD [], r ∈ v.regions

/-- The regions that a drop keeps live with precision are among those without. -/
theorem DropsOwn.subset {v : Variable} (h : v.DropsOwn) :
    v.dropRegions true ⊆ v.dropRegions false := by
  intro r hr
  show r ∈ v.regions
  rw [dropRegions, if_pos rfl] at hr
  -- what is declared counts; without it, the type does if it has a destructor
  cases hdrops : v.drops with
  | some rs =>
    rw [hdrops] at hr
    exact h r (by rw [hdrops]; exact hr)
  | none =>
    simp only [hdrops] at hr
    split at hr
    · exact hr
    · cases hr

end Variable

namespace Builder

variable {b b' : Builder}

/-- All variables of the builder drop regions of their types only. -/
def DropsOwn (b : Builder) : Prop := ∀ name v, b.locals.get? name = some v → v.DropsOwn

theorem DropsOwn.fill (h : b.DropsOwn) (hfill : Fill b b') : b'.DropsOwn := by
  cases hfill with
  | @var v hnew hregions hdrops =>
    intro name w hw
    rw [OrderedMap.get?_insert] at hw
    split at hw
    · cases hw
      exact hdrops
    · exact h name w hw
  | _ => exact h

/-- **Step lemma**: no operation brings in a variable that drops anything else. -/
theorem DropsOwn.of_does (h : b.DropsOwn) {op : Operation} {span : Option Span}
    (hdoes : op.Does span b b') : b'.DropsOwn := by
  cases hdoes with
  | enters hentries =>
    induction hentries with
    | refl => exact h
    | tail _ hlast ih => exact ih.fill hlast.1
  | _ => exact h

/-- **Run lemma**: nor does a run of them. -/
theorem DropsOwn.after (h : b.DropsOwn) (qs : List Request) : (b.after qs).DropsOwn := by
  induction qs generalizing b with
  | nil => exact h
  | cons q qs ih => exact ih (h.of_does (q.does_step b))

theorem DropsOwn.finish {body : Body} (h : b.DropsOwn) (hbody : b.finish = .ok body)
    {v : Variable} (hv : v ∈ body.locals) : v.DropsOwn := by
  obtain ⟨d, hd, hcheck⟩ := finish_eq_ok.mp hbody
  obtain ⟨blocks, hblocks⟩ := exists_drafts hd
  obtain ⟨checked, _, rfl⟩ := Draft.check_eq_ok.mp hcheck
  obtain ⟨⟨name, w⟩, hmem, rfl⟩ := List.mem_map.mp hv
  rw [hblocks.locals] at hmem
  exact h name w (OrderedMap.get?_eq_some_iff.mpr hmem)

/-- Every variable of a body that a run of requests ends in drops regions of its type only. -/
theorem dropsOwn_of_finish_after {name : String} {span : Span} {qs : List Request} {body : Body}
    (h : (Builder.after { name := name, span := span } qs).finish = .ok body) :
    ∀ v ∈ body.locals, v.DropsOwn := by
  have hnew : Builder.DropsOwn { name := name, span := span } := by
    intro _ _ hv
    cases hv
  exact fun v => (hnew.after qs).finish h

end Builder

/-! ## What is needed -/

namespace Body

/-- With precision, fewer regions are needed. -/
theorem WellFormed.needs_of_precise {b : Body} (h : b.WellFormed)
    (hown : ∀ v ∈ b.locals, v.DropsOwn) {p : Point} {r : Region} (hneeds : b.Needs true p r) :
    b.Needs false p r := by
  obtain huniversal | ⟨want, x, v, hv, hr, hahead⟩ := hneeds
  · exact Or.inl huniversal
  · refine Or.inr ⟨want, x, v, hv, ?_, hahead⟩
    cases want with
    | use => exact hr
    | drop => exact (hown v (h.var?_eq_some_iff.mp hv).1).subset hr

/-- Where more regions are needed, more loans matter. -/
theorem matters_mono {b : Body} {precise precise' : Bool} {issue : LoanIssue}
    (hneeds : ∀ p r, b.Needs precise p r → b.Needs precise' p r) (p : Point)
    (h : b.Matters precise issue p) : b.Matters precise' issue p := by
  obtain ⟨r, hr, s, hflow, hneeded⟩ := h
  exact ⟨r, hr, s, hflow, hneeds p s hneeded⟩

end Body

/-! ## Findings -/

namespace Body.Finds

variable {b : Body} {options options' : AnalysisOptions} {f f' : Findings}
  {rules rules' : Arena LoanRule} (hb : b.WellFormed) (hf : b.Finds options f rules)
  (hf' : b.Finds options' f' rules')
  (hneeds : ∀ p r, b.Needs options.preciseDrops p r → b.Needs options'.preciseDrops p r)

include hb hf hf' hneeds

theorem regionsLive_of_needs (p : Point) : f.liveness.regionsLive p ⊆ f'.liveness.regionsLive p := by
  intro r hr
  obtain ⟨hmem, hneeded⟩ := (hb.mem_regionsLive_iff hf.liveness).mp hr
  exact (hb.mem_regionsLive_iff hf'.liveness).mpr ⟨hmem, hneeds p r hneeded⟩

theorem regionPoints_of_needs (r : Region) :
    f.liveness.regionPoints r ⊆ f'.liveness.regionPoints r := by
  have hbody := (Body.liveness_ok hf.liveness).1
  have hbody' := (Body.liveness_ok hf'.liveness).1
  intro p hp
  simp only [Liveness.regionPoints, Liveness.pointsIn, Liveness.regionTable, hbody, hbody',
    SortedSet.mem_ofList, List.mem_map, List.mem_filter, decide_eq_true_eq] at hp ⊢
  obtain ⟨_, ⟨⟨p, hmem, rfl⟩, hlive⟩, rfl⟩ := hp
  exact ⟨_, ⟨⟨p, hmem, rfl⟩, regionsLive_of_needs hb hf hf' hneeds p r hlive⟩, rfl⟩

theorem active_of_needs (p : Point) : f.active.active p ⊆ f'.active.active p := by
  intro loan hloan
  obtain ⟨issue, hissue, rfl, hholds⟩ := ((hf.prepared hb).mem_active_iff hf.active).mp hloan
  exact ((hf'.prepared hb).mem_active_iff hf'.active).mpr
    ⟨issue, hissue, rfl, HoldsWhile.mono (matters_mono hneeds) hholds⟩

theorem out_of_needs (p : Point) : f.active.out p ⊆ f'.active.out p := by
  intro loan hloan
  obtain ⟨issue, hissue, rfl, hleaves⟩ := ((hf.prepared hb).mem_out_iff hf.active).mp hloan
  exact ((hf'.prepared hb).mem_out_iff hf'.active).mpr
    ⟨issue, hissue, rfl, LeavesWhile.mono (matters_mono hneeds) hleaves⟩

theorem values_of_needs : ∀ v ∈ f.values, ∃ v' ∈ f'.values,
    v'.region = v.region ∧ v.loans ⊆ v'.loans ∧ v.points ⊆ v'.points := by
  have hbody := (Body.liveness_ok hf.liveness).1
  have hbody' := (Body.liveness_ok hf'.liveness).1
  have hgraph : f'.graph = f.graph := Except.ok.inj (hf'.graph.symm.trans hf.graph)
  intro v hv
  rw [hf.values, Liveness.mem_regionValues_iff hbody] at hv
  obtain ⟨r, hr, rfl⟩ := hv
  rw [hf'.values, hgraph]
  refine ⟨_, (Liveness.mem_regionValues_iff hbody').mpr ⟨r, hr, rfl⟩, rfl, fun _ => id, ?_⟩
  intro p hp
  obtain ⟨hmem, s, hs, hflow, hlive⟩ := (hb.mem_points_regionValue hbody hf.graph hr).mp hp
  exact (hb.mem_points_regionValue hbody' hf.graph hr).mpr
    ⟨hmem, s, hs, hflow, regionsLive_of_needs hb hf hf' hneeds p s hlive⟩

theorem conflicts_of_needs : f.conflicts ⊆ f'.conflicts := by
  intro c hc
  obtain ⟨haccess, hloan, hactive⟩ := (hb.mem_conflicts_iff hf.conflicts).mp hc
  exact (hb.mem_conflicts_iff hf'.conflicts).mpr
    ⟨haccess, hloan, active_of_needs hb hf hf' hneeds c.point c.loan hactive⟩

/-- **Where more is needed, no less is found** in the same body. -/
theorem grows_of_needs : f.Grows f' := by
  have htable := hb.liveness_table_eq hf.liveness hf'.liveness
  have hbody := (Body.liveness_ok hf.liveness).1
  have hbody' := (Body.liveness_ok hf'.liveness).1
  have hlive : f'.liveness.liveIn = f.liveness.liveIn := by
    funext p
    rw [Liveness.liveIn, Liveness.liveIn, htable]
  exact
    { liveIn := fun p x hx => by rwa [hlive]
      liveOut := fun p x hx => by
        rw [Liveness.liveOut, hbody] at hx
        rwa [Liveness.liveOut, hbody', hlive]
      dropLiveIn := fun p x hx => by
        rw [Liveness.dropLiveIn] at hx
        rwa [Liveness.dropLiveIn, htable]
      regionsLive := regionsLive_of_needs hb hf hf' hneeds
      active := active_of_needs hb hf hf' hneeds
      out := out_of_needs hb hf hf' hneeds
      values := values_of_needs hb hf hf' hneeds
      conflicts := conflicts_of_needs hb hf hf' hneeds }

end Body.Finds

/-- **Precise drops refine the analysis.**  Analyse a body that was built by any requests twice,
    with and without precision, under whatever limits, and let both analyses end.  Then the same
    variables are live for uses and for drops.  And whatever is found with precision is found
    without: the live regions of each point and the points of each region, the active loans and
    those that leave, the values of the regions and the conflicts. -/
theorem precise_drops_refine {name : String} {span : Span} {qs : List Request} {body : Body}
    (hbody : (Builder.after { name := name, span := span } qs).finish = .ok body)
    {options options' : AnalysisOptions} (hprecise : options.preciseDrops = true)
    (himprecise : options'.preciseDrops = false) {a a' : Analysis} {f f' : Findings}
    (ha : body.analyze options = .ok a) (hf : a.outcome = .complete f)
    (ha' : body.analyze options' = .ok a') (hf' : a'.outcome = .complete f') :
    f'.liveness.table = f.liveness.table ∧
      (∀ r, f.liveness.regionPoints r ⊆ f'.liveness.regionPoints r) ∧ f.Grows f' := by
  obtain ⟨d, _, hcheck⟩ := Builder.finish_eq_ok.mp hbody
  have hwell := Draft.wellFormed_of_check hcheck
  obtain ⟨rules, hfinds⟩ := Body.analyze_complete ha hf
  obtain ⟨rules', hfinds'⟩ := Body.analyze_complete ha' hf'
  -- all that the two runs differ in is what a drop needs
  have hneeds : ∀ p r, body.Needs options.preciseDrops p r →
      body.Needs options'.preciseDrops p r := by
    rw [hprecise, himprecise]
    exact fun p r => hwell.needs_of_precise (Builder.dropsOwn_of_finish_after hbody)
  exact ⟨hwell.liveness_table_eq hfinds.liveness hfinds'.liveness,
    hfinds.regionPoints_of_needs hwell hfinds' hneeds, hfinds.grows_of_needs hwell hfinds' hneeds⟩

/-- A reference to `x` is put into a vector, whose destructor does not look at it.  Then `x` is
    overwritten and the vector dropped. -/
def narrowDrop : List Request :=
  [{ operation := .declare "x" Sample.int none false },
    { operation := .declare "t" (.ref ⟨"'t", false⟩ false Sample.int) none false },
    { operation := .declare "v" (.adt "Vec" [.ref ⟨"'r", false⟩ false Sample.int]) (some []) false },
    { operation := .openBlock "bb0" },
    { operation := .borrow "bb0" (.ofLocal "t") (.ofLocal "x") false },
    { operation := .call "bb0" (.ofLocal "v") "push" [.copy (.ofLocal "t")]
        [(⟨"'t", false⟩, ⟨"'r", false⟩)] },
    { operation := .assign "bb0" (.ofLocal "x") .const },
    { operation := .drop "bb0" "v" },
    { operation := .ret "bb0" }]

/-- Without precision there is a conflict more. -/
theorem narrowDrop_refines : ∃ (body : Body) (f f' : Findings),
    (Builder.after { name := "f" } narrowDrop).finish = .ok body ∧
    body.analyze = .ok ⟨body, .complete f⟩ ∧
    body.analyze { preciseDrops := false } = .ok ⟨body, .complete f'⟩ ∧
    f.conflicts = [] ∧ f'.conflicts.map Conflict.point = [⟨"bb0", 2⟩] ∧ f.Grows f' := by
  have hrun : ((Builder.after { name := "f" } narrowDrop).finish.toOption.any fun body =>
      body.findings.toOption.any fun f =>
      (body.findings { preciseDrops := false }).toOption.any fun f' =>
        decide (f.conflicts = [] ∧ f'.conflicts.map Conflict.point = [⟨"bb0", 2⟩])) = true := by
    decide +kernel
  simp only [Option.any_eq_true, toOption_eq_some, decide_eq_true_eq] at hrun
  obtain ⟨body, hbody, f, hf, f', hf', hnone, hone⟩ := hrun
  have ha : body.analyze = .ok ⟨body, .complete f⟩ := by rw [Body.analyze, hf]
  have ha' : body.analyze { preciseDrops := false } = .ok ⟨body, .complete f'⟩ := by
    rw [Body.analyze, hf']
  obtain ⟨_, _, hgrows⟩ := precise_drops_refine hbody rfl rfl ha rfl ha' rfl
  exact ⟨body, f, f', hbody, ha, ha', hnone, hone, hgrows⟩

end BorrowFlow
