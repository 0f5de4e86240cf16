import BorrowFlow.Proofs.Except
import BorrowFlow.Proofs.Fact
import BorrowFlow.Proofs.Flow
import BorrowFlow.Proofs.Walk

/-! # Liveness is what lies ahead

    A variable is live at a point if and only if a use or a drop of it lies ahead
    (`Body.WellFormed.mem_live_iff`), and a region is live if and only if it is
    needed (`Body.WellFormed.mem_regionsLive_iff`).  A run that may take one
    changing sweep per point always ends well (`Body.WellFormed.exists_liveness`).
-/

namespace BorrowFlow

/-! ## Live sets -/

/-- The variables that are live because of a want. -/
def Want.live : Want → LiveSets → NameSet
  | .use => LiveSets.uses
  | .drop => LiveSets.drops

namespace LiveSets

theorem mem_live_join {want : Want} {x : String} {l : List LiveSets} :
    x ∈ want.live (join l) ↔ ∃ s ∈ l, x ∈ want.live s := by
  cases want <;> simp [Want.live, join]

/-- What is wanted before a statement: what it wants itself, and what is wanted
    after it unless it is overwritten. -/
theorem mem_live_before {want : Want} {x : String} {s : Statement} {after : LiveSets} :
    x ∈ want.live (before s after) ↔
      x ∈ want.names s ∨ s.write ≠ some x ∧ x ∈ want.live after := by
  cases want <;> simp [Want.live, Want.names, before, or_comm, and_comm]

theorem ext_live {s t : LiveSets} (h : ∀ want x, x ∈ Want.live want s ↔ x ∈ Want.live want t) :
    s = t := by
  have huses : s.uses = t.uses := SortedSet.ext (h .use)
  have hdrops : s.drops = t.drops := SortedSet.ext (h .drop)
  cases s
  cases t
  cases huses
  cases hdrops
  rfl

end LiveSets

namespace Body

/-! ## The liveness problem -/

/-- The fact that a variable is live because of a want. -/
def liveFact (b : Body) (want : Want) (x : String) : b.livenessProblem.Fact where
  holds := fun s => x ∈ want.live s
  arises := fun s => x ∈ want.names s
  passes := fun s => s.write ≠ some x
  not_bottom := by cases want <;> exact SortedSet.not_mem_empty
  holds_transfer := by
    intro s after
    show x ∈ want.live (LiveSets.before s (LiveSets.join after)) ↔ _
    rw [LiveSets.mem_live_before, LiveSets.mem_live_join]

theorem mem_livenessProblem_visits {b : Body} {v : Visit Statement} :
    v ∈ b.livenessProblem.visits ↔
      ∃ p ∈ b.reversePostorder, v = ⟨p, b.successors p, b.facts p⟩ := by
  simp [livenessProblem, eq_comm]

theorem order_livenessProblem (b : Body) :
    b.livenessProblem.order = b.reversePostorder.reverse := by
  simp [Problem.order, livenessProblem, Function.comp_def]

namespace WellFormed

variable {b : Body}

theorem livenessProblem_visitsEach (h : b.WellFormed) : b.livenessProblem.VisitsEach b.points where
  distinct := h.nodup_points
  once := by
    rw [order_livenessProblem]
    exact (List.reverse_perm _).trans h.reversePostorder_perm

theorem mem_reversePostorder (h : b.WellFormed) {p : Point} :
    p ∈ b.reversePostorder ↔ p ∈ b.points := h.reversePostorder_perm.mem_iff

/-- A point that wants something is one of the body's. -/
theorem mem_points_of_wants (h : b.WellFormed) {want : Want} {x : String} {p : Point}
    (hwant : x ∈ want.names (b.facts p)) : p ∈ b.points := by
  by_contra hmem
  rw [h.facts_of_not_mem hmem] at hwant
  cases want <;> exact SortedSet.not_mem_empty hwant

/-- **A trail of liveness is a walk** to a point that wants the variable. -/
theorem trail_liveFact_iff (h : b.WellFormed) {want : Want} {x : String} {p : Point} :
    (∃ rest, (b.liveFact want x).Trail p rest) ↔ b.Ahead want x p := by
  constructor
  · rintro ⟨rest, htrail⟩
    induction htrail with
    | here hv harises =>
      obtain ⟨p, _, rfl⟩ := mem_livenessProblem_visits.mp hv
      exact ⟨[], p, rfl, List.isChain_singleton p, harises, by simp⟩
    | step hv hpasses hq _ ih =>
      obtain ⟨p, _, rfl⟩ := mem_livenessProblem_visits.mp hv
      obtain ⟨before, last, hhead, hwalk, hwant, hkept⟩ := ih
      refine ⟨p :: before, last, rfl, ?_, hwant, ?_⟩
      · refine List.isChain_cons.mpr ⟨fun y hy => ?_, hwalk⟩
        have hnext : some _ = some y := hhead.symm.trans hy
        exact Option.some.inj hnext ▸ hq
      · exact List.forall_mem_cons.mpr ⟨hpasses, hkept⟩
  · rintro ⟨before, last, hhead, hwalk, hwant, hkept⟩
    induction before generalizing p with
    | nil =>
      obtain rfl : last = p := Option.some.inj hhead
      exact ⟨[], .here (mem_livenessProblem_visits.mpr
        ⟨last, h.mem_reversePostorder.mpr (h.mem_points_of_wants hwant), rfl⟩) hwant⟩
    | cons r before ih =>
      obtain rfl : r = p := Option.some.inj hhead
      obtain ⟨hkeep, hkept⟩ := List.forall_mem_cons.mp hkept
      obtain ⟨hstep, hwalk⟩ := List.isChain_cons.mp hwalk
      obtain ⟨q, hq⟩ : ∃ q, (before ++ [last]).head? = some q := by
        cases before <;> simp
      obtain ⟨rest, htrail⟩ := ih hq hwalk hkept
      have hnext : q ∈ b.successors r := hstep q hq
      exact ⟨q :: rest, .step (mem_livenessProblem_visits.mpr
        ⟨r, h.mem_reversePostorder.mpr (h.mem_points_of_successors hnext), rfl⟩) hkeep hnext htrail⟩

/-- The regions that a variable keeps live are those of the body. -/
theorem mem_regions_of_wanted (h : b.WellFormed) (precise : Bool) (want : Want) {x : String}
    {v : Variable} (hv : b.var? x = some v) {r : Region} (hr : r ∈ want.regions precise v) :
    r ∈ b.regions := by
  have hmem : v ∈ b.locals := (h.var?_eq_some_iff.mp hv).1
  apply h.localRegions v hmem r
  rw [List.mem_append]
  cases want with
  | use => exact Or.inl hr
  | drop =>
    simp only [Want.regions, Variable.dropRegions] at hr
    split at hr
    · split at hr
      · next hdrops => exact Or.inr (by rw [hdrops]; exact hr)
      · split at hr
        · exact Or.inl hr
        · exact absurd hr List.not_mem_nil
    · exact Or.inl hr

/-- A variable that is wanted ahead is one of the body's. -/
theorem exists_var?_of_ahead (h : b.WellFormed) {want : Want} {x : String} {p : Point}
    (hahead : b.Ahead want x p) : ∃ v, b.var? x = some v := by
  obtain ⟨before, q, _, _, hwant, _⟩ := hahead
  have hmention : x ∈ (b.facts q).mentions := by
    cases want <;> simp only [Want.names] at hwant <;> simp [Statement.mentions, hwant]
  obtain ⟨v, hv, hname⟩ := List.mem_map.mp
    ((h.inOrder_facts (h.mem_points_of_wants hwant)).mentions x hmention)
  exact ⟨v, h.var?_eq_some_iff.mpr ⟨hv, hname⟩⟩

end WellFormed

/-! ## Results -/

/-- The start of a run without an earlier result. -/
def noneLive (b : Body) : Arena LiveSets := .ofPoints b.points {}

theorem WellFormed.covers_noneLive {b : Body} (h : b.WellFormed) : b.noneLive.Covers b.points :=
  Arena.covers_ofPoints h.nodup_points _

/-- A run from a start, taken over from an earlier result or not. -/
theorem liveness_from {b : Body} {options : LivenessOptions} {seed : Option Liveness}
    {start : Arena LiveSets} (hstart : b.livenessStart seed = .ok start) :
    b.liveness options seed = match b.livenessProblem.solve {
        what := "liveness of '" ++ b.name ++ "'"
        limit := options.maxSweeps.getD b.points.length
        expired := options.expired } start with
      | .error f => .error (.budget f)
      | .ok s =>
        match b.strayVariable? s.table with
        | some name => .error (.strayVariable name)
        | none => .ok ⟨b, options.preciseDrops, s.table, s.sweeps, s.trace⟩ := by
  rw [liveness, hstart]
  rfl

/-- A run without an earlier result. -/
theorem liveness_eq (b : Body) (options : LivenessOptions) :
    b.liveness options = match b.livenessProblem.solve {
        what := "liveness of '" ++ b.name ++ "'"
        limit := options.maxSweeps.getD b.points.length
        expired := options.expired } b.noneLive with
      | .error f => .error (.budget f)
      | .ok s =>
        match b.strayVariable? s.table with
        | some name => .error (.strayVariable name)
        | none => .ok ⟨b, options.preciseDrops, s.table, s.sweeps, s.trace⟩ := liveness_from rfl

/-- A result is a stable table, some sweeps after the start. -/
theorem liveness_ok {b : Body} {options : LivenessOptions} {seed : Option Liveness} {l : Liveness}
    (h : b.liveness options seed = .ok l) :
    l.body = b ∧ l.preciseDrops = options.preciseDrops ∧
      ∃ start, b.livenessStart seed = .ok start ∧
        b.livenessProblem.sweep l.table = l.table ∧
        ∃ k, l.table = b.livenessProblem.sweep^[k] start := by
  obtain ⟨start, hstart, h⟩ := bind_eq_ok.mp h
  dsimp only at h
  split at h
  · cases h
  · next solution hsolve =>
    split at h
    · cases h
    · cases h
      exact ⟨rfl, rfl, start, hstart, Problem.solve_ok hsolve⟩

namespace WellFormed

variable {b : Body} {options : LivenessOptions} {l : Liveness}

/-- **Liveness is what lies ahead.** -/
theorem mem_live_iff (h : b.WellFormed) (hl : b.liveness options = .ok l) (want : Want)
    {x : String} {p : Point} :
    x ∈ want.live (l.table.read {} p) ↔ b.Ahead want x p := by
  obtain ⟨_, _, start, hstart, hstable, k, hk⟩ := liveness_ok hl
  obtain rfl : b.noneLive = start := Except.ok.inj hstart
  rw [hk] at hstable ⊢
  rw [← h.trail_liveFact_iff]
  exact Problem.Fact.holds_iff_trail (F := b.liveFact want x) h.livenessProblem_visitsEach
    h.covers_noneLive (Problem.Fact.absent_ofPoints h.nodup_points) hstable

theorem covers_liveness (h : b.WellFormed) (hl : b.liveness options = .ok l) :
    l.table.Covers b.points := by
  obtain ⟨_, _, start, hstart, _, k, hk⟩ := liveness_ok hl
  obtain rfl : b.noneLive = start := Except.ok.inj hstart
  exact hk ▸ Problem.covers_iterate h.covers_noneLive k

/-- **The table does not depend on the options**, if there is one. -/
theorem liveness_table_eq (h : b.WellFormed) (hl : b.liveness options = .ok l)
    {options' : LivenessOptions} {l' : Liveness} (hl' : b.liveness options' = .ok l') :
    l'.table = l.table := by
  have hread : ∀ p ∈ b.points, l'.table.read {} p = l.table.read {} p := by
    intro p _
    apply LiveSets.ext_live
    intro want x
    rw [h.mem_live_iff hl', h.mem_live_iff hl]
  exact (h.covers_liveness hl').ext (h.covers_liveness hl) hread

/-- **The live regions are the needed ones** among those of the body. -/
theorem mem_regionsLive_iff (h : b.WellFormed) (hl : b.liveness options = .ok l) {p : Point}
    {r : Region} :
    r ∈ l.regionsLive p ↔ r ∈ b.regions ∧ b.Needs options.preciseDrops p r := by
  obtain ⟨hbody, hprecise, _⟩ := liveness_ok hl
  have huse : ∀ x, x ∈ (l.table.read {} p).uses ↔ b.Ahead .use x p :=
    fun _ => h.mem_live_iff hl .use
  have hdrop : ∀ x, x ∈ (l.table.read {} p).drops ↔ b.Ahead .drop x p :=
    fun _ => h.mem_live_iff hl .drop
  rw [Liveness.regionsLive, hbody, hprecise]
  simp only [liveRegions, universalRegions, SortedSet.mem_ofList, List.mem_append,
    List.mem_filter, List.mem_flatMap, List.mem_filterMap, SortedSet.mem_toList, huse, hdrop]
  constructor
  · rintro ((⟨hr, huniversal⟩ | ⟨v, ⟨x, hahead, hv⟩, hr⟩) | ⟨v, ⟨x, hahead, hv⟩, hr⟩)
    · exact ⟨hr, Or.inl huniversal⟩
    · exact ⟨h.mem_regions_of_wanted options.preciseDrops .use hv hr, Or.inr ⟨.use, x, v, hv, hr, hahead⟩⟩
    · exact ⟨h.mem_regions_of_wanted options.preciseDrops .drop hv hr, Or.inr ⟨.drop, x, v, hv, hr, hahead⟩⟩
  · rintro ⟨hr, huniversal | ⟨want, x, v, hv, hkeeps, hahead⟩⟩
    · exact Or.inl (Or.inl ⟨hr, huniversal⟩)
    · cases want with
      | use => exact Or.inl (Or.inr ⟨v, ⟨x, hahead, hv⟩, hkeeps⟩)
      | drop => exact Or.inr ⟨v, ⟨x, hahead, hv⟩, hkeeps⟩

/-- **Liveness settles** in one sweep per point. -/
theorem stable_liveness (h : b.WellFormed) :
    b.livenessProblem.sweep (b.livenessProblem.sweep^[b.points.length] b.noneLive) =
      b.livenessProblem.sweep^[b.points.length] b.noneLive :=
  Problem.Fact.stable_after_points (fun i : Want × String => b.liveFact i.1 i.2)
    (fun _ _ hst => LiveSets.ext_live fun want x => hst (want, x))
    h.livenessProblem_visitsEach h.covers_noneLive
    (fun _ => Problem.Fact.absent_ofPoints h.nodup_points)

/-- A variable in a table on the way is wanted ahead, and so declared. -/
theorem strayVariable?_iterate (h : b.WellFormed) (k : Nat) :
    b.strayVariable? (b.livenessProblem.sweep^[k] b.noneLive) = none := by
  rw [strayVariable?, List.find?_eq_none]
  intro x hx
  obtain ⟨p, _, hx⟩ := List.mem_flatMap.mp hx
  have hlive : ∃ want, x ∈ Want.live want
      ((b.livenessProblem.sweep^[k] b.noneLive).read {} p) := by
    rcases List.mem_append.mp hx with huse | hdrop
    · exact ⟨.use, huse⟩
    · exact ⟨.drop, hdrop⟩
  obtain ⟨want, hlive⟩ := hlive
  have htrail := Problem.Fact.trail_of_holds_iterate (F := b.liveFact want x)
    h.livenessProblem_visitsEach h.covers_noneLive
    (Problem.Fact.absent_ofPoints h.nodup_points) k p hlive
  obtain ⟨v, hv⟩ := h.exists_var?_of_ahead (h.trail_liveFact_iff.mp htrail)
  simp [hv]

/-- **Liveness never gives up** within one changing sweep per point. -/
theorem exists_liveness (h : b.WellFormed) (hexpired : options.expired = false)
    (hsweeps : options.maxSweeps = none) : ∃ l, b.liveness options = .ok l := by
  have hends : ∃ s, b.livenessProblem.solve {
      what := "liveness of '" ++ b.name ++ "'"
      limit := options.maxSweeps.getD b.points.length
      expired := options.expired } b.noneLive = .ok s :=
    Problem.exists_solve_ok hexpired rfl (by simp [hsweeps]) h.stable_liveness
  obtain ⟨solution, hsolve⟩ := hends
  obtain ⟨_, k, hk⟩ := Problem.solve_ok hsolve
  have hstray : b.strayVariable? solution.table = none := hk ▸ h.strayVariable?_iterate k
  refine ⟨⟨b, options.preciseDrops, solution.table, solution.sweeps, solution.trace⟩, ?_⟩
  rw [liveness_eq, hsolve]
  simp only [hstray]

end WellFormed

end Body

end BorrowFlow
