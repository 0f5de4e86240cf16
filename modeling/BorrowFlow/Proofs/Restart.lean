import BorrowFlow.Proofs.Trace
import BorrowFlow.Proofs.Widening

/-! # Restarting from below

    A run may start from an earlier result instead of from nothing.  A visit overwrites
    the value of its point, so a start that does not fit makes values shrink before they
    grow again.  But the sweeps respect the order of tables (`Problem.Respects.sweep`):
    whatever lies between the empty table and the result stays between the tables of the
    run from nothing and the result, sweep by sweep (`Problem.Respects.iterate_eq`).

    So a start from below the result leads to the very same result, in no more changing
    sweeps (`restart_exact`).
-/

namespace BorrowFlow

variable {ρ σ : Type}

/-! ## Sweeps respect the order of tables -/

namespace Problem

variable {P : Problem ρ σ} {below : σ → σ → Prop} {ps : List Point} {a a' : Arena σ}

/-- **An order of values that the transfer respects**: from less at the neighbours follows
    no more at the point. -/
structure Respects (P : Problem ρ σ) (below : σ → σ → Prop) : Prop where
  refl : ∀ s, below s s
  antisymm : ∀ s t, below s t → below t s → s = t
  bottom : ∀ s, below P.bottom s
  transfer : ∀ rule (qs : List Point) (f g : Point → σ), (∀ q, below (f q) (g q)) →
    below (P.transfer rule (qs.map f)) (P.transfer rule (qs.map g))

/-- One table is below another at every point. -/
def Under (P : Problem ρ σ) (below : σ → σ → Prop) (a a' : Arena σ) : Prop :=
  ∀ p, below (P.look a p) (P.look a' p)

namespace Respects

/-- **Step lemma**: a sweep respects the order of tables.  The induction is on the rank, as
    a visit reads what the same sweep has written before. -/
theorem sweep (h : P.Respects below) (hvisits : P.VisitsEach ps) (ha : a.Covers ps)
    (ha' : a'.Covers ps) (hunder : P.Under below a a') :
    P.Under below (P.sweep a) (P.sweep a') := by
  intro p
  induction hr : P.rank p using Nat.strongRecOn generalizing p with
  | ind r ih =>
    by_cases hp : p ∈ ps
    · obtain ⟨v, hv, rfl⟩ := hvisits.exists_visit hp
      rw [look_sweep hvisits ha hv, look_sweep hvisits ha' hv]
      apply h.transfer
      intro q
      by_cases hlt : P.rank q < P.rank v.point
      · rw [if_pos hlt, if_pos hlt]
        exact ih (P.rank q) (hr ▸ hlt) q rfl
      · rw [if_neg hlt, if_neg hlt]
        exact hunder q
    · -- a point without a slot has the same value in every table
      have hsame : P.look (P.sweep a) p = P.look (P.sweep a') p := by
        unfold look
        rw [(covers_sweep ha).read_of_not_mem hp, (covers_sweep ha').read_of_not_mem hp]
      rw [hsame]
      exact h.refl _

/-- **Run lemma**: so do all sweeps. -/
theorem iterate (h : P.Respects below) (hvisits : P.VisitsEach ps) (ha : a.Covers ps)
    (ha' : a'.Covers ps) (hunder : P.Under below a a') (k : Nat) :
    P.Under below (P.sweep^[k] a) (P.sweep^[k] a') := by
  induction k with
  | zero => exact hunder
  | succ k ih =>
    rw [Function.iterate_succ_apply', Function.iterate_succ_apply']
    exact h.sweep hvisits (covers_iterate ha k) (covers_iterate ha' k) ih

variable {start seed result : Arena σ} {k : Nat}

/-- **Between the run and its result** there is only the result: when the run from `start`
    has arrived, so has the run from any table between `start` and where it arrives. -/
theorem iterate_eq (h : P.Respects below) (hvisits : P.VisitsEach ps) (hstart : start.Covers ps)
    (hseed : seed.Covers ps) (hresult : P.sweep^[k] start = result)
    (hstable : P.sweep result = result) (hlower : P.Under below start seed)
    (hupper : P.Under below seed result) : P.sweep^[k] seed = result := by
  have hcovers : result.Covers ps := hresult ▸ covers_iterate hstart k
  have hfixed : P.sweep^[k] result = result := Function.iterate_fixed hstable k
  have hlow : P.Under below result (P.sweep^[k] seed) := by
    have hrun := h.iterate hvisits hstart hseed hlower k
    rw [hresult] at hrun
    exact hrun
  have hhigh : P.Under below (P.sweep^[k] seed) result := by
    have hrun := h.iterate hvisits hseed hcovers hupper k
    rw [hfixed] at hrun
    exact hrun
  have hlook : ∀ p ∈ ps, P.look (P.sweep^[k] seed) p = P.look result p := by
    intro p _
    exact h.antisymm _ _ (hhigh p) (hlow p)
  exact (covers_iterate hseed k).ext hcovers hlook

/-- **A run from between** settles at the same table, no later than the run from below. -/
theorem exists_settles_between (h : P.Respects below) (hvisits : P.VisitsEach ps)
    (hstart : start.Covers ps) (hseed : seed.Covers ps) (hsettles : P.Settles start k)
    (hlower : P.Under below start seed) (hupper : P.Under below seed (P.sweep^[k] start)) :
    ∃ j ≤ k, P.Settles seed j ∧ P.sweep^[j] seed = P.sweep^[k] start := by
  have harrived := h.iterate_eq hvisits hstart hseed rfl hsettles.stable hlower hupper
  have hstable : P.sweep (P.sweep^[k] seed) = P.sweep^[k] seed := by
    rw [harrived]
    exact hsettles.stable
  obtain ⟨j, hj, hsettled⟩ := exists_settles hstable
  refine ⟨j, hj, hsettled, ?_⟩
  -- nothing changes between the sweep where the run settles and the `k`-th
  have hrest : P.sweep^[k - j] (P.sweep^[j] seed) = P.sweep^[j] seed :=
    Function.iterate_fixed hsettled.stable (k - j)
  rw [← harrived, ← hrest, ← Function.iterate_add_apply, Nat.sub_add_cancel hj]

end Respects

end Problem

/-! ## What a budget allows -/

/-- A budget allows a number of changing sweeps.  The limit is looked at only when a sweep
    has changed something, so none at all is allowed even below a negative limit. -/
def Budget.Allows (budget : Budget) (k : Nat) : Prop :=
  budget.expired = false ∧ (k = 0 ∨ (k : Int) ≤ budget.limit)

theorem Budget.Allows.mono {budget : Budget} {j k : Nat} (h : budget.Allows k) (hj : j ≤ k) :
    budget.Allows j := by
  obtain ⟨hexpired, hlimit⟩ := h
  exact ⟨hexpired, by omega⟩

namespace Problem

variable {P : Problem ρ σ} {a : Arena σ} [DecidableEq σ] {budget : Budget}

/-- A first sweep that changes something may be one too many. -/
theorem solve_of_exceeded (hexpired : budget.expired = false) (hchanged : P.sweep a ≠ a)
    (hlimit : budget.limit < budget.sweeps + 1) :
    P.solve budget a = .error (.diverged budget.what budget.limit) := by
  have htick := Budget.tick_exceeded hexpired hlimit
  rw [solve, solveFor]
  simp only [hchanged, ne_eq, not_false_eq_true, decide_true, if_true]
  split
  · next f _ heq =>
    rw [heq] at htick
    rw [Except.error.inj htick]
  · next heq =>
    rw [heq] at htick
    cases htick

/-- A run on a stable table ends at once, whatever the limit. -/
theorem solve_of_stable (hexpired : budget.expired = false) (hstable : P.sweep a = a) :
    P.solve budget a = .ok ⟨a, budget.sweeps, [a]⟩ := by
  rw [solve, solveFor]
  simp [hstable, Budget.tick_unchanged hexpired]

/-- **A run returns** exactly if it may take the changing sweeps after which the table has
    settled. -/
theorem solve_eq_ok_iff (hsweeps : budget.sweeps = 0) {s : Solution σ} :
    P.solve budget a = .ok s ↔ ∃ k, P.Settles a k ∧ budget.Allows k ∧
      s = ⟨P.sweep^[k] a, k, (List.range (k + 1)).map fun j => P.sweep^[j + 1] a⟩ := by
  constructor
  · intro h
    obtain ⟨k, hsettles, hs⟩ := solve_eq_ok h
    rw [hsweeps, Nat.zero_add] at hs
    refine ⟨k, hsettles, ?_, hs⟩
    by_cases hexpired : budget.expired = true
    · rw [solve_of_expired hexpired] at h
      cases h
    · have hopen : budget.expired = false := by simpa using hexpired
      refine ⟨hopen, ?_⟩
      by_contra hbeyond
      -- the run would have failed at the limit
      have hchanged : P.sweep a ≠ a := hsettles.unstable 0 (by omega)
      by_cases hneg : budget.limit < 0
      · rw [solve_of_exceeded hopen hchanged (by omega)] at h
        cases h
      · rw [solve_of_unstable hopen hsweeps (by omega)
          fun j hj => hsettles.unstable j (by omega)] at h
        cases h
  · rintro ⟨k, hsettles, ⟨hexpired, hlimit⟩, rfl⟩
    by_cases hk : k = 0
    · subst hk
      have hstable : P.sweep a = a := hsettles.stable
      rw [solve_of_stable hexpired hstable, hsweeps]
      simp [hstable]
    · exact solve_of_settles hexpired hsweeps (by omega) hsettles

end Problem

/-! ## Both passes respect their orders -/

theorem LiveSets.Within.refl (s : LiveSets) : s.Within s := ⟨fun _ => id, fun _ => id⟩

theorem LoanSets.Within.refl (s : LoanSets) : s.Within s := ⟨fun _ => id, fun _ => id⟩

/-- Smaller sets leave a smaller union. -/
theorem SortedSet.mem_unions_mono {α β : Type} [Ord α] [Std.TransOrd α] [Std.LawfulEqOrd α]
    {l : List β} {f g : β → SortedSet α} (h : ∀ y, ∀ x ∈ f y, x ∈ g y) {x : α}
    (hx : x ∈ SortedSet.unions (l.map f)) : x ∈ SortedSet.unions (l.map g) := by
  simp only [mem_unions, List.mem_map] at hx ⊢
  obtain ⟨_, ⟨y, hy, rfl⟩, hx⟩ := hx
  exact ⟨_, ⟨y, hy, rfl⟩, h y x hx⟩

namespace Body

/-- **Liveness is monotone**: what is live before a point grows with what is live after it. -/
theorem livenessProblem_respects (b : Body) : b.livenessProblem.Respects LiveSets.Within where
  refl := .refl
  antisymm := by
    intro s t hst hts
    apply LiveSets.ext_live
    intro want x
    cases want with
    | use => exact ⟨hst.1 x, hts.1 x⟩
    | drop => exact ⟨hst.2 x, hts.2 x⟩
  bottom := by
    intro s
    exact ⟨fun x hx => absurd hx SortedSet.not_mem_empty,
      fun x hx => absurd hx SortedSet.not_mem_empty⟩
  transfer := by
    intro rule qs f g hle
    show (LiveSets.before rule (LiveSets.join (qs.map f))).Within
      (LiveSets.before rule (LiveSets.join (qs.map g)))
    have hgrows : ∀ want x, x ∈ Want.live want (LiveSets.before rule (LiveSets.join (qs.map f))) →
        x ∈ Want.live want (LiveSets.before rule (LiveSets.join (qs.map g))) := by
      intro want x hx
      rw [LiveSets.mem_live_before, LiveSets.mem_live_join] at hx ⊢
      rcases hx with hwant | ⟨hkept, s, hs, hx⟩
      · exact Or.inl hwant
      · obtain ⟨q, hq, rfl⟩ := List.mem_map.mp hs
        refine Or.inr ⟨hkept, g q, List.mem_map_of_mem hq, ?_⟩
        cases want with
        | use => exact (hle q).1 x hx
        | drop => exact (hle q).2 x hx
    exact ⟨hgrows .use, hgrows .drop⟩

/-- **The loans are monotone**: with what leaves the predecessors grow the loans in force
    at a point and those that leave it. -/
theorem loanProblem_respects (b : Body) (rules : Arena LoanRule) :
    (b.loanProblem rules).Respects LoanSets.Within where
  refl := .refl
  antisymm := by
    intro s t hst hts
    exact loanSets_ext (fun loan => ⟨hst.1 loan, hts.1 loan⟩) fun loan => ⟨hst.2 loan, hts.2 loan⟩
  bottom := by
    intro s
    exact ⟨fun x hx => absurd hx SortedSet.not_mem_empty,
      fun x hx => absurd hx SortedSet.not_mem_empty⟩
  transfer := by
    intro rule qs f g hle
    show (rule.apply (.unions ((qs.map f).map LoanSets.out))).Within
      (rule.apply (.unions ((qs.map g).map LoanSets.out)))
    rw [List.map_map, List.map_map]
    have hincoming : ∀ loan, loan ∈ SortedSet.unions (qs.map (LoanSets.out ∘ f)) →
        loan ∈ SortedSet.unions (qs.map (LoanSets.out ∘ g)) :=
      fun loan => SortedSet.mem_unions_mono fun q => (hle q).2
    constructor
    · intro loan hloan
      simp only [LoanRule.apply, SortedSet.mem_inter] at hloan ⊢
      exact ⟨hincoming loan hloan.1, hloan.2⟩
    · intro loan hloan
      simp only [LoanRule.apply, SortedSet.mem_union, SortedSet.mem_diff,
        SortedSet.mem_inter] at hloan ⊢
      rcases hloan with ⟨⟨hin, hrelevant⟩, hkept⟩ | hissued
      · exact Or.inl ⟨⟨hincoming loan hin, hrelevant⟩, hkept⟩
      · exact Or.inr hissued

end Body

/-! ## Starts from below -/

/-- **A start from below** a table: it has an entry for each of the points, and nothing
    there that the table does not have. -/
structure Arena.StartsBelow (below : σ → σ → Prop) (bottom : σ) (ps : List Point)
    (seed table : Arena σ) : Prop where
  entry : ∀ p ∈ ps, p ∈ seed.points
  below : ∀ p ∈ ps, below (seed.read bottom p) (table.read bottom p)

/-- An earlier result of liveness that says nothing which `l` does not say. -/
def Liveness.StartsBelow (seed l : Liveness) : Prop :=
  Arena.StartsBelow LiveSets.Within {} l.body.points seed.table l.table

/-- An earlier result on the loans that says nothing which `a` does not say. -/
def ActiveLoans.StartsBelow (seed a : ActiveLoans) : Prop :=
  Arena.StartsBelow LoanSets.Within {} a.body.points seed.table a.table

/-- Taking over every value of an arena gives the arena. -/
theorem Arena.Covers.tabulate_read {a : Arena σ} {ps : List Point} (h : a.Covers ps) {default : σ} :
    Arena.tabulate ps (a.read default) = a := by
  have hcovers := Arena.covers_tabulate h.distinct (a.read default)
  have hread : ∀ p ∈ ps, (Arena.tabulate ps (a.read default)).read default p = a.read default p :=
    fun p hp => Arena.read_tabulate h.distinct _ hp default
  exact hcovers.ext h hread

namespace Problem

variable {P : Problem ρ σ} {below : σ → σ → Prop} {ps : List Point} {seed : Arena σ} {k : Nat}

/-- Where a run from nothing settles, a run from below settles too, and no later. -/
theorem Respects.exists_settles_seeded (h : P.Respects below) (hvisits : P.VisitsEach ps)
    (hsettles : P.Settles (.ofPoints ps P.bottom) k)
    (hseed : Arena.StartsBelow below P.bottom ps seed (P.sweep^[k] (.ofPoints ps P.bottom))) :
    ∃ j ≤ k, P.Settles (.tabulate ps (seed.read P.bottom)) j ∧
      P.sweep^[j] (.tabulate ps (seed.read P.bottom)) = P.sweep^[k] (.ofPoints ps P.bottom) := by
  have hstart := Arena.covers_ofPoints hvisits.distinct P.bottom
  have hcovers := Arena.covers_tabulate hvisits.distinct (seed.read P.bottom)
  refine h.exists_settles_between hvisits hstart hcovers hsettles ?_ ?_
  · intro p
    unfold look
    rw [Arena.read_ofPoints hvisits.distinct]
    exact h.bottom _
  · intro p
    unfold look
    by_cases hp : p ∈ ps
    · rw [Arena.read_tabulate hvisits.distinct _ hp]
      exact hseed.below p hp
    · rw [hcovers.read_of_not_mem hp]
      exact h.bottom _

end Problem

namespace Body

variable {b : Body} {options : LivenessOptions} {l : Liveness}

/-- The budget of a liveness run. -/
def livenessBudget (b : Body) (options : LivenessOptions) : Budget where
  what := "liveness of '" ++ b.name ++ "'"
  limit := options.maxSweeps.getD b.points.length
  expired := options.expired

/-- The budget of a run on the loans. -/
def loanBudget (b : Body) (options : LoanOptions) : Budget where
  what := "active loans of '" ++ b.name ++ "'"
  limit := options.maxSweeps.getD b.points.length
  expired := options.expired

theorem find?_unknown_eq_none {ps known : List Point} (h : ∀ p ∈ ps, p ∈ known) :
    ps.find? (· ∉ known) = none := by
  rw [List.find?_eq_none]
  intro p hp
  simpa using h p hp

/-- A result that has an entry for every point is taken over. -/
theorem livenessStart_of_entries {seed : Liveness} (h : ∀ p ∈ b.points, p ∈ seed.table.points) :
    b.livenessStart (some seed) = .ok (.tabulate b.points (seed.table.read {})) := by
  rw [livenessStart, find?_unknown_eq_none h]

theorem loanStart_of_entries {seed : ActiveLoans} (h : ∀ p ∈ b.points, p ∈ seed.table.points) :
    b.loanStart (some seed) = .ok (.tabulate b.points (seed.table.read {})) := by
  rw [loanStart, find?_unknown_eq_none h]

/-- **A liveness run returns** exactly if its budget allows the sweeps after which its start
    settles, and no unknown variable is live then. -/
theorem liveness_eq_ok_iff {seed : Option Liveness} {start : Arena LiveSets}
    (hstart : b.livenessStart seed = .ok start) :
    b.liveness options seed = .ok l ↔ ∃ k, b.livenessProblem.Settles start k ∧
      (b.livenessBudget options).Allows k ∧
      b.strayVariable? (b.livenessProblem.sweep^[k] start) = none ∧
      l = ⟨b, options.preciseDrops, b.livenessProblem.sweep^[k] start, k,
        (List.range (k + 1)).map fun j => b.livenessProblem.sweep^[j + 1] start⟩ := by
  rw [liveness_from hstart]
  constructor
  · intro hl
    split at hl
    · cases hl
    · next s hsolve =>
      obtain ⟨k, hsettles, hallows, rfl⟩ := (Problem.solve_eq_ok_iff rfl).mp hsolve
      split at hl
      · cases hl
      · next hstray =>
        cases hl
        exact ⟨k, hsettles, hallows, hstray, rfl⟩
  · rintro ⟨k, hsettles, hallows, hstray, rfl⟩
    have hsolve := (Problem.solve_eq_ok_iff rfl).mpr ⟨k, hsettles, hallows, rfl⟩
    unfold livenessBudget at hsolve
    rw [hsolve]
    simp only [hstray]

/-- **A run on the loans returns** exactly if its budget allows the sweeps after which its
    start settles. -/
theorem activeLoans_eq_ok_iff {rules : Arena LoanRule} {options : LoanOptions}
    {seed : Option ActiveLoans} {a : ActiveLoans} {start : Arena LoanSets}
    (hstart : b.loanStart seed = .ok start) :
    b.activeLoans rules options seed = .ok a ↔ ∃ k, (b.loanProblem rules).Settles start k ∧
      (b.loanBudget options).Allows k ∧
      a = ⟨b, (b.loanProblem rules).sweep^[k] start, k,
        (List.range (k + 1)).map fun j => (b.loanProblem rules).sweep^[j + 1] start⟩ := by
  rw [activeLoans_from hstart]
  constructor
  · intro ha
    split at ha
    · cases ha
    · next s hsolve =>
      obtain ⟨k, hsettles, hallows, rfl⟩ := (Problem.solve_eq_ok_iff rfl).mp hsolve
      cases ha
      exact ⟨k, hsettles, hallows, rfl⟩
  · rintro ⟨k, hsettles, hallows, rfl⟩
    have hsolve := (Problem.solve_eq_ok_iff rfl).mpr ⟨k, hsettles, hallows, rfl⟩
    unfold loanBudget at hsolve
    rw [hsolve]

/-! ## Restarted runs -/

/-- **Liveness restarts**: from below its result it comes to the same result. -/
theorem WellFormed.liveness_restart (h : b.WellFormed) (hl : b.liveness options = .ok l)
    {seed : Liveness} (hseed : seed.StartsBelow l) :
    ∃ k ≤ l.sweeps, ∃ trace,
      b.liveness options (some seed) = .ok { l with sweeps := k, trace := trace } := by
  obtain ⟨k, hsettles, hallows, hstray, rfl⟩ := (liveness_eq_ok_iff rfl).mp hl
  have hstart := livenessStart_of_entries hseed.entry
  obtain ⟨j, hj, hsettled, harrived⟩ := b.livenessProblem_respects.exists_settles_seeded
    h.livenessProblem_visitsEach hsettles hseed
  have hsame : b.livenessProblem.sweep^[j] (.tabulate b.points (seed.table.read {})) =
      b.livenessProblem.sweep^[k] b.noneLive := harrived
  refine ⟨j, hj, (List.range (j + 1)).map fun i =>
    b.livenessProblem.sweep^[i + 1] (.tabulate b.points (seed.table.read {})), ?_⟩
  rw [liveness_eq_ok_iff hstart]
  refine ⟨j, hsettled, hallows.mono hj, ?_, ?_⟩
  · rw [hsame]
    exact hstray
  · rw [hsame]
    rfl

/-- **The loans restart**: from below their result they come to the same result. -/
theorem WellFormed.activeLoans_restart (h : b.WellFormed) {rules : Arena LoanRule}
    {options : LoanOptions} {a : ActiveLoans} (ha : b.activeLoans rules options = .ok a)
    {seed : ActiveLoans} (hseed : seed.StartsBelow a) :
    ∃ k ≤ a.sweeps, ∃ trace,
      b.activeLoans rules options (some seed) = .ok { a with sweeps := k, trace := trace } := by
  obtain ⟨k, hsettles, hallows, rfl⟩ := (activeLoans_eq_ok_iff rfl).mp ha
  have hstart := loanStart_of_entries hseed.entry
  obtain ⟨j, hj, hsettled, harrived⟩ := (b.loanProblem_respects rules).exists_settles_seeded
    (h.loanProblem_visitsEach rules) hsettles hseed
  have hsame : (b.loanProblem rules).sweep^[j] (.tabulate b.points (seed.table.read {})) =
      (b.loanProblem rules).sweep^[k] b.noLoans := harrived
  refine ⟨j, hj, (List.range (j + 1)).map fun i =>
    (b.loanProblem rules).sweep^[i + 1] (.tabulate b.points (seed.table.read {})), ?_⟩
  rw [activeLoans_eq_ok_iff hstart]
  refine ⟨j, hsettled, hallows.mono hj, ?_⟩
  rw [hsame]
  rfl

/-- **A result is stable**: a run from its own result changes nothing. -/
theorem WellFormed.liveness_again (h : b.WellFormed) (hl : b.liveness options = .ok l) :
    b.liveness options (some l) = .ok { l with sweeps := 0, trace := [l.table] } := by
  obtain ⟨hbody, hprecise, _⟩ := liveness_ok hl
  obtain ⟨k, hsettles, hallows, hstray, hrun⟩ := (liveness_eq_ok_iff rfl).mp hl
  have htable : l.table = b.livenessProblem.sweep^[k] b.noneLive := congrArg Liveness.table hrun
  have hstable : b.livenessProblem.sweep l.table = l.table := htable ▸ hsettles.stable
  have hcovers : l.table.Covers b.points := htable ▸ Problem.covers_iterate h.covers_noneLive k
  have hstart : b.livenessStart (some l) = .ok l.table := by
    rw [livenessStart_of_entries fun p hp => hcovers.points ▸ hp, hcovers.tabulate_read]
  rw [liveness_eq_ok_iff hstart]
  refine ⟨0, Problem.settles_zero hstable, hallows.mono (Nat.zero_le k), ?_, ?_⟩
  · show b.strayVariable? l.table = none
    rw [htable]
    exact hstray
  · simp [hstable, hbody, hprecise]

theorem WellFormed.activeLoans_again (h : b.WellFormed) {rules : Arena LoanRule}
    {options : LoanOptions} {a : ActiveLoans} (ha : b.activeLoans rules options = .ok a) :
    b.activeLoans rules options (some a) = .ok { a with sweeps := 0, trace := [a.table] } := by
  have hbody := (activeLoans_ok ha).1
  obtain ⟨k, hsettles, hallows, hrun⟩ := (activeLoans_eq_ok_iff rfl).mp ha
  have htable : a.table = (b.loanProblem rules).sweep^[k] b.noLoans :=
    congrArg ActiveLoans.table hrun
  have hstable : (b.loanProblem rules).sweep a.table = a.table := htable ▸ hsettles.stable
  have hcovers : a.table.Covers b.points := covers_of_activeLoans h ha
  have hstart : b.loanStart (some a) = .ok a.table := by
    rw [loanStart_of_entries fun p hp => hcovers.points ▸ hp, hcovers.tabulate_read]
  rw [activeLoans_eq_ok_iff hstart]
  refine ⟨0, Problem.settles_zero hstable, hallows.mono (Nat.zero_le k), ?_⟩
  simp [hstable, hbody]

/-- **The results of a narrower body** are starts from below: it has the same points, and
    what is found in it is found in the wider one. -/
theorem startsBelow_of_widens {c : Body} {options : AnalysisOptions} {f f' : Findings}
    {rules rules' : Arena LoanRule} (h : c.Widens b) (hc : c.WellFormed) (hb : b.WellFormed)
    (hf : c.Finds options f rules) (hf' : b.Finds options f' rules') :
    f.liveness.StartsBelow f'.liveness ∧ f.active.StartsBelow f'.active := by
  have hbody : f'.liveness.body = b := (liveness_ok hf'.liveness).1
  have hbody' : f'.active.body = b := (activeLoans_ok hf'.active).1
  obtain ⟨k, _, hsettled⟩ := exists_settledLiveness hf.liveness
  have hlive : f.liveness.table.Covers c.points := by
    rw [hsettled]
    exact Problem.covers_iterate hc.covers_noneLive k
  have hloans : f.active.table.Covers c.points := covers_of_activeLoans hc hf.active
  constructor
  · refine ⟨fun p hp => ?_, fun p _ => ?_⟩
    · rw [hlive.points, ← h.points_eq, ← hbody]
      exact hp
    · exact ⟨live_subset h hc hb hf hf' .use p, live_subset h hc hb hf hf' .drop p⟩
  · refine ⟨fun p hp => ?_, fun p _ => ?_⟩
    · rw [hloans.points, ← h.points_eq, ← hbody']
      exact hp
    · exact ⟨active_subset h hc hb hf hf' p, out_subset h hc hb hf hf' p⟩

end Body

/-- **Restarting from below is exact.**  If a run of either pass returns, then so does a run
    from any start that has an entry for every point and nothing that the result does not
    have.  It returns the same result, after no more changing sweeps, and after none if it
    starts from the result itself.  The results of a body with fewer edges are such starts. -/
theorem restart_exact {d : Draft} {b : Body} (hb : d.check = .ok b) :
    (∀ options l, b.liveness options = .ok l →
      (∀ seed : Liveness, seed.StartsBelow l → ∃ k ≤ l.sweeps, ∃ trace,
        b.liveness options (some seed) = .ok { l with sweeps := k, trace := trace }) ∧
      b.liveness options (some l) = .ok { l with sweeps := 0, trace := [l.table] }) ∧
    (∀ rules options a, b.activeLoans rules options = .ok a →
      (∀ seed : ActiveLoans, seed.StartsBelow a → ∃ k ≤ a.sweeps, ∃ trace,
        b.activeLoans rules options (some seed) = .ok { a with sweeps := k, trace := trace }) ∧
      b.activeLoans rules options (some a) = .ok { a with sweeps := 0, trace := [a.table] }) ∧
    ∀ (e : Draft) (c : Body) (options : AnalysisOptions) (a a' : Analysis) (f f' : Findings),
      e.check = .ok c → c.Widens b → c.analyze options = .ok a → a.outcome = .complete f →
      b.analyze options = .ok a' → a'.outcome = .complete f' →
      f.liveness.StartsBelow f'.liveness ∧ f.active.StartsBelow f'.active := by
  have h := Draft.wellFormed_of_check hb
  refine ⟨?_, ?_, ?_⟩
  · intro options l hl
    exact ⟨fun seed hseed => h.liveness_restart hl hseed, h.liveness_again hl⟩
  · intro rules options a ha
    exact ⟨fun seed hseed => h.activeLoans_restart ha hseed, h.activeLoans_again ha⟩
  · intro e c options a a' f f' hc hwidens ha hf ha' hf'
    obtain ⟨rules, hfinds⟩ := Body.analyze_complete ha hf
    obtain ⟨rules', hfinds'⟩ := Body.analyze_complete ha' hf'
    exact Body.startsBelow_of_widens hwidens (Draft.wellFormed_of_check hc) h hfinds hfinds'

/-- Use a reference and set it anew, once or in a loop. -/
def resetting (again : Bool) : Builder :=
  let steps : BuildM Unit := do
    let r ← Builder.declareRegion "'p" false
    Sample.localVar "x" Sample.int
    Sample.localVar "p" (Sample.intRef r)
    ["bb0", "bb1"].forM fun name => Builder.openBlock name
    Sample.useCopy "bb0" "p"
    Sample.share "bb0" "p" "x"
    Sample.fork "bb0" (if again then ["bb1", "bb0"] else ["bb1"])
    Sample.leave "bb1"
  (steps.perform { name := "f" }).2

/-- The loan of `x` that the reference is set to. -/
def resetLoan : Loan := ⟨"L0", ⟨"bb0", 1⟩, .ofLocal "x", .shared⟩

/-- Only in the loop is the reference used after it is set, and its loan active.  From what
    is found without the loop, both passes come to what there is to find with it. -/
theorem resetting_restart_exact :
    ∃ (b c : Body) (f f' : Findings) (rules : Arena LoanRule),
      (resetting true).finish = .ok b ∧ (resetting false).finish = .ok c ∧
      c.analyze = .ok ⟨c, .complete f⟩ ∧ b.analyze = .ok ⟨b, .complete f'⟩ ∧
      ("p" ∉ f.liveness.liveIn ⟨"bb0", 2⟩ ∧ "p" ∈ f'.liveness.liveIn ⟨"bb0", 2⟩) ∧
      (resetLoan ∉ f.active.active ⟨"bb0", 2⟩ ∧ resetLoan ∈ f'.active.active ⟨"bb0", 2⟩) ∧
      b.loanRules f'.liveness f'.graph = .ok rules ∧
      (∃ k ≤ f'.liveness.sweeps, ∃ trace, b.liveness {} (some f.liveness) =
        .ok { f'.liveness with sweeps := k, trace := trace }) ∧
      (∃ k ≤ f'.active.sweeps, ∃ trace, b.activeLoans rules {} (some f.active) =
        .ok { f'.active with sweeps := k, trace := trace }) ∧
      b.liveness {} (some f'.liveness) =
        .ok { f'.liveness with sweeps := 0, trace := [f'.liveness.table] } ∧
      b.activeLoans rules {} (some f'.active) =
        .ok { f'.active with sweeps := 0, trace := [f'.active.table] } := by
  have hrun : ((resetting true).finish.toOption.any fun b => b.findings.toOption.any fun f' =>
      (resetting false).finish.toOption.any fun c => c.findings.toOption.any fun f =>
        decide (c.Widens b ∧ ("p" ∉ f.liveness.liveIn ⟨"bb0", 2⟩ ∧
          "p" ∈ f'.liveness.liveIn ⟨"bb0", 2⟩) ∧ resetLoan ∉ f.active.active ⟨"bb0", 2⟩ ∧
          resetLoan ∈ f'.active.active ⟨"bb0", 2⟩)) = true := by
    decide +kernel
  simp only [Option.any_eq_true, toOption_eq_some, decide_eq_true_eq] at hrun
  obtain ⟨b, hb, f', hf', c, hc, f, hf, hwidens, hlive, hactive⟩ := hrun
  obtain ⟨d, _, hd⟩ := Builder.finish_eq_ok.mp hb
  obtain ⟨e, _, he⟩ := Builder.finish_eq_ok.mp hc
  have hwide : b.analyze = .ok ⟨b, .complete f'⟩ := by rw [Body.analyze, hf']
  have hnarrow : c.analyze = .ok ⟨c, .complete f⟩ := by rw [Body.analyze, hf]
  obtain ⟨rules, hfinds⟩ := Body.findings_eq_ok.mp hf'
  obtain ⟨hliveness, hloans, hseeds⟩ := restart_exact hd
  obtain ⟨hlivenessSeed, hloansSeed⟩ := hseeds e c {} _ _ f f' he hwidens hnarrow rfl hwide rfl
  obtain ⟨hseeded, hagain⟩ := hliveness _ _ hfinds.liveness
  obtain ⟨hseeded', hagain'⟩ := hloans _ _ _ hfinds.active
  exact ⟨b, c, f, f', rules, hb, hc, hnarrow, hwide, hlive, hactive, hfinds.ruled,
    hseeded _ hlivenessSeed, hseeded' _ hloansSeed, hagain, hagain'⟩

end BorrowFlow
