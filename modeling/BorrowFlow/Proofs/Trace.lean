import BorrowFlow.Proofs.Budget
import Mathlib.Data.List.Range

/-! # What a run records

    A solver returns its table together with the number of sweeps that changed something and
    the table after each sweep.  The record of a run is what these say about each other
    (`Problem.Records`), and every run without an earlier result has one: for the liveness of
    a body and for its active loans, whatever the limit (`runs_recorded`).

    That the tables grow is not for granted.  A visit overwrites the value of its point, and
    it may read what the same sweep has just written.  Facts that do not get lost carry the
    argument: what leaves a point is one, and what is in force there is read off it.
-/

namespace BorrowFlow

variable {ρ σ : Type}

namespace Problem

/-- **The record of a run** from a table, where `below` says that one value is part of
    another. -/
structure Records (P : Problem ρ σ) (below : σ → σ → Prop) (start : Arena σ) (s : Solution σ) :
    Prop where
  /-- One table for each changing sweep, and one for the sweep that ends the run. -/
  length : s.trace.length = s.sweeps + 1
  /-- Each table comes out of the one before by a sweep. -/
  swept : (start :: s.trace).IsChain fun a a' => a' = P.sweep a
  /-- Nothing is lost from one table to the next. -/
  grows : (start :: s.trace).IsChain fun a a' => ∀ p, below (P.look a p) (P.look a' p)
  /-- Each of the counted sweeps changed the value of some point. -/
  changed : ∀ i < s.sweeps, ∃ a a', (start :: s.trace)[i]? = some a ∧ s.trace[i]? = some a' ∧
    ∃ p, P.look a' p ≠ P.look a p
  /-- The sweep that ends the run changed none. -/
  stable : P.sweep s.table = s.table
  last : s.trace.getLast? = some s.table

variable {P : Problem ρ σ} {below : σ → σ → Prop} {start : Arena σ} {ps : List Point}

/-- A table that a sweep changes is changed at some point. -/
theorem exists_look_ne {a : Arena σ} (ha : a.Covers ps) (h : P.sweep a ≠ a) :
    ∃ p, P.look (P.sweep a) p ≠ P.look a p := by
  by_contra hnone
  have hsame : ∀ p ∈ ps, P.look (P.sweep a) p = P.look a p := by
    intro p _
    by_contra hne
    exact hnone ⟨p, hne⟩
  exact h ((covers_sweep ha).ext ha hsame)

/-- **A run to where the table settles is on record**, if the sweeps from the start lose
    nothing. -/
theorem Settles.records {k : Nat} (h : P.Settles start k) (hcovers : start.Covers ps)
    (hgrows : ∀ j p, below (P.look (P.sweep^[j] start) p) (P.look (P.sweep^[j + 1] start) p)) :
    P.Records below start
      ⟨P.sweep^[k] start, k, (List.range (k + 1)).map fun j => P.sweep^[j + 1] start⟩ where
  length := by simp
  swept := by
    rw [cons_map_iterate, List.isChain_map, List.isChain_range_succ]
    intro j _
    exact Function.iterate_succ_apply' P.sweep j start
  grows := by
    rw [cons_map_iterate, List.isChain_map, List.isChain_range_succ]
    intro j _
    exact hgrows j
  changed := by
    intro i (hi : i < k)
    refine ⟨P.sweep^[i] start, P.sweep^[i + 1] start, ?_, ?_, ?_⟩
    · rw [cons_map_iterate, List.getElem?_map, List.getElem?_range (by omega)]
      rfl
    · rw [List.getElem?_map, List.getElem?_range (by omega)]
      rfl
    · rw [Function.iterate_succ_apply']
      exact exists_look_ne (covers_iterate hcovers i) (h.unstable i hi)
  stable := h.stable
  last := by
    -- the last sweep finds nothing to change, so its table is the one before it
    rw [List.range_succ, List.map_append, List.map_singleton, List.getLast?_concat,
      Function.iterate_succ_apply', h.stable]

end Problem

/-! ## Tables that grow -/

/-- What is live in one table is live in the other. -/
def LiveSets.Within (s t : LiveSets) : Prop :=
  (∀ x ∈ s.uses, x ∈ t.uses) ∧ ∀ x ∈ s.drops, x ∈ t.drops

/-- The loans in force and those that leave are so in the other table too. -/
def LoanSets.Within (s t : LoanSets) : Prop :=
  (∀ loan ∈ s.active, loan ∈ t.active) ∧ ∀ loan ∈ s.out, loan ∈ t.out

namespace Body

variable {b : Body}

/-- **Liveness grows** from sweep to sweep. -/
theorem WellFormed.live_within (h : b.WellFormed) (j : Nat) (p : Point) :
    (b.livenessProblem.look (b.livenessProblem.sweep^[j] b.noneLive) p).Within
      (b.livenessProblem.look (b.livenessProblem.sweep^[j + 1] b.noneLive) p) := by
  have hgrows : ∀ want x,
      x ∈ Want.live want (b.livenessProblem.look (b.livenessProblem.sweep^[j] b.noneLive) p) →
      x ∈ Want.live want (b.livenessProblem.look (b.livenessProblem.sweep^[j + 1] b.noneLive) p) := by
    intro want x hx
    exact Problem.Fact.holds_iterate_succ (F := b.liveFact want x) h.livenessProblem_visitsEach
      h.covers_noneLive (Problem.Fact.absent_ofPoints h.nodup_points) j p hx
  exact ⟨hgrows .use, hgrows .drop⟩

/-- **The loans grow** from sweep to sweep. -/
theorem WellFormed.loans_within (h : b.WellFormed) (rules : Arena LoanRule) (j : Nat) (p : Point) :
    ((b.loanProblem rules).look ((b.loanProblem rules).sweep^[j] b.noLoans) p).Within
      ((b.loanProblem rules).look ((b.loanProblem rules).sweep^[j + 1] b.noLoans) p) := by
  have hvisits := h.loanProblem_visitsEach rules
  have hnone : ∀ loan, (b.outFact rules loan).Absent b.noLoans :=
    fun _ => Problem.Fact.absent_ofPoints h.nodup_points
  constructor
  · intro loan hloan
    by_cases hp : p ∈ b.points
    · cases j with
      | zero =>
        -- at the start no loan is in force
        rw [Function.iterate_zero_apply, look_noLoans h rules p] at hloan
        exact absurd hloan SortedSet.not_mem_empty
      | succ j =>
        rw [mem_active_iterate h h.covers_noLoans hp] at hloan ⊢
        obtain ⟨hrelevant, q, hq, hfound⟩ := hloan
        exact ⟨hrelevant, q, hq,
          Problem.Fact.holds_found_succ hvisits h.covers_noLoans (hnone loan) hfound⟩
    · have hcovers := Problem.covers_iterate (P := b.loanProblem rules) h.covers_noLoans j
      rw [Problem.look, hcovers.read_of_not_mem hp] at hloan
      exact absurd hloan SortedSet.not_mem_empty
  · intro loan hloan
    exact Problem.Fact.holds_iterate_succ (F := b.outFact rules loan) hvisits h.covers_noLoans
      (hnone loan) j p hloan

/-! ## Runs of the passes -/

/-- A run of the liveness pass has come to where the table settles. -/
theorem exists_settledLiveness {options : LivenessOptions} {l : Liveness}
    (hl : b.liveness options = .ok l) :
    ∃ k, b.livenessProblem.Settles b.noneLive k ∧
      l = b.settledLiveness options.preciseDrops k := by
  rw [liveness_eq] at hl
  split at hl
  · cases hl
  · next s hsolve =>
    obtain ⟨k, hsettles, rfl⟩ := Problem.solve_eq_ok hsolve
    split at hl
    · cases hl
    · cases hl
      refine ⟨k, hsettles, ?_⟩
      simp [settledLiveness]

/-- A run of the active-loan pass has come to where the table settles. -/
theorem exists_settledLoans {rules : Arena LoanRule} {options : LoanOptions} {a : ActiveLoans}
    (ha : b.activeLoans rules options = .ok a) :
    ∃ k, (b.loanProblem rules).Settles b.noLoans k ∧ a = b.settledLoans rules k := by
  rw [activeLoans_with] at ha
  split at ha
  · cases ha
  · next s hsolve =>
    obtain ⟨k, hsettles, rfl⟩ := Problem.solve_eq_ok hsolve
    cases ha
    refine ⟨k, hsettles, ?_⟩
    simp [settledLoans]

/-- **Liveness takes one changing sweep per point at most.** -/
theorem WellFormed.exists_liveness_within (h : b.WellFormed) (precise : Bool) :
    ∃ l, b.liveness { preciseDrops := precise } = .ok l ∧ l.sweeps ≤ b.points.length := by
  obtain ⟨k, hk, hsettles⟩ := Problem.exists_settles h.stable_liveness
  have hrun := h.liveness_under hsettles precise none
  have hmay : ¬ b.allowed none < k := Nat.not_lt.mpr hk
  rw [if_neg hmay] at hrun
  exact ⟨_, hrun, hk⟩

end Body

/-- **Every run without an earlier result is on record.**  The liveness of a body is always
    found if nothing else limits the run, and within one changing sweep per point.  If a run
    of either pass returns, under whatever limit, then it has recorded one table per sweep;
    each is part of the next, all but the last come from sweeps that changed something, and
    the last is the one that is returned. -/
theorem runs_recorded {d : Draft} {b : Body} (hb : d.check = .ok b) :
    (∀ precise, ∃ l, b.liveness { preciseDrops := precise } = .ok l ∧
      l.sweeps ≤ b.points.length) ∧
    (∀ options l, b.liveness options = .ok l →
      b.livenessProblem.Records LiveSets.Within b.noneLive ⟨l.table, l.sweeps, l.trace⟩) ∧
    ∀ rules options a, b.activeLoans rules options = .ok a →
      (b.loanProblem rules).Records LoanSets.Within b.noLoans ⟨a.table, a.sweeps, a.trace⟩ := by
  have h := Draft.wellFormed_of_check hb
  refine ⟨h.exists_liveness_within, ?_, ?_⟩
  · intro options l hl
    obtain ⟨k, hsettles, rfl⟩ := Body.exists_settledLiveness hl
    exact hsettles.records h.covers_noneLive h.live_within
  · intro rules options a ha
    obtain ⟨k, hsettles, rfl⟩ := Body.exists_settledLoans ha
    exact hsettles.records h.covers_noLoans (h.loans_within rules)

/-- The runs over the sample loop: both passes change something, the loans around the loop
    in a second sweep. -/
theorem loop_runs_recorded : ∃ (b : Body) (l : Liveness) (g : SubsetGraph) (rules : Arena LoanRule)
    (a : ActiveLoans), Sample.body .loop = .ok b ∧ b.liveness = .ok l ∧ b.subsetGraph = .ok g ∧
    b.loanRules l g = .ok rules ∧ b.activeLoans rules = .ok a ∧
    0 < l.sweeps ∧ l.sweeps ≤ b.points.length ∧ 1 < a.sweeps ∧
    b.livenessProblem.Records LiveSets.Within b.noneLive ⟨l.table, l.sweeps, l.trace⟩ ∧
    (b.loanProblem rules).Records LoanSets.Within b.noLoans ⟨a.table, a.sweeps, a.trace⟩ := by
  have hrun : ((Sample.body .loop).toOption.any fun b => b.liveness.toOption.any fun l =>
      b.subsetGraph.toOption.any fun g => (b.loanRules l g).toOption.any fun rules =>
      (b.activeLoans rules).toOption.any fun a => decide (0 < l.sweeps ∧ 1 < a.sweeps)) = true := by
    decide +kernel
  simp only [Option.any_eq_true, toOption_eq_some, decide_eq_true_eq] at hrun
  obtain ⟨b, hb, l, hl, g, hg, rules, hrules, a, ha, hsome, hmany⟩ := hrun
  obtain ⟨d, hd⟩ := Sample.exists_draft hb
  obtain ⟨hwithin, hliveness, hloans⟩ := runs_recorded hd
  obtain ⟨l', hl', hfew⟩ := hwithin true
  obtain rfl : l = l' := Except.ok.inj (hl.symm.trans hl')
  exact ⟨b, l, g, rules, a, hb, hl, hg, hrules, ha, hsome, hfew, hmany, hliveness _ _ hl,
    hloans _ _ _ ha⟩

end BorrowFlow
