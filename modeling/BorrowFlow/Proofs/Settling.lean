import BorrowFlow.Proofs.ActiveLoans
import BorrowFlow.Proofs.Checked
import Mathlib.Data.Nat.Find

/-! # How many sweeps a run takes

    A table settles after `k` sweeps if the next one changes nothing and each of those
    before changed something.  A run that may take that many ends there, with the tables
    on the way (`Problem.solve_of_settles`), and one that may not fails
    (`Problem.solve_of_unstable`).

    The loans of a body settle within one sweep per point, with one exception: on a
    single point that jumps to itself and issues a loan that matters there, the loan
    leaves in the first sweep and is in force from the second on
    (`Body.activeLoans_within_points_iff`).
-/

namespace BorrowFlow

variable {ρ σ : Type}

namespace Budget

/-- A changing sweep beyond the limit is the end of a run. -/
theorem tick_exceeded {b : Budget} (h : b.expired = false)
    (hlimit : b.limit < (b.sweeps + 1 : Int)) :
    (b.tick true).1 = .error (.diverged b.what b.limit) := by
  have hbeyond : b.limit < ((b.sweeps + 1 : Nat) : Int) := by omega
  simp only [tick, checkDeadline, h, Bool.false_eq_true, if_false, if_true, if_pos hbeyond]

end Budget

namespace Problem

variable {P : Problem ρ σ} {a : Arena σ}

/-- What is stable after some sweeps has settled by then. -/
theorem exists_settles {n : Nat} (h : P.sweep (P.sweep^[n] a) = P.sweep^[n] a) :
    ∃ k ≤ n, P.Settles a k := by
  classical
  have hsome : ∃ k, P.sweep (P.sweep^[k] a) = P.sweep^[k] a := ⟨n, h⟩
  refine ⟨Nat.find hsome, Nat.find_min' hsome h, Nat.find_spec hsome, fun j hj => ?_⟩
  exact Nat.find_min hsome hj

variable [DecidableEq σ]

/-- **A run to the end**, with all it returns. -/
theorem solveFor_of_settles {k rounds : Nat} {budget : Budget} {trace : List (Arena σ)}
    (hexpired : budget.expired = false) (hlimit : (budget.sweeps + k : Int) ≤ budget.limit)
    (hrounds : k < rounds) (h : P.Settles a k) :
    P.solveFor rounds budget trace a = .ok ⟨P.sweep^[k] a, budget.sweeps + k,
      trace ++ (List.range (k + 1)).map fun j => P.sweep^[j + 1] a⟩ := by
  induction rounds generalizing k budget trace a with
  | zero => omega
  | succ rounds ih =>
    rw [solveFor]
    cases k with
    | zero =>
      have hstable : P.sweep a = a := h.stable
      simp [hstable, Budget.tick_unchanged hexpired]
    | succ k =>
      have hchanged : P.sweep a ≠ a := h.unstable 0 (by omega)
      have hnext : ((budget.sweeps + 1 : Nat) + k : Int) ≤ budget.limit := by omega
      simp only [hchanged, ne_eq, not_false_eq_true, decide_true,
        Budget.tick_changed hexpired (by omega), if_true]
      have hrest : P.solveFor rounds { budget with sweeps := budget.sweeps + 1 }
          (trace ++ [P.sweep a]) (P.sweep a) = _ := ih hexpired hnext (by omega) h.tail
      rw [hrest, List.append_assoc, List.singleton_append, cons_map_iterate P (P.sweep a),
        Nat.add_assoc, Nat.add_comm 1]
      rfl

theorem solve_of_settles {k : Nat} {budget : Budget} (hexpired : budget.expired = false)
    (hsweeps : budget.sweeps = 0) (hlimit : (k : Int) ≤ budget.limit) (h : P.Settles a k) :
    P.solve budget a = .ok ⟨P.sweep^[k] a, k,
      (List.range (k + 1)).map fun j => P.sweep^[j + 1] a⟩ := by
  rw [solve, solveFor_of_settles hexpired (by omega) (by omega) h, hsweeps, Nat.zero_add,
    List.nil_append]

/-- **A run that fails**: each sweep that it may take changes something. -/
theorem solveFor_of_unstable {rounds : Nat} {budget : Budget} {trace : List (Arena σ)}
    (hexpired : budget.expired = false) (hlimit : (budget.sweeps : Int) ≤ budget.limit)
    (h : ∀ j : Nat, (budget.sweeps + j : Int) ≤ budget.limit →
      P.sweep (P.sweep^[j] a) ≠ P.sweep^[j] a) :
    P.solveFor rounds budget trace a = .error (.diverged budget.what budget.limit) := by
  induction rounds generalizing budget trace a with
  | zero => rfl
  | succ rounds ih =>
    have hchanged : P.sweep a ≠ a := h 0 (by omega)
    rw [solveFor]
    simp only [hchanged, ne_eq, not_false_eq_true, decide_true, if_true]
    by_cases hnext : (budget.sweeps + 1 : Int) ≤ budget.limit
    · simp only [Budget.tick_changed hexpired hnext]
      refine ih hexpired ?_ fun j hj => ?_
      · show ((budget.sweeps + 1 : Nat) : Int) ≤ budget.limit
        omega
      · have hj' : ((budget.sweeps + 1 : Nat) + j : Int) ≤ budget.limit := hj
        exact h (j + 1) (by omega)
    · have htick := Budget.tick_exceeded hexpired (by omega : budget.limit < budget.sweeps + 1)
      split
      · next f _ heq =>
        rw [heq] at htick
        rw [Except.error.inj htick]
      · next heq =>
        rw [heq] at htick
        cases htick

theorem solve_of_unstable {budget : Budget} (hexpired : budget.expired = false)
    (hsweeps : budget.sweeps = 0) (hlimit : 0 ≤ budget.limit)
    (h : ∀ j : Nat, (j : Int) ≤ budget.limit → P.sweep (P.sweep^[j] a) ≠ P.sweep^[j] a) :
    P.solve budget a = .error (.diverged budget.what budget.limit) :=
  solveFor_of_unstable hexpired (by omega) fun j hj => h j (by omega)

end Problem

namespace Body

variable {b : Body} {rules : Arena LoanRule} {p : Point}

/-! ## A single point -/

/-- A single point is visited once, and finds what it was left with. -/
theorem look_single (h : b.WellFormed) (hpoints : b.points = [p]) {a : Arena LoanSets}
    (ha : a.Covers b.points) :
    (b.loanProblem rules).look ((b.loanProblem rules).sweep a) p =
      (rules.read {} p).apply (.unions ((b.predecessors p).map fun _ =>
        ((b.loanProblem rules).look a p).out)) := by
  have hp : p ∈ b.points := by simp [hpoints]
  have hlook := Problem.look_sweep (h.loanProblem_visitsEach rules) ha (h.loanVisit_mem rules hp)
  rw [hlook]
  show (rules.read {} p).apply _ = _
  rw [List.map_map]
  congr 2
  refine List.map_congr_left fun q hq => ?_
  -- the only point there is to come from is the point itself
  have hmem : q ∈ b.points := h.mem_points_of_successors (h.mem_predecessors.mp hq)
  obtain rfl : q = p := by simpa [hpoints] using hmem
  simp

/-- The start of a run without an earlier result. -/
def noLoans (b : Body) : Arena LoanSets := .ofPoints b.points {}

theorem WellFormed.covers_noLoans (h : b.WellFormed) : b.noLoans.Covers b.points :=
  Arena.covers_ofPoints h.nodup_points _

theorem look_noLoans (h : b.WellFormed) (rules : Arena LoanRule) (p : Point) :
    (b.loanProblem rules).look b.noLoans p = {} :=
  Arena.read_ofPoints h.nodup_points _ p

theorem loanSets_ext {s t : LoanSets} (hactive : ∀ loan, loan ∈ s.active ↔ loan ∈ t.active)
    (hout : ∀ loan, loan ∈ s.out ↔ loan ∈ t.out) : s = t := by
  obtain ⟨active, out⟩ := s
  obtain ⟨active', out'⟩ := t
  obtain rfl : active = active' := SortedSet.ext hactive
  obtain rfl : out = out' := SortedSet.ext hout
  rfl

/-- The first sweep over a single point: its loan leaves, and none is in force. -/
theorem look_single_first (h : b.WellFormed) (rules : Arena LoanRule) (hpoints : b.points = [p]) :
    (b.loanProblem rules).look ((b.loanProblem rules).sweep b.noLoans) p =
      ⟨∅, (rules.read {} p).issued⟩ := by
  rw [look_single h hpoints h.covers_noLoans, look_noLoans h rules p]
  refine loanSets_ext (fun loan => ?_) fun loan => ?_
  · simp [LoanRule.apply]
  · simp [LoanRule.apply]

/-- The second sweep over a single point: what left it before has come back, if the point
    jumps to itself. -/
theorem mem_active_single_second (h : b.WellFormed) (hpoints : b.points = [p]) {loan : Loan} :
    loan ∈ ((b.loanProblem rules).look ((b.loanProblem rules).sweep
        ((b.loanProblem rules).sweep b.noLoans)) p).active ↔
      (p ∈ b.successors p ∧ loan ∈ (rules.read {} p).issued) ∧
        loan ∈ (rules.read {} p).relevant := by
  have hp : p ∈ b.points := by simp [hpoints]
  have hself : (∃ q, q ∈ b.predecessors p) ↔ p ∈ b.successors p := by
    constructor
    · rintro ⟨q, hq⟩
      have hstep := h.mem_predecessors.mp hq
      have hmem : q ∈ b.points := h.mem_points_of_successors hstep
      obtain rfl : q = p := by simpa [hpoints] using hmem
      exact hstep
    · intro hstep
      exact ⟨p, h.mem_predecessors.mpr hstep⟩
  rw [look_single h hpoints (Problem.covers_sweep h.covers_noLoans), look_single_first h rules hpoints]
  simp only [LoanRule.apply, SortedSet.mem_inter, SortedSet.mem_unions, List.mem_map]
  refine and_congr_left fun _ => ?_
  rw [← hself]
  constructor
  · rintro ⟨_, ⟨q, hq, rfl⟩, hloan⟩
    exact ⟨⟨q, hq⟩, hloan⟩
  · rintro ⟨⟨q, hq⟩, hloan⟩
    exact ⟨_, ⟨q, hq, rfl⟩, hloan⟩

theorem mem_out_single_second (h : b.WellFormed) (hpoints : b.points = [p]) {loan : Loan} :
    loan ∈ ((b.loanProblem rules).look ((b.loanProblem rules).sweep
        ((b.loanProblem rules).sweep b.noLoans)) p).out ↔ loan ∈ (rules.read {} p).issued := by
  rw [look_single h hpoints (Problem.covers_sweep h.covers_noLoans), look_single_first h rules hpoints]
  simp only [LoanRule.apply, SortedSet.mem_union, SortedSet.mem_diff, SortedSet.mem_inter,
    SortedSet.mem_unions, List.mem_map]
  constructor
  · rintro (⟨⟨⟨_, ⟨_, _, rfl⟩, hloan⟩, _⟩, _⟩ | hloan)
    · exact hloan
    · exact hloan
  · exact Or.inr

/-- **One sweep over a single point is enough** unless a loan comes back to it. -/
theorem single_stable (h : b.WellFormed) (hpoints : b.points = [p])
    (hnone : ∀ loan ∈ (rules.read {} p).issued, p ∈ b.successors p →
      loan ∉ (rules.read {} p).relevant) :
    (b.loanProblem rules).sweep ((b.loanProblem rules).sweep b.noLoans) =
      (b.loanProblem rules).sweep b.noLoans := by
  have hcovers := Problem.covers_sweep (P := b.loanProblem rules) h.covers_noLoans
  have hlook : ∀ q ∈ b.points,
      (b.loanProblem rules).look
          ((b.loanProblem rules).sweep ((b.loanProblem rules).sweep b.noLoans)) q =
        (b.loanProblem rules).look ((b.loanProblem rules).sweep b.noLoans) q := by
    intro q hq
    obtain rfl : q = p := by simpa [hpoints] using hq
    refine loanSets_ext (fun loan => ?_) fun loan => ?_
    · rw [mem_active_single_second h hpoints, look_single_first h rules hpoints]
      constructor
      · rintro ⟨⟨hself, hissued⟩, hrelevant⟩
        exact absurd hrelevant (hnone loan hissued hself)
      · exact fun hmem => absurd hmem SortedSet.not_mem_empty
    · rw [mem_out_single_second h hpoints, look_single_first h rules hpoints]
  exact (Problem.covers_sweep hcovers).ext hcovers hlook

/-- **Two sweeps change something** on a single point that a loan comes back to. -/
theorem single_unstable (h : b.WellFormed) (hpoints : b.points = [p]) {loan : Loan}
    (hissued : loan ∈ (rules.read {} p).issued) (hself : p ∈ b.successors p)
    (hrelevant : loan ∈ (rules.read {} p).relevant) {j : Nat} (hj : j ≤ 1) :
    (b.loanProblem rules).sweep ((b.loanProblem rules).sweep^[j] b.noLoans) ≠
      (b.loanProblem rules).sweep^[j] b.noLoans := by
  intro hstable
  have hlook := congrArg (fun a => (b.loanProblem rules).look a p) hstable
  obtain rfl | rfl : j = 0 ∨ j = 1 := by omega
  · -- the loan leaves the point in the first sweep
    have hsets : (⟨∅, (rules.read {} p).issued⟩ : LoanSets) = {} := by
      rw [← look_single_first h rules hpoints, ← look_noLoans h rules p]
      exact hlook
    have hout := congrArg LoanSets.out hsets
    dsimp only at hout
    rw [hout] at hissued
    exact SortedSet.not_mem_empty hissued
  · -- and is in force there in the second
    have hactive := (mem_active_single_second h hpoints).mpr ⟨⟨hself, hissued⟩, hrelevant⟩
    have hsame : (b.loanProblem rules).look ((b.loanProblem rules).sweep
        ((b.loanProblem rules).sweep b.noLoans)) p = _ := hlook
    rw [hsame] at hactive
    show False
    have hfirst := look_single_first h rules hpoints
    rw [Function.iterate_one, hfirst] at hactive
    exact SortedSet.not_mem_empty hactive

/-! ## Runs of the pass -/

/-- A run from a start, taken over from an earlier result or not. -/
theorem activeLoans_from {options : LoanOptions} {seed : Option ActiveLoans}
    {start : Arena LoanSets} (hstart : b.loanStart seed = .ok start) :
    b.activeLoans rules options seed = match (b.loanProblem rules).solve {
        what := "active loans of '" ++ b.name ++ "'"
        limit := options.maxSweeps.getD b.points.length
        expired := options.expired } start with
      | .error f => .error (.budget f)
      | .ok s => .ok ⟨b, s.table, s.sweeps, s.trace⟩ := by
  rw [activeLoans, hstart]
  rfl

theorem activeLoans_with (b : Body) (rules : Arena LoanRule) (options : LoanOptions) :
    b.activeLoans rules options = match (b.loanProblem rules).solve {
        what := "active loans of '" ++ b.name ++ "'"
        limit := options.maxSweeps.getD b.points.length
        expired := options.expired } b.noLoans with
      | .error f => .error (.budget f)
      | .ok s => .ok ⟨b, s.table, s.sweeps, s.trace⟩ := activeLoans_from rfl

theorem activeLoans_eq (b : Body) (rules : Arena LoanRule) :
    b.activeLoans rules = match (b.loanProblem rules).solve {
        what := "active loans of '" ++ b.name ++ "'"
        limit := b.points.length } b.noLoans with
      | .error f => .error (.budget f)
      | .ok s => .ok ⟨b, s.table, s.sweeps, s.trace⟩ := b.activeLoans_with rules {}

/-- A run on loans that settle in time. -/
theorem exists_activeLoans_of_stable {n : Nat} (hn : n ≤ b.points.length)
    (hstable : (b.loanProblem rules).sweep ((b.loanProblem rules).sweep^[n] b.noLoans) =
      (b.loanProblem rules).sweep^[n] b.noLoans) :
    ∃ a, b.activeLoans rules = .ok a ∧ a.sweeps ≤ b.points.length := by
  obtain ⟨k, hk, hsettles⟩ := Problem.exists_settles hstable
  have hsolve : (b.loanProblem rules).solve {
      what := "active loans of '" ++ b.name ++ "'"
      limit := b.points.length } b.noLoans = _ :=
    Problem.solve_of_settles rfl rfl (by simp; omega) hsettles
  rw [activeLoans_eq, hsolve]
  exact ⟨_, rfl, Nat.le_trans hk hn⟩

/-- **A loan that comes back** to the only point of the body: it is issued there, the point
    jumps to itself, and the loan matters where it arrives. -/
def LoanComesBack (b : Body) (l : Liveness) (g : SubsetGraph) : Prop :=
  ∃ p issue, b.points = [p] ∧ p ∈ b.successors p ∧ (b.facts p).loan = some issue ∧
    ∃ r ∈ b.regions, r ∈ l.regionsLive p ∧ issue.loan ∈ g.loansInto r

theorem loanRules_eq_ok {l : Liveness} (hl : l.body = b) (g : SubsetGraph) :
    ∃ rules, b.loanRules l g = .ok rules := by
  rw [loanRules, hl, if_pos rfl]
  exact ⟨_, rfl⟩

theorem mem_issued (h : b.WellFormed) {l : Liveness} {g : SubsetGraph}
    (hrules : b.loanRules l g = .ok rules) (hp : p ∈ b.points) {loan : Loan} :
    loan ∈ (rules.read {} p).issued ↔ ∃ issue, (b.facts p).loan = some issue ∧ issue.loan = loan := by
  rw [read_loanRules h hrules hp, ← Option.map_eq_some_iff]
  simp [loanRule]

/-- **The active loans are found within one changing sweep per point**, from any liveness
    result of the body and any graph, exactly if no loan comes back to a single point.
    If one does, the second of two changing sweeps is one too many. -/
theorem activeLoans_within_points_iff {d : Draft} (hb : d.check = .ok b)
    {options : LivenessOptions} {seed : Option Liveness} {l : Liveness}
    (hl : b.liveness options seed = .ok l) (g : SubsetGraph) :
    ∃ rules, b.loanRules l g = .ok rules ∧
      ((∃ a, b.activeLoans rules = .ok a ∧ a.sweeps ≤ b.points.length) ↔ ¬ b.LoanComesBack l g) ∧
      (b.LoanComesBack l g → b.activeLoans rules =
        .error (.budget (.diverged ("active loans of '" ++ b.name ++ "'") 1))) := by
  have h := Draft.wellFormed_of_check hb
  obtain ⟨rules, hrules⟩ := loanRules_eq_ok (liveness_ok hl).1 g
  have hfails : b.LoanComesBack l g → b.activeLoans rules =
      .error (.budget (.diverged ("active loans of '" ++ b.name ++ "'") 1)) := by
    rintro ⟨p, issue, hpoints, hself, hissue, hmatters⟩
    have hp : p ∈ b.points := by simp [hpoints]
    have hissued := (mem_issued h hrules hp).mpr ⟨issue, hissue, rfl⟩
    have hrelevant : issue.loan ∈ (rules.read {} p).relevant := by
      rw [read_loanRules h hrules hp]
      exact mem_relevant.mpr hmatters
    have hlength : (b.points.length : Int) = 1 := by simp [hpoints]
    have hsolve : (b.loanProblem rules).solve {
        what := "active loans of '" ++ b.name ++ "'"
        limit := b.points.length } b.noLoans =
          .error (.diverged ("active loans of '" ++ b.name ++ "'") b.points.length) := by
      refine Problem.solve_of_unstable rfl rfl (Int.natCast_nonneg _) fun j hj => ?_
      have hone : (j : Int) ≤ b.points.length := hj
      exact single_unstable h hpoints hissued hself hrelevant (by omega)
    rw [activeLoans_eq, hsolve, hlength]
  refine ⟨rules, hrules, ⟨?_, ?_⟩, hfails⟩
  · rintro ⟨a, ha, _⟩ hback
    rw [hfails hback] at ha
    cases ha
  · intro hback
    by_cases htwo : 2 ≤ b.points.length
    · refine exists_activeLoans_of_stable (Nat.le_refl _) ?_
      exact stable_loans h rules h.covers_noLoans
        (fun loan => Problem.Fact.absent_ofPoints h.nodup_points) (Or.inl htwo)
    · -- a single point
      have hpos := h.points_length_pos
      obtain ⟨p, hpoints⟩ : ∃ p, b.points = [p] := List.length_eq_one_iff.mp (by omega)
      have hp : p ∈ b.points := by simp [hpoints]
      have hstable : (b.loanProblem rules).sweep ((b.loanProblem rules).sweep b.noLoans) =
          (b.loanProblem rules).sweep b.noLoans := by
        refine single_stable h hpoints fun loan hissued hself hrelevant => ?_
        obtain ⟨issue, hissue, rfl⟩ := (mem_issued h hrules hp).mp hissued
        rw [read_loanRules h hrules hp] at hrelevant
        exact hback ⟨p, issue, hpoints, hself, hissue, mem_relevant.mp hrelevant⟩
      exact exists_activeLoans_of_stable (n := 1) (by omega) hstable

/-- One point that jumps to itself and borrows `x` into a region of the caller. -/
def selfLoop : Draft where
  name := "f"
  locals := .ofList [("x", ⟨"x", .scalar "i32", none, false⟩)]
  regions := .ofList [("'a", ⟨"'a", true⟩)]
  blocks := .ofList [("bb0", ⟨"bb0", [], .jump {
    kind := "goto"
    loan := some ⟨⟨"L0", ⟨"bb0", 0⟩, .ofLocal "x", .shared⟩, [⟨"'a", true⟩]⟩
    targets := ["bb0"] }⟩)]
  entry := "bb0"

/-- The loan of the loop leaves its point in the first sweep and is in force from the
    second on, which is one sweep more than there are points. -/
theorem selfLoop_diverges : ∃ b l g rules, selfLoop.check = .ok b ∧ b.liveness = .ok l ∧
    b.subsetGraph = .ok g ∧ b.loanRules l g = .ok rules ∧
    b.activeLoans rules = .error (.budget (.diverged "active loans of 'f'" 1)) := by
  have hrun : (selfLoop.check.toOption.any fun b => b.liveness.toOption.any fun l =>
      b.subsetGraph.toOption.any fun g => (b.loanRules l g).toOption.any fun rules =>
        match b.activeLoans rules with
        | .ok _ => false
        | .error f => decide (f = .budget (.diverged "active loans of 'f'" 1))) = true := by
    decide +kernel
  simp only [Option.any_eq_true, toOption_eq_some] at hrun
  obtain ⟨b, hb, l, hl, g, hg, rules, hrules, hlast⟩ := hrun
  refine ⟨b, l, g, rules, hb, hl, hg, hrules, ?_⟩
  split at hlast
  · cases hlast
  · next f hf =>
    rw [hf, of_decide_eq_true hlast]

/-- The liveness of the loop, which the bound is said about. -/
theorem activeLoans_selfLoop : ∃ b l, selfLoop.check = .ok b ∧ b.liveness = .ok l ∧
    ∀ g, ∃ rules, b.loanRules l g = .ok rules ∧
      ((∃ a, b.activeLoans rules = .ok a ∧ a.sweeps ≤ b.points.length) ↔ ¬ b.LoanComesBack l g) ∧
      (b.LoanComesBack l g → b.activeLoans rules =
        .error (.budget (.diverged ("active loans of '" ++ b.name ++ "'") 1))) := by
  have hrun : (selfLoop.check.toOption.any fun b => b.liveness.toOption.isSome) = true := by
    decide +kernel
  simp only [Option.any_eq_true, toOption_eq_some, Option.isSome_iff_exists] at hrun
  obtain ⟨b, hb, l, hl⟩ := hrun
  exact ⟨b, l, hb, hl, fun g => activeLoans_within_points_iff hb hl g⟩

end Body

end BorrowFlow
