import BorrowFlow.Proofs.Layout
import Mathlib.Data.Prod.Lex

/-! # The order of conflicts

    Conflicts are found by going through the points, at each point through its accesses, and
    for each access through the loans in force.  Two accesses of a point may yield the same
    record, as it does not say how far an access looks: a store into `x` and a use of `x` that
    writes through it are both a write to `x`.  Only the first of them counts.

    So a conflict has its turn by its point, then by the first access that makes it, then by
    the point that issued the loan (`Body.turn`), and the conflicts of a body are listed by
    their turns, with no two of the same turn (`Body.conflicts_listed`).
-/

namespace BorrowFlow

/-! ## Turns -/

/-- The access makes the conflict: it is of the same place and kind, and it collides with the
    loan. -/
def Access.Makes (a : Access) (c : Conflict) : Prop :=
  a.place = c.place ∧ a.kind = c.kind ∧ a.conflicts c.loan = true

instance (a : Access) (c : Conflict) : Decidable (a.Makes c) :=
  inferInstanceAs (Decidable (_ ∧ _ ∧ _))

namespace Body

/-- **The turn of a conflict** in the listing: the position of its point in the layout, that
    of the first access there that makes it, and that of the point that issued the loan. -/
def turn (b : Body) (c : Conflict) : ℕ ×ₗ ℕ ×ₗ ℕ :=
  toLex (b.points.idxOf c.point,
    toLex ((b.facts c.point).accesses.findIdx (·.Makes c), b.points.idxOf c.loan.point))

variable {b : Body} {loans : List Loan} {active : ActiveLoans} {p : Point} {c c' : Conflict}

theorem turn_lt_of_point (h : b.points.idxOf c.point < b.points.idxOf c'.point) :
    b.turn c < b.turn c' :=
  Prod.Lex.toLex_lt_toLex.mpr (Or.inl h)

/-- At the same point, the access decides, and then the loan. -/
theorem turn_lt_iff_of_point_eq (hc : c.point = p) (hc' : c'.point = p) :
    b.turn c < b.turn c' ↔
      (b.facts p).accesses.findIdx (·.Makes c) < (b.facts p).accesses.findIdx (·.Makes c') ∨
      (b.facts p).accesses.findIdx (·.Makes c) = (b.facts p).accesses.findIdx (·.Makes c') ∧
        b.points.idxOf c.loan.point < b.points.idxOf c'.loan.point := by
  simp only [turn, Prod.Lex.toLex_lt_toLex, hc, hc', lt_irrefl, false_or, true_and]

/-- Loans are listed by the points that issue them. -/
theorem WellFormed.pairwise_loans (h : b.WellFormed) :
    b.loans.Pairwise fun l l' => b.points.idxOf l.point < b.points.idxOf l'.point := by
  rw [loans, List.pairwise_filterMap]
  refine (pairwise_idxOf h.nodup_points).imp_of_mem ?_
  intro p q hp hq hlt l hl l' hl'
  obtain ⟨issue, hissue, rfl⟩ := Option.map_eq_some_iff.mp hl
  obtain ⟨issue', hissue', rfl⟩ := Option.map_eq_some_iff.mp hl'
  rwa [((h.inOrder_facts hp).loan issue hissue).1, ((h.inOrder_facts hq).loan issue' hissue').1]

/-! ## One point -/

/-- The conflicts that one access makes at a point. -/
def conflictsOf (loans : List Loan) (active : ActiveLoans) (p : Point) (a : Access) :
    List Conflict :=
  ((loans.filter (· ∈ active.active p)).filter a.conflicts).map fun l => ⟨p, l, a.place, a.kind⟩

theorem conflictsAt_eq : b.conflictsAt loans active p =
    ((b.facts p).accesses.flatMap (conflictsOf loans active p)).eraseDups := rfl

theorem mem_conflictsOf_iff {a : Access} :
    c ∈ conflictsOf loans active p a ↔
      (c.point = p ∧ c.loan ∈ loans ∧ c.loan ∈ active.active p) ∧ a.Makes c := by
  obtain ⟨q, l, place, kind⟩ := c
  simp only [conflictsOf, List.mem_map, List.mem_filter, decide_eq_true_eq, Access.Makes, Conflict.mk.injEq]
  constructor
  · rintro ⟨l', ⟨hforce, hcollides⟩, rfl, rfl, rfl, rfl⟩
    exact ⟨⟨rfl, hforce⟩, rfl, rfl, hcollides⟩
  · rintro ⟨⟨rfl, hforce⟩, hplace, hkind, hcollides⟩
    exact ⟨l, ⟨hforce, hcollides⟩, rfl, rfl, hplace, hkind⟩

theorem mem_conflictsAt_iff :
    c ∈ b.conflictsAt loans active p ↔
      (c.point = p ∧ c.loan ∈ loans ∧ c.loan ∈ active.active p) ∧
        ∃ a ∈ (b.facts p).accesses, a.Makes c := by
  simp only [conflictsAt_eq, List.mem_eraseDups, List.mem_flatMap, mem_conflictsOf_iff]
  constructor
  · rintro ⟨a, ha, hforce, hmakes⟩
    exact ⟨hforce, a, ha, hmakes⟩
  · rintro ⟨hforce, a, ha, hmakes⟩
    exact ⟨a, ha, hforce, hmakes⟩

/-- **Step lemma**: at one point, conflicts are listed by their turns. -/
theorem WellFormed.pairwise_conflictsAt (h : b.WellFormed) :
    (b.conflictsAt b.loans active p).Pairwise fun c c' => b.turn c < b.turn c' := by
  have hloans : ∀ a ∈ (b.facts p).accesses,
      (conflictsOf b.loans active p a).Pairwise
        fun c c' => b.points.idxOf c.loan.point < b.points.idxOf c'.loan.point := by
    intro a _
    rw [conflictsOf, List.pairwise_map]
    exact h.pairwise_loans.sublist (List.filter_sublist.trans List.filter_sublist)
  have : Std.Irrefl fun c c' : Conflict =>
      b.points.idxOf c.loan.point < b.points.idxOf c'.loan.point := ⟨fun _ => lt_irrefl _⟩
  -- the access that yields a record first is the first that makes it, as the loan is in force
  have hfirst : ∀ k ∈ b.conflictsAt b.loans active p,
      (b.facts p).accesses.findIdx (k ∈ conflictsOf b.loans active p ·) =
        (b.facts p).accesses.findIdx (·.Makes k) := by
    intro k hk
    have hforce := (mem_conflictsAt_iff.mp hk).1
    simp only [mem_conflictsOf_iff, hforce, true_and]
  refine (pairwise_eraseDups_flatMap hloans).imp_of_mem ?_
  intro c c' hc hc' hlt
  rw [hfirst c hc, hfirst c' hc'] at hlt
  exact (turn_lt_iff_of_point_eq (mem_conflictsAt_iff.mp hc).1.1
    (mem_conflictsAt_iff.mp hc').1.1).mpr hlt

/-! ## All points -/

/-- **Conflicts are listed by their turns.** -/
theorem WellFormed.pairwise_conflicts (h : b.WellFormed) {cs : List Conflict}
    (hcs : b.conflicts active = .ok cs) : cs.Pairwise fun c c' => b.turn c < b.turn c' := by
  rw [conflicts] at hcs
  split at hcs
  · cases hcs
    refine List.pairwise_flatMap.mpr ⟨fun p _ => h.pairwise_conflictsAt, ?_⟩
    refine (pairwise_idxOf h.nodup_points).imp ?_
    intro p q hlt c hc c' hc'
    apply turn_lt_of_point
    rwa [(mem_conflictsAt_iff.mp hc).1.1, (mem_conflictsAt_iff.mp hc').1.1]
  · cases hcs

section Result

variable {l : Liveness} {g : SubsetGraph} {rules : Arena LoanRule} {options : LoanOptions}
  {seed : Option ActiveLoans} {a : ActiveLoans} {loan : Loan}

/-- Every active loan of a result is one of the body, whatever the result was started from. -/
theorem WellFormed.mem_loans_of_mem_active (h : b.WellFormed) (hg : b.subsetGraph = .ok g)
    (hrules : b.loanRules l g = .ok rules) (ha : b.activeLoans rules options seed = .ok a)
    (hloan : loan ∈ a.active p) : loan ∈ b.loans := by
  obtain ⟨hp, hrelevant, _⟩ := (mem_active_of_activeLoans h ha).mp hloan
  rw [read_loanRules h hrules hp, mem_relevant] at hrelevant
  obtain ⟨r, hr, _, hinto⟩ := hrelevant
  obtain ⟨issue, hissue, hof, _⟩ := (h.mem_loansInto_iff hg hr).mp hinto
  exact h.mem_loans_iff.mpr ⟨issue, hissue, hof⟩

/-- **The conflicts of a body are listed completely, once each and in order.**  Take the
    active loans of a checked body, from whatever liveness and whatever start they were found.
    They are known at every point of the body and are loans of the body, so the conflicts are
    found.  A record is among them if and only if its loan is active at its point and an access
    there makes it; none is there twice, and they stand in the order of their turns. -/
theorem conflicts_listed {d : Draft} (hb : d.check = .ok b) (hg : b.subsetGraph = .ok g)
    (hrules : b.loanRules l g = .ok rules) (ha : b.activeLoans rules options seed = .ok a) :
    (∀ p ∈ b.points, a.activeAt p = .ok (a.active p) ∧ ∀ loan ∈ a.active p, loan ∈ b.loans) ∧
      ∃ cs, b.conflicts a = .ok cs ∧
        (∀ c, c ∈ cs ↔ c.loan ∈ a.active c.point ∧
          ∃ access ∈ (b.facts c.point).accesses, access.place = c.place ∧
            access.kind = c.kind ∧ access.conflicts c.loan = true) ∧
        cs.Nodup ∧ cs.Pairwise fun c c' => b.turn c < b.turn c' := by
  have h := Draft.wellFormed_of_check hb
  have hbody := (activeLoans_ok ha).1
  refine ⟨fun p hp => ⟨?_, fun loan => h.mem_loans_of_mem_active hg hrules ha⟩, ?_⟩
  · rw [ActiveLoans.activeAt, hbody, if_pos hp]
  · obtain ⟨cs, hcs⟩ : ∃ cs, b.conflicts a = .ok cs :=
      ⟨_, by rw [conflicts, if_pos (congrArg Body.serial hbody)]⟩
    refine ⟨cs, hcs, fun c => ?_, h.nodup_conflicts hcs, h.pairwise_conflicts hcs⟩
    rw [h.mem_conflicts_iff hcs]
    constructor
    · rintro ⟨haccess, _, hactive⟩
      exact ⟨hactive, haccess⟩
    · rintro ⟨hactive, haccess⟩
      exact ⟨haccess, h.mem_loans_of_mem_active hg hrules ha hactive, hactive⟩

end Result

/-- `*x` is borrowed and then `x`, both for the caller.  The next statement stores into `x`,
    writes through it and reads it. -/
def repeatedAccess : Draft where
  name := "f"
  locals := .ofList [("x", ⟨"x", .ref ⟨"'a", true⟩ true (.scalar "i32"), none, false⟩)]
  regions := .ofList [("'a", ⟨"'a", true⟩)]
  blocks := .ofList [("bb0", ⟨"bb0", [
    .plain { kind := "borrow", loan := some ⟨behind, [⟨"'a", true⟩]⟩ },
    .plain { kind := "borrow", loan := some ⟨front, [⟨"'a", true⟩]⟩ },
    .plain {
      kind := "call"
      accesses := [⟨.ofLocal "x", .write, true⟩, ⟨.ofLocal "x", .write, false⟩,
        ⟨.ofLocal "x", .read, false⟩] }],
    .jump { kind := "return" }⟩)]
  entry := "bb0"
where
  /-- The loan of `*x`. -/
  behind : Loan := ⟨"L0", ⟨"bb0", 0⟩, ⟨"x", [.deref]⟩, .mutable⟩
  /-- The loan of `x`. -/
  front : Loan := ⟨"L1", ⟨"bb0", 1⟩, .ofLocal "x", .shared⟩

/-- The store meets the loan of `x` only and so puts it in front of the older loan of `*x`. -/
theorem repeatedAccess_listed : ∃ b f, repeatedAccess.check = .ok b ∧ b.findings = .ok f ∧
    f.conflicts = [⟨⟨"bb0", 2⟩, repeatedAccess.front, .ofLocal "x", .write⟩,
      ⟨⟨"bb0", 2⟩, repeatedAccess.behind, .ofLocal "x", .write⟩,
      ⟨⟨"bb0", 2⟩, repeatedAccess.behind, .ofLocal "x", .read⟩] ∧
    f.conflicts.Pairwise fun c c' => b.turn c < b.turn c' := by
  have hrun : (repeatedAccess.check.toOption.any fun b => b.findings.toOption.any fun f =>
      decide (f.conflicts = [⟨⟨"bb0", 2⟩, repeatedAccess.front, .ofLocal "x", .write⟩,
        ⟨⟨"bb0", 2⟩, repeatedAccess.behind, .ofLocal "x", .write⟩,
        ⟨⟨"bb0", 2⟩, repeatedAccess.behind, .ofLocal "x", .read⟩])) = true := by
    decide +kernel
  simp only [Option.any_eq_true, toOption_eq_some, decide_eq_true_eq] at hrun
  obtain ⟨b, hb, f, hf, hlist⟩ := hrun
  obtain ⟨rules, hfinds⟩ := findings_eq_ok.mp hf
  obtain ⟨_, cs, hcs, _, _, hturns⟩ := conflicts_listed hb hfinds.graph hfinds.ruled hfinds.active
  obtain rfl : f.conflicts = cs := Except.ok.inj (hfinds.conflicts.symm.trans hcs)
  exact ⟨b, f, hb, hf, hlist, hturns⟩

end Body

end BorrowFlow
