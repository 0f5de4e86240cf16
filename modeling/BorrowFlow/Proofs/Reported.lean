import BorrowFlow.Proofs.Coherence
import BorrowFlow.Proofs.Overwrite

/-! # Overwritten loans are reported

    Overwriting a place ends the loans of what it encloses.  A loan must not vanish that way
    without a word: unless the borrow lies behind a pointer that is merely replaced, the
    overwriting is a conflict (`overwritten_loan_reported`).

    Three rules have to fit together for this.  A statement that overwrites a place announces
    it as a shallow write to the very place, as the facts that a builder derives are coherent
    (`Operation.Derives.coherent`).  What encloses a place overlaps it, and so a shallow write reaches
    all that is not behind a pointer (`Place.shallowReaches_iff`).  And such a write collides
    with every loan, shared or not.
-/

namespace BorrowFlow

/-! ## Accesses that overwrite -/

/-- An access that overwrites a place conflicts with every loan that it reaches. -/
theorem Access.conflicts_of_shallow {place : Place} {kind : AccessKind} {loan : Loan}
    (hkind : kind = .write ∨ kind = .storageDead) (h : place.shallowReaches loan.place = true) :
    Access.conflicts ⟨place, kind, true⟩ loan = true := by
  rcases hkind with rfl | rfl <;> simp [conflicts, h]

/-- **A built body announces what it overwrites**: the place is accessed there, shallowly. -/
theorem Builder.announces_of_finish {name : String} {span : Span} {qs : List Request} {body : Body}
    (h : (after { name := name, span := span } qs).finish = .ok body) {p : Point} {place : Place}
    (hplace : (body.facts p).assigned = some place) :
    ∃ kind, (kind = .write ∨ kind = .storageDead) ∧ ⟨place, kind, true⟩ ∈ (body.facts p).accesses := by
  obtain ⟨d, _, hcheck⟩ := finish_eq_ok.mp h
  have hbody := Draft.wellFormed_of_check hcheck
  have hp : p ∈ body.points := by
    by_contra hnot
    rw [hbody.facts_of_not_mem hnot] at hplace
    cases hplace
  obtain ⟨_, _, _, _, hderives⟩ := exists_origin_of_finish h hp
  obtain ⟨kind, hkind, hlast⟩ := (hderives.coherent.assigned_iff place).mp hplace
  exact ⟨kind, hkind, List.mem_of_getLast? hlast⟩

/-! ## Reports -/

/-- **An active loan that is overwritten is reported.**  In the findings on a body that was
    built by any requests, take a loan that is active at a point where a place is overwritten
    that encloses the borrowed one.  Then either a pointer is followed on the way from the
    first place to the second, or there is a conflict at this point that names the loan and
    the overwritten place, as a write or as the end of its storage. -/
theorem overwritten_loan_reported {name : String} {span : Span} {qs : List Request} {body : Body}
    (hbody : (Builder.after { name := name, span := span } qs).finish = .ok body)
    {options : AnalysisOptions} {a : Analysis} {f : Findings}
    (ha : body.analyze options = .ok a) (hf : a.outcome = .complete f)
    {p : Point} {loan : Loan} {w : Place} (hloan : loan ∈ f.active.active p)
    (hw : (body.facts p).assigned = some w) (hencloses : w.encloses loan.place = true) :
    Projection.deref ∈ loan.place.path.drop w.path.length ∨
      ∃ c ∈ f.conflicts, c.point = p ∧ c.loan = loan ∧ c.place = w ∧
        (c.kind = .write ∨ c.kind = .storageDead) := by
  by_cases hderef : Projection.deref ∈ loan.place.path.drop w.path.length
  · exact Or.inl hderef
  · right
    obtain ⟨kind, hkind, haccess⟩ := Builder.announces_of_finish hbody hw
    have hreaches := (Place.shallowReaches_iff hencloses).mpr hderef
    have hcollides := Access.conflicts_of_shallow hkind hreaches
    obtain ⟨d, _, hcheck⟩ := Builder.finish_eq_ok.mp hbody
    have hwell := Draft.wellFormed_of_check hcheck
    obtain ⟨rules, hfinds⟩ := Body.analyze_complete ha hf
    -- an active loan was issued somewhere in the body
    obtain ⟨issue, hissue, hissued, hholds⟩ :=
      ((hfinds.prepared hwell).mem_active_iff hfinds.active).mp hloan
    refine ⟨⟨p, loan, w, kind⟩, ?_, rfl, rfl, rfl, hkind⟩
    rw [hfinds.mem_conflicts_iff hwell]
    exact ⟨⟨_, haccess, rfl, rfl, hcollides⟩, issue, hissue, hissued, hholds⟩

/-- `r` borrows `x`, and `s` what `q` points to; then both `x` and `q` are overwritten while
    the borrows are still to be used. -/
def replacing : List Request :=
  let declare (name : String) (ty : Ty) : Request := { operation := .declare name ty none false }
  [declare "x" Sample.int, declare "q" (.ref ⟨"'q", false⟩ true Sample.int),
    declare "r" (.ref ⟨"'r", false⟩ false Sample.int),
    declare "s" (.ref ⟨"'s", false⟩ true Sample.int),
    { operation := .openBlock "bb0" },
    { operation := .borrow "bb0" (.ofLocal "r") (.ofLocal "x") false },
    { operation := .borrow "bb0" (.ofLocal "s") ⟨"q", [.deref]⟩ true },
    { operation := .assign "bb0" (.ofLocal "x") .const },
    { operation := .assign "bb0" (.ofLocal "q") .const },
    { operation := .use "bb0" [.copy (.ofLocal "r"), .copy (.ofLocal "s")] },
    { operation := .ret "bb0" }]

/-- Overwriting `x` is reported.  Overwriting `q` is not, as the borrow of `s` lies behind it. -/
theorem replacing_loan_reported : ∃ (body : Body) (f : Findings),
    (Builder.after { name := "f" } replacing).finish = .ok body ∧
    body.analyze = .ok ⟨body, .complete f⟩ ∧
    (∃ c ∈ f.conflicts, c.point = ⟨"bb0", 2⟩ ∧ c.place = .ofLocal "x" ∧
      c.loan = ⟨"L0", ⟨"bb0", 0⟩, .ofLocal "x", .shared⟩) ∧
    ⟨"L1", ⟨"bb0", 1⟩, ⟨"q", [.deref]⟩, .mutable⟩ ∈ f.active.active ⟨"bb0", 3⟩ ∧
    ∀ c ∈ f.conflicts, c.point ≠ ⟨"bb0", 3⟩ := by
  have hrun : ((Builder.after { name := "f" } replacing).finish.toOption.any fun body =>
      body.findings.toOption.any fun f =>
        decide ((body.facts ⟨"bb0", 2⟩).assigned = some (.ofLocal "x") ∧
          ⟨"L0", ⟨"bb0", 0⟩, .ofLocal "x", .shared⟩ ∈ f.active.active ⟨"bb0", 2⟩ ∧
          ⟨"L1", ⟨"bb0", 1⟩, ⟨"q", [.deref]⟩, .mutable⟩ ∈ f.active.active ⟨"bb0", 3⟩ ∧
          ∀ c ∈ f.conflicts, c.point ≠ ⟨"bb0", 3⟩)) = true := by
    decide +kernel
  simp only [Option.any_eq_true, toOption_eq_some, decide_eq_true_eq] at hrun
  obtain ⟨body, hbody, f, hf, hassigned, hloan, hbehind, hquiet⟩ := hrun
  have ha : body.analyze = .ok ⟨body, .complete f⟩ := by rw [Body.analyze, hf]
  have hreported := overwritten_loan_reported hbody ha rfl hloan hassigned rfl
  refine ⟨body, f, hbody, ha, ?_, hbehind, hquiet⟩
  rcases hreported with hderef | ⟨c, hc, hpoint, hof, hplace, _⟩
  · cases hderef
  · exact ⟨c, hc, hpoint, hplace, hof⟩

end BorrowFlow
