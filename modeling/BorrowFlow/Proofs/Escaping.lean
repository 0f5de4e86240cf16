import BorrowFlow.Proofs.Reported

/-! # Escaping borrows

    A borrow escapes if its loan flows into a universal region, that is, if the caller may
    still hold the reference when the function is left.  Then the storage of what is borrowed
    must not end in the function.

    A universal region is needed everywhere, so the loan of an escaping borrow matters at every
    point, whatever is still used there (`Body.matters_of_universal`).  Nothing but overwriting
    ends it.  So wherever a walk brings it to the end of the storage, this end is a conflict
    (`escaping_borrow_reported`).
-/

namespace BorrowFlow

open Relation (ReflTransGen)

/-! ## Ends of storage -/

/-- The statement ends the storage of a variable. -/
def Statement.EndsStorage (s : Statement) (x : String) : Prop :=
  s.kind = "storage_dead" ∧ s.write = some x

instance (s : Statement) (x : String) : Decidable (s.EndsStorage x) :=
  inferInstanceAs (Decidable (_ ∧ _))

namespace Operation.Derives

open Builder

variable {op : Operation} {span : Option Span} {b : Builder} {s : Statement} {x : String}

/-- What a request to end the storage of a variable leaves: one access, and no loan. -/
theorem facts_of_storageDead {block : String} (h : (Operation.storageDead block x).Derives span b s) :
    s.EndsStorage x ∧ s.accesses = [⟨.ofLocal x, .storageDead, true⟩] ∧ s.loan = none := by
  cases h with
  | storageDead h =>
    have hs := (gives_append.mp h).1
    simp only [bind_eq_ok, pure_eq_ok] at hs
    obtain ⟨_, _, rfl⟩ := hs
    exact ⟨⟨rfl, rfl⟩, rfl, rfl⟩

/-- **Ends of storage are what they are called**: the statement that a request leaves ends the
    storage of a variable exactly if the request asks for that. -/
theorem endsStorage_iff (h : op.Derives span b s) :
    s.EndsStorage x ↔ ∃ block, op = .storageDead block x := by
  constructor
  · intro hends
    have hop := h.heading.1
    rw [hends.1] at hop
    cases op with
    | storageDead block var =>
      have hvar := (facts_of_storageDead h).1.2
      rw [hends.2] at hvar
      cases hvar
      exact ⟨block, rfl⟩
    | _ => simp [kind?] at hop
  · intro hop
    obtain ⟨block, rfl⟩ := hop
    exact (facts_of_storageDead h).1

end Operation.Derives

/-! ## Loans that always matter -/

namespace Body

variable {b : Body} {precise : Bool} {issue : LoanIssue} {r s : Region}

/-- A loan that flows into a universal region matters everywhere. -/
theorem matters_of_universal (hs : s ∈ issue.regions) (hflow : b.FlowsInto s r)
    (hr : r.universal = true) (p : Point) : b.Matters precise issue p :=
  ⟨s, hs, r, hflow, Or.inl hr⟩

end Body

/-! ## Reports -/

/-- **An escaping borrow of a variable whose storage ends is reported.**  In the findings on a
    body that was built by any requests, take a loan of `x`, or of a part of `x` that is not
    behind a pointer, with a path to a universal region in the graph.  Let a walk lead from its
    issue to a point that ends the storage of `x`, and on the way overwrite nothing that the
    loan goes through, other than where it is issued.  Then the end of the storage is a
    conflict with the loan, whatever is live on the way. -/
theorem escaping_borrow_reported {name : String} {span : Span} {qs : List Request} {body : Body}
    (hbody : (Builder.after { name := name, span := span } qs).finish = .ok body)
    {options : AnalysisOptions} {a : Analysis} {f : Findings}
    (ha : body.analyze options = .ok a) (hf : a.outcome = .complete f)
    {loan : Loan} (hloan : loan ∈ body.loans) (hplace : Projection.deref ∉ loan.place.path)
    {r : Region} (hr : r ∈ body.regions) (huniversal : r.universal = true)
    (hpath : ReflTransGen f.graph.Leads (.ofLoan loan) (.ofRegion r))
    {rest : List Point} {p : Point} (hwalk : body.Walk (loan.point :: rest))
    (hlast : (loan.point :: rest).getLast? = some p)
    (hclear : ∀ q ∈ rest.dropLast, q ≠ loan.point → ¬ body.Overwrites loan q)
    (hends : (body.facts p).EndsStorage loan.place.base) :
    ⟨p, loan, .ofLocal loan.place.base, .storageDead⟩ ∈ f.conflicts := by
  obtain ⟨d, _, hcheck⟩ := Builder.finish_eq_ok.mp hbody
  have hwell := Draft.wellFormed_of_check hcheck
  obtain ⟨rules, hfinds⟩ := Body.analyze_complete ha hf
  have hinto := (hwell.mem_loansInto_iff_path hfinds.graph hr).mpr ⟨hloan, hpath⟩
  obtain ⟨issue, hissue, rfl, s, hs, hflow⟩ := (hwell.mem_loansInto_iff hfinds.graph hr).mp hinto
  -- what stands at the point was left by a request to end the storage
  obtain ⟨_, q, _, _, _, _, hderives⟩ := Builder.exists_origin_of_kind hbody hends.1 (by decide)
  obtain ⟨block, hq⟩ := hderives.endsStorage_iff.mp hends
  rw [hq] at hderives
  obtain ⟨_, haccesses, hnone⟩ := hderives.facts_of_storageDead
  rw [hfinds.mem_conflicts_iff hwell]
  refine ⟨⟨⟨.ofLocal issue.loan.place.base, .storageDead, true⟩, ?_, rfl, rfl, ?_⟩,
    issue, hissue, rfl, ?_⟩
  · rw [haccesses]
    exact List.mem_singleton_self _
  · have hencloses : (Place.ofLocal issue.loan.place.base).encloses issue.loan.place = true :=
      encloses_iff.mpr ⟨rfl, List.nil_prefix⟩
    exact Access.conflicts_of_shallow (Or.inr rfl) ((Place.shallowReaches_iff hencloses).mpr hplace)
  · cases rest using List.reverseRecOn with
    | nil =>
      -- the storage does not end where the loan is issued
      obtain rfl : issue.loan.point = p := Option.some.inj hlast
      exact absurd (hnone.symm.trans hissue) (by simp)
    | append_singleton between q =>
      rw [← List.cons_append, List.getLast?_concat] at hlast
      obtain rfl : q = p := Option.some.inj hlast
      rw [List.dropLast_concat] at hclear
      exact ⟨between, hwalk, fun q' _ => Body.matters_of_universal hs hflow huniversal q', hclear⟩

/-- `x` is borrowed into a region that has to flow into one of the caller.  Then a loop goes on
    for any number of rounds, after which the storage of `x` ends.  The reference is not used. -/
def escaping : List Request :=
  [{ operation := .declareRegion "'a" true },
    { operation := .declare "x" Sample.int none false },
    { operation := .declare "r" (.ref ⟨"'r", false⟩ false Sample.int) none false },
    { operation := .openBlock "bb0" }, { operation := .openBlock "bb1" },
    { operation := .openBlock "bb2" },
    { operation := .borrow "bb0" (.ofLocal "r") (.ofLocal "x") false },
    { operation := .outlives "bb0" ⟨"'r", false⟩ ⟨"'a", true⟩ },
    { operation := .goto "bb0" "bb1" },
    { operation := .branch "bb1" ["bb1", "bb2"] none },
    { operation := .storageDead "bb2" "x" },
    { operation := .ret "bb2" }]

/-- The end of the storage is reported, though no variable is live anywhere in the loop. -/
theorem escaping_loan_reported : ∃ (body : Body) (f : Findings),
    (Builder.after { name := "f" } escaping).finish = .ok body ∧
    body.analyze = .ok ⟨body, .complete f⟩ ∧ f.liveness.liveIn ⟨"bb1", 0⟩ = ∅ ∧
    (⟨⟨"bb2", 0⟩, ⟨"L0", ⟨"bb0", 0⟩, .ofLocal "x", .shared⟩, .ofLocal "x", .storageDead⟩ :
      Conflict) ∈ f.conflicts := by
  have hrun : ((Builder.after { name := "f" } escaping).finish.toOption.any fun body =>
      body.findings.toOption.any fun f =>
        decide (f.liveness.liveIn ⟨"bb1", 0⟩ = ∅ ∧
          (⟨"'a", true⟩ : Region) ∈ body.regions ∧
          ⟨"L0", ⟨"bb0", 0⟩, .ofLocal "x", .shared⟩ ∈ f.graph.loansInto ⟨"'a", true⟩ ∧
          [⟨"bb0", 0⟩, ⟨"bb0", 1⟩, ⟨"bb0", 2⟩, ⟨"bb1", 0⟩, ⟨"bb1", 0⟩, (⟨"bb2", 0⟩ : Point)].IsChain
            (fun p q => q ∈ body.successors p) ∧
          (∀ q ∈ [⟨"bb0", 1⟩, ⟨"bb0", 2⟩, ⟨"bb1", 0⟩, (⟨"bb1", 0⟩ : Point)],
            (body.facts q).assigned = none) ∧
          (body.facts ⟨"bb2", 0⟩).EndsStorage "x")) = true := by
    decide +kernel
  simp only [Option.any_eq_true, toOption_eq_some, decide_eq_true_eq] at hrun
  obtain ⟨body, hbody, f, hf, hlive, hr, hinto, hwalk, hclear, hends⟩ := hrun
  obtain ⟨d, _, hcheck⟩ := Builder.finish_eq_ok.mp hbody
  obtain ⟨rules, hfinds⟩ := Body.findings_eq_ok.mp hf
  have ha : body.analyze = .ok ⟨body, .complete f⟩ := by rw [Body.analyze, hf]
  obtain ⟨hloan, hpath⟩ :=
    ((Draft.wellFormed_of_check hcheck).mem_loansInto_iff_path hfinds.graph hr).mp hinto
  refine ⟨body, f, hbody, ha, hlive, ?_⟩
  refine escaping_borrow_reported hbody ha rfl hloan List.not_mem_nil hr rfl hpath hwalk rfl ?_ hends
  rintro q hq _ ⟨place, hassigned, _⟩
  rw [hclear q hq] at hassigned
  cases hassigned

end BorrowFlow
