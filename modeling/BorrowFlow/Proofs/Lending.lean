import BorrowFlow.Proofs.Builder.Origin
import BorrowFlow.Proofs.Ty.Relate

/-! # References and the loans they receive

    A borrow is assigned to a place whose type is a reference, and the new loan is issued
    into the region of that reference.  `Builder.Lends` collects what a builder makes sure of
    before it appends such a statement, and every loan of a built body comes with it
    (`Builder.exists_lends`).

    Whether the reference is mutable is compared with the borrow one way only.  A mutable
    borrow needs a mutable reference, but a shared one is accepted by any
    (`reference_receives`), where a value of a shared reference type would be refused.
    Writes through a mutable reference may so be backed by a shared loan, and no conflict
    tells (`sharedBacking_accepted`).
-/

namespace BorrowFlow

open BuildM

namespace Builder

variable {b : Builder}

/-! ## The edges of a borrow -/

theorem relate_eq_ok {src dst : Ty} {edges : List RegionEdge} :
    relate src dst = .ok edges ↔ src.relate dst = .ok edges := by
  unfold relate
  cases src.relate dst <;> simp

/-- **A borrow is accepted** by a place whose type is a reference.  It has to be a mutable one
    only if the borrow is mutable. -/
theorem borrowTarget_eq_ok {dest : Place} {mutable : Bool} {r : Region} {t : Ty} :
    b.borrowTarget dest mutable = .ok (r, t) ↔
      ∃ m, b.placeType dest = .ok (some (.ref r m t)) ∧ (mutable = true → m = true) := by
  simp only [borrowTarget, bind_eq_ok]
  constructor
  · intro h
    obtain ⟨ty, hty, h⟩ := h
    split at h
    · next r' m t' =>
      split at h
      · cases h
      · next hfits =>
        cases h
        refine ⟨m, hty, fun hmutable => ?_⟩
        simpa [hmutable] using hfits
    · cases h
  · intro h
    obtain ⟨m, hty, hfits⟩ := h
    refine ⟨_, hty, ?_⟩
    have hfits : ¬ (mutable && !m) = true := by
      simpa using hfits
    exact if_neg hfits

/-- The edges between the borrowed place and the referent: none if the type of the place is
    not told, and otherwise those of the two types, both ways for a mutable borrow. -/
theorem borrowEdges_eq_ok {place : Place} {t : Ty} {mutable : Bool} {edges : List RegionEdge}
    (h : b.borrowEdges place t mutable = .ok edges) :
    ∃ ty, b.placeType place = .ok ty ∧ ∀ s, ty = some s →
      ∃ forward, s.relate t = .ok forward ∧ forward ⊆ edges ∧
        (mutable = true → ∃ backward, t.relate s = .ok backward ∧ backward ⊆ edges) := by
  simp only [borrowEdges, bind_eq_ok] at h
  obtain ⟨ty, hty, h⟩ := h
  refine ⟨ty, hty, ?_⟩
  intro s hs
  subst hs
  obtain ⟨forward, hforward, h⟩ := bind_eq_ok.mp h
  refine ⟨forward, relate_eq_ok.mp hforward, ?_⟩
  by_cases hmutable : mutable = true
  · rw [if_pos hmutable] at h
    obtain ⟨backward, hbackward, h⟩ := bind_eq_ok.mp h
    cases h
    exact ⟨List.subset_append_left _ _, fun _ =>
      ⟨backward, relate_eq_ok.mp hbackward, List.subset_append_right _ _⟩⟩
  · rw [if_neg hmutable] at h
    cases h
    exact ⟨List.Subset.refl _, fun hcontra => absurd hcontra hmutable⟩

/-! ## Loans and their references -/

/-- **What a builder makes sure of when it lends**: the loan is issued into the region `r` of
    the reference that it is assigned to, and the edges of the borrow are among the
    obligations of the statement. -/
structure Lends (b : Builder) (s : Statement) (issue : LoanIssue) (dest : Place) (r : Region)
    (m : Bool) (t : Ty) : Prop where
  assigned : s.assigned = some dest
  reference : b.placeType dest = .ok (some (.ref r m t))
  regions : issue.regions = [r]
  fits : issue.loan.isMutable = true → m = true
  edges : ∃ through between, b.reborrowEdges r issue.loan.place.derefBases = .ok through ∧
    b.borrowEdges issue.loan.place t issue.loan.isMutable = .ok between ∧
    s.obligations = obligationsAt issue.loan.point (through ++ between)

theorem isMutable_nextLoan (b : Builder) (block : String) (place : Place) (mutable : Bool) :
    (b.nextLoan block place mutable).isMutable = mutable := by
  cases mutable <;> rfl

/-- A statement that issues a loan stems from a borrow. -/
theorem lends_of_derives {op : Operation} {span : Option Span} {s : Statement} {issue : LoanIssue}
    (h : op.Derives span b s) (hissue : s.loan = some issue) :
    ∃ dest r m t, b.Lends s issue dest r m t := by
  have hkind : s.kind = "borrow" := by
    by_contra hne
    rw [h.heading.2.2 hne] at hissue
    cases hissue
  have hop := h.heading.1
  rw [hkind] at hop
  cases h with
  | borrow htarget hs =>
    obtain ⟨m, hty, hfits⟩ := borrowTarget_eq_ok.mp htarget
    simp only [borrowStatement, bind_eq_ok, pure_eq_ok] at hs
    obtain ⟨through, hthrough, between, hbetween, _, _, _, _, rfl⟩ := hs
    cases hissue
    refine ⟨_, _, m, _, rfl, hty, rfl, ?_, through, between, hthrough, hbetween, rfl⟩
    rw [isMutable_nextLoan]
    exact hfits
  | _ => simp [Operation.kind?] at hop

/-- **Every loan of a built body was lent** in a builder whose variables are those of the
    body. -/
theorem exists_lends {name : String} {span : Span} {qs : List Request} {body : Body}
    (hbody : (after { name := name, span := span } qs).finish = .ok body) {p : Point}
    {issue : LoanIssue} (hissue : (body.facts p).loan = some issue) :
    ∃ b : Builder, b.KnownIn body ∧ ∃ dest r m t, b.Lends (body.facts p) issue dest r m t := by
  obtain ⟨d, _, hcheck⟩ := finish_eq_ok.mp hbody
  obtain ⟨hp, _⟩ := (Draft.wellFormed_of_check hcheck).issues_of_loan hissue
  obtain ⟨q, _, b, hknown, hderives⟩ := exists_origin_of_finish hbody hp
  exact ⟨b, hknown, lends_of_derives hderives hissue⟩

end Builder

/-! ## Kinds of references -/

/-- References to types of one shape relate exactly if both are mutable or neither is. -/
theorem Ty.exists_relate_ref_iff {r r' : Region} {m m' : Bool} {s t : Ty}
    (hshape : s.erase = t.erase) :
    (∃ edges, (Ty.ref r m s).relate (.ref r' m' t) = .ok edges) ↔ m = m' := by
  rw [exists_relate_iff, erase, erase, hshape]
  simp

/-- **Which loans a reference receives.**  In a body that was built by any requests, a loan is
    issued into the region of a reference, the type of the place that it is assigned to, and
    what is borrowed has the shape of its referent.  A shared reference receives shared loans
    only.  A mutable one may receive both; only with a mutable loan does a reference of the
    borrowed kind relate to it. -/
theorem reference_receives {name : String} {span : Span} {qs : List Request} {body : Body}
    (hbody : (Builder.after { name := name, span := span } qs).finish = .ok body) {p : Point}
    {issue : LoanIssue} (hissue : (body.facts p).loan = some issue) :
    ∃ dest r m t, (body.facts p).assigned = some dest ∧
      body.typeOf dest = some (.ref r m t) ∧ issue.regions = [r] ∧
      (∀ s, body.typeOf issue.loan.place = some s → s.erase = t.erase) ∧
      (m = false → issue.loan.kind = .shared) ∧
      ∀ r' s, s.erase = t.erase →
        ((∃ edges, (Ty.ref r' issue.loan.isMutable s).relate (.ref r m t) = .ok edges) ↔
          (m = true → issue.loan.kind = .mutable)) := by
  obtain ⟨b, hknown, dest, r, m, t, hlends⟩ := Builder.exists_lends hbody hissue
  have hty := hknown.typeOf hlends.reference
  refine ⟨dest, r, m, t, hlends.assigned, hty, hlends.regions, ?_, ?_, ?_⟩
  · intro s hs
    obtain ⟨_, between, _, hbetween, _⟩ := hlends.edges
    obtain ⟨ty, hplace, hrelate⟩ := Builder.borrowEdges_eq_ok hbetween
    rw [hknown.typeOf hplace] at hs
    obtain ⟨forward, hforward, _⟩ := hrelate s hs
    exact Ty.exists_relate_iff.mp ⟨forward, hforward⟩
  · intro hm
    have hfits := hlends.fits
    rw [hm] at hfits
    cases hkind : issue.loan.kind with
    | shared => rfl
    | mutable => simp [Loan.isMutable, hkind, LoanKind.isMutable] at hfits
  · intro r' s hshape
    rw [Ty.exists_relate_ref_iff hshape]
    have hfits := hlends.fits
    -- of the four combinations, only a mutable loan in a shared reference is ruled out
    cases hkind : issue.loan.kind <;> cases m <;>
      simp_all [Loan.isMutable, LoanKind.isMutable]

/-- `p` is a mutable reference and `q` a shared one; both borrow `x` for reading, and `x` is
    overwritten through `p` while `q` is still to be used. -/
def sharedBacking : List Request :=
  let declare (name : String) (ty : Ty) : Request := { operation := .declare name ty none false }
  [declare "x" Sample.int, declare "p" (.ref ⟨"'p", false⟩ true Sample.int),
    declare "q" (.ref ⟨"'q", false⟩ false Sample.int),
    { operation := .openBlock "bb0" },
    { operation := .borrow "bb0" (.ofLocal "p") (.ofLocal "x") false },
    { operation := .borrow "bb0" (.ofLocal "q") (.ofLocal "x") false },
    { operation := .assign "bb0" ⟨"p", [.deref]⟩ .const },
    { operation := .use "bb0" [.copy (.ofLocal "q"), .copy (.ofLocal "p")] },
    { operation := .ret "bb0" }]

/-- **A mutable reference with a shared loan behind it is accepted**, although no shared
    reference relates to its type.  The write through it is in conflict with nothing. -/
theorem sharedBacking_accepted : ∃ (body : Body) (f : Findings) (issue : LoanIssue),
    (Builder.after { name := "f" } sharedBacking).finish = .ok body ∧
    body.analyze = .ok ⟨body, .complete f⟩ ∧ f.conflicts = [] ∧
    (body.facts ⟨"bb0", 0⟩).loan = some issue ∧ issue.loan.kind = .shared ∧
    (body.facts ⟨"bb0", 0⟩).assigned = some (.ofLocal "p") ∧
    (body.facts ⟨"bb0", 2⟩).assigned = some ⟨"p", [.deref]⟩ ∧
    body.typeOf (.ofLocal "p") = some (.ref ⟨"'p", false⟩ true Sample.int) ∧
    ∀ r s edges, (Ty.ref r false s).relate (.ref ⟨"'p", false⟩ true Sample.int) ≠ .ok edges := by
  have hrun : ((Builder.after { name := "f" } sharedBacking).finish.toOption.any fun body =>
      body.findings.toOption.any fun f => (body.facts ⟨"bb0", 0⟩).loan.any fun issue =>
        decide (f.conflicts = [] ∧ issue.loan.kind = .shared ∧
          (body.facts ⟨"bb0", 0⟩).assigned = some (.ofLocal "p") ∧
          (body.facts ⟨"bb0", 2⟩).assigned = some ⟨"p", [.deref]⟩ ∧
          body.typeOf (.ofLocal "p") = some (.ref ⟨"'p", false⟩ true Sample.int))) = true := by
    decide +kernel
  simp only [Option.any_eq_true, toOption_eq_some, decide_eq_true_eq] at hrun
  obtain ⟨body, hbody, f, hf, issue, hissue, hquiet, hkind, hassigned, hwrite, hty⟩ := hrun
  have ha : body.analyze = .ok ⟨body, .complete f⟩ := by rw [Body.analyze, hf]
  refine ⟨body, f, issue, hbody, ha, hquiet, hissue, hkind, hassigned, hwrite, hty, ?_⟩
  intro r s edges h
  cases h

/-- The shared reference `q` receives a shared loan, and so does the mutable `p`. -/
theorem sharedBacking_receives : ∃ (body : Body) (ofP ofQ : LoanIssue),
    (Builder.after { name := "f" } sharedBacking).finish = .ok body ∧
    (body.facts ⟨"bb0", 0⟩).loan = some ofP ∧ (body.facts ⟨"bb0", 1⟩).loan = some ofQ ∧
    ofQ.loan.kind = .shared ∧
    ¬ ∃ edges, (Ty.ref ⟨"'x", false⟩ ofP.loan.isMutable Sample.int).relate
      (.ref ⟨"'p", false⟩ true Sample.int) = .ok edges := by
  have hrun : ((Builder.after { name := "f" } sharedBacking).finish.toOption.any fun body =>
      (body.facts ⟨"bb0", 0⟩).loan.any fun ofP => (body.facts ⟨"bb0", 1⟩).loan.any fun ofQ =>
        decide ((body.facts ⟨"bb0", 0⟩).assigned = some (.ofLocal "p") ∧
          (body.facts ⟨"bb0", 1⟩).assigned = some (.ofLocal "q") ∧
          body.typeOf (.ofLocal "p") = some (.ref ⟨"'p", false⟩ true Sample.int) ∧
          body.typeOf (.ofLocal "q") = some (.ref ⟨"'q", false⟩ false Sample.int) ∧
          ofP.loan.kind = .shared)) = true := by
    decide +kernel
  simp only [Option.any_eq_true, toOption_eq_some, decide_eq_true_eq] at hrun
  obtain ⟨body, hbody, ofP, hofP, ofQ, hofQ, hdestP, hdestQ, htyP, htyQ, hkind⟩ := hrun
  refine ⟨body, ofP, ofQ, hbody, hofP, hofQ, ?_, ?_⟩
  · obtain ⟨dest, r, m, t, hdest, hty, _, _, hshared, _⟩ := reference_receives hbody hofQ
    rw [hdestQ] at hdest
    cases hdest
    rw [htyQ] at hty
    cases hty
    exact hshared rfl
  · obtain ⟨dest, r, m, t, hdest, hty, _, _, _, hrelate⟩ := reference_receives hbody hofP
    rw [hdestP] at hdest
    cases hdest
    rw [htyP] at hty
    cases hty
    rw [hrelate _ _ rfl, hkind]
    simp

end BorrowFlow
