import BorrowFlow.Proofs.Builder.Run
import BorrowFlow.Proofs.SubsetGraph
import BorrowFlow.Sample

/-! # Going on after a failure

    A request that is refused leaves regions and names of loans behind at most
    (`Operation.Leaves`), so whoever goes on with the builder finds all variables, bounds
    and blocks as they were (`Operation.Spares`).

    A name that a refused borrow has taken is gone.  The names of loans still differ: whatever
    a request does, they are numbered below the count, and each loan stands at its own point
    (`Builder.LoansInOrder`).  This holds of every builder that requests lead to, also if a
    mistaken one was among them and the builder is not sound.
-/

namespace BorrowFlow

open BuildM

/-! ## Refused requests -/

namespace Operation

/-- **What a refused operation spares.** -/
structure Spares (op : Operation) (b b' : Builder) : Prop where
  locals : b'.locals = b.locals
  bounds : b'.bounds = b.bounds
  /-- The blocks, in their order, with the statements and the terminator of each. -/
  blocks : b'.blocks = b.blocks
  entry : b'.entry? = b.entry?
  /-- Regions may be added behind those of the table. -/
  regions : b.regions.entries <+: b'.regions.entries
  regions_eq : op.takesRegions = false → b'.regions = b.regions
  loanCount : b'.loanCount = b.loanCount ∨ b'.loanCount = b.loanCount + 1
  loanCount_eq : op.takesLoanName = false → b'.loanCount = b.loanCount

namespace Spares

variable {op : Operation} {b b' : Builder}

theorem refl (op : Operation) (b : Builder) : op.Spares b b where
  locals := rfl
  bounds := rfl
  blocks := rfl
  entry := rfl
  regions := List.prefix_rfl
  regions_eq := fun _ => rfl
  loanCount := Or.inl rfl
  loanCount_eq := fun _ => rfl

theorem of_adopts (h : b.Adopts b') (hop : op.takesRegions = true) : op.Spares b b' := by
  have hregions := h.regions_prefix
  rw [h.onlyRegions] at hregions ⊢
  exact
    { locals := rfl
      bounds := rfl
      blocks := rfl
      entry := rfl
      regions := hregions
      regions_eq := fun hnone => absurd hop (by simp [hnone])
      loanCount := Or.inl rfl
      loanCount_eq := fun _ => rfl }

theorem of_leaves (h : op.Leaves b b') : op.Spares b b' := by
  cases h with
  | nothing => exact .refl op b
  | regions hop h => exact .of_adopts h hop
  | loanName hop =>
    exact { refl op b with
      loanCount := Or.inr rfl
      loanCount_eq := fun hnone => absurd hop (by simp [hnone]) }

end Spares

end Operation

namespace Request

/-- **A request is refused**, and `b'` is what is left: its step fails, or there is no body to
    hand out yet, in which case nothing was touched. -/
inductive Refused (q : Request) (b : Builder) : Builder → Prop where
  | step {e : BuildError} {b' : Builder} (h : Fails q.step b e b') : Refused q b b'
  | finish {e : Builder.FinishError} (hop : q.operation = .finish) (h : b.finish = .error e) :
      Refused q b b

theorem refused_of_toOption {q : Request} {b : Builder}
    (h : (q.step.perform b).1.toOption = none) : q.Refused b (q.step.perform b).2 := by
  obtain ⟨_, hgives⟩ | ⟨e, hfails⟩ := gives_or_fails q.step b
  · rw [hgives] at h
    cases h
  · exact .step hfails

theorem Refused.spares {q : Request} {b b' : Builder} (h : q.Refused b b') :
    q.operation.Spares b b' := by
  cases h with
  | step h => exact .of_leaves ((q.effect b).refused _ _ h)
  | finish => exact .refl _ b

end Request

/-! ## Loans -/

namespace Builder

/-- **The loans of a builder are in order**: each stands at its own point, and their names are
    different and among those that were taken. -/
structure LoansInOrder (b : Builder) : Prop where
  blockNames : (b.blocks.map OpenBlock.name).Nodup
  points : ∀ blk ∈ b.blocks, ∀ (i : Nat) (s : Statement), blk.statements[i]? = some s →
    ∀ issue, s.loan = some issue → issue.loan.point = ⟨blk.name, i⟩
  ends : ∀ blk ∈ b.blocks, ∀ t, blk.terminator = some t → t.loan = none
  names : b.loanNames.Nodup ∧ ∀ n ∈ b.loanNames, ∃ k < b.loanCount, n = loanName k

namespace LoansInOrder

variable {b b' : Builder}

theorem new (name : String) (span : Span) : LoansInOrder { name := name, span := span } where
  blockNames := List.nodup_nil
  points := fun _ hblk => absurd hblk List.not_mem_nil
  ends := fun _ hblk => absurd hblk List.not_mem_nil
  names := ⟨List.nodup_nil, fun _ hn => absurd hn List.not_mem_nil⟩

theorem of_tables (h : b.LoansInOrder) (hblocks : b'.blocks = b.blocks)
    (hcount : b.loanCount ≤ b'.loanCount) : b'.LoansInOrder where
  blockNames := by rw [hblocks]; exact h.blockNames
  points := by rw [hblocks]; exact h.points
  ends := by rw [hblocks]; exact h.ends
  names := by
    rw [loanNames, hblocks]
    refine ⟨h.names.1, fun n hn => ?_⟩
    obtain ⟨k, hk, hname⟩ := h.names.2 n hn
    exact ⟨k, hk.trans_le hcount, hname⟩

theorem opened (h : b.LoansInOrder) {name : String} (hnew : b.block? name = none) :
    LoansInOrder { b with blocks := b.blocks ++ [⟨name, [], none⟩] } where
  blockNames := (Grows.open_block hnew).blockNames h.blockNames
  points := by
    refine List.forall_mem_append.mpr ⟨h.points, ?_⟩
    simp
  ends := by
    refine List.forall_mem_append.mpr ⟨h.ends, ?_⟩
    simp
  names := by
    have hloans : loanNames { b with blocks := b.blocks ++ [⟨name, [], none⟩] } = b.loanNames := by
      simp [loanNames, OpenBlock.loanNames]
    rw [hloans]
    exact h.names

theorem updateBlock (h : b.LoansInOrder) {block : String} {blk : OpenBlock}
    (hblk : b.block? block = some blk) {f : OpenBlock → OpenBlock} {names : List String}
    (hname : (f blk).name = blk.name)
    (hpoints : ∀ (i : Nat) (s : Statement), (f blk).statements[i]? = some s →
      ∀ issue, s.loan = some issue → issue.loan.point = ⟨blk.name, i⟩)
    (hends : ∀ t, (f blk).terminator = some t → t.loan = none)
    (hloans : (f blk).loanNames = blk.loanNames ++ names) (hdiffer : names.Nodup)
    (hnew : ∀ n ∈ names, n ∉ b.loanNames ∧ ∃ k < b.loanCount, n = loanName k) :
    (b.updateBlock block f).LoansInOrder where
  blockNames := by
    rw [blockNames_updateBlock h.blockNames hblk hname]
    exact h.blockNames
  points := by
    intro other hother
    rcases mem_updateBlock h.blockNames hblk hother with hmem | rfl
    · exact h.points other hmem
    · rw [hname]
      exact hpoints
  ends := by
    intro other hother
    rcases mem_updateBlock h.blockNames hblk hother with hmem | rfl
    · exact h.ends other hmem
    · exact hends
  names := loanNames_updateBlock h.blockNames hblk hloans hdiffer hnew h.names

/-- A statement may be appended if its loan, should it issue one, has the next point and a name
    that is taken and not used. -/
theorem push (h : b.LoansInOrder) {block : String} {blk : OpenBlock} {s : Statement}
    (hblk : b.block? block = some blk)
    (hpoint : ∀ issue, s.loan = some issue → issue.loan.point = blk.nextPoint)
    (hnew : ∀ n ∈ s.loanNames, n ∉ b.loanNames ∧ ∃ k < b.loanCount, n = loanName k) :
    (b.updateBlock block (·.push s)).LoansInOrder := by
  have hmem := ((find?_name_eq_some_iff h.blockNames).mp hblk).1
  refine h.updateBlock hblk rfl ?_ (h.ends blk hmem) (blk.loanNames_push s) (nodup_loanNames s) hnew
  intro i s' hs'
  -- the statements before it keep their indices
  rcases OpenBlock.getElem?_push hs' with hold | ⟨rfl, rfl⟩
  · exact h.points blk hmem i s' hold
  · exact hpoint

/-- **Step lemma**: whatever an operation does, the loans stay in order. -/
theorem of_does (h : b.LoansInOrder) {op : Operation} {span : Option Span}
    (hdoes : op.Does span b b') : b'.LoansInOrder := by
  cases hdoes with
  | enters hentries =>
    exact h.of_tables (blocks_of_entries hentries) (loanCount_of_fills (fills_of_entries hentries))
  | opens hnew => exact h.opened hnew
  | appends _ hopen _ hs =>
    obtain ⟨blk, hblk, _⟩ := hopen
    apply h.push hblk
    · simp [hs]
    · simp [Statement.loanNames, hs]
  | lends hopen hs =>
    obtain ⟨blk, hblk, _⟩ := hopen
    obtain ⟨issue, hissue, hloan, _⟩ := hs.exists_issue
    -- the name is taken first, then used
    have hcounted : LoansInOrder { b with loanCount := b.loanCount + 1 } :=
      h.of_tables rfl (Nat.le_succ _)
    apply hcounted.push hblk
    · intro issue' hissue'
      obtain rfl : issue = issue' := Option.some.inj (hissue.symm.trans hissue')
      rw [hloan, nextLoan, nextPoint, hblk]
    · intro n hn
      obtain rfl : n = loanName b.loanCount := by
        simpa [Statement.loanNames, hissue, hloan, nextLoan] using hn
      refine ⟨fun hold => ?_, b.loanCount, Nat.lt_succ_self _, rfl⟩
      -- names that are in use are numbered below the count
      obtain ⟨k, hk, hname⟩ := h.names.2 _ hold
      rw [loanName_injective hname] at hk
      exact Nat.lt_irrefl _ hk
  | ends hop hopen ht =>
    obtain ⟨blk, hblk, _⟩ := hopen
    have hmem := ((find?_name_eq_some_iff h.blockNames).mp hblk).1
    refine h.updateBlock hblk rfl (h.points blk hmem) ?_ (List.append_nil _).symm List.nodup_nil
      (fun _ hn => absurd hn List.not_mem_nil)
    intro t' ht'
    cases ht'
    exact (ht.ends hop).loan

/-- **Run lemma**: so they do along every run. -/
theorem after (h : b.LoansInOrder) (qs : List Request) : (b.after qs).LoansInOrder := by
  induction qs generalizing b with
  | nil => exact h
  | cons q qs ih => exact ih (h.of_does (q.does_step b))

end LoansInOrder

/-- **A body takes its loans over as they are.** -/
theorem LoansInOrder.point_eq_of_finish {b : Builder} (h : b.LoansInOrder) {body : Body}
    (hbody : b.finish = .ok body) {p : Point} (hp : p ∈ body.points) {issue : LoanIssue}
    (hissue : (body.facts p).loan = some issue) : issue.loan.point = p := by
  obtain ⟨d, _, hcheck⟩ := finish_eq_ok.mp hbody
  obtain ⟨blk, hblk, i, hi, rfl⟩ := Body.mem_points.mp hp
  have hopened := ofBlock_mem_of_finish h.blockNames hbody hblk
  have hlength : i < blk.facts.length := by simpa [Block.facts, Block.size] using hi
  rw [(Draft.wellFormed_of_check hcheck).facts_eq hblk (List.getElem?_eq_getElem hlength)] at hissue
  by_cases hi : i < blk.statements.length
  · refine h.points _ hopened i _ ?_ issue hissue
    simp [OpenBlock.ofBlock, Block.facts, hi]
  · -- past the statements there is the terminator only, which issues none
    have hlast : i = blk.statements.length := by
      simp [Block.facts] at hlength
      omega
    simp [Block.facts, hlast, h.ends _ hopened blk.terminator rfl] at hissue

/-- **Whoever goes on after a failure** finds everything as it was, but for regions that a
    declaration or a bound has taken in and for the name that a borrow has taken.  So, whatever
    has failed before, the loans of a builder are in order, and those of a body that it finishes
    have different names and stand where they are issued. -/
theorem refused_request_spares (name : String) (span : Span) (qs : List Request) :
    (∀ (q : Request) (b' : Builder), q.Refused (after { name := name, span := span } qs) b' →
      q.operation.Spares (after { name := name, span := span } qs) b') ∧
    (after { name := name, span := span } qs).LoansInOrder ∧
    ∀ body, (after { name := name, span := span } qs).finish = .ok body →
      (body.loans.map Loan.name).Nodup ∧
      ∀ p ∈ body.points, ∀ issue, (body.facts p).loan = some issue → issue.loan.point = p := by
  have horder := (LoansInOrder.new name span).after qs
  refine ⟨fun _ _ => Request.Refused.spares, horder, fun body hbody => ?_⟩
  obtain ⟨d, _, hcheck⟩ := finish_eq_ok.mp hbody
  exact ⟨(Draft.wellFormed_of_check hcheck).nodup_loans,
    fun _ hp _ hissue => horder.point_eq_of_finish hbody hp hissue⟩

/-- Two variables, and a block to borrow in. -/
def lender : List Request :=
  [{ operation := .declare "x" Sample.int none false },
    { operation := .declare "r" (.ref ⟨"'r", false⟩ false Sample.int) none false },
    { operation := .openBlock "bb0" }]

/-- A declaration whose drops are not in its type. -/
def strayDeclaration : Request where
  operation := .declare "y" (.ref ⟨"'y", false⟩ false Sample.int) (some [⟨"'r", false⟩]) false

/-- A borrow of a variable that is not there. -/
def strayBorrow : Request where
  operation := .borrow "bb0" (.ofLocal "r") (.ofLocal "y") false

/-- The two requests leave a region and a name, and the loan after them is the second one. -/
theorem stray_requests_spared :
    (strayDeclaration.step.perform (after { name := "f" } lender)).2.regions.names = ["'r", "'y"] ∧
    (strayDeclaration.step.perform (after { name := "f" } lender)).2.locals =
      (after { name := "f" } lender).locals ∧
    (strayBorrow.step.perform (after { name := "f" } lender)).2.loanCount = 1 ∧
    (strayBorrow.step.perform (after { name := "f" } lender)).2.blocks =
      (after { name := "f" } lender).blocks ∧
    ∃ body, (after { name := "f" } (lender ++ [strayDeclaration, strayBorrow,
        { operation := .borrow "bb0" (.ofLocal "r") (.ofLocal "x") false },
        { operation := .ret "bb0" }])).finish = .ok body ∧
      (body.loans.map Loan.name).Nodup ∧ ∃ issue, (body.facts ⟨"bb0", 0⟩).loan = some issue ∧
        issue.loan.name = "L1" ∧ issue.loan.point = ⟨"bb0", 0⟩ := by
  have hdeclaration : strayDeclaration.Refused (after { name := "f" } lender) _ :=
    Request.refused_of_toOption (by decide +kernel)
  have hborrow : strayBorrow.Refused (after { name := "f" } lender) _ :=
    Request.refused_of_toOption (by decide +kernel)
  have hspared := (refused_request_spares "f" {} lender).1
  refine ⟨by decide +kernel, (hspared _ _ hdeclaration).locals, by decide +kernel,
    (hspared _ _ hborrow).blocks, ?_⟩
  have hrun : ((after { name := "f" } (lender ++ [strayDeclaration, strayBorrow,
      { operation := .borrow "bb0" (.ofLocal "r") (.ofLocal "x") false },
      { operation := .ret "bb0" }])).finish.toOption.any fun body => decide (
        ⟨"bb0", 0⟩ ∈ body.points ∧
        (body.facts ⟨"bb0", 0⟩).loan.map (·.loan.name) = some "L1")) = true := by
    decide +kernel
  simp only [Option.any_eq_true, toOption_eq_some, decide_eq_true_eq, Option.map_eq_some_iff] at hrun
  obtain ⟨body, hbody, hp, issue, hissue, hname⟩ := hrun
  obtain ⟨hnames, hpoints⟩ := (refused_request_spares "f" {} _).2.2 body hbody
  exact ⟨body, hbody, hnames, issue, hissue, hname, hpoints _ hp issue hissue⟩

end Builder

end BorrowFlow
