import BorrowFlow.Proofs.ActiveLoans
import BorrowFlow.Proofs.Builder.Run
import BorrowFlow.Proofs.Place

/-! # Loans that an assignment ends

    An assignment ends a loan if the assigned place contains the borrowed one, step by
    step and by the names of index variables.  The borrowed place is fixed when the loan
    is issued and the assigned place when the assignment runs, and in between a variable
    may have got another value.  So what is compared are names, and what counts are the
    numbers that they stand for: `Place.Concrete` replaces the one by the other.

    The borrowed place is overwritten for certain exactly if the assigned place has no
    index variable (`Body.killed_overwritten_iff`).
-/

namespace BorrowFlow

/-! ## Numbers for index variables -/

/-- Numbers for index variables do not lead out of a place without them. -/
theorem Place.IndexFree.encloses {w w' p p' : Place} (hfree : w.IndexFree)
    (h : w.encloses p = true) (hw : w.Concrete w') (hp : p.Concrete p') :
    w'.encloses p' = true := by
  obtain ⟨hbase, rest, hpath⟩ := encloses_iff.mp h
  have hsame : w'.path = w.path := eq_of_forall₂_concrete hw.2 hfree
  -- the front of the borrowed path is that of `w`, and numbers change nothing there
  have hsplit : List.Forall₂ Projection.Concrete w.path (p'.path.take w.path.length) := by
    have htake := List.forall₂_take w.path.length hp.2
    rw [← hpath, List.take_left] at htake
    exact htake
  have htake := eq_of_forall₂_concrete hsplit hfree
  refine encloses_iff.mpr ⟨?_, ?_⟩
  · rw [hw.1, hp.1, hbase]
  · rw [hsame, ← htake]
    exact List.take_prefix _ _

/-- An index variable may have had another number before. -/
theorem Place.indexFree_of_encloses {w p : Place} (h : w.encloses p = true)
    (hall : (w.fixed 1).encloses (p.fixed 0) = true) : w.IndexFree := by
  intro name hmem
  obtain ⟨_, rest, hpath⟩ := encloses_iff.mp h
  have hprefix := (encloses_iff.mp hall).2
  -- the borrow was made while every index held 0, the assignment while they hold 1
  have hmap : w.path.map (·.fixed 1) = w.path.map (·.fixed 0) := by
    rw [fixed, fixed, ← hpath, List.map_append] at hprefix
    have htake := List.prefix_iff_eq_take.mp hprefix
    rw [List.length_map, ← List.length_map (f := (·.fixed 0)), List.take_left] at htake
    exact htake
  have hstep := List.map_inj_left.mp hmap _ hmem
  cases hstep

namespace Body

variable {b : Body} {rules : Arena LoanRule} {p : Point} {loan : Loan}

/-! ## Killed loans -/

/-- A killed loan goes through the assigned place and is not the one issued here. -/
theorem of_mem_killed (h : b.WellFormed) {l : Liveness} {g : SubsetGraph}
    (hrules : b.loanRules l g = .ok rules) (hp : p ∈ b.points) {w : Place}
    (hw : (b.facts p).assigned = some w) (hkilled : loan ∈ (rules.read {} p).killed) :
    w.encloses loan.place = true ∧ loan ∉ (rules.read {} p).issued := by
  rw [read_loanRules h hrules hp] at hkilled ⊢
  have hmem : loan ∈ killedBy b.loans (b.facts p) := hkilled
  rw [killedBy, hw, SortedSet.mem_ofList, List.mem_filter, Bool.and_eq_true,
    decide_eq_true_eq] at hmem
  obtain ⟨_, hother, hencloses⟩ := hmem
  refine ⟨hencloses, ?_⟩
  show loan ∉ SortedSet.ofList ((b.facts p).loan.map LoanIssue.loan).toList
  rw [SortedSet.mem_ofList, Option.mem_toList]
  exact hother

/-- **When an assignment overwrites what it ends the loan of.**  A loan that is killed at
    a point does not leave it.  Its place is overwritten there whatever the index
    variables hold, then and now, exactly if the assigned place has none. -/
theorem killed_overwritten_iff {d : Draft} (hb : d.check = .ok b) {l : Liveness}
    {g : SubsetGraph} (hrules : b.loanRules l g = .ok rules) (hp : p ∈ b.points) {w : Place}
    (hw : (b.facts p).assigned = some w) (hkilled : loan ∈ (rules.read {} p).killed) :
    ((∀ written borrowed, w.Concrete written → loan.place.Concrete borrowed →
        written.encloses borrowed = true) ↔ w.IndexFree) ∧
      ∀ options seed a, b.activeLoans rules options seed = .ok a → loan ∉ a.out p := by
  have hwell := Draft.wellFormed_of_check hb
  obtain ⟨hencloses, hissued⟩ := of_mem_killed hwell hrules hp hw hkilled
  refine ⟨⟨fun hall => ?_, fun hfree => ?_⟩, fun options seed a ha hout => ?_⟩
  · exact Place.indexFree_of_encloses hencloses
      (hall _ _ (w.concrete_fixed 1) (loan.place.concrete_fixed 0))
  · exact fun written borrowed hw' hborrowed => hfree.encloses hencloses hw' hborrowed
  · rcases (mem_out_of_activeLoans hwell ha hp).mp hout with ⟨_, hnot⟩ | hmem
    · exact hnot hkilled
    · exact hissued hmem

/-! ## An index that moves on -/

/-- The element of `a` at `i`. -/
def element : Place := ⟨"a", [.varIndex "i"]⟩

/-- `p` borrows what `a[i]` points to; then `i` gets another value, and `a[i]` one. -/
def movedIndex : List Request :=
  [{ operation := .declare "a" (.adt "Arr" []) none false },
    { operation := .declare "i" (.scalar "i32") none false },
    { operation := .declare "p" (.ref ⟨"'p", false⟩ true (.scalar "i32")) none false },
    { operation := .openBlock "bb0" },
    { operation := .assign "bb0" (.ofLocal "a") .const },
    { operation := .assign "bb0" (.ofLocal "i") .const },
    { operation := .borrow "bb0" (.ofLocal "p") (element.project .deref) true },
    { operation := .assign "bb0" (.ofLocal "i") .const },
    { operation := .assign "bb0" element .const },
    { operation := .use "bb0" [.copy (.ofLocal "a")] },
    { operation := .use "bb0" [.copy (.ofLocal "p")] },
    { operation := .ret "bb0" }]

/-- The loan that the borrow issues. -/
def movedLoan : Loan := ⟨"L0", ⟨"bb0", 2⟩, element.project .deref, .mutable⟩

/-- The passes over the body; the loan is in force until `a[i]` is assigned, and nothing
    conflicts with it. -/
theorem movedIndex_findings : ∃ d b f rules, (Builder.after { name := "f" } movedIndex).draft = .ok d ∧
    d.check = .ok b ∧ b.findings = .ok f ∧ b.loanRules f.liveness f.graph = .ok rules ∧
    ⟨"bb0", 4⟩ ∈ b.points ∧ (b.facts ⟨"bb0", 4⟩).assigned = some element ∧
    movedLoan ∈ (rules.read {} ⟨"bb0", 4⟩).killed ∧ movedLoan ∈ f.active.active ⟨"bb0", 4⟩ ∧
    f.conflicts = [] := by
  have hrun : ((Builder.after { name := "f" } movedIndex).draft.toOption.any fun d =>
      d.check.toOption.any fun b => b.findings.toOption.any fun f =>
      (b.loanRules f.liveness f.graph).toOption.any fun rules =>
        decide (⟨"bb0", 4⟩ ∈ b.points ∧ (b.facts ⟨"bb0", 4⟩).assigned = some element ∧
          movedLoan ∈ (rules.read {} ⟨"bb0", 4⟩).killed ∧
          movedLoan ∈ f.active.active ⟨"bb0", 4⟩ ∧ f.conflicts = [])) = true := by
    decide +kernel
  simp only [Option.any_eq_true, toOption_eq_some, decide_eq_true_eq] at hrun
  obtain ⟨d, hd, b, hb, f, hf, rules, hrules, hfacts⟩ := hrun
  exact ⟨d, b, f, rules, hd, hb, hf, hrules, hfacts⟩

/-- The loan is killed by the assignment to `a[i]`, and the place that is written need not
    be the one that was borrowed: `a[1]` does not contain `*a[0]`. -/
theorem movedIndex_not_overwritten : ∃ d b f rules,
    (Builder.after { name := "f" } movedIndex).draft = .ok d ∧ d.check = .ok b ∧
    b.findings = .ok f ∧ b.loanRules f.liveness f.graph = .ok rules ∧
    (b.facts ⟨"bb0", 4⟩).assigned = some element ∧
    movedLoan ∈ (rules.read {} ⟨"bb0", 4⟩).killed ∧ f.conflicts = [] ∧
    ∃ written borrowed, element.Concrete written ∧ movedLoan.place.Concrete borrowed ∧
      ¬ written.encloses borrowed = true := by
  obtain ⟨d, b, f, rules, hd, hb, hf, hrules, _, hassigned, hkilled, _, hconflicts⟩ :=
    movedIndex_findings
  refine ⟨d, b, f, rules, hd, hb, hf, hrules, hassigned, hkilled, hconflicts, ?_⟩
  exact ⟨_, _, element.concrete_fixed 1, movedLoan.place.concrete_fixed 0, by decide⟩

/-- There are such points, and assigned places with an index variable among them. -/
theorem movedIndex_killed : ∃ (d : Draft) (b : Body) (l : Liveness) (g : SubsetGraph)
    (rules : Arena LoanRule), d.check = .ok b ∧ b.loanRules l g = .ok rules ∧
    ⟨"bb0", 4⟩ ∈ b.points ∧ (b.facts ⟨"bb0", 4⟩).assigned = some element ∧
    movedLoan ∈ (rules.read {} ⟨"bb0", 4⟩).killed ∧
    (((∀ written borrowed, element.Concrete written → movedLoan.place.Concrete borrowed →
        written.encloses borrowed = true) ↔ element.IndexFree) ∧
      ∀ options seed a, b.activeLoans rules options seed = .ok a →
        movedLoan ∉ a.out ⟨"bb0", 4⟩) := by
  obtain ⟨d, b, f, rules, _, hb, _, hrules, hp, hassigned, hkilled, _⟩ := movedIndex_findings
  exact ⟨d, b, f.liveness, f.graph, rules, hb, hrules, hp, hassigned, hkilled,
    killed_overwritten_iff hb hrules hp hassigned hkilled⟩

end Body

end BorrowFlow
