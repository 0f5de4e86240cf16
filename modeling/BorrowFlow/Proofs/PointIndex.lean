import BorrowFlow.Proofs.Conflict

/-! # The index of the points

    A body is asked what stands at a point, where control goes from there and where it comes
    from, and which loan has a name.  The answers are put together from the blocks and from the
    targets of their terminators, which are only names; that they fit each other rests on what
    the check of a draft has made sure of (`Body.index_coherent`).

    * **Lookups** succeed at the points of the body (`Body.WellFormed.exists_slotAt_iff`).
    * **Within a block** the points form a chain: nothing but the point before leads to a point
      that is not the first (`Body.WellFormed.predecessors_succ`).
-/

namespace BorrowFlow

namespace Body

variable {b : Body} {p q : Point}

/-! ## Lookups -/

theorem slotAt_eq_ok {slot : Slot} : b.slotAt p = .ok slot ↔ b.slot? p = some slot := by
  rw [slotAt]
  cases b.slot? p <;> simp

theorem loanNamed_eq_ok {name : String} {loan : Loan} :
    b.loanNamed name = .ok loan ↔ b.loan? name = some loan := by
  rw [loanNamed]
  cases b.loan? name <;> simp

namespace WellFormed

/-- **Something stands at the points of the body** and nowhere else. -/
theorem exists_slotAt_iff (h : b.WellFormed) : (∃ slot, b.slotAt p = .ok slot) ↔ p ∈ b.points := by
  simp only [slotAt_eq_ok]
  constructor
  · rintro ⟨slot, hslot⟩
    exact h.mem_points_of_slot? hslot
  · intro hp
    obtain ⟨blk, hblk, i, hi, rfl⟩ := mem_points.mp hp
    have hlt : i < blk.facts.length := by rw [Block.length_facts]; exact hi
    have hfacts : (blk.slot? i).map Slot.statement = some blk.facts[i] := by
      rw [Block.map_statement_slot?, List.getElem?_eq_getElem hlt]
    obtain ⟨slot, hslot, _⟩ := Option.map_eq_some_iff.mp hfacts
    exact ⟨slot, by rw [h.slot?_eq hblk, hslot]⟩

theorem slotAt_of_not_mem (h : b.WellFormed) (hp : p ∉ b.points) :
    b.slotAt p = .error (.point p) := by
  cases hslot : b.slot? p with
  | none => rw [slotAt, hslot]
  | some slot => exact absurd (h.mem_points_of_slot? hslot) hp

/-- **A name stands for the loan** that has it. -/
theorem loanNamed_eq_ok_iff (h : b.WellFormed) {name : String} {loan : Loan} :
    b.loanNamed name = .ok loan ↔ loan ∈ b.loans ∧ loan.name = name := by
  rw [loanNamed_eq_ok]
  exact find?_name_eq_some_iff h.nodup_loans

/-- **The loans of a point** are those that its slot issues. -/
theorem mem_loans_iff_slotAt (h : b.WellFormed) {loan : Loan} :
    (loan ∈ b.loans ∧ loan.point = p) ↔ ∃ slot issue, b.slotAt p = .ok slot ∧
      slot.statement.loan = some issue ∧ issue.loan = loan := by
  have hfacts : ∀ {slot}, b.slotAt p = .ok slot → b.facts p = slot.statement := by
    intro slot hslot
    rw [Body.facts, slotAt_eq_ok.mp hslot]
    rfl
  constructor
  · rintro ⟨hloan, rfl⟩
    obtain ⟨issue, hissue, rfl⟩ := h.mem_loans_iff.mp hloan
    obtain ⟨slot, hslot⟩ := h.exists_slotAt_iff.mpr (h.mem_points_of_issues hissue)
    refine ⟨slot, issue, hslot, ?_, rfl⟩
    rw [← hfacts hslot]
    exact hissue
  · rintro ⟨slot, issue, hslot, hissue, rfl⟩
    rw [← hfacts hslot] at hissue
    obtain ⟨hp, hissues⟩ := h.issues_of_loan hissue
    exact ⟨h.mem_loans_iff.mpr ⟨issue, hissues, rfl⟩, ((h.inOrder_facts hp).loan issue hissue).1⟩

end WellFormed

/-! ## Control flow -/

theorem nodup_successors (b : Body) (p : Point) : (b.successors p).Nodup := by
  rw [successors]
  split
  · exact List.nodup_singleton _
  · exact nodup_eraseDups _
  · exact List.nodup_nil

/-- A terminator goes to the first slots of its targets. -/
theorem mem_successors_of_jump {t : Terminator} (ht : b.slotAt p = .ok (.jump t)) :
    q ∈ b.successors p ↔ ∃ name ∈ t.targets, q = ⟨name, 0⟩ := by
  simp only [successors, slotAt_eq_ok.mp ht, List.mem_eraseDups, List.mem_map, eq_comm]

namespace WellFormed

theorem nodup_predecessors (h : b.WellFormed) (p : Point) : (b.predecessors p).Nodup := by
  have hsublist : (b.predecessors p).Sublist (b.flow.map Prod.fst) :=
    List.filter_sublist.map Prod.fst
  have hpoints : b.flow.map Prod.fst = b.points := by simp [flow, Function.comp_def]
  rw [hpoints] at hsublist
  exact h.nodup_points.sublist hsublist

/-- A statement stands in its block with a slot after it. -/
theorem exists_block_of_plain (h : b.WellFormed) {s : Statement}
    (hs : b.slotAt p = .ok (.plain s)) :
    ∃ blk ∈ b.blocks, ∃ i : Nat, i < blk.statements.length ∧ p = ⟨blk.name, i⟩ := by
  obtain ⟨blk, hblk, i, rfl, hi⟩ := h.exists_block_of_slot? (slotAt_eq_ok.mp hs)
  rw [Block.slot?] at hi
  split at hi
  · cases hi
  · obtain ⟨_, hget, _⟩ := Option.map_eq_some_iff.mp hi
    exact ⟨blk, hblk, i, (List.getElem?_eq_some_iff.mp hget).1, rfl⟩

/-- **Only the point before leads to a point that is not the first of its block**, as jumps go
    to first points. -/
theorem predecessors_succ (h : b.WellFormed) {blk : Block} (hblk : blk ∈ b.blocks) {i : Nat}
    (hi : i < blk.statements.length) :
    b.predecessors ⟨blk.name, i + 1⟩ = [⟨blk.name, i⟩] := by
  have hmem : ∀ q, q ∈ b.predecessors ⟨blk.name, i + 1⟩ ↔ q ∈ [(⟨blk.name, i⟩ : Point)] := by
    intro q
    rw [h.mem_predecessors, h.mem_successors_iff, List.mem_singleton]
    constructor
    · rintro ⟨blk', _, j, rfl, ⟨_, heq⟩ | ⟨_, name, _, heq⟩⟩
      · injection heq with hname hindex
        obtain rfl : i = j := by omega
        rw [hname]
      · injection heq with _ hindex
        omega
    · rintro rfl
      exact ⟨blk, hblk, i, rfl, Or.inl ⟨hi, rfl⟩⟩
  have hperm := (List.perm_ext_iff_of_nodup (h.nodup_predecessors _) (List.nodup_singleton _)).mpr hmem
  exact List.perm_singleton.mp hperm

/-- **A statement goes on** to the next slot of its block, and nothing else goes there. -/
theorem flow_of_plain (h : b.WellFormed) {s : Statement} (hs : b.slotAt p = .ok (.plain s)) :
    b.successors p = [⟨p.block, p.index + 1⟩] ∧ b.predecessors ⟨p.block, p.index + 1⟩ = [p] := by
  refine ⟨by simp only [successors, slotAt_eq_ok.mp hs], ?_⟩
  obtain ⟨blk, hblk, i, hi, rfl⟩ := h.exists_block_of_plain hs
  exact h.predecessors_succ hblk hi

end WellFormed

/-! ## Coherence -/

/-- **The index of the points is coherent.** -/
structure IndexCoherent (b : Body) : Prop where
  /-- No point is listed twice. -/
  distinct : b.points.Nodup
  /-- Something stands at the listed points and nowhere else. -/
  occupied : ∀ p, (∃ slot, b.slotAt p = .ok slot) ↔ p ∈ b.points
  /-- Where control goes and comes from is known at the listed points. -/
  known : ∀ p ∈ b.points, b.successorsOf p = .ok (b.successors p) ∧
    b.predecessorsOf p = .ok (b.predecessors p)
  /-- A point that is not listed is refused, whatever is asked about it. -/
  refused : ∀ p, p ∉ b.points → b.slotAt p = .error (.point p) ∧
    b.successorsOf p = .error (.point p) ∧ b.predecessorsOf p = .error (.point p)
  /-- Control goes from one point to another if it comes there from it. -/
  converse : ∀ p q, q ∈ b.successors p ↔ p ∈ b.predecessors q
  /-- Each successor and each predecessor is listed once. -/
  once : ∀ p, (b.successors p).Nodup ∧ (b.predecessors p).Nodup
  /-- Control stays within the body. -/
  within : ∀ p, ∀ q ∈ b.successors p, q ∈ b.points
  /-- A statement goes on to the next slot of its block, and nothing else goes there. -/
  plain : ∀ p s, b.slotAt p = .ok (.plain s) →
    b.successors p = [⟨p.block, p.index + 1⟩] ∧ b.predecessors ⟨p.block, p.index + 1⟩ = [p]
  /-- A terminator goes to the first slots of its targets. -/
  jump : ∀ p t, b.slotAt p = .ok (.jump t) →
    ∀ q, q ∈ b.successors p ↔ ∃ name ∈ t.targets, q = ⟨name, 0⟩
  /-- The loans of a point are those that are issued there. -/
  issued : ∀ p loan, (loan ∈ b.loans ∧ loan.point = p) ↔ ∃ slot issue, b.slotAt p = .ok slot ∧
    slot.statement.loan = some issue ∧ issue.loan = loan
  /-- They are listed in the layout order of these points, none of them twice. -/
  inLayout : b.loans.Nodup ∧
    b.loans.Pairwise fun l l' => b.points.idxOf l.point < b.points.idxOf l'.point
  /-- A loan is found by its name. -/
  named : ∀ name loan, b.loanNamed name = .ok loan ↔ loan ∈ b.loans ∧ loan.name = name

/-- **The index of a checked body is coherent**: its points, what stands there, where control
    goes and comes from, and the loans that are issued on the way. -/
theorem index_coherent {d : Draft} (hb : d.check = .ok b) : b.IndexCoherent := by
  have h := Draft.wellFormed_of_check hb
  exact {
    distinct := h.nodup_points
    occupied := fun _ => h.exists_slotAt_iff
    known := by
      intro p hp
      obtain ⟨slot, hslot⟩ := h.exists_slotAt_iff.mpr hp
      rw [successorsOf, predecessorsOf, hslot]
      exact ⟨rfl, rfl⟩
    refused := by
      intro p hp
      rw [successorsOf, predecessorsOf, h.slotAt_of_not_mem hp]
      exact ⟨rfl, rfl, rfl⟩
    converse := fun _ _ => h.mem_predecessors.symm
    once := fun p => ⟨b.nodup_successors p, h.nodup_predecessors p⟩
    within := fun _ _ hq => h.mem_points_of_mem_successors hq
    plain := fun _ _ hs => h.flow_of_plain hs
    jump := fun _ _ ht _ => mem_successors_of_jump ht
    issued := fun _ _ => h.mem_loans_iff_slotAt
    inLayout := ⟨h.nodup_loans.of_map, h.pairwise_loans⟩
    named := fun _ _ => h.loanNamed_eq_ok_iff }

/-- A block that borrows `x`, first in a statement and then as it jumps: twice to an empty
    block and once to itself. -/
def repeatedTarget : Draft where
  name := "f"
  locals := .ofList [("x", ⟨"x", .scalar "i32", none, false⟩)]
  regions := .ofList [("'a", ⟨"'a", true⟩)]
  blocks := .ofList [
    ("bb1", ⟨"bb1", [], .jump { kind := "return" }⟩),
    ("bb0", ⟨"bb0", [.plain { kind := "borrow", loan := some ⟨first, [⟨"'a", true⟩]⟩ }], .jump {
      kind := "branch"
      loan := some ⟨second, [⟨"'a", true⟩]⟩
      targets := ["bb1", "bb0", "bb1"] }⟩)]
  entry := "bb0"
where
  /-- The loan that the statement issues. -/
  first : Loan := ⟨"L1", ⟨"bb0", 0⟩, .ofLocal "x", .shared⟩
  /-- The loan that the terminator issues. -/
  second : Loan := ⟨"L0", ⟨"bb0", 1⟩, .ofLocal "x", .shared⟩

/-- The target that is named twice is one successor, and has the terminator as one predecessor;
    the loans are listed by their points and not by their names. -/
theorem repeatedTarget_coherent : ∃ b, repeatedTarget.check = .ok b ∧ b.IndexCoherent ∧
    b.points = [⟨"bb1", 0⟩, ⟨"bb0", 0⟩, ⟨"bb0", 1⟩] ∧
    b.successors ⟨"bb0", 1⟩ = [⟨"bb1", 0⟩, ⟨"bb0", 0⟩] ∧
    b.predecessors ⟨"bb1", 0⟩ = [⟨"bb0", 1⟩] ∧ b.predecessors ⟨"bb0", 1⟩ = [⟨"bb0", 0⟩] ∧
    b.loans = [repeatedTarget.first, repeatedTarget.second] ∧
    b.loanNamed "L0" = .ok repeatedTarget.second := by
  have hrun : (repeatedTarget.check.toOption.any fun b => decide (
      b.points = [⟨"bb1", 0⟩, ⟨"bb0", 0⟩, ⟨"bb0", 1⟩] ∧
      b.successors ⟨"bb0", 1⟩ = [⟨"bb1", 0⟩, ⟨"bb0", 0⟩] ∧
      b.predecessors ⟨"bb1", 0⟩ = [⟨"bb0", 1⟩] ∧ b.predecessors ⟨"bb0", 1⟩ = [⟨"bb0", 0⟩] ∧
      b.loans = [repeatedTarget.first, repeatedTarget.second])) = true := by
    decide +kernel
  simp only [Option.any_eq_true, toOption_eq_some, decide_eq_true_eq] at hrun
  obtain ⟨b, hb, hpoints, hsuccessors, hreturn, hjump, hloans⟩ := hrun
  have hindex := index_coherent hb
  have hnamed := (hindex.named "L0" repeatedTarget.second).mpr ⟨by simp [hloans], rfl⟩
  exact ⟨b, hb, hindex, hpoints, hsuccessors, hreturn, hjump, hloans, hnamed⟩

end Body

end BorrowFlow
