import BorrowFlow.Body.Draft
import BorrowFlow.Proofs.Lists

/-! # Well-formed bodies

    What the analyses may rely on: names that are unique in their tables, jumps to
    blocks that exist, and facts that mention declared variables and regions only
    and sit at their own points.

    Blocks have different names, so looking a point up by name finds what stands
    there: `Body.facts` is read off block by block (`Body.map_facts_points`).
-/

namespace BorrowFlow

/-! ## Lookups by name -/

/-- In a table without repeated names, what is found under a name is the entry of
    that name. -/
theorem find?_name_eq_some_iff {α : Type} {name : α → String} {l : List α}
    (h : (l.map name).Nodup) {n : String} {x : α} :
    (l.find? fun y => name y = n) = some x ↔ x ∈ l ∧ name x = n := by
  constructor
  · intro hfound
    have hname := List.find?_some hfound
    rw [decide_eq_true_eq] at hname
    exact ⟨List.mem_of_find?_eq_some hfound, hname⟩
  · rintro ⟨hx, rfl⟩
    cases hfound : l.find? fun y => name y = name x with
    | none =>
      rw [List.find?_eq_none] at hfound
      exact absurd (decide_eq_true rfl) (hfound x hx)
    | some y =>
      have hname := List.find?_some hfound
      rw [decide_eq_true_eq] at hname
      rw [List.inj_on_of_nodup_map h (List.mem_of_find?_eq_some hfound) hx hname]

/-! ## Facts of blocks -/

/-- The name of the loan that a statement issues, if it issues one. -/
def Statement.loanNames (s : Statement) : List String := s.loan.toList.map fun i => i.loan.name

/-- The facts at `p` mention variables of `vars` and regions of `regions` only, and
    what they record about their point is right. -/
structure Statement.InOrder (vars : List String) (regions : List Region) (p : Point)
    (s : Statement) : Prop where
  mentions : ∀ x ∈ s.mentions, x ∈ vars
  obligations : ∀ o ∈ s.obligations, o.point = some p ∧ o.sub ∈ regions ∧ o.sup ∈ regions
  loan : ∀ issue, s.loan = some issue → issue.loan.point = p ∧
    issue.loan.place.base ∈ vars ∧ ∀ r ∈ issue.regions, r ∈ regions

namespace Block

/-- The facts of a block, in order: those of its statements, then those of its
    terminator. -/
def facts (blk : Block) : List Statement := blk.statements ++ [blk.terminator.toStatement]

/-- The names of the loans issued in a block, in order. -/
def loanNames (blk : Block) : List String := blk.facts.flatMap Statement.loanNames

@[simp] theorem length_facts (blk : Block) : blk.facts.length = blk.size := by
  simp [facts, size]

theorem loanNames_eq (blk : Block) : blk.loanNames =
    blk.statements.flatMap Statement.loanNames ++ blk.terminator.toStatement.loanNames := by
  simp [loanNames, facts]

/-- What stands at an index has the facts of that index. -/
theorem map_statement_slot? (blk : Block) (i : Nat) :
    (blk.slot? i).map Slot.statement = blk.facts[i]? := by
  rw [slot?, facts]
  split
  · next h => simp [h, Slot.statement]
  · next h =>
    by_cases hlt : i < blk.statements.length
    · rw [List.getElem?_append_left hlt]
      cases blk.statements[i]? <;> rfl
    · rw [List.getElem?_eq_none (Nat.le_of_not_lt hlt),
        List.getElem?_eq_none (by simp; omega)]
      rfl

theorem mem_points {blk : Block} {p : Point} :
    p ∈ blk.points ↔ ∃ i : Nat, i < blk.size ∧ p = ⟨blk.name, i⟩ := by
  simp only [points, List.mem_map, List.mem_range]
  constructor
  · rintro ⟨i, hi, rfl⟩
    exact ⟨i, hi, rfl⟩
  · rintro ⟨i, hi, rfl⟩
    exact ⟨i, hi, rfl⟩

theorem nodup_points (blk : Block) : blk.points.Nodup := by
  refine List.Nodup.map ?_ List.nodup_range
  intro i j hij
  injection hij with _ hindex
  exact Int.ofNat.inj hindex

end Block

/-! ## Bodies -/

/-- What the check of a draft makes sure of. -/
structure Body.WellFormed (b : Body) : Prop where
  blockNames : (b.blocks.map Block.name).Nodup
  entry : b.entry ∈ b.blocks.map Block.name
  targets : ∀ blk ∈ b.blocks, ∀ t ∈ blk.terminator.targets, t ∈ b.blocks.map Block.name
  regionNames : (b.regions.map Region.name).Nodup
  localNames : (b.locals.map Variable.name).Nodup
  localRegions : ∀ v ∈ b.locals, ∀ r ∈ v.regions ++ v.drops.getD [], r ∈ b.regions
  bounds : ∀ o ∈ b.bounds, o.sub ∈ b.regions ∧ o.sup ∈ b.regions
  facts : ∀ blk ∈ b.blocks, ∀ (i : Nat) (s : Statement), blk.facts[i]? = some s →
    s.InOrder (b.locals.map Variable.name) b.regions ⟨blk.name, i⟩
  loanNames : (b.blocks.flatMap Block.loanNames).Nodup

namespace Body

variable {b : Body}

theorem mem_points {p : Point} :
    p ∈ b.points ↔ ∃ blk ∈ b.blocks, ∃ i : Nat, i < blk.size ∧ p = ⟨blk.name, i⟩ := by
  simp only [points, List.mem_flatMap, Block.mem_points]

namespace WellFormed

theorem block?_eq_some_iff (h : b.WellFormed) {name : String} {blk : Block} :
    b.block? name = some blk ↔ blk ∈ b.blocks ∧ blk.name = name :=
  find?_name_eq_some_iff h.blockNames

theorem var?_eq_some_iff (h : b.WellFormed) {name : String} {v : Variable} :
    b.var? name = some v ↔ v ∈ b.locals ∧ v.name = name :=
  find?_name_eq_some_iff h.localNames

theorem slot?_eq (h : b.WellFormed) {blk : Block} (hblk : blk ∈ b.blocks) (i : Nat) :
    b.slot? ⟨blk.name, i⟩ = blk.slot? i := by
  have hneg : ¬ ((i : Int) < 0) := by omega
  simp only [slot?, if_neg hneg, h.block?_eq_some_iff.mpr ⟨hblk, rfl⟩, Option.bind_some,
    Int.toNat_natCast]

/-- The facts at a point are those of its block at its index. -/
theorem facts_eq (h : b.WellFormed) {blk : Block} (hblk : blk ∈ b.blocks) {i : Nat}
    {s : Statement} (hs : blk.facts[i]? = some s) : b.facts ⟨blk.name, i⟩ = s := by
  rw [Body.facts, h.slot?_eq hblk, Block.map_statement_slot?, hs, Option.getD_some]

/-- The facts of a body, point by point, are those of its blocks, one block after
    the other. -/
theorem map_facts_points (h : b.WellFormed) :
    b.points.map b.facts = b.blocks.flatMap Block.facts := by
  have hblocks : ∀ blk ∈ b.blocks, blk.points.map b.facts = blk.facts := by
    intro blk hblk
    apply List.ext_getElem?
    intro i
    by_cases hi : i < blk.size
    · have hlt : i < blk.facts.length := by rw [Block.length_facts]; exact hi
      have hs : blk.facts[i]? = some blk.facts[i] := List.getElem?_eq_getElem hlt
      have hfacts := h.facts_eq hblk hs
      rw [hs]
      simp [Block.points, List.getElem?_range hi, hfacts]
    · have hlength : ¬ i < (blk.points.map b.facts).length := by simpa [Block.points] using hi
      rw [List.getElem?_eq_none (Nat.le_of_not_lt hlength),
        List.getElem?_eq_none (by simpa using hi)]
  rw [points, List.map_flatMap]
  exact List.flatMap_congr hblocks

end WellFormed

end Body

end BorrowFlow
