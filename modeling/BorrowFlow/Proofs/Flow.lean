import BorrowFlow.Body.Order
import BorrowFlow.Proofs.WellFormed
import Mathlib.Data.List.Perm.Basic

/-! # Control flow of well-formed bodies

    * Points are all different, and control never leaves them
      (`Body.WellFormed.mem_points_of_mem_successors`).
    * The facts at a point are in order (`Body.WellFormed.inOrder_facts`).
    * The reverse postorder lists each point once, reachable or not
      (`Body.WellFormed.reversePostorder_perm`).
-/

namespace BorrowFlow

/-! ## Depth-first search -/

namespace Search

/-- From `s` the search came to `t`: it has entered and left some points of `u`,
    each once. -/
def Explores (u : List Point) (s t : Search) : Prop :=
  ∃ new : List Point, new.Nodup ∧ (∀ x ∈ new, x ∉ s.seen ∧ x ∈ u) ∧
    t.seen.Perm (new ++ s.seen) ∧ t.done.Perm (new ++ s.done)

theorem Explores.refl (u : List Point) (s : Search) : Explores u s s :=
  ⟨[], List.nodup_nil, by simp, .refl _, .refl _⟩

theorem Explores.trans {u : List Point} {r s t : Search} (hrs : Explores u r s)
    (hst : Explores u s t) : Explores u r t := by
  obtain ⟨first, hfirst, hfresh, hseen, hdone⟩ := hrs
  obtain ⟨second, hsecond, hfresh', hseen', hdone'⟩ := hst
  have hdisjoint : ∀ x ∈ second, x ∉ first ∧ x ∉ r.seen := by
    intro x hx
    have hnot := (hfresh' x hx).1
    rw [hseen.mem_iff, List.mem_append, not_or] at hnot
    exact hnot
  refine ⟨second ++ first, ?_, ?_, ?_, ?_⟩
  · refine List.nodup_append.mpr ⟨hsecond, hfirst, fun x hx y hy hxy => ?_⟩
    exact (hdisjoint x hx).1 (hxy ▸ hy)
  · intro x hx
    rcases List.mem_append.mp hx with hx | hx
    · exact ⟨(hdisjoint x hx).2, (hfresh' x hx).2⟩
    · exact hfresh x hx
  · rw [List.append_assoc]
    exact hseen'.trans (hseen.append_left second)
  · rw [List.append_assoc]
    exact hdone'.trans (hdone.append_left second)

theorem explores_foldl {u : List Point} {step : Search → Point → Search}
    (hstep : ∀ s, ∀ p ∈ u, Explores u s (step s p)) {l : List Point} (hl : ∀ p ∈ l, p ∈ u)
    (s : Search) : Explores u s (l.foldl step s) := by
  induction l generalizing s with
  | nil => exact .refl u s
  | cons p l ih =>
    have hfirst := hstep s p (hl p List.mem_cons_self)
    exact hfirst.trans (ih (fun q hq => hl q (List.mem_cons_of_mem p hq)) _)

end Search

/-- **Every point that is entered is left**, in whatever state the search arrives
    and however deep it may go. -/
theorem explores_visit {u : List Point} {next : Point → List Point}
    (hnext : ∀ p ∈ u, ∀ q ∈ next p, q ∈ u) (depth : Nat) (s : Search) {p : Point} (hp : p ∈ u) :
    Search.Explores u s (visit next depth s p) := by
  induction depth generalizing s p with
  | zero => exact .refl u s
  | succ depth ih =>
    rw [visit]
    split
    · exact .refl u s
    · next hnew =>
      -- the successors are explored with `p` entered but not yet left
      obtain ⟨new, hnodup, hfresh, hseen, hdone⟩ :=
        Search.explores_foldl (fun s q hq => ih s hq) (hnext p hp) { s with seen := p :: s.seen }
      simp only [List.mem_cons, not_or] at hfresh
      refine ⟨p :: new, ?_, ?_, ?_, ?_⟩
      · exact List.nodup_cons.mpr ⟨fun hmem => (hfresh p hmem).1.1 rfl, hnodup⟩
      · intro x hx
        rcases List.mem_cons.mp hx with rfl | hx
        · exact ⟨hnew, hp⟩
        · exact ⟨(hfresh x hx).1.2, (hfresh x hx).2⟩
      · exact hseen.trans List.perm_middle
      · exact hdone.cons p

/-! ## Points -/

/-- Every block has a first point. -/
theorem Body.first_mem_points {b : Body} {name : String}
    (hname : name ∈ b.blocks.map Block.name) : (⟨name, 0⟩ : Point) ∈ b.points := by
  obtain ⟨blk, hblk, rfl⟩ := List.mem_map.mp hname
  exact mem_points.mpr ⟨blk, hblk, 0, by simp [Block.size], rfl⟩

namespace Body.WellFormed

variable {b : Body}

theorem nodup_points (h : b.WellFormed) : b.points.Nodup := by
  refine List.nodup_flatMap.mpr ⟨fun blk _ => blk.nodup_points, ?_⟩
  refine (List.pairwise_map.mp h.blockNames).imp ?_
  intro blk blk' hne p hp hp'
  obtain ⟨i, _, rfl⟩ := Block.mem_points.mp hp
  obtain ⟨j, _, heq⟩ := Block.mem_points.mp hp'
  injection heq with hname _
  exact hne hname

theorem entryPoint_mem (h : b.WellFormed) : b.entryPoint ∈ b.points := first_mem_points h.entry

theorem points_length_pos (h : b.WellFormed) : 0 < b.points.length :=
  List.length_pos_of_mem h.entryPoint_mem

/-- What stands at a point of the body, with its block and its index. -/
theorem exists_block_of_slot? (h : b.WellFormed) {p : Point} {slot : Slot}
    (hslot : b.slot? p = some slot) :
    ∃ blk ∈ b.blocks, ∃ i : Nat, p = ⟨blk.name, i⟩ ∧ blk.slot? i = some slot := by
  rw [slot?] at hslot
  split at hslot
  · cases hslot
  · next hneg =>
    obtain ⟨blk, hblk, hslot⟩ := Option.bind_eq_some_iff.mp hslot
    obtain ⟨hmem, hname⟩ := h.block?_eq_some_iff.mp hblk
    refine ⟨blk, hmem, p.index.toNat, ?_, hslot⟩
    have hindex : ((p.index.toNat : Nat) : Int) = p.index := Int.toNat_of_nonneg (by omega)
    rw [hindex, hname]

/-- Something stands at the points of the body only. -/
theorem mem_points_of_slot? (h : b.WellFormed) {p : Point} {slot : Slot}
    (hslot : b.slot? p = some slot) : p ∈ b.points := by
  obtain ⟨blk, hblk, i, rfl, hi⟩ := h.exists_block_of_slot? hslot
  have hfacts : blk.facts[i]? = some slot.statement := by
    rw [← Block.map_statement_slot?, hi]
    rfl
  obtain ⟨hlt, _⟩ := List.getElem?_eq_some_iff.mp hfacts
  exact mem_points.mpr ⟨blk, hblk, i, by simpa using hlt, rfl⟩

/-! ## Control flow -/

/-- **Where control goes next**: to the next point of the block, or from its last
    point to the first ones of the targets. -/
theorem mem_successors_iff (h : b.WellFormed) {p q : Point} :
    q ∈ b.successors p ↔ ∃ blk ∈ b.blocks, ∃ i : Nat, p = ⟨blk.name, i⟩ ∧
      (i < blk.statements.length ∧ q = ⟨blk.name, i + 1⟩ ∨
        i = blk.statements.length ∧ ∃ name ∈ blk.terminator.targets, q = ⟨name, 0⟩) := by
  constructor
  · intro hq
    rw [successors] at hq
    cases hslot : b.slot? p with
    | none => simp [hslot] at hq
    | some slot =>
      obtain ⟨blk, hblk, i, rfl, hi⟩ := h.exists_block_of_slot? hslot
      refine ⟨blk, hblk, i, rfl, ?_⟩
      rw [Block.slot?] at hi
      split at hi
      · next hlast =>
        obtain rfl : Slot.jump blk.terminator = slot := Option.some.inj hi
        rw [hslot] at hq
        obtain ⟨name, hname, rfl⟩ := List.mem_map.mp (List.mem_eraseDups.mp hq)
        exact Or.inr ⟨hlast, name, hname, rfl⟩
      · obtain ⟨s, hs, rfl⟩ := Option.map_eq_some_iff.mp hi
        obtain ⟨hlt, _⟩ := List.getElem?_eq_some_iff.mp hs
        rw [hslot] at hq
        exact Or.inl ⟨hlt, List.mem_singleton.mp hq⟩
  · rintro ⟨blk, hblk, i, rfl, ⟨hlt, rfl⟩ | ⟨rfl, name, hname, rfl⟩⟩
    · have hslot : b.slot? ⟨blk.name, i⟩ = some (.plain blk.statements[i]) := by
        rw [h.slot?_eq hblk, Block.slot?, if_neg (Nat.ne_of_lt hlt), List.getElem?_eq_getElem hlt]
        rfl
      simp [successors, hslot]
    · have hslot : b.slot? ⟨blk.name, blk.statements.length⟩ = some (.jump blk.terminator) := by
        rw [h.slot?_eq hblk, Block.slot?, if_pos rfl]
      simpa [successors, hslot] using hname

/-- **Control stays within the body.** -/
theorem mem_points_of_mem_successors (h : b.WellFormed) {p q : Point} (hq : q ∈ b.successors p) :
    q ∈ b.points := by
  obtain ⟨blk, hblk, i, _, ⟨hlt, rfl⟩ | ⟨_, name, hname, rfl⟩⟩ := h.mem_successors_iff.mp hq
  · exact mem_points.mpr ⟨blk, hblk, i + 1, by rw [Block.size]; omega, rfl⟩
  · exact first_mem_points (h.targets blk hblk name hname)

theorem mem_points_of_successors (h : b.WellFormed) {p q : Point} (hq : q ∈ b.successors p) :
    p ∈ b.points := by
  obtain ⟨blk, hblk, i, rfl, hnext⟩ := h.mem_successors_iff.mp hq
  refine mem_points.mpr ⟨blk, hblk, i, ?_, rfl⟩
  rw [Block.size]
  rcases hnext with ⟨hlt, _⟩ | ⟨rfl, _⟩
  · omega
  · omega

theorem mem_predecessors (h : b.WellFormed) {p q : Point} :
    q ∈ b.predecessors p ↔ p ∈ b.successors q := by
  simp only [predecessors, sourcesIn, flow, List.mem_map, List.mem_filter, decide_eq_true_eq]
  constructor
  · rintro ⟨_, ⟨⟨q, _, rfl⟩, hp⟩, rfl⟩
    exact hp
  · intro hp
    exact ⟨(q, b.successors q), ⟨⟨q, h.mem_points_of_successors hp, rfl⟩, hp⟩, rfl⟩

/-! ## Facts -/

theorem inOrder_facts (h : b.WellFormed) {p : Point} (hp : p ∈ b.points) :
    (b.facts p).InOrder (b.locals.map Variable.name) b.regions p := by
  obtain ⟨blk, hblk, i, hi, rfl⟩ := mem_points.mp hp
  have hlt : i < blk.facts.length := by rw [Block.length_facts]; exact hi
  have hs : blk.facts[i]? = some blk.facts[i] := List.getElem?_eq_getElem hlt
  rw [h.facts_eq hblk hs]
  exact h.facts blk hblk i _ hs

/-- A point outside the body has no facts. -/
theorem facts_of_not_mem (h : b.WellFormed) {p : Point} (hp : p ∉ b.points) :
    b.facts p = { kind := "" } := by
  cases hslot : b.slot? p with
  | none => simp [Body.facts, hslot]
  | some slot => exact absurd (h.mem_points_of_slot? hslot) hp

/-! ## Order of the visits -/

/-- **Each point once.**  The reverse postorder is a rearrangement of the points:
    those that the search entered, then those that it did not. -/
theorem reversePostorder_perm (h : b.WellFormed) : b.reversePostorder.Perm b.points := by
  obtain ⟨new, hnodup, hfresh, hseen, hdone⟩ :=
    explores_visit (u := b.points) (fun p _ q hq => h.mem_points_of_mem_successors hq)
      b.points.length ⟨[], []⟩ h.entryPoint_mem
  simp only [List.append_nil] at hseen hdone
  have hsplit : b.reversePostorder.Perm (new ++ b.points.filter (· ∉ new)) := by
    have hfilter : b.points.filter (· ∉ (visit b.successors b.points.length ⟨[], []⟩
        b.entryPoint).seen) = b.points.filter (· ∉ new) := by
      refine List.filter_congr fun x _ => ?_
      exact decide_eq_decide.mpr (not_congr hseen.mem_iff)
    rw [reversePostorder, hfilter]
    exact hdone.append_right _
  refine hsplit.trans ((List.perm_ext_iff_of_nodup ?_ h.nodup_points).mpr fun x => ?_)
  · refine List.nodup_append.mpr ⟨hnodup, h.nodup_points.filter _, fun x hx y hy hxy => ?_⟩
    have hnot := (List.mem_filter.mp hy).2
    rw [decide_eq_true_eq] at hnot
    exact hnot (hxy ▸ hx)
  · rw [List.mem_append, List.mem_filter, decide_eq_true_eq]
    constructor
    · rintro (hx | ⟨hx, _⟩)
      · exact (hfresh x hx).2
      · exact hx
    · intro hx
      by_cases hmem : x ∈ new
      · exact Or.inl hmem
      · exact Or.inr ⟨hx, hmem⟩

end Body.WellFormed

end BorrowFlow
