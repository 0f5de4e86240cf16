import BorrowFlow.Dataflow.Arena
import BorrowFlow.Proofs.Lists

/-! # Arenas over different points

    An arena that was made for points which are all different has one slot for
    each of them.  It then behaves like a function from its points:

    * `Arena.Covers.read_write`: a write changes the value at its point only.
    * `Arena.Covers.ext`: the arena is determined by the values at its points.
-/

namespace BorrowFlow

variable {α : Type}

/-! ## Positions -/

theorem lastPosition?_eq_none_iff {p : Point} {l : List Point} :
    lastPosition? p l = none ↔ p ∉ l := by
  induction l with
  | nil => simp [lastPosition?]
  | cons q rest ih =>
    rw [lastPosition?]
    split
    · next i hi =>
      have hmem : p ∈ rest := by
        apply Classical.byContradiction
        intro hnot
        rw [ih.mpr hnot] at hi
        cases hi
      simp [hmem]
    · next hnone =>
      have hnot := ih.mp hnone
      by_cases hq : q = p
      · simp [hq]
      · simp [hq, hnot, Ne.symm hq]

/-- In a list without repetition a point has one position. -/
theorem lastPosition?_eq_some_iff {p : Point} {l : List Point} (hl : l.Nodup) {i : Nat} :
    lastPosition? p l = some i ↔ l[i]? = some p := by
  induction l generalizing i with
  | nil => simp [lastPosition?]
  | cons q rest ih =>
    rw [List.nodup_cons] at hl
    rw [lastPosition?]
    split
    · next j hj =>
      have hjp : rest[j]? = some p := (ih hl.2).mp hj
      have hq : q ≠ p := by
        intro hqp
        subst hqp
        exact hl.1 (List.mem_of_getElem? hjp)
      cases i with
      | zero => simp [hq]
      | succ i =>
        rw [List.getElem?_cons_succ, ← ih hl.2, hj]
        simp
    · next hnone =>
      cases i with
      | zero => by_cases hq : q = p <;> simp [hq]
      | succ i =>
        rw [List.getElem?_cons_succ, ← ih hl.2, hnone]
        by_cases hq : q = p <;> simp [hq]

namespace Arena

/-! ## One slot per point -/

/-- The arena has one slot for each of `ps`, and these are all different. -/
structure Covers (a : Arena α) (ps : List Point) : Prop where
  points : a.points = ps
  distinct : ps.Nodup
  length : a.slots.length = ps.length

theorem covers_ofPoints {ps : List Point} (h : ps.Nodup) (initial : α) :
    (ofPoints ps initial).Covers ps where
  points := rfl
  distinct := h
  length := by simp [ofPoints, eraseDups_eq_self h]

theorem covers_tabulate {ps : List Point} (h : ps.Nodup) (f : Point → α) :
    (tabulate ps f).Covers ps where
  points := rfl
  distinct := h
  length := by simp [tabulate, eraseDups_eq_self h]

namespace Covers

variable {a : Arena α} {ps : List Point} {default : α}

theorem position (h : a.Covers ps) {p : Point} {i : Nat} (hi : ps[i]? = some p) :
    lastPosition? p a.points = some i := by
  rw [h.points]
  exact (lastPosition?_eq_some_iff h.distinct).mpr hi

theorem no_position (h : a.Covers ps) {p : Point} (hp : p ∉ ps) :
    lastPosition? p a.points = none := by
  rw [h.points]
  exact lastPosition?_eq_none_iff.mpr hp

theorem lt_length (h : a.Covers ps) {p : Point} {i : Nat} (hi : ps[i]? = some p) :
    i < a.slots.length := by
  rw [h.length]
  exact (List.getElem?_eq_some_iff.mp hi).1

theorem read_eq_of_getElem? (h : a.Covers ps) {p : Point} {i : Nat} (hi : ps[i]? = some p) :
    a.read default p = (a.slots[i]?).getD default := by
  rw [read, get, h.position hi]
  cases hslot : a.slots[i]? <;> simp [hslot]

/-- A covered point has a value. -/
theorem get_eq (h : a.Covers ps) {p : Point} (hp : p ∈ ps) (default : α) :
    a.get p = .ok (a.read default p) := by
  obtain ⟨i, hi⟩ := List.mem_iff_getElem?.mp hp
  rw [h.read_eq_of_getElem? hi, get, h.position hi]
  simp [List.getElem?_eq_getElem (h.lt_length hi)]

theorem read_of_not_mem (h : a.Covers ps) {p : Point} (hp : p ∉ ps) :
    a.read default p = default := by
  rw [read, get, h.no_position hp]

/-- A write at a covered point sets its slot. -/
theorem write_eq_of_getElem? (h : a.Covers ps) {p : Point} {i : Nat} (hi : ps[i]? = some p)
    (v : α) : a.write p v = { a with slots := a.slots.set i v } := by
  rw [write, put, h.position hi]
  simp [h.lt_length hi]

/-- A covered point can be written. -/
theorem put_eq (h : a.Covers ps) {p : Point} (hp : p ∈ ps) (v : α) :
    a.put p v = .ok (a.write p v) := by
  obtain ⟨i, hi⟩ := List.mem_iff_getElem?.mp hp
  rw [h.write_eq_of_getElem? hi, put, h.position hi]
  simp [h.lt_length hi]

theorem write (h : a.Covers ps) (p : Point) (v : α) : (a.write p v).Covers ps := by
  by_cases hp : p ∈ ps
  · obtain ⟨i, hi⟩ := List.mem_iff_getElem?.mp hp
    rw [h.write_eq_of_getElem? hi v]
    exact ⟨h.points, h.distinct, by simpa using h.length⟩
  · have hsame : a.write p v = a := by rw [Arena.write, put, h.no_position hp]
    rw [hsame]
    exact h

/-- **A write changes the value at its point only.** -/
theorem read_write (h : a.Covers ps) {p : Point} (hp : p ∈ ps) (v : α) (q : Point) :
    (a.write p v).read default q = if q = p then v else a.read default q := by
  by_cases hq : q ∈ ps
  · obtain ⟨i, hi⟩ := List.mem_iff_getElem?.mp hp
    obtain ⟨j, hj⟩ := List.mem_iff_getElem?.mp hq
    obtain ⟨hlt, _⟩ := List.getElem?_eq_some_iff.mp hi
    have hslot := h.lt_length hi
    rw [(h.write p v).read_eq_of_getElem? hj, h.write_eq_of_getElem? hi v,
      h.read_eq_of_getElem? hj]
    by_cases hij : i = j
    · subst hij
      have hqp : q = p := Option.some.inj (hj.symm.trans hi)
      simp [hqp, hslot]
    · have hqp : q ≠ p := by
        intro hqp
        subst hqp
        exact hij ((List.getElem?_inj hlt h.distinct).mp (hi.trans hj.symm))
      simp [hqp, hij]
  · have hqp : q ≠ p := fun hqp => hq (hqp ▸ hp)
    rw [(h.write p v).read_of_not_mem hq, h.read_of_not_mem hq, if_neg hqp]

/-- **An arena is determined by the values at its points.** -/
theorem ext (h : a.Covers ps) {a' : Arena α} (h' : a'.Covers ps)
    (heq : ∀ p ∈ ps, a.read default p = a'.read default p) : a = a' := by
  have hslots : a.slots = a'.slots := by
    apply List.ext_getElem?
    intro i
    by_cases hi : i < ps.length
    · have hp : ps[i]? = some ps[i] := List.getElem?_eq_getElem hi
      have hi' : i < a.slots.length := by rw [h.length]; exact hi
      have hi'' : i < a'.slots.length := by rw [h'.length]; exact hi
      have hread := heq ps[i] (List.getElem_mem hi)
      rw [h.read_eq_of_getElem? hp, h'.read_eq_of_getElem? hp,
        List.getElem?_eq_getElem hi', List.getElem?_eq_getElem hi''] at hread
      rw [List.getElem?_eq_getElem hi', List.getElem?_eq_getElem hi'']
      exact congrArg some hread
    · have hi' : a.slots.length ≤ i := by rw [h.length]; omega
      have hi'' : a'.slots.length ≤ i := by rw [h'.length]; omega
      rw [List.getElem?_eq_none hi', List.getElem?_eq_none hi'']
  have hpoints : a.points = a'.points := h.points.trans h'.points.symm
  cases a
  cases a'
  cases hslots
  cases hpoints
  rfl

end Covers

theorem read_ofPoints {ps : List Point} (h : ps.Nodup) (initial : α) (p : Point) :
    (ofPoints ps initial).read initial p = initial := by
  have hcovers := covers_ofPoints h initial
  by_cases hp : p ∈ ps
  · obtain ⟨i, hi⟩ := List.mem_iff_getElem?.mp hp
    rw [hcovers.read_eq_of_getElem? hi]
    simp only [ofPoints, List.getElem?_replicate]
    split <;> rfl
  · exact hcovers.read_of_not_mem hp

theorem read_tabulate {ps : List Point} (h : ps.Nodup) (f : Point → α) {p : Point} (hp : p ∈ ps)
    (default : α) : (tabulate ps f).read default p = f p := by
  obtain ⟨i, hi⟩ := List.mem_iff_getElem?.mp hp
  rw [(covers_tabulate h f).read_eq_of_getElem? hi]
  simp [tabulate, eraseDups_eq_self h, hi]

end Arena

end BorrowFlow
