/-! # Sorted sets

  A finite set kept as its strictly increasing list of members.  Two sets with
  the same members are the same list, so equality of sets is equality of
  values, and listing a set lists it in order.

  - `SortedSet.union`, `insert`, `ofList`, `unions`, `inter`, `diff`, `filter`,
    `image` build sets; the first four come down to merging lists.
  - Every operation has one lemma that says what its members are.
  - `SortedSet.ext`: a set is determined by its members.
-/

namespace BorrowFlow

open Std (TransOrd LawfulEqOrd)

variable {α : Type} [Ord α]

/-! ## Strictly increasing lists -/

/-- `a` comes strictly before `b`. -/
abbrev Before (a b : α) : Prop := compare a b = .lt

/-- Go down an increasing list to the place of `a`, put it there, and go on with
    what follows it.  A member stays where it is. -/
def placeThen (a : α) (rest : List α → List α) : List α → List α
  | [] => a :: rest []
  | b :: bs =>
    match compare a b with
    | .lt => a :: rest (b :: bs)
    | .eq => a :: rest bs
    | .gt => b :: placeThen a rest bs

/-- Merge two increasing lists, a common member once. -/
def mergeInOrder : List α → List α → List α
  | [] => id
  | a :: as => placeThen a (mergeInOrder as)

theorem mem_placeThen [LawfulEqOrd α] {a x : α} {rest : List α → List α} {P : Prop}
    (h : ∀ l, x ∈ rest l ↔ P ∨ x ∈ l) (l : List α) :
    x ∈ placeThen a rest l ↔ (x = a ∨ P) ∨ x ∈ l := by
  induction l with
  | nil => simp [placeThen, h]
  | cons b bs ih =>
    rw [placeThen]
    split
    · simp [h, or_assoc]
    · next hab =>
      have : a = b := LawfulEqOrd.eq_of_compare hab
      subst this
      simp only [List.mem_cons, h]
      constructor
      · rintro (h | h | h) <;> simp [h]
      · rintro ((h | h) | h | h) <;> simp [h]
    · simp only [List.mem_cons, ih]
      constructor
      · rintro (h | (h | h) | h) <;> simp [h]
      · rintro ((h | h) | h | h) <;> simp [h]

/-- **A merge has the members of both lists.** -/
theorem mem_mergeInOrder [LawfulEqOrd α] {x : α} {l m : List α} :
    x ∈ mergeInOrder l m ↔ x ∈ l ∨ x ∈ m := by
  induction l generalizing m with
  | nil => simp [mergeInOrder]
  | cons a as ih =>
    rw [mergeInOrder, mem_placeThen (fun _ => ih), List.mem_cons]

theorem pairwise_placeThen [TransOrd α] [LawfulEqOrd α] {a : α} {as : List α}
    (has : ∀ x ∈ as, Before a x)
    (h : ∀ l : List α, l.Pairwise Before → (mergeInOrder as l).Pairwise Before)
    {l : List α} (hl : l.Pairwise Before) :
    (placeThen a (mergeInOrder as) l).Pairwise Before := by
  induction l with
  | nil =>
    refine List.pairwise_cons.mpr ⟨fun x hx => ?_, h [] hl⟩
    rcases mem_mergeInOrder.mp hx with hx | hx
    · exact has x hx
    · exact absurd hx List.not_mem_nil
  | cons b bs ih =>
    have hb := List.pairwise_cons.mp hl
    rw [placeThen]
    split
    · next hab =>
      refine List.pairwise_cons.mpr ⟨fun x hx => ?_, h _ hl⟩
      rcases mem_mergeInOrder.mp hx with hx | hx
      · exact has x hx
      · rcases List.mem_cons.mp hx with rfl | hx
        · exact hab
        · exact Std.TransCmp.lt_trans hab (hb.1 x hx)
    · next hab =>
      have : a = b := LawfulEqOrd.eq_of_compare hab
      subst this
      refine List.pairwise_cons.mpr ⟨fun x hx => ?_, h _ hb.2⟩
      rcases mem_mergeInOrder.mp hx with hx | hx
      · exact has x hx
      · exact hb.1 x hx
    · next hab =>
      have hba : Before b a := Std.OrientedCmp.lt_of_gt hab
      refine List.pairwise_cons.mpr ⟨fun x hx => ?_, ih hb.2⟩
      rcases (mem_placeThen (fun _ => mem_mergeInOrder) bs).mp hx with (rfl | hx) | hx
      · exact hba
      · exact Std.TransCmp.lt_trans hba (has x hx)
      · exact hb.1 x hx

/-- **A merge of increasing lists is increasing.** -/
theorem pairwise_mergeInOrder [TransOrd α] [LawfulEqOrd α] {l m : List α}
    (hl : l.Pairwise Before) (hm : m.Pairwise Before) :
    (mergeInOrder l m).Pairwise Before := by
  induction l generalizing m with
  | nil => exact hm
  | cons a as ih =>
    rw [List.pairwise_cons] at hl
    exact pairwise_placeThen hl.1 (fun _ => ih hl.2) hm

/-- **An increasing list is fixed by its members.** -/
theorem eq_of_pairwise_of_mem_iff [TransOrd α] {l m : List α}
    (hl : l.Pairwise Before) (hm : m.Pairwise Before) (h : ∀ x, x ∈ l ↔ x ∈ m) :
    l = m := by
  induction l generalizing m with
  | nil =>
    cases m with
    | nil => rfl
    | cons b bs => exact absurd ((h b).mpr (by simp)) (by simp)
  | cons a as ih =>
    cases m with
    | nil => exact absurd ((h a).mp (by simp)) (by simp)
    | cons b bs =>
      rw [List.pairwise_cons] at hl hm
      have irrefl : ∀ x : α, ¬ Before x x := by
        intro x hx
        simp [Before, Std.ReflCmp.compare_self] at hx
      -- neither head can come before the other, as both are least
      have hab : a = b := by
        rcases List.mem_cons.mp ((h a).mp (by simp)) with hab | ha
        · exact hab
        rcases List.mem_cons.mp ((h b).mpr (by simp)) with hba | hb
        · exact hba.symm
        exact absurd (Std.TransCmp.lt_trans (hm.1 a ha) (hl.1 b hb)) (irrefl b)
      subst hab
      congr 1
      refine ih hl.2 hm.2 fun x => ?_
      have hx := h x
      simp only [List.mem_cons] at hx
      constructor
      · intro hxa
        rcases hx.mp (Or.inr hxa) with rfl | hxb
        · exact absurd (hl.1 x hxa) (irrefl x)
        · exact hxb
      · intro hxb
        rcases hx.mpr (Or.inr hxb) with rfl | hxa
        · exact absurd (hm.1 x hxb) (irrefl x)
        · exact hxa

/-! ## Sets -/

/-- A finite set of `α`, listed in strictly increasing order. -/
structure SortedSet (α : Type) [Ord α] where
  /-- The members, smallest first. -/
  toList : List α
  /-- Each member comes strictly before those after it. -/
  sorted : toList.Pairwise Before

namespace SortedSet

instance : Membership α (SortedSet α) := ⟨fun s a => a ∈ s.toList⟩

@[simp] theorem mem_toList {s : SortedSet α} {a : α} : a ∈ s.toList ↔ a ∈ s := Iff.rfl

instance [DecidableEq α] (a : α) (s : SortedSet α) : Decidable (a ∈ s) :=
  inferInstanceAs (Decidable (a ∈ s.toList))

/-- **Extensionality.**  Sets with the same members are equal. -/
theorem ext [TransOrd α] {s t : SortedSet α} (h : ∀ a, a ∈ s ↔ a ∈ t) : s = t := by
  cases s with
  | mk l hl =>
    cases t with
    | mk m hm =>
      have : l = m := eq_of_pairwise_of_mem_iff hl hm h
      subst this
      rfl

instance [DecidableEq α] : DecidableEq (SortedSet α) := fun s t =>
  if h : s.toList = t.toList then
    isTrue (by cases s; cases t; cases h; rfl)
  else
    isFalse fun hst => h (congrArg toList hst)

/-- The set with no members. -/
def empty : SortedSet α := ⟨[], List.Pairwise.nil⟩

instance : EmptyCollection (SortedSet α) := ⟨empty⟩
instance : Inhabited (SortedSet α) := ⟨empty⟩

@[simp] theorem not_mem_empty {a : α} : ¬ a ∈ (∅ : SortedSet α) := List.not_mem_nil

/-- The number of members. -/
def size (s : SortedSet α) : Nat := s.toList.length

/-- Is there no member? -/
def isEmpty (s : SortedSet α) : Bool := s.toList.isEmpty

/-- The members that pass a test. -/
def filter (p : α → Bool) (s : SortedSet α) : SortedSet α :=
  ⟨s.toList.filter p, s.sorted.filter p⟩

@[simp] theorem mem_filter {p : α → Bool} {s : SortedSet α} {a : α} :
    a ∈ s.filter p ↔ a ∈ s ∧ p a = true := List.mem_filter

/-- The members of `s` that are also in `t`. -/
def inter [DecidableEq α] (s t : SortedSet α) : SortedSet α := s.filter (· ∈ t)

@[simp] theorem mem_inter [DecidableEq α] {s t : SortedSet α} {a : α} :
    a ∈ s.inter t ↔ a ∈ s ∧ a ∈ t := by
  simp [inter]

/-- The members of `s` that are not in `t`. -/
def diff [DecidableEq α] (s t : SortedSet α) : SortedSet α := s.filter (· ∉ t)

@[simp] theorem mem_diff [DecidableEq α] {s t : SortedSet α} {a : α} :
    a ∈ s.diff t ↔ a ∈ s ∧ ¬ a ∈ t := by
  simp [diff]

/-- The set of one member. -/
def single (a : α) : SortedSet α := ⟨[a], List.pairwise_singleton _ _⟩

@[simp] theorem mem_single {a x : α} : x ∈ single a ↔ x = a := List.mem_singleton

variable [TransOrd α] [LawfulEqOrd α]

/-- The members of either set. -/
def union (s t : SortedSet α) : SortedSet α :=
  ⟨mergeInOrder s.toList t.toList, pairwise_mergeInOrder s.sorted t.sorted⟩

@[simp] theorem mem_union {s t : SortedSet α} {x : α} :
    x ∈ s.union t ↔ x ∈ s ∨ x ∈ t := mem_mergeInOrder

/-- Add one member. -/
def insert (a : α) (s : SortedSet α) : SortedSet α := (single a).union s

@[simp] theorem mem_insert {a x : α} {s : SortedSet α} :
    x ∈ s.insert a ↔ x = a ∨ x ∈ s := by
  simp [insert]

/-- The set of the members of a list. -/
def ofList (l : List α) : SortedSet α := l.foldr insert ∅

@[simp] theorem mem_ofList {l : List α} {x : α} : x ∈ ofList l ↔ x ∈ l := by
  induction l with
  | nil => simp [ofList]
  | cons a as ih =>
    have step : ofList (a :: as) = (ofList as).insert a := rfl
    rw [step, mem_insert, ih, List.mem_cons]

/-- The members of any set of a list. -/
def unions (ss : List (SortedSet α)) : SortedSet α := ss.foldr union ∅

@[simp] theorem mem_unions {ss : List (SortedSet α)} {x : α} :
    x ∈ unions ss ↔ ∃ s ∈ ss, x ∈ s := by
  induction ss with
  | nil => simp [unions]
  | cons s ss ih =>
    have step : unions (s :: ss) = s.union (unions ss) := rfl
    simp [step, ih]

/-- The images of the members of another set. -/
def image {β : Type} [Ord β] (f : β → α) (s : SortedSet β) : SortedSet α :=
  ofList (s.toList.map f)

@[simp] theorem mem_image {β : Type} [Ord β] {f : β → α} {s : SortedSet β} {a : α} :
    a ∈ image f s ↔ ∃ b ∈ s, f b = a := by
  simp [image]

end SortedSet

end BorrowFlow
