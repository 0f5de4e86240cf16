import BorrowFlow.Reach
import Mathlib.Data.List.Perm.Subperm
import Mathlib.Logic.Relation

/-! # Closures are reachability

    `closure next n s` follows the frontier for at most `n` rounds.  Every round
    that goes on finds a node that was not seen before, so `n` rounds are enough
    as soon as `n` is the number of nodes of a set that the graph never leaves.

    * **Soundness**: only nodes with a path from `s` are found.
    * **Saturation**: what is next to a found node is found.
    * `mem_closure_iff`: both together.
-/

namespace BorrowFlow

open Std (TransOrd LawfulEqOrd)
open Relation (ReflTransGen)

variable {α : Type} [Ord α]

/-! ## Sizes of sets -/

namespace SortedSet

theorem exists_mem_of_isEmpty_eq_false {s : SortedSet α} (h : s.isEmpty = false) :
    ∃ a, a ∈ s := by
  cases hl : s.toList with
  | nil => simp [isEmpty, hl] at h
  | cons a as => exact ⟨a, by rw [← mem_toList, hl]; exact List.mem_cons_self⟩

theorem not_mem_of_isEmpty {s : SortedSet α} (h : s.isEmpty = true) (a : α) : ¬ a ∈ s := by
  rw [isEmpty, List.isEmpty_iff] at h
  rw [← mem_toList, h]
  exact List.not_mem_nil

variable [TransOrd α]

theorem nodup_toList (s : SortedSet α) : s.toList.Nodup := by
  refine s.sorted.imp ?_
  intro a b hab heq
  subst heq
  simp [Before, Std.ReflCmp.compare_self] at hab

/-- A set inside another that is no larger is all of it. -/
theorem subset_of_size_le {s t : SortedSet α} (h : ∀ a ∈ s, a ∈ t) (hsize : t.size ≤ s.size) :
    ∀ a ∈ t, a ∈ s := by
  have hperm : s.toList.Subperm t.toList := List.subperm_of_subset s.nodup_toList h
  have heq : s.toList.Perm t.toList := hperm.perm_of_length_le hsize
  intro a ha
  exact heq.mem_iff.mpr ha

theorem size_lt_size_union [LawfulEqOrd α] {s t : SortedSet α} {a : α}
    (hs : ¬ a ∈ s) (ht : a ∈ t) : s.size < (s.union t).size := by
  have hnodup : (a :: s.toList).Nodup := List.nodup_cons.mpr ⟨hs, s.nodup_toList⟩
  have hsubset : a :: s.toList ⊆ (s.union t).toList := by
    intro x hx
    rw [mem_toList, mem_union]
    rcases List.mem_cons.mp hx with rfl | hx
    · exact Or.inr ht
    · exact Or.inl hx
  exact hnodup.length_le_of_subset hsubset

end SortedSet

/-! ## Following the frontier -/

section Closure

variable [TransOrd α] [LawfulEqOrd α] [DecidableEq α] {next : α → List α}

theorem mem_freshFrom {seen frontier : SortedSet α} {b : α} :
    b ∈ freshFrom next seen frontier ↔ (∃ a ∈ frontier, b ∈ next a) ∧ ¬ b ∈ seen := by
  simp [freshFrom]

/-- **Soundness**: a node that is found has a path from a node that was seen at
    the start. -/
theorem exists_path_of_mem_closureFrom {n : Nat} {seen frontier : SortedSet α} {x : α}
    (hfrontier : ∀ a ∈ frontier, a ∈ seen) (hx : x ∈ closureFrom next n seen frontier) :
    ∃ a ∈ seen, ReflTransGen (fun a b => b ∈ next a) a x := by
  induction n generalizing seen frontier with
  | zero => exact ⟨x, hx, .refl⟩
  | succ n ih =>
    simp only [closureFrom] at hx
    split at hx
    · exact ⟨x, hx, .refl⟩
    · obtain ⟨a, ha, hpath⟩ := ih (fun a ha => SortedSet.mem_union.mpr (Or.inr ha)) hx
      rcases SortedSet.mem_union.mp ha with ha | ha
      · exact ⟨a, ha, hpath⟩
      · -- a fresh node is one step from the frontier
        obtain ⟨⟨c, hc, hca⟩, _⟩ := mem_freshFrom.mp ha
        exact ⟨c, hfrontier c hc, .head hca hpath⟩

/-- Nothing that was seen is lost. -/
theorem mem_closureFrom_of_mem {n : Nat} {seen frontier : SortedSet α} {x : α}
    (hx : x ∈ seen) : x ∈ closureFrom next n seen frontier := by
  induction n generalizing seen frontier with
  | zero => exact hx
  | succ n ih =>
    simp only [closureFrom]
    split
    · exact hx
    · exact ih (SortedSet.mem_union.mpr (Or.inl hx))

/-- **Saturation**: what is next to a found node is found.  The invariant is that
    a seen node which is not on the frontier has been followed already, and that
    the unseen nodes of `u` are no more than the rounds left. -/
theorem closed_closureFrom {u : SortedSet α} (hu : ∀ a ∈ u, ∀ b ∈ next a, b ∈ u) {n : Nat}
    {seen frontier : SortedSet α} (hseen : ∀ a ∈ seen, a ∈ u)
    (hfollowed : ∀ a ∈ seen, ¬ a ∈ frontier → ∀ b ∈ next a, b ∈ seen)
    (hfrontier : ∀ a ∈ frontier, a ∈ seen) (hn : u.size ≤ seen.size + n) {a b : α}
    (ha : a ∈ closureFrom next n seen frontier) (hb : b ∈ next a) :
    b ∈ closureFrom next n seen frontier := by
  induction n generalizing seen frontier with
  | zero =>
    -- no node is left outside
    exact SortedSet.subset_of_size_le hseen hn b (hu a (hseen a ha) b hb)
  | succ n ih =>
    simp only [closureFrom] at ha ⊢
    split at ha
    · next hempty =>
      rw [if_pos hempty]
      by_cases haf : a ∈ frontier
      · by_cases hbs : b ∈ seen
        · exact hbs
        · have hfresh : b ∈ freshFrom next seen frontier := mem_freshFrom.mpr ⟨⟨a, haf, hb⟩, hbs⟩
          exact absurd hfresh (SortedSet.not_mem_of_isEmpty hempty b)
      · exact hfollowed a ha haf b hb
    · next hempty =>
      rw [if_neg hempty]
      obtain ⟨c, hc⟩ := SortedSet.exists_mem_of_isEmpty_eq_false (by simpa using hempty)
      have hgrow := SortedSet.size_lt_size_union (mem_freshFrom.mp hc).2 hc
      refine ih ?_ ?_ ?_ (by omega) ha
      · intro x hx
        rcases SortedSet.mem_union.mp hx with hx | hx
        · exact hseen x hx
        · obtain ⟨⟨y, hy, hyx⟩, _⟩ := mem_freshFrom.mp hx
          exact hu y (hseen y (hfrontier y hy)) x hyx
      · intro x hx hxf y hy
        rw [SortedSet.mem_union] at hx ⊢
        have hxs : x ∈ seen := hx.resolve_right hxf
        by_cases hys : y ∈ seen
        · exact Or.inl hys
        · by_cases hxo : x ∈ frontier
          · exact Or.inr (mem_freshFrom.mpr ⟨⟨x, hxo, hy⟩, hys⟩)
          · exact Or.inl (hfollowed x hxs hxo y hy)
      · intro x hx
        exact SortedSet.mem_union.mpr (Or.inr hx)

/-- **A closure holds exactly what can be reached**, as soon as it may take as many
    rounds as there are nodes in a set that contains the start and that the graph
    never leaves. -/
theorem mem_closure_iff {u s : SortedSet α} (hu : ∀ a ∈ u, ∀ b ∈ next a, b ∈ u)
    (hs : ∀ a ∈ s, a ∈ u) {n : Nat} (hn : u.size ≤ n) {x : α} :
    x ∈ closure next n s ↔ ∃ a ∈ s, ReflTransGen (fun a b => b ∈ next a) a x := by
  constructor
  · exact exists_path_of_mem_closureFrom (fun a ha => ha)
  · rintro ⟨a, ha, hpath⟩
    induction hpath with
    | refl => exact mem_closureFrom_of_mem ha
    | tail _ hstep ih =>
      exact closed_closureFrom hu hs (fun y hy hny => absurd hy hny) (fun y hy => hy)
        (by omega) ih hstep

end Closure

end BorrowFlow
