import Mathlib.Data.List.Forall2
import Mathlib.Data.List.Induction
import Mathlib.Data.List.Nodup

/-! # Lists

    `List.eraseDups` keeps the first of equal elements.  So what it leaves is in the order of
    first occurrence (`pairwise_eraseDups`), also where a list is put together from others
    (`pairwise_eraseDups_flatMap`).

    `List.Forall₂` goes through two lists side by side.
-/

namespace BorrowFlow

/-! ## Side by side -/

section Pointwise

variable {α β γ : Type}

/-- Of two lists that are related entry by entry, each entry of one has its partner in the
    other. -/
theorem exists_mem_of_forall₂ {R : α → β → Prop} {l : List α} {m : List β}
    (h : List.Forall₂ R l m) {x : α} (hx : x ∈ l) : ∃ y ∈ m, R x y := by
  induction h with
  | nil => cases hx
  | cons hxy _ ih =>
    rcases List.mem_cons.mp hx with rfl | hx
    · exact ⟨_, List.mem_cons_self, hxy⟩
    · obtain ⟨y, hy, hxy⟩ := ih hx
      exact ⟨y, List.mem_cons_of_mem _ hy, hxy⟩

/-- Lists with the same image go side by side. -/
theorem forall₂_iff_map_eq {f : α → γ} {g : β → γ} {l : List α} {m : List β} :
    List.Forall₂ (fun a b => g b = f a) l m ↔ m.map g = l.map f := by
  have himage : m.map g = l.map f ↔ List.Forall₂ Eq (m.map g) (l.map f) := by
    rw [List.forall₂_eq_eq_eq]
  rw [himage, List.forall₂_map_left_iff, List.forall₂_map_right_iff]
  exact ⟨List.Forall₂.flip, List.Forall₂.flip⟩

end Pointwise

/-! ## Without repeats -/

theorem nodup_eraseDups {α : Type} [BEq α] [LawfulBEq α] (l : List α) : l.eraseDups.Nodup := by
  cases l with
  | nil => exact List.nodup_nil
  | cons a as =>
    rw [List.eraseDups_cons, List.nodup_cons]
    exact ⟨by simp [List.mem_eraseDups], nodup_eraseDups _⟩
termination_by l.length
decreasing_by exact Nat.lt_succ_of_le (List.length_filter_le _ _)

theorem eraseDups_eq_self {β : Type} [BEq β] [LawfulBEq β] {l : List β} (h : l.Nodup) :
    l.eraseDups = l := by
  induction l with
  | nil => rfl
  | cons a as ih =>
    rw [List.nodup_cons] at h
    have hfilter : as.filter (fun b => !b == a) = as := by
      rw [List.filter_eq_self]
      intro b hb
      have hne : b ≠ a := fun hba => h.1 (hba ▸ hb)
      simpa using hne
    rw [List.eraseDups_cons, hfilter, ih h.2]

section Repeats

variable {α β : Type}

theorem eraseDups_concat [BEq α] [LawfulBEq α] (l : List α) (a : α) :
    (l ++ [a]).eraseDups = if a ∈ l then l.eraseDups else l.eraseDups ++ [a] := by
  rw [List.eraseDups_append]
  by_cases ha : a ∈ l <;> simp [List.removeAll, List.eraseDups_cons, ha]

/-- What is given twice may be left out before a map as well as after it. -/
theorem eraseDups_map_eraseDups [BEq α] [LawfulBEq α] [BEq β] [LawfulBEq β] (g : α → β)
    (l : List α) :
    (l.eraseDups.map g).eraseDups = (l.map g).eraseDups := by
  induction l using List.reverseRecOn with
  | nil => rfl
  | append_singleton l a ih =>
    rw [eraseDups_concat, List.map_append, List.map_singleton, eraseDups_concat]
    by_cases ha : a ∈ l
    · rw [if_pos ha, ih, if_pos (List.mem_map_of_mem ha)]
    · rw [if_neg ha, List.map_append, List.map_singleton, eraseDups_concat, ih]
      have hmem : g a ∈ l.eraseDups.map g ↔ g a ∈ l.map g := by
        simp only [List.mem_map, List.mem_eraseDups]
      by_cases hga : g a ∈ l.map g
      · rw [if_pos hga, if_pos (hmem.mpr hga)]
      · rw [if_neg hga, if_neg (mt hmem.mp hga)]

theorem eraseDups_eraseDups [BEq α] [LawfulBEq α] (l : List α) :
    l.eraseDups.eraseDups = l.eraseDups := by
  simpa using eraseDups_map_eraseDups (fun a => a) l

/-- A map that can be undone keeps apart what differs. -/
theorem map_eraseDups_map [BEq α] [LawfulBEq α] [BEq β] [LawfulBEq β] {g : α → β}
    {undo : β → α} {l : List α} (h : ∀ a ∈ l, undo (g a) = a) :
    (l.map g).eraseDups.map undo = l.eraseDups := by
  induction l using List.reverseRecOn with
  | nil => rfl
  | append_singleton l a ih =>
    have hl : ∀ a ∈ l, undo (g a) = a := fun a ha => h a (List.mem_append_left _ ha)
    have hundo : undo (g a) = a := h a (by simp)
    -- the map is injective on the list, so it repeats only what was repeated
    have hmem : g a ∈ l.map g ↔ a ∈ l := by
      constructor
      · intro hga
        obtain ⟨a', ha', heq⟩ := List.mem_map.mp hga
        rw [← hundo, ← heq, hl a' ha']
        exact ha'
      · exact List.mem_map_of_mem
    rw [List.map_append, List.map_singleton, eraseDups_concat, eraseDups_concat]
    by_cases ha : a ∈ l
    · rw [if_pos ha, if_pos (hmem.mpr ha), ih hl]
    · rw [if_neg ha, if_neg (mt hmem.mp ha), List.map_append, List.map_singleton, ih hl, hundo]

/-- What each round settles is settled in the end. -/
theorem settled_foldl {step : β → α → β} {Settled : β → α → Prop}
    (hsettles : ∀ b a, Settled (step b a) a)
    (hkeeps : ∀ b a a', Settled b a → Settled (step b a') a) (b : β) (l : List α) :
    ∀ a ∈ l, Settled (l.foldl step b) a := by
  induction l using List.reverseRecOn with
  | nil => simp
  | append_singleton l a' ih =>
    intro a ha
    rw [List.foldl_concat]
    rcases List.mem_append.mp ha with ha | ha
    · exact hkeeps _ _ _ (ih a ha)
    · rw [List.mem_singleton.mp ha]
      exact hsettles _ _

/-- **A round that has been made before** may be left out if it changes nothing then. -/
theorem foldl_eraseDups [BEq α] [LawfulBEq α] {step : β → α → β} {Settled : β → α → Prop}
    (hsettles : ∀ b a, Settled (step b a) a)
    (hkeeps : ∀ b a a', Settled b a → Settled (step b a') a)
    (hagain : ∀ b a, Settled b a → step b a = b) (b : β) (l : List α) :
    l.eraseDups.foldl step b = l.foldl step b := by
  induction l using List.reverseRecOn with
  | nil => rfl
  | append_singleton l a ih =>
    rw [eraseDups_concat, List.foldl_concat]
    by_cases ha : a ∈ l
    · rw [if_pos ha, ih, hagain _ _ (settled_foldl hsettles hkeeps b l a ha)]
    · rw [if_neg ha, List.foldl_concat, ih]

end Repeats

/-! ## The order of first occurrence -/

/-- In a list without repeats, what comes first has the smaller index. -/
theorem pairwise_idxOf {α : Type} [BEq α] [LawfulBEq α] {l : List α} (h : l.Nodup) :
    l.Pairwise fun x y => l.idxOf x < l.idxOf y := by
  rw [List.pairwise_iff_getElem]
  intro i j hi hj hij
  rw [h.idxOf_getElem i hi, h.idxOf_getElem j hj]
  exact hij

/-- **First come, first listed.**  If the lists of all elements are strictly ordered, then
    without repeats their concatenation is ordered by the first element that yields an entry,
    and then as in its list. -/
theorem pairwise_eraseDups_flatMap {α β : Type} [DecidableEq β] {r : β → β → Prop} [Std.Irrefl r]
    {g : α → List β} {l : List α} (hg : ∀ a ∈ l, (g a).Pairwise r) :
    (l.flatMap g).eraseDups.Pairwise fun x y =>
      l.findIdx (x ∈ g ·) < l.findIdx (y ∈ g ·) ∨
        l.findIdx (x ∈ g ·) = l.findIdx (y ∈ g ·) ∧ r x y := by
  -- the last element adds what none before it has yielded, so the induction is from the right
  induction l using List.reverseRecOn with
  | nil => exact List.Pairwise.nil
  | append_singleton l a ih =>
    have hbefore : ∀ x ∈ (l.flatMap g).eraseDups,
        (l ++ [a]).findIdx (x ∈ g ·) = l.findIdx (x ∈ g ·) ∧ l.findIdx (x ∈ g ·) < l.length := by
      intro x hx
      have hlt : l.findIdx (x ∈ g ·) < l.length := by
        rw [List.findIdx_lt_length]
        simpa [List.mem_eraseDups] using hx
      exact ⟨by rw [List.findIdx_append, if_pos hlt], hlt⟩
    have hadded : ∀ x ∈ (g a).removeAll (l.flatMap g), (l ++ [a]).findIdx (x ∈ g ·) = l.length := by
      intro x hx
      have hmem : x ∈ g a ∧ ∀ a' ∈ l, x ∉ g a' := by simpa [List.removeAll] using hx
      have hlast : l.findIdx (x ∈ g ·) = l.length := by
        rw [List.findIdx_eq_length]
        exact fun a' ha' => decide_eq_false (hmem.2 a' ha')
      rw [List.findIdx_append, hlast, if_neg (Nat.lt_irrefl _)]
      simp [List.findIdx_cons, hmem.1]
    have hordered : ((g a).removeAll (l.flatMap g)).Pairwise r :=
      (hg a (by simp)).sublist List.filter_sublist
    rw [List.flatMap_append, List.flatMap_singleton, List.eraseDups_append,
      eraseDups_eq_self hordered.nodup, List.pairwise_append]
    refine ⟨?_, ?_, ?_⟩
    · refine (ih fun a' ha' => hg a' (List.mem_append_left _ ha')).imp_of_mem ?_
      intro x y hx hy hxy
      rwa [(hbefore x hx).1, (hbefore y hy).1]
    · refine hordered.imp_of_mem ?_
      intro x y hx hy hxy
      exact Or.inr ⟨(hadded x hx).trans (hadded y hy).symm, hxy⟩
    · intro x hx y hy
      left
      rw [(hbefore x hx).1, hadded y hy]
      exact (hbefore x hx).2

/-- **Elements are kept in the order of their first occurrence.** -/
theorem pairwise_eraseDups {α : Type} [DecidableEq α] (l : List α) :
    l.eraseDups.Pairwise fun x y => l.idxOf x < l.idxOf y := by
  have : Std.Irrefl fun _ _ : α => False := ⟨fun _ => id⟩
  have hfirst : ∀ x, l.findIdx (x ∈ [·]) = l.idxOf x := by
    intro x
    rw [List.idxOf]
    congr 1
    funext a
    simp [beq_eq_decide, eq_comm]
  have hordered := pairwise_eraseDups_flatMap (l := l) (g := fun a => [a])
    (r := fun _ _ => False) fun a _ => List.pairwise_singleton _ a
  rw [List.flatMap_singleton'] at hordered
  refine hordered.imp ?_
  intro x y hxy
  rw [hfirst, hfirst] at hxy
  exact hxy.resolve_right And.right

end BorrowFlow
