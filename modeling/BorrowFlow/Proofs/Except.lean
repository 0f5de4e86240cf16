import Mathlib.Data.List.Forall2

/-! # Computations that may fail

    When a computation in `Except` succeeds: one lemma for each way of putting
    computations together, so that proofs about checks and builds never open a
    `do` block by hand.
-/

namespace BorrowFlow

variable {ε ε' α β : Type}

/-- Two computations in a row succeed if both do. -/
theorem bind_eq_ok {x : Except ε α} {f : α → Except ε β} {b : β} :
    (x >>= f) = .ok b ↔ ∃ a, x = .ok a ∧ f a = .ok b := by
  cases x with
  | error e => simp [bind, Except.bind]
  | ok a => simp [bind, Except.bind]

theorem pure_eq_ok {a b : α} : (pure a : Except ε α) = .ok b ↔ a = b := by
  simp [pure, Except.pure]

theorem map_eq_ok {x : Except ε α} {f : α → β} {b : β} :
    x.map f = .ok b ↔ ∃ a, x = .ok a ∧ f a = b := by
  cases x <;> simp [Except.map]

theorem map_eq_error {x : Except ε α} {f : α → β} {e : ε} : x.map f = .error e ↔ x = .error e := by
  cases x <;> simp [Except.map]

theorem mapError_eq_ok {x : Except ε α} {wrap : ε → ε'} {a : α} :
    x.mapError wrap = .ok a ↔ x = .ok a := by
  cases x with
  | error e =>
    show Except.error (wrap e) = .ok a ↔ Except.error e = .ok a
    simp
  | ok a' =>
    show (Except.ok a' : Except ε' α) = .ok a ↔ (Except.ok a' : Except ε α) = .ok a
    simp

theorem toOption_eq_some {x : Except ε α} {a : α} : x.toOption = some a ↔ x = .ok a := by
  cases x <;> simp [Except.toOption]

/-- A computation for each item of a list succeeds if all of them do. -/
theorem forM_eq_ok {f : α → Except ε Unit} {l : List α} {u : Unit} :
    l.forM f = .ok u ↔ ∀ x ∈ l, f x = .ok () := by
  induction l with
  | nil => simp [List.forM, pure, Except.pure]
  | cons x xs ih =>
    have hstep : (x :: xs).forM f = (f x >>= fun _ => xs.forM f) := rfl
    rw [hstep, bind_eq_ok, List.forall_mem_cons]
    constructor
    · rintro ⟨_, hx, hxs⟩
      exact ⟨hx, ih.mp hxs⟩
    · rintro ⟨hx, hxs⟩
      exact ⟨(), hx, ih.mpr hxs⟩

/-- If each item of a list has an answer, so has the list. -/
theorem exists_mapM_ok {f : α → Except ε β} {P : α → β → Prop} {l : List α}
    (h : ∀ x ∈ l, ∃ y, f x = .ok y ∧ P x y) :
    ∃ ys, l.mapM f = .ok ys ∧ List.Forall₂ P l ys := by
  induction l with
  | nil => exact ⟨[], rfl, .nil⟩
  | cons x xs ih =>
    rw [List.forall_mem_cons] at h
    obtain ⟨y, hy, hxy⟩ := h.1
    obtain ⟨ys, hys, hall⟩ := ih h.2
    refine ⟨y :: ys, ?_, .cons hxy hall⟩
    rw [List.mapM_cons]
    exact bind_eq_ok.mpr ⟨y, hy, bind_eq_ok.mpr ⟨ys, hys, rfl⟩⟩

/-- If the answers for the items of a list are known, so is that for the list. -/
theorem mapM_eq_ok_map {f : α → Except ε β} {answer : α → β} {l : List α}
    (h : ∀ x ∈ l, f x = .ok (answer x)) : l.mapM f = .ok (l.map answer) := by
  induction l with
  | nil => rfl
  | cons x xs ih =>
    rw [List.forall_mem_cons] at h
    rw [List.mapM_cons, h.1, ih h.2]
    rfl

/-- If an answer for each item of a list fails, one of the items is to blame. -/
theorem exists_of_mapM_error {f : α → Except ε β} {l : List α} {e : ε}
    (h : l.mapM f = .error e) : ∃ x ∈ l, f x = .error e := by
  induction l with
  | nil => cases h
  | cons x xs ih =>
    rw [List.mapM_cons] at h
    cases hx : f x with
    | error e' =>
      rw [hx] at h
      cases h
      exact ⟨x, List.mem_cons_self, hx⟩
    | ok y =>
      cases hxs : xs.mapM f with
      | error e' =>
        rw [hx, hxs] at h
        cases h
        obtain ⟨z, hz, hfz⟩ := ih hxs
        exact ⟨z, List.mem_cons_of_mem _ hz, hfz⟩
      | ok ys =>
        rw [hx, hxs] at h
        cases h

/-- **A run over a list.**  `I done b` says what the result `b` is after the items
    `done`; if each item can be added to it, the whole run succeeds. -/
theorem exists_foldlM_ok {f : β → α → Except ε β} {l : List α} {b : β} (I : List α → β → Prop)
    (hstart : I [] b) (hstep : ∀ done x rest, l = done ++ x :: rest → ∀ b, I done b →
      ∃ b', f b x = .ok b' ∧ I (done ++ [x]) b') :
    ∃ b', l.foldlM f b = .ok b' ∧ I l b' := by
  suffices hrun : ∀ done rest b, l = done ++ rest → I done b →
      ∃ b', rest.foldlM f b = .ok b' ∧ I l b' from hrun [] l b rfl hstart
  intro done rest
  induction rest generalizing done with
  | nil =>
    intro b hl hdone
    rw [List.append_nil] at hl
    exact ⟨b, rfl, hl ▸ hdone⟩
  | cons x rest ih =>
    intro b hl hdone
    obtain ⟨b', hx, hb'⟩ := hstep done x rest hl b hdone
    obtain ⟨b'', hrest, hb''⟩ := ih (done ++ [x]) b' (by rw [hl, List.append_assoc]; rfl) hb'
    refine ⟨b'', ?_, hb''⟩
    rw [List.foldlM_cons]
    exact bind_eq_ok.mpr ⟨b', hx, hrest⟩

end BorrowFlow
