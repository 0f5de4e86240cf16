import BorrowFlow.Dataflow.Sweep
import BorrowFlow.Proofs.Arena
import Mathlib.Data.List.Nodup
import Mathlib.Logic.Function.Iterate

/-! # Sweeps and runs

    What one sweep does to a table, and what a run of the solver ends with.

    * **One sweep**: `Problem.look_sweep` gives the value at a point after a sweep
      from the values around it, old or new according to the order of the visits.
    * **A run that ends well** ends when its table has settled, and returns the tables on
      the way (`Problem.solve_eq_ok`).
    * **A run that may take the sweeps it needs** ends well
      (`Problem.exists_solve_ok`).
-/

namespace BorrowFlow

variable {ρ σ : Type}

namespace Budget

/-- While the deadline has not passed, a sweep that changes nothing is free. -/
theorem tick_unchanged {b : Budget} (h : b.expired = false) : b.tick false = (.ok (), b) := by
  simp [tick, checkDeadline, h]

/-- A changing sweep within the limit is counted. -/
theorem tick_changed {b : Budget} (h : b.expired = false) (hlimit : (b.sweeps + 1 : Int) ≤ b.limit) :
    b.tick true = (.ok (), { b with sweeps := b.sweeps + 1 }) := by
  have hwithin : ¬ b.limit < ((b.sweeps + 1 : Nat) : Int) := by omega
  simp only [tick, checkDeadline, h, Bool.false_eq_true, if_false, if_true, if_neg hwithin]

/-- A sweep is counted if it changed something. -/
theorem sweeps_of_tick {b b' : Budget} {changed : Bool} (h : b.tick changed = (.ok (), b')) :
    b'.sweeps = b.sweeps + changed.toNat := by
  rw [tick] at h
  split at h
  · cases h
  · cases changed with
    | false =>
      cases h
      rfl
    | true =>
      -- beyond the limit there is no `ok`
      simp only [if_true] at h
      split at h
      · cases h
      · cases h
        rfl

end Budget

namespace Problem

/-! ## One sweep -/

/-- The value that a table has at a point. -/
def look (P : Problem ρ σ) (a : Arena σ) (p : Point) : σ := a.read P.bottom p

/-- The points in the order of the visits. -/
def order (P : Problem ρ σ) : List Point := P.visits.map Visit.point

/-- How many visits come before that of a point. -/
def rank (P : Problem ρ σ) (p : Point) : Nat := P.order.idxOf p

/-- A sweep visits each of `ps` once, and nothing else. -/
structure VisitsEach (P : Problem ρ σ) (ps : List Point) : Prop where
  distinct : ps.Nodup
  once : P.order.Perm ps

namespace VisitsEach

variable {P : Problem ρ σ} {ps : List Point}

theorem mem_order (h : P.VisitsEach ps) {p : Point} : p ∈ P.order ↔ p ∈ ps := h.once.mem_iff

theorem order_nodup (h : P.VisitsEach ps) : P.order.Nodup := h.once.nodup_iff.mpr h.distinct

theorem point_mem (h : P.VisitsEach ps) {v : Visit ρ} (hv : v ∈ P.visits) : v.point ∈ ps :=
  h.mem_order.mp (List.mem_map_of_mem hv)

theorem exists_visit (h : P.VisitsEach ps) {p : Point} (hp : p ∈ ps) :
    ∃ v ∈ P.visits, v.point = p :=
  List.mem_map.mp (h.mem_order.mpr hp)

theorem visit_unique (h : P.VisitsEach ps) {v w : Visit ρ} (hv : v ∈ P.visits)
    (hw : w ∈ P.visits) (hpoint : v.point = w.point) : v = w :=
  List.inj_on_of_nodup_map h.order_nodup hv hw hpoint

theorem rank_injective (h : P.VisitsEach ps) {p q : Point} (hp : p ∈ ps)
    (hrank : P.rank p = P.rank q) : p = q :=
  (List.idxOf_inj (h.mem_order.mpr hp)).mp hrank

end VisitsEach

variable {P : Problem ρ σ} {ps : List Point} {a : Arena σ}

theorem covers_foldl (ha : a.Covers ps) (vs : List (Visit ρ)) : (vs.foldl P.renew a).Covers ps := by
  induction vs generalizing a with
  | nil => exact ha
  | cons v vs ih => exact ih (ha.write v.point _)

theorem covers_sweep (ha : a.Covers ps) : (P.sweep a).Covers ps := covers_foldl ha P.visits

theorem covers_iterate (ha : a.Covers ps) (k : Nat) : (P.sweep^[k] a).Covers ps := by
  induction k with
  | zero => exact ha
  | succ k ih =>
    rw [Function.iterate_succ_apply']
    exact covers_sweep ih

/-- Visits leave alone what they do not visit. -/
theorem look_foldl_of_not_mem (ha : a.Covers ps) {vs : List (Visit ρ)}
    (hvs : ∀ v ∈ vs, v.point ∈ ps) {q : Point} (hq : q ∉ vs.map Visit.point) :
    P.look (vs.foldl P.renew a) q = P.look a q := by
  induction vs generalizing a with
  | nil => rfl
  | cons v vs ih =>
    rw [List.map_cons, List.mem_cons, not_or] at hq
    have hrenewed : (P.renew a v).Covers ps := ha.write v.point _
    rw [List.foldl_cons, ih hrenewed (fun w hw => hvs w (List.mem_cons_of_mem v hw)) hq.2]
    rw [look, renew, ha.read_write (hvs v List.mem_cons_self), if_neg hq.1]
    rfl

/-- **The value after a sweep.**  A neighbour that is visited earlier counts with
    its new value, any other with its old one. -/
theorem look_sweep (h : P.VisitsEach ps) (ha : a.Covers ps) {v : Visit ρ} (hv : v ∈ P.visits) :
    P.look (P.sweep a) v.point = P.transfer v.rule (v.neighbours.map fun q =>
      if P.rank q < P.rank v.point then P.look (P.sweep a) q else P.look a q) := by
  obtain ⟨pre, post, hsplit⟩ := List.append_of_mem hv
  have hpoint : ∀ w ∈ P.visits, w.point ∈ ps := fun w hw => h.point_mem hw
  rw [hsplit] at hpoint
  have horder : P.order = pre.map Visit.point ++ v.point :: post.map Visit.point := by
    rw [order, hsplit, List.map_append, List.map_cons]
  have hnodup := h.order_nodup
  rw [horder, List.nodup_append, List.nodup_cons] at hnodup
  obtain ⟨_, ⟨hpost, _⟩, hdisjoint⟩ := hnodup
  have hpre : v.point ∉ pre.map Visit.point :=
    fun hmem => hdisjoint v.point hmem v.point List.mem_cons_self rfl
  have hrank : P.rank v.point = (pre.map Visit.point).length := by
    rw [rank, horder, List.idxOf_append, if_neg hpre, List.idxOf_cons_self, Nat.zero_add]
  -- `mid` is the table when the visit begins
  have hpreps : ∀ w ∈ pre, w.point ∈ ps := fun w hw => hpoint w (List.mem_append_left _ hw)
  have hpostps : ∀ w ∈ v :: post, w.point ∈ ps := fun w hw => hpoint w (List.mem_append_right _ hw)
  have hmid : (pre.foldl P.renew a).Covers ps := covers_foldl ha pre
  have hsweep : P.sweep a = post.foldl P.renew (P.renew (pre.foldl P.renew a) v) := by
    rw [sweep, hsplit, List.foldl_append, List.foldl_cons]
  have hvalues : ∀ q, P.look (pre.foldl P.renew a) q =
      if P.rank q < P.rank v.point then P.look (P.sweep a) q else P.look a q := by
    intro q
    by_cases hq : q ∈ pre.map Visit.point
    · have hlt : P.rank q < P.rank v.point := by
        rw [hrank, rank, horder, List.idxOf_append, if_pos hq]
        exact List.idxOf_lt_length_of_mem hq
      have hlater : q ∉ (v :: post).map Visit.point := by
        intro hmem
        exact hdisjoint q hq q hmem rfl
      have hfold : P.sweep a = (v :: post).foldl P.renew (pre.foldl P.renew a) := hsweep
      rw [if_pos hlt, hfold, look_foldl_of_not_mem hmid hpostps hlater]
    · have hge : ¬ P.rank q < P.rank v.point := by
        rw [hrank, rank, horder, List.idxOf_append, if_neg hq]
        omega
      rw [if_neg hge, look_foldl_of_not_mem ha hpreps hq]
  have hrenewed : (P.renew (pre.foldl P.renew a) v).Covers ps := hmid.write v.point _
  have hlast : P.look (P.sweep a) v.point = P.look (P.renew (pre.foldl P.renew a) v) v.point := by
    rw [hsweep, look_foldl_of_not_mem hrenewed
      (fun w hw => hpostps w (List.mem_cons_of_mem v hw)) hpost]
  rw [hlast, look, renew, hmid.read_write (hpostps v List.mem_cons_self), if_pos rfl]
  congr 1
  exact List.map_congr_left fun q _ => hvalues q

/-- In a stable table every value follows from those of its neighbours. -/
theorem look_of_stable (h : P.VisitsEach ps) (ha : a.Covers ps) (hstable : P.sweep a = a)
    {v : Visit ρ} (hv : v ∈ P.visits) :
    P.look a v.point = P.transfer v.rule (v.neighbours.map (P.look a)) := by
  have hsweep := look_sweep h ha hv
  rw [hstable] at hsweep
  simpa using hsweep

/-! ## Runs of the solver -/

/-- **A table settles** after `k` sweeps, and not before. -/
structure Settles (P : Problem ρ σ) (a : Arena σ) (k : Nat) : Prop where
  stable : P.sweep (P.sweep^[k] a) = P.sweep^[k] a
  unstable : ∀ j < k, P.sweep (P.sweep^[j] a) ≠ P.sweep^[j] a

/-- A stable table has settled. -/
theorem settles_zero (h : P.sweep a = a) : P.Settles a 0 where
  stable := h
  unstable := fun _ hj => absurd hj (Nat.not_lt_zero _)

/-- One sweep more is to come before the first. -/
theorem Settles.before {k : Nat} (h : P.Settles (P.sweep a) k) (hchanged : P.sweep a ≠ a) :
    P.Settles a (k + 1) where
  stable := h.stable
  unstable := by
    intro j hj
    cases j with
    | zero => exact hchanged
    | succ j => exact h.unstable j (by omega)

/-- One sweep less is left after the first. -/
theorem Settles.tail {k : Nat} (h : P.Settles a (k + 1)) : P.Settles (P.sweep a) k where
  stable := h.stable
  unstable := fun j hj => h.unstable (j + 1) (by omega)

/-- The tables after some sweeps, with the one that they start from in front. -/
theorem cons_map_iterate (P : Problem ρ σ) (a : Arena σ) (k : Nat) :
    a :: (List.range k).map (fun j => P.sweep^[j + 1] a) =
      (List.range (k + 1)).map fun j => P.sweep^[j] a := by
  rw [List.range_succ_eq_map, List.map_cons, List.map_map]
  rfl

section Run

variable [DecidableEq σ]

/-- **A run that ends well**, with all it returns: it ends when the table has settled.  The
    induction is on the rounds, with the tables so far in front. -/
theorem solveFor_eq_ok {rounds : Nat} {budget : Budget} {trace : List (Arena σ)} {s : Solution σ}
    (h : P.solveFor rounds budget trace a = .ok s) :
    ∃ k, P.Settles a k ∧ s = ⟨P.sweep^[k] a, budget.sweeps + k,
      trace ++ (List.range (k + 1)).map fun j => P.sweep^[j + 1] a⟩ := by
  induction rounds generalizing budget trace a with
  | zero => cases h
  | succ rounds ih =>
    rw [solveFor] at h
    by_cases hchanged : P.sweep a = a
    · simp only [hchanged, ne_eq, not_true_eq_false, decide_false, Bool.false_eq_true,
        if_false] at h
      split at h
      · cases h
      · next htick =>
        cases h
        refine ⟨0, settles_zero hchanged, ?_⟩
        simp [Budget.sweeps_of_tick htick, hchanged]
    · simp only [ne_eq, hchanged, not_false_eq_true, decide_true, if_true] at h
      split at h
      · cases h
      · next htick =>
        obtain ⟨k, hsettles, rfl⟩ := ih h
        refine ⟨k + 1, hsettles.before hchanged, ?_⟩
        rw [Budget.sweeps_of_tick htick, List.append_assoc, List.singleton_append,
          cons_map_iterate P (P.sweep a), Bool.toNat_true, Nat.add_assoc, Nat.add_comm 1]
        rfl

theorem solve_eq_ok {budget : Budget} {s : Solution σ} (h : P.solve budget a = .ok s) :
    ∃ k, P.Settles a k ∧ s = ⟨P.sweep^[k] a, budget.sweeps + k,
      (List.range (k + 1)).map fun j => P.sweep^[j + 1] a⟩ := solveFor_eq_ok h

theorem solve_ok {budget : Budget} {s : Solution σ} (h : P.solve budget a = .ok s) :
    P.sweep s.table = s.table ∧ ∃ k, s.table = P.sweep^[k] a := by
  obtain ⟨k, hsettles, rfl⟩ := solve_eq_ok h
  exact ⟨hsettles.stable, k, rfl⟩

/-- A run that may take as many sweeps as it needs ends well. -/
theorem exists_solveFor_ok {k rounds : Nat} {budget : Budget} {trace : List (Arena σ)}
    (hexpired : budget.expired = false) (hlimit : (budget.sweeps + k : Int) ≤ budget.limit)
    (hrounds : k < rounds) (hstable : P.sweep (P.sweep^[k] a) = P.sweep^[k] a) :
    ∃ s, P.solveFor rounds budget trace a = .ok s := by
  induction rounds generalizing k budget trace a with
  | zero => omega
  | succ rounds ih =>
    rw [solveFor]
    by_cases hchanged : P.sweep a = a
    · simp [hchanged, Budget.tick_unchanged hexpired]
    · cases k with
      | zero => exact absurd hstable hchanged
      | succ k =>
        simp only [ne_eq, hchanged, not_false_eq_true, decide_true,
          Budget.tick_changed hexpired (by omega), if_true]
        refine ih (k := k) hexpired ?_ (by omega) hstable
        show ((budget.sweeps + 1 : Nat) + (k : Int)) ≤ budget.limit
        omega

theorem exists_solve_ok {k : Nat} {budget : Budget} (hexpired : budget.expired = false)
    (hsweeps : budget.sweeps = 0) (hlimit : (k : Int) ≤ budget.limit)
    (hstable : P.sweep (P.sweep^[k] a) = P.sweep^[k] a) : ∃ s, P.solve budget a = .ok s :=
  exists_solveFor_ok hexpired (by omega) (by omega) hstable

end Run

end Problem

end BorrowFlow
