import BorrowFlow.Proofs.Sweep

/-! # Facts and their trails

    What a solver finds is said fact by fact.  A *fact* is a property of values,
    such as "`x` is live" or "`l` leaves the point".  It arises at some points
    and passes on from the neighbours of others; a transfer function does nothing
    else to it.

    * **What holds**: in a stable table that was reached from nothing, a fact holds
      at a point if and only if a *trail* leads from the point, over points that
      the fact passes, to one where it arises (`Fact.holds_iff_trail`).
    * **How fast**: a fact travels along a trail in one sweep, and in one more for
      each step that goes against the order of the visits.  No trail needs a point
      twice, so there are no more sweeps to wait for than there are points
      (`Fact.holds_after_points`, `Fact.neighbour_holds_in_time`).
-/

namespace BorrowFlow

variable {ρ σ : Type}

namespace Problem

/-- A property of values that arises at some points and passes to others from
    their neighbours. -/
structure Fact (P : Problem ρ σ) where
  /-- The values with the property. -/
  holds : σ → Prop
  /-- The rules that create it. -/
  arises : ρ → Prop
  /-- The rules that let it through. -/
  passes : ρ → Prop
  not_bottom : ¬ holds P.bottom
  holds_transfer : ∀ rule values,
    holds (P.transfer rule values) ↔ arises rule ∨ passes rule ∧ ∃ v ∈ values, holds v

namespace Fact

variable {P : Problem ρ σ} {ps : List Point} {a : Arena σ}

/-- **A trail** of a fact from a point, with the points after it: each passes the
    fact on from the next, and the fact arises at the last. -/
inductive Trail (F : P.Fact) : Point → List Point → Prop where
  | here {v : Visit ρ} (hv : v ∈ P.visits) (harises : F.arises v.rule) : Trail F v.point []
  | step {v : Visit ρ} {q : Point} {rest : List Point} (hv : v ∈ P.visits)
      (hpasses : F.passes v.rule) (hq : q ∈ v.neighbours) (htrail : Trail F q rest) :
      Trail F v.point (q :: rest)

variable {F : P.Fact}

/-! ## One sweep -/

/-- A fact after a sweep comes from the point itself or from a neighbour, new or
    old. -/
theorem holds_sweep (h : P.VisitsEach ps) (ha : a.Covers ps) {v : Visit ρ} (hv : v ∈ P.visits) :
    F.holds (P.look (P.sweep a) v.point) ↔ F.arises v.rule ∨ F.passes v.rule ∧
      ∃ q ∈ v.neighbours,
        F.holds (if P.rank q < P.rank v.point then P.look (P.sweep a) q else P.look a q) := by
  rw [look_sweep h ha hv, F.holds_transfer]
  simp only [List.mem_map]
  constructor
  · rintro (harises | ⟨hpasses, _, ⟨q, hq, rfl⟩, hholds⟩)
    · exact Or.inl harises
    · exact Or.inr ⟨hpasses, q, hq, hholds⟩
  · rintro (harises | ⟨hpasses, q, hq, hholds⟩)
    · exact Or.inl harises
    · exact Or.inr ⟨hpasses, _, ⟨q, hq, rfl⟩, hholds⟩

/-- A fact is never at a point outside the table. -/
theorem mem_of_holds (ha : a.Covers ps) {p : Point} (hp : F.holds (P.look a p)) : p ∈ ps := by
  by_contra hmem
  rw [look, ha.read_of_not_mem hmem] at hp
  exact F.not_bottom hp

/-- **Step lemma for soundness**: a sweep brings in no fact without a trail.  The
    induction is on the rank, as a visit may read what the sweep has just written. -/
theorem trail_of_holds_sweep (h : P.VisitsEach ps) (ha : a.Covers ps)
    (hold : ∀ q, F.holds (P.look a q) → ∃ rest, F.Trail q rest) (p : Point)
    (hp : F.holds (P.look (P.sweep a) p)) : ∃ rest, F.Trail p rest := by
  induction hr : P.rank p using Nat.strongRecOn generalizing p with
  | ind r ih =>
    obtain ⟨v, hv, rfl⟩ := h.exists_visit (mem_of_holds (covers_sweep ha) hp)
    rcases (holds_sweep h ha hv).mp hp with harises | ⟨hpasses, q, hq, hholds⟩
    · exact ⟨[], .here hv harises⟩
    · split at hholds
      · next hlt =>
        obtain ⟨rest, htrail⟩ := ih (P.rank q) (hr ▸ hlt) q hholds rfl
        exact ⟨q :: rest, .step hv hpasses hq htrail⟩
      · obtain ⟨rest, htrail⟩ := hold q hholds
        exact ⟨q :: rest, .step hv hpasses hq htrail⟩

/-- **Step lemma for growth**: if a sweep loses nothing, neither does the next. -/
theorem holds_sweep_sweep (h : P.VisitsEach ps) (ha : a.Covers ps)
    (hgrow : ∀ q, F.holds (P.look a q) → F.holds (P.look (P.sweep a) q)) (p : Point)
    (hp : F.holds (P.look (P.sweep a) p)) : F.holds (P.look (P.sweep (P.sweep a)) p) := by
  induction hr : P.rank p using Nat.strongRecOn generalizing p with
  | ind r ih =>
    obtain ⟨v, hv, rfl⟩ := h.exists_visit (mem_of_holds (covers_sweep ha) hp)
    rw [holds_sweep h (covers_sweep ha) hv]
    rcases (holds_sweep h ha hv).mp hp with harises | ⟨hpasses, q, hq, hholds⟩
    · exact Or.inl harises
    · refine Or.inr ⟨hpasses, q, hq, ?_⟩
      split at hholds
      · next hlt =>
        rw [if_pos hlt]
        exact ih (P.rank q) (hr ▸ hlt) q hholds rfl
      · next hge =>
        rw [if_neg hge]
        exact hgrow q hholds

/-! ## Runs from nothing -/

/-- A table in which no fact holds yet. -/
def Absent (F : P.Fact) (a : Arena σ) : Prop := ∀ q, ¬ F.holds (P.look a q)

theorem absent_ofPoints (hps : ps.Nodup) : F.Absent (Arena.ofPoints ps P.bottom) := by
  intro q hq
  rw [look, Arena.read_ofPoints hps] at hq
  exact F.not_bottom hq

theorem trail_of_holds_iterate (h : P.VisitsEach ps) (ha : a.Covers ps) (hnone : F.Absent a)
    (k : Nat) (p : Point) (hp : F.holds (P.look (P.sweep^[k] a) p)) : ∃ rest, F.Trail p rest := by
  induction k generalizing p with
  | zero => exact absurd hp (hnone p)
  | succ k ih =>
    rw [Function.iterate_succ_apply'] at hp
    exact trail_of_holds_sweep h (covers_iterate ha k) ih p hp

theorem holds_iterate_succ (h : P.VisitsEach ps) (ha : a.Covers ps) (hnone : F.Absent a)
    (k : Nat) (p : Point) (hp : F.holds (P.look (P.sweep^[k] a) p)) :
    F.holds (P.look (P.sweep^[k + 1] a) p) := by
  induction k generalizing p with
  | zero => exact absurd hp (hnone p)
  | succ k ih =>
    rw [Function.iterate_succ_apply'] at hp ⊢
    rw [Function.iterate_succ_apply']
    refine holds_sweep_sweep h (covers_iterate ha k) (fun q hq => ?_) p hp
    rw [← Function.iterate_succ_apply' P.sweep]
    exact ih q hq

theorem holds_iterate_mono (h : P.VisitsEach ps) (ha : a.Covers ps) (hnone : F.Absent a)
    {j k : Nat} (hjk : j ≤ k) {p : Point} (hp : F.holds (P.look (P.sweep^[j] a) p)) :
    F.holds (P.look (P.sweep^[k] a) p) := by
  induction hjk with
  | refl => exact hp
  | step _ ih => exact holds_iterate_succ h ha hnone _ p ih

/-- A stable table holds a fact all along its trails. -/
theorem holds_of_trail (h : P.VisitsEach ps) (ha : a.Covers ps) (hstable : P.sweep a = a)
    {p : Point} {rest : List Point} (htrail : F.Trail p rest) : F.holds (P.look a p) := by
  induction htrail with
  | here hv harises =>
    rw [look_of_stable h ha hstable hv, F.holds_transfer]
    exact Or.inl harises
  | step hv hpasses hq _ ih =>
    rw [look_of_stable h ha hstable hv, F.holds_transfer]
    exact Or.inr ⟨hpasses, _, List.mem_map_of_mem hq, ih⟩

/-- **What holds in a solution** that was reached from nothing. -/
theorem holds_iff_trail (h : P.VisitsEach ps) (ha : a.Covers ps) (hnone : F.Absent a) {k : Nat}
    (hstable : P.sweep (P.sweep^[k] a) = P.sweep^[k] a) {p : Point} :
    F.holds (P.look (P.sweep^[k] a) p) ↔ ∃ rest, F.Trail p rest := by
  constructor
  · exact trail_of_holds_iterate h ha hnone k p
  · rintro ⟨rest, htrail⟩
    exact holds_of_trail h (covers_iterate ha k) hstable htrail

/-! ## Trails without repetition -/

theorem Trail.mem_points (h : P.VisitsEach ps) {p : Point} {rest : List Point}
    (htrail : F.Trail p rest) : ∀ x ∈ p :: rest, x ∈ ps := by
  induction htrail with
  | here hv _ =>
    intro x hx
    rw [List.mem_singleton] at hx
    exact hx ▸ h.point_mem hv
  | step hv _ _ _ ih =>
    intro x hx
    rcases List.mem_cons.mp hx with rfl | hx
    · exact h.point_mem hv
    · exact ih x hx

/-- From each of its points on, a trail is a trail. -/
theorem Trail.suffix {p x : Point} {rest : List Point} (htrail : F.Trail p rest)
    (hx : x ∈ p :: rest) : ∃ later, F.Trail x later ∧ (x :: later) <:+ (p :: rest) := by
  induction htrail with
  | here hv harises =>
    rw [List.mem_singleton] at hx
    subst hx
    exact ⟨[], .here hv harises, List.suffix_refl _⟩
  | step hv hpasses hq htrail ih =>
    rcases List.mem_cons.mp hx with rfl | hx
    · exact ⟨_, .step hv hpasses hq htrail, List.suffix_refl _⟩
    · obtain ⟨later, hlater, hsuffix⟩ := ih hx
      exact ⟨later, hlater, hsuffix.trans (List.suffix_cons _ _)⟩

/-- A trail that comes back to a point can be cut short. -/
theorem Trail.exists_nodup {p : Point} {rest : List Point} (htrail : F.Trail p rest) :
    ∃ rest', F.Trail p rest' ∧ (p :: rest').Nodup := by
  induction htrail with
  | here hv harises => exact ⟨[], .here hv harises, List.nodup_singleton _⟩
  | @step v q rest hv hpasses hq _ ih =>
    obtain ⟨rest', htrail', hnodup⟩ := ih
    by_cases hmem : v.point ∈ q :: rest'
    · obtain ⟨later, hlater, hsuffix⟩ := htrail'.suffix hmem
      exact ⟨later, hlater, hnodup.sublist hsuffix.sublist⟩
    · exact ⟨q :: rest', .step hv hpasses hq htrail', List.nodup_cons.mpr ⟨hmem, hnodup⟩⟩

/-! ## Speed -/

/-- How many steps of a trail go against the order of the visits, so that the
    fact has to wait for the next sweep. -/
def delays (P : Problem ρ σ) : List Point → Nat
  | [] => 0
  | [_] => 0
  | p :: q :: rest => (if P.rank q < P.rank p then 0 else 1) + delays P (q :: rest)

theorem delays_le (p : Point) (rest : List Point) : delays P (p :: rest) ≤ rest.length := by
  induction rest generalizing p with
  | nil => simp [delays]
  | cons q rest ih =>
    have hrest := ih q
    rw [delays, List.length_cons]
    split <;> omega

/-- If every step is delayed, the trail follows the order of the visits. -/
theorem rank_le_of_delays_eq {p last : Point} {rest : List Point}
    (h : delays P (p :: rest) = rest.length) (hlast : last ∈ p :: rest) :
    P.rank p ≤ P.rank last := by
  induction rest generalizing p with
  | nil =>
    rw [List.mem_singleton] at hlast
    subst hlast
    exact Nat.le_refl _
  | cons q rest ih =>
    have hbound := delays_le (P := P) q rest
    rw [delays, List.length_cons] at h
    split at h
    · omega
    · next hge =>
      rcases List.mem_cons.mp hlast with rfl | hlast
      · exact Nat.le_refl _
      · have hq := ih (by omega) hlast
        omega

/-- **A fact arrives** one sweep after its delays. -/
theorem holds_after_delays (h : P.VisitsEach ps) (ha : a.Covers ps) {p : Point}
    {rest : List Point} (htrail : F.Trail p rest) :
    F.holds (P.look (P.sweep^[delays P (p :: rest) + 1] a) p) := by
  induction htrail with
  | here hv harises =>
    rw [Function.iterate_succ_apply', holds_sweep h (covers_iterate ha _) hv]
    exact Or.inl harises
  | @step v q rest hv hpasses hq _ ih =>
    rw [Function.iterate_succ_apply', holds_sweep h (covers_iterate ha _) hv]
    refine Or.inr ⟨hpasses, q, hq, ?_⟩
    rw [← Function.iterate_succ_apply' P.sweep, delays]
    by_cases hlt : P.rank q < P.rank v.point
    · rw [if_pos hlt, if_pos hlt, Nat.zero_add]
      exact ih
    · rw [if_neg hlt, if_neg hlt, Nat.add_comm 1]
      exact ih

/-- **One sweep per point is enough** for every fact. -/
theorem holds_after_points (h : P.VisitsEach ps) (ha : a.Covers ps) (hnone : F.Absent a)
    {p : Point} {rest : List Point} (htrail : F.Trail p rest) :
    F.holds (P.look (P.sweep^[ps.length] a) p) := by
  obtain ⟨rest', htrail', hnodup⟩ := htrail.exists_nodup
  have hlength : (p :: rest').length ≤ ps.length :=
    hnodup.length_le_of_subset (htrail'.mem_points h)
  have hdelays := delays_le (P := P) p rest'
  rw [List.length_cons] at hlength
  exact holds_iterate_mono h ha hnone (by omega) (holds_after_delays h ha htrail')

/-- **From then on** a fact holds where it has a trail. -/
theorem holds_late_iff (h : P.VisitsEach ps) (ha : a.Covers ps) (hnone : F.Absent a) {k : Nat}
    (hk : ps.length ≤ k) {p : Point} :
    F.holds (P.look (P.sweep^[k] a) p) ↔ ∃ rest, F.Trail p rest := by
  constructor
  · exact trail_of_holds_iterate h ha hnone k p
  · rintro ⟨rest, htrail⟩
    exact holds_iterate_mono h ha hnone hk (holds_after_points h ha hnone htrail)

/-- After one sweep per point a further sweep changes nothing about a fact. -/
theorem holds_settled (h : P.VisitsEach ps) (ha : a.Covers ps) (hnone : F.Absent a) (p : Point) :
    F.holds (P.look (P.sweep^[ps.length + 1] a) p) ↔ F.holds (P.look (P.sweep^[ps.length] a) p) := by
  rw [holds_late_iff h ha hnone (Nat.le_succ _), holds_late_iff h ha hnone (Nat.le_refl _)]

/-- If values are made of facts, a run from nothing settles in one sweep per
    point. -/
theorem stable_after_points {ι : Type} (facts : ι → P.Fact)
    (hext : ∀ s t, (∀ i, (facts i).holds s ↔ (facts i).holds t) → s = t)
    (h : P.VisitsEach ps) (ha : a.Covers ps) (hnone : ∀ i, (facts i).Absent a) :
    P.sweep (P.sweep^[ps.length] a) = P.sweep^[ps.length] a := by
  have hlook : ∀ p ∈ ps, P.look (P.sweep (P.sweep^[ps.length] a)) p =
      P.look (P.sweep^[ps.length] a) p := by
    refine fun p _ => hext _ _ fun i => ?_
    rw [← Function.iterate_succ_apply' P.sweep]
    exact holds_settled h ha (hnone i) p
  exact (covers_sweep (covers_iterate ha _)).ext (covers_iterate ha _) hlook

/-- The value of `q` that the visit of `p` finds in the sweep after the `n`-th. -/
def found (P : Problem ρ σ) (a : Arena σ) (n : Nat) (p q : Point) : σ :=
  if P.rank q < P.rank p then P.look (P.sweep^[n + 1] a) q else P.look (P.sweep^[n] a) q

theorem trail_of_found (h : P.VisitsEach ps) (ha : a.Covers ps) (hnone : F.Absent a) {n : Nat}
    {p q : Point} (hfound : F.holds (found P a n p q)) : ∃ rest, F.Trail q rest := by
  rw [found] at hfound
  split at hfound
  · exact trail_of_holds_iterate h ha hnone _ q hfound
  · exact trail_of_holds_iterate h ha hnone _ q hfound

/-- After one sweep per point a visit finds of a fact what has a trail. -/
theorem holds_found_late_iff (h : P.VisitsEach ps) (ha : a.Covers ps) (hnone : F.Absent a) {n : Nat}
    (hn : ps.length ≤ n) {p q : Point} :
    F.holds (found P a n p q) ↔ ∃ rest, F.Trail q rest := by
  rw [found]
  split
  · exact holds_late_iff h ha hnone (Nat.le_succ_of_le hn)
  · exact holds_late_iff h ha hnone hn

/-- What is found once is found in the sweeps that follow. -/
theorem holds_found_succ (h : P.VisitsEach ps) (ha : a.Covers ps) (hnone : F.Absent a) {n : Nat}
    {p q : Point} (hfound : F.holds (found P a n p q)) : F.holds (found P a (n + 1) p q) := by
  rw [found] at hfound ⊢
  split at hfound
  · next hlt =>
    rw [if_pos hlt]
    exact holds_iterate_succ h ha hnone _ q hfound
  · next hge =>
    rw [if_neg hge]
    exact holds_iterate_succ h ha hnone _ q hfound

/-- What arrives by the sweep before is found, whatever the order. -/
theorem holds_found_of_delays (h : P.VisitsEach ps) (ha : a.Covers ps) (hnone : F.Absent a)
    {n : Nat} {p q : Point} {rest : List Point} (htrail : F.Trail q rest)
    (hdelays : delays P (q :: rest) < n) : F.holds (found P a n p q) := by
  have harrived := holds_after_delays h ha htrail
  rw [found]
  split
  · exact holds_iterate_mono h ha hnone (by omega) harrived
  · exact holds_iterate_mono h ha hnone (by omega) harrived

/-- A trail from a neighbour either avoids the point itself or ends there, once
    its loops are cut. -/
theorem Trail.from_neighbour (h : P.VisitsEach ps) {v : Visit ρ} (hv : v ∈ P.visits) {q : Point}
    {rest : List Point} (hq : q ∈ v.neighbours) (htrail : F.Trail q rest) :
    ∃ q' ∈ v.neighbours, ∃ rest', F.Trail q' rest' ∧ (q' :: rest').Nodup ∧
      (v.point ∈ q' :: rest' → [v.point] <:+ q' :: rest') := by
  obtain ⟨rest, htrail, hnodup⟩ := htrail.exists_nodup
  by_cases hmem : v.point ∈ q :: rest
  · obtain ⟨later, hlater, hsuffix⟩ := htrail.suffix hmem
    have hnodup' := hnodup.sublist hsuffix.sublist
    generalize hp : v.point = p at hlater
    cases hlater with
    | here _ _ => exact ⟨q, hq, rest, htrail, hnodup, fun _ => hp ▸ hsuffix⟩
    | @step w q' rest' hw _ hq' htrail' =>
      -- the trail passes the point itself: go on from there
      obtain rfl : v = w := h.visit_unique hv hw hp
      rw [List.nodup_cons] at hnodup'
      exact ⟨q', hq', rest', htrail', hnodup'.2, fun hmem' => absurd hmem' hnodup'.1⟩
  · exact ⟨q, hq, rest, htrail, hnodup, fun hmem' => absurd hmem' hmem⟩

/-- **In time.**  Among two points or more, whatever can come to a point from its
    neighbours is found there in the last of as many sweeps as there are points.

    The critical case is a fact that arises at the point itself and comes back
    around a loop through all points.  If each step of the loop were delayed, the
    ranks along it would rise from the neighbour to the point, so the neighbour
    would be visited first and the last step not be delayed. -/
theorem neighbour_holds_in_time (h : P.VisitsEach ps) (ha : a.Covers ps) (hnone : F.Absent a)
    {n : Nat} (hn : ps.length = n + 1) (hpos : 0 < n) {v : Visit ρ} (hv : v ∈ P.visits)
    {q : Point} {rest : List Point} (hq : q ∈ v.neighbours) (htrail : F.Trail q rest) :
    ∃ q' ∈ v.neighbours, F.holds (found P a n v.point q') := by
  obtain ⟨q, hq, rest, htrail, hnodup, hend⟩ := htrail.from_neighbour h hv hq
  refine ⟨q, hq, ?_⟩
  have hdelays := delays_le (P := P) q rest
  have hpoints := htrail.mem_points h
  by_cases hmem : v.point ∈ q :: rest
  · have hlength := hnodup.length_le_of_subset hpoints
    rw [List.length_cons] at hlength
    by_cases hall : delays P (q :: rest) = n
    · -- every step is delayed, so the neighbour comes first
      have hrank : P.rank q ≤ P.rank v.point := rank_le_of_delays_eq (by omega) hmem
      have hne : q ≠ v.point := by
        rintro rfl
        obtain ⟨init, hinit⟩ := hend hmem
        cases init with
        | nil =>
          obtain rfl : rest = [] := by simpa using hinit.symm
          rw [List.length_nil] at hdelays
          omega
        | cons x init =>
          rw [List.cons_append, List.cons.injEq] at hinit
          rw [← hinit.2] at hnodup
          exact (List.nodup_cons.mp hnodup).1 (by simp)
      have hlt : P.rank q < P.rank v.point :=
        Nat.lt_of_le_of_ne hrank fun heq => hne (h.rank_injective (hpoints q List.mem_cons_self) heq)
      rw [found, if_pos hlt, ← hall]
      exact holds_after_delays h ha htrail
    · exact holds_found_of_delays h ha hnone htrail (by omega)
  · -- the trail avoids the point, so it is shorter than there are points
    have hlength : (v.point :: q :: rest).length ≤ ps.length := by
      refine (List.nodup_cons.mpr ⟨hmem, hnodup⟩).length_le_of_subset fun x hx => ?_
      rcases List.mem_cons.mp hx with rfl | hx
      · exact h.point_mem hv
      · exact hpoints x hx
    rw [List.length_cons, List.length_cons] at hlength
    exact holds_found_of_delays h ha hnone htrail (by omega)

/-- What a visit finds of a fact among its neighbours settles a sweep before the
    fact itself does, if there are two points or the fact has no trail at all. -/
theorem found_settled (h : P.VisitsEach ps) (ha : a.Covers ps) (hnone : F.Absent a) {n : Nat}
    (hn : ps.length = n + 1) (hroom : 0 < n ∨ ∀ q rest, ¬ F.Trail q rest) {v : Visit ρ}
    (hv : v ∈ P.visits) :
    (∃ q ∈ v.neighbours, F.holds (found P a (n + 1) v.point q)) ↔
      ∃ q ∈ v.neighbours, F.holds (found P a n v.point q) := by
  constructor
  · rintro ⟨q, hq, hfound⟩
    obtain ⟨rest, htrail⟩ := trail_of_found h ha hnone hfound
    have hpos : 0 < n := hroom.resolve_right fun hempty => hempty q rest htrail
    exact neighbour_holds_in_time h ha hnone hn hpos hv hq htrail
  · rintro ⟨q, hq, hfound⟩
    exact ⟨q, hq, holds_found_succ h ha hnone hfound⟩

end Fact

end Problem

end BorrowFlow
