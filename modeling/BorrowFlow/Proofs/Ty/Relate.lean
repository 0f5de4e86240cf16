import BorrowFlow.Proofs.Ty.Position
import Mathlib.Logic.Relation

/-! # What relating two types yields

    `Ty.relate` walks through two types at once and collects edges between their regions,
    each once and no loops.  It stops at the first place where the types differ in more
    than their regions.

    What it collects can be said without the walk: `Ty.Requires` asks for each position
    which regions stand there, and takes the edge backwards too if the position is behind a
    mutable reference.  The walk adds just these edges (`Ty.gains_relateInto`), and it gets
    to its end exactly if the types have one shape (`Ty.exists_relateInto_iff`).  All else
    about the edges follows from the two (`Ty.relate_by_position`).
-/

namespace BorrowFlow.Ty

open Relation (TransGen)

/-! ## Requirements -/

/-- **What a flow requires**: the regions at one position are related from the source to
    the target.  Where the two have to agree they are related backwards too. -/
def Requires (v : Variance) (src dst : Ty) (e : RegionEdge) : Prop :=
  ∃ pos, (src.regionAt pos = some e.1 ∧ dst.regionAt pos = some e.2) ∨
    ((v = .invariant ∨ src.behindMutable pos = true) ∧
      src.regionAt pos = some e.2 ∧ dst.regionAt pos = some e.1)

theorem requires_region {v : Variance} {a b : Region} {e : RegionEdge} :
    Requires v (.region a) (.region b) e ↔ e = (a, b) ∨ (v = .invariant ∧ e = (b, a)) := by
  constructor
  · intro h
    obtain ⟨pos, ⟨ha, hb⟩ | ⟨hv, ha, hb⟩⟩ := h
    · obtain ⟨rfl, rfl⟩ := regionAt_region.mp ha
      obtain ⟨_, rfl⟩ := regionAt_region.mp hb
      exact Or.inl rfl
    · obtain ⟨rfl, rfl⟩ := regionAt_region.mp ha
      obtain ⟨_, rfl⟩ := regionAt_region.mp hb
      -- nothing is behind a region
      have hv : v = .invariant := hv.resolve_right (by simp [behindMutable])
      exact Or.inr ⟨hv, rfl⟩
  · intro h
    obtain rfl | ⟨hv, rfl⟩ := h
    · exact ⟨[], Or.inl ⟨rfl, rfl⟩⟩
    · exact ⟨[], Or.inr ⟨Or.inl hv, rfl, rfl⟩⟩

theorem not_requires_scalar {v : Variance} {name : String} {dst : Ty} {e : RegionEdge} :
    ¬ Requires v (.scalar name) dst e := by
  intro h
  obtain ⟨pos, ⟨ha, _⟩ | ⟨_, ha, _⟩⟩ := h
  all_goals
    rw [regionAt_scalar] at ha
    cases ha

/-- Behind a mutable reference a flow requires both directions. -/
theorem requires_ref {v : Variance} {r r' : Region} {mutable mutable' : Bool} {t t' : Ty}
    {e : RegionEdge} :
    Requires v (.ref r mutable t) (.ref r' mutable' t') e ↔
      Requires v (.region r) (.region r') e ∨
        Requires (if mutable then .invariant else v) t t' e := by
  have hbehind : ∀ rest, ((if mutable then Variance.invariant else v) = .invariant ∨
      t.behindMutable rest = true) ↔
      (v = .invariant ∨ (Ty.ref r mutable t).behindMutable (.referent :: rest) = true) := by
    intro rest
    cases mutable <;> simp [behindMutable, entersMutable, child?]
  rw [requires_region]
  constructor
  · intro h
    obtain ⟨pos, ⟨ha, hb⟩ | ⟨hv, ha, hb⟩⟩ := h
    · obtain ⟨rfl, rfl⟩ | ⟨rest, rfl, ha⟩ := regionAt_ref.mp ha
      · obtain ⟨_, rfl⟩ | ⟨_, ⟨⟩, _⟩ := regionAt_ref.mp hb
        exact Or.inl (Or.inl rfl)
      · exact Or.inr ⟨rest, Or.inl ⟨ha, hb⟩⟩
    · obtain ⟨rfl, rfl⟩ | ⟨rest, rfl, ha⟩ := regionAt_ref.mp ha
      · obtain ⟨_, rfl⟩ | ⟨_, ⟨⟩, _⟩ := regionAt_ref.mp hb
        -- the reference's own region is not behind it
        have hv : v = .invariant :=
          hv.resolve_right (by simp [behindMutable, entersMutable, child?])
        exact Or.inl (Or.inr ⟨hv, rfl⟩)
      · exact Or.inr ⟨rest, Or.inr ⟨(hbehind rest).mpr hv, ha, hb⟩⟩
  · intro h
    obtain (rfl | ⟨hv, rfl⟩) | ⟨rest, ⟨ha, hb⟩ | ⟨hv, ha, hb⟩⟩ := h
    · exact ⟨[.lifetime], Or.inl ⟨rfl, rfl⟩⟩
    · exact ⟨[.lifetime], Or.inr ⟨Or.inl hv, rfl, rfl⟩⟩
    · exact ⟨.referent :: rest, Or.inl ⟨ha, hb⟩⟩
    · exact ⟨.referent :: rest, Or.inr ⟨(hbehind rest).mp hv, ha, hb⟩⟩

/-- Some argument requires it of the argument in its place. -/
def RequiresAll (v : Variance) (as bs : List Ty) (e : RegionEdge) : Prop :=
  ∃ (i : Nat) (a b : Ty), as[i]? = some a ∧ bs[i]? = some b ∧ Requires v a b e

theorem requires_adt {v : Variance} {name name' : String} {args args' : List Ty}
    {e : RegionEdge} :
    Requires v (.adt name args) (.adt name' args') e ↔ RequiresAll v args args' e := by
  have hbehind : ∀ i rest a, args[i]? = some a →
      (Ty.adt name args).behindMutable (.arg i :: rest) = a.behindMutable rest := by
    intro i rest a ha
    simp [behindMutable, entersMutable, child?, ha]
  constructor
  · intro h
    obtain ⟨pos, ⟨ha, hb⟩ | ⟨hv, ha, hb⟩⟩ := h
    · obtain ⟨i, rest, a, rfl, hi, ha⟩ := regionAt_adt.mp ha
      obtain ⟨_, _, b, ⟨⟩, hi', hb⟩ := regionAt_adt.mp hb
      exact ⟨i, a, b, hi, hi', rest, Or.inl ⟨ha, hb⟩⟩
    · obtain ⟨i, rest, a, rfl, hi, ha⟩ := regionAt_adt.mp ha
      obtain ⟨_, _, b, ⟨⟩, hi', hb⟩ := regionAt_adt.mp hb
      rw [hbehind i rest a hi] at hv
      exact ⟨i, a, b, hi, hi', rest, Or.inr ⟨hv, ha, hb⟩⟩
  · intro h
    obtain ⟨i, a, b, hi, hi', rest, ⟨ha, hb⟩ | ⟨hv, ha, hb⟩⟩ := h
    · refine ⟨.arg i :: rest, Or.inl ⟨?_, ?_⟩⟩
      · exact regionAt_adt.mpr ⟨i, rest, a, rfl, hi, ha⟩
      · exact regionAt_adt.mpr ⟨i, rest, b, rfl, hi', hb⟩
    · refine ⟨.arg i :: rest, Or.inr ⟨?_, ?_, ?_⟩⟩
      · rw [hbehind i rest a hi]
        exact hv
      · exact regionAt_adt.mpr ⟨i, rest, a, rfl, hi, ha⟩
      · exact regionAt_adt.mpr ⟨i, rest, b, rfl, hi', hb⟩

theorem requiresAll_cons {v : Variance} {a b : Ty} {as bs : List Ty} {e : RegionEdge} :
    RequiresAll v (a :: as) (b :: bs) e ↔ Requires v a b e ∨ RequiresAll v as bs e := by
  constructor
  · intro h
    obtain ⟨i, x, y, hx, hy, h⟩ := h
    cases i with
    | zero =>
      cases hx
      cases hy
      exact Or.inl h
    | succ i => exact Or.inr ⟨i, x, y, hx, hy, h⟩
  · intro h
    obtain h | ⟨i, x, y, hx, hy, h⟩ := h
    · exact ⟨0, a, b, rfl, rfl, h⟩
    · exact ⟨i + 1, x, y, hx, hy, h⟩

theorem not_requiresAll_nil {v : Variance} {as bs : List Ty} {e : RegionEdge}
    (h : as = [] ∨ bs = []) : ¬ RequiresAll v as bs e := by
  intro hall
  obtain ⟨i, x, y, hx, hy, _⟩ := hall
  obtain rfl | rfl := h
  · cases hx
  · cases hy

/-! ## What the walk adds -/

/-- **Edges are gained**: those that `Q` asks for and that are no loops, none of them twice. -/
structure Gains (Q : RegionEdge → Prop) (edges out : List RegionEdge) : Prop where
  mem_iff : ∀ e, e ∈ out ↔ e ∈ edges ∨ (e.1 ≠ e.2 ∧ Q e)
  nodup : edges.Nodup → out.Nodup

section Gains

variable {Q Q' : RegionEdge → Prop} {edges mid out : List RegionEdge}

theorem gains_nothing (h : ∀ e, ¬ Q e) : Gains Q edges edges where
  mem_iff := fun e => by simp [h e]
  nodup := id

theorem Gains.congr (h : Gains Q edges out) (hQ : ∀ e, Q e ↔ Q' e) : Gains Q' edges out where
  mem_iff := fun e => by rw [h.mem_iff, hQ]
  nodup := h.nodup

theorem Gains.trans (h : Gains Q edges mid) (h' : Gains Q' mid out) :
    Gains (fun e => Q e ∨ Q' e) edges out where
  mem_iff := by
    intro e
    rw [h'.mem_iff, h.mem_iff, or_assoc, ← and_or_left]
  nodup := h'.nodup ∘ h.nodup

theorem gains_addEdge (edges : List RegionEdge) (e : RegionEdge) :
    Gains (· = e) edges (addEdge edges e) := by
  unfold addEdge
  by_cases h : e.1 = e.2 ∨ e ∈ edges
  · rw [if_pos h]
    refine ⟨fun e' => ⟨Or.inl, ?_⟩, id⟩
    intro hmem
    obtain hold | ⟨hne, rfl⟩ := hmem
    · exact hold
    · exact h.resolve_left hne
  · rw [if_neg h]
    rw [not_or] at h
    constructor
    · intro e'
      rw [List.mem_append, List.mem_singleton]
      constructor
      · intro hmem
        obtain hold | rfl := hmem
        · exact Or.inl hold
        · exact Or.inr ⟨h.1, rfl⟩
      · intro hmem
        obtain hold | ⟨_, rfl⟩ := hmem
        · exact Or.inl hold
        · exact Or.inr rfl
    · intro hnodup
      rw [List.nodup_append]
      refine ⟨hnodup, by simp, ?_⟩
      intro x hx y hy hxy
      rw [List.mem_singleton.mp hy] at hxy
      exact h.2 (hxy ▸ hx)

end Gains

theorem gains_relateRegions (v : Variance) (a b : Region) (edges : List RegionEdge) :
    Gains (Requires v (.region a) (.region b)) edges (relateRegions v a b edges) := by
  cases v with
  | covariant =>
    exact (gains_addEdge edges (a, b)).congr fun e => by simp [requires_region]
  | invariant =>
    have hboth := (gains_addEdge edges (a, b)).trans (gains_addEdge _ (b, a))
    exact hboth.congr fun e => by simp [requires_region]

mutual

/-- **The walk adds what the flow requires**, to whatever edges it starts with. -/
theorem gains_relateInto (v : Variance) (a b : Ty) {edges out : List RegionEdge}
    (h : relateInto v a b edges = .ok out) : Gains (Requires v a b) edges out := by
  match a, b with
  | .region r, .region s =>
    cases h
    exact gains_relateRegions v r s edges
  | .scalar n, .scalar n' =>
    rw [relateInto] at h
    split at h
    · cases h
      exact gains_nothing fun _ => not_requires_scalar
    · cases h
  | .ref r m t, .ref r' m' t' =>
    rw [relateInto] at h
    split at h
    · have hown := gains_relateRegions v r r' edges
      have hinner := gains_relateInto _ t t' h
      exact (hown.trans hinner).congr fun e => requires_ref.symm
    · cases h
  | .adt n args, .adt n' args' =>
    rw [relateInto] at h
    split at h
    · exact (gains_relateAllInto v args args' h).congr fun e => requires_adt.symm
    · cases h
  | .region _, .scalar _ | .region _, .ref .. | .region _, .adt ..
  | .scalar _, .region _ | .scalar _, .ref .. | .scalar _, .adt ..
  | .ref .., .region _ | .ref .., .scalar _ | .ref .., .adt ..
  | .adt .., .region _ | .adt .., .scalar _ | .adt .., .ref .. => cases h

theorem gains_relateAllInto (v : Variance) (as bs : List Ty) {edges out : List RegionEdge}
    (h : relateAllInto v as bs edges = .ok out) : Gains (RequiresAll v as bs) edges out := by
  match as, bs with
  | a :: as, b :: bs =>
    rw [relateAllInto] at h
    split at h
    · next mid hmid =>
      have hfirst := gains_relateInto v a b hmid
      have hrest := gains_relateAllInto v as bs h
      exact (hfirst.trans hrest).congr fun e => requiresAll_cons.symm
    · cases h
  | [], _ | _ :: _, [] =>
    rw [relateAllInto] at h
    · cases h
      exact gains_nothing fun _ => not_requiresAll_nil (by simp)
    · simp

end

/-! ## When the walk gets to its end -/

mutual

/-- **The walk succeeds** exactly if the types have one shape. -/
theorem exists_relateInto_iff (v : Variance) (a b : Ty) (edges : List RegionEdge) :
    (∃ out, relateInto v a b edges = .ok out) ↔ a.erase = b.erase := by
  match a, b with
  | .region _, .region _ => simp [relateInto, erase]
  | .scalar n, .scalar n' =>
    rw [relateInto]
    by_cases hname : n = n' <;> simp [erase, hname]
  | .ref r m t, .ref r' m' t' =>
    rw [relateInto]
    by_cases hmutable : m = m'
    · rw [if_pos hmutable, exists_relateInto_iff]
      simp [erase, hmutable]
    · simp [erase, hmutable]
  | .adt n args, .adt n' args' =>
    rw [relateInto]
    by_cases hhead : n = n' ∧ args.length = args'.length
    · rw [if_pos hhead, exists_relateAllInto_iff v args args' edges hhead.2]
      simp [erase, hhead.1]
    · rw [if_neg hhead]
      simp only [reduceCtorEq, exists_false, erase, adt.injEq, false_iff]
      intro heq
      have hlength := congrArg List.length heq.2
      rw [eraseAll_eq_map, eraseAll_eq_map, List.length_map, List.length_map] at hlength
      exact hhead ⟨heq.1, hlength⟩
  | .region _, .scalar _ | .region _, .ref .. | .region _, .adt ..
  | .scalar _, .region _ | .scalar _, .ref .. | .scalar _, .adt ..
  | .ref .., .region _ | .ref .., .scalar _ | .ref .., .adt ..
  | .adt .., .region _ | .adt .., .scalar _ | .adt .., .ref .. => simp [relateInto, erase]

theorem exists_relateAllInto_iff (v : Variance) (as bs : List Ty) (edges : List RegionEdge)
    (hlength : as.length = bs.length) :
    (∃ out, relateAllInto v as bs edges = .ok out) ↔ eraseAll as = eraseAll bs := by
  match as, bs with
  | [], [] => simp [relateAllInto]
  | a :: as, b :: bs =>
    have hfirst := exists_relateInto_iff v a b edges
    have hlength' : as.length = bs.length := by simpa using hlength
    rw [relateAllInto, eraseAll, eraseAll, List.cons.injEq, ← hfirst]
    cases ha : a.relateInto v b edges with
    | error e => simp
    | ok mid =>
      have hrest := exists_relateAllInto_iff v as bs mid hlength'
      simpa using hrest
  | [], _ :: _ => simp at hlength
  | _ :: _, [] => simp at hlength

end

/-! ## Relating two types -/

theorem exists_relate_iff {src dst : Ty} :
    (∃ edges, src.relate dst = .ok edges) ↔ src.erase = dst.erase :=
  exists_relateInto_iff .covariant src dst []

/-- **The edges between two types**, one by one. -/
theorem mem_relate_iff {src dst : Ty} {edges : List RegionEdge} (h : src.relate dst = .ok edges)
    {e : RegionEdge} : e ∈ edges ↔ e.1 ≠ e.2 ∧ Requires .covariant src dst e := by
  have hgains := (gains_relateInto .covariant src dst h).mem_iff e
  rw [hgains]
  simp

theorem nodup_relate {src dst : Ty} {edges : List RegionEdge} (h : src.relate dst = .ok edges) :
    edges.Nodup :=
  (gains_relateInto .covariant src dst h).nodup List.nodup_nil

/-- A type requires nothing of itself but loops. -/
theorem relate_self (t : Ty) : t.relate t = .ok [] := by
  obtain ⟨edges, hedges⟩ := exists_relate_iff.mpr (rfl : t.erase = t.erase)
  cases edges with
  | nil => exact hedges
  | cons e rest =>
    have he := (mem_relate_iff hedges).mp List.mem_cons_self
    obtain ⟨hne, pos, ⟨ha, hb⟩ | ⟨_, ha, hb⟩⟩ := he
    · exact absurd (Option.some.inj (ha.symm.trans hb)) hne
    · exact absurd (Option.some.inj (hb.symm.trans ha)) hne

/-- Each step of a flow through a third type is an edge, or there is no step to take. -/
theorem eq_or_mem_relate {src dst : Ty} {edges : List RegionEdge}
    (h : src.relate dst = .ok edges) {e : RegionEdge} (he : Requires .covariant src dst e) :
    e.1 = e.2 ∨ e ∈ edges := by
  by_cases hne : e.1 = e.2
  · exact Or.inl hne
  · exact Or.inr ((mem_relate_iff h).mpr ⟨hne, he⟩)

/-- **A flow through a third type** takes the regions along its own edges. -/
theorem transGen_of_relate {src mid dst : Ty} {first second edges : List RegionEdge}
    (hfirst : src.relate mid = .ok first) (hsecond : mid.relate dst = .ok second)
    (h : src.relate dst = .ok edges) {e : RegionEdge} (he : e ∈ edges) :
    TransGen (fun a b => (a, b) ∈ first ++ second) e.1 e.2 := by
  have hshape : src.erase = mid.erase := exists_relate_iff.mp ⟨first, hfirst⟩
  -- one or two steps lead from `a` to `b` unless they are the same
  have hchain : ∀ a m b, a ≠ b → (a = m ∨ (a, m) ∈ first ++ second) →
      (m = b ∨ (m, b) ∈ first ++ second) → TransGen (fun a b => (a, b) ∈ first ++ second) a b := by
    intro a m b hne ham hmb
    obtain rfl | ham := ham
    · exact .single (hmb.resolve_left hne)
    · obtain rfl | hmb := hmb
      · exact .single ham
      · exact .tail (.single ham) hmb
  obtain ⟨hne, pos, ⟨ha, hb⟩ | ⟨hv, hb, ha⟩⟩ := (mem_relate_iff h).mp he
  · obtain ⟨m, hm⟩ := exists_regionAt_of_erase_eq hshape ha
    have ham := eq_or_mem_relate hfirst (e := (e.1, m)) ⟨pos, Or.inl ⟨ha, hm⟩⟩
    have hmb := eq_or_mem_relate hsecond (e := (m, e.2)) ⟨pos, Or.inl ⟨hm, hb⟩⟩
    exact hchain e.1 m e.2 hne (ham.imp_right (List.mem_append_left _))
      (hmb.imp_right (List.mem_append_right _))
  · -- behind a mutable reference the flow goes back from the target to the source
    have hmid : mid.behindMutable pos = true := by
      rw [← behindMutable_eq_of_erase_eq hshape]
      exact hv.resolve_left (by simp)
    obtain ⟨m, hm⟩ := exists_regionAt_of_erase_eq hshape hb
    have ham := eq_or_mem_relate hsecond (e := (e.1, m)) ⟨pos, Or.inr ⟨Or.inr hmid, hm, ha⟩⟩
    have hmb := eq_or_mem_relate hfirst (e := (m, e.2)) ⟨pos, Or.inr ⟨hv, hb, hm⟩⟩
    exact hchain e.1 m e.2 hne (ham.imp_right (List.mem_append_right _))
      (hmb.imp_right (List.mem_append_left _))

/-- **Relating two types.**  It succeeds exactly if the types are equal up to their regions.
    Then each edge is there once, none is a loop, and there is an edge from `a` to another
    region `b` exactly if at some position the source has `a` and the target `b`, or at some
    position behind a mutable reference it is the other way round.  So a type relates to
    itself without edges, and if the source relates to the target through a third type, its
    edges follow from those on the way. -/
theorem relate_by_position (src dst : Ty) :
    ((∃ edges, src.relate dst = .ok edges) ↔ src.erase = dst.erase) ∧
    (∀ edges, src.relate dst = .ok edges → edges.Nodup ∧ (∀ e ∈ edges, e.1 ≠ e.2) ∧
      ∀ a b, a ≠ b → ((a, b) ∈ edges ↔ ∃ pos,
        (src.regionAt pos = some a ∧ dst.regionAt pos = some b) ∨
        (src.behindMutable pos = true ∧ src.regionAt pos = some b ∧ dst.regionAt pos = some a))) ∧
    src.relate src = .ok [] ∧
    ∀ mid first second, src.relate mid = .ok first → mid.relate dst = .ok second →
      ∃ edges, src.relate dst = .ok edges ∧
        ∀ e ∈ edges, TransGen (fun a b => (a, b) ∈ first ++ second) e.1 e.2 := by
  refine ⟨exists_relate_iff, ?_, relate_self src, ?_⟩
  · intro edges h
    refine ⟨nodup_relate h, fun e he => ((mem_relate_iff h).mp he).1, ?_⟩
    intro a b hne
    rw [mem_relate_iff h]
    simp [Requires, hne]
  · intro mid first second hfirst hsecond
    have hshape : src.erase = mid.erase := exists_relate_iff.mp ⟨first, hfirst⟩
    have hshape' : mid.erase = dst.erase := exists_relate_iff.mp ⟨second, hsecond⟩
    obtain ⟨edges, hedges⟩ := exists_relate_iff.mpr (hshape.trans hshape')
    exact ⟨edges, hedges, fun e he => transGen_of_relate hfirst hsecond hedges he⟩

/-- Behind two references of which the outer one is mutable, the regions are related both
    ways; on the way through a third type each of the two directions is one step. -/
theorem nested_relate_by_position :
    let nested (outer inner : Region) : Ty := .ref outer true (.ref inner false (.scalar "i32"))
    let src := nested ⟨"'a", false⟩ ⟨"'c", false⟩
    let mid := nested ⟨"'b", false⟩ ⟨"'c", false⟩
    let dst := nested ⟨"'b", false⟩ ⟨"'d", false⟩
    ∃ first second edges, src.relate mid = .ok first ∧ mid.relate dst = .ok second ∧
      src.relate dst = .ok edges ∧ (⟨"'d", false⟩, ⟨"'c", false⟩) ∈ edges ∧
      TransGen (fun a b => (a, b) ∈ first ++ second) ⟨"'d", false⟩ ⟨"'c", false⟩ := by
  intro nested src mid dst
  obtain ⟨_, hedges, _, hthrough⟩ := relate_by_position src dst
  obtain ⟨edges, h, hclosure⟩ := hthrough mid _ _ rfl rfl
  have hmem : (⟨"'d", false⟩, ⟨"'c", false⟩) ∈ edges :=
    ((hedges edges h).2.2 _ _ (by decide)).mpr
      ⟨[.referent, .lifetime], Or.inr ⟨rfl, rfl, rfl⟩⟩
  exact ⟨_, _, edges, rfl, rfl, h, hmem, hclosure _ hmem⟩

end BorrowFlow.Ty
