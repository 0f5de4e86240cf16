import BorrowFlow.Proofs.Builder.Run

/-! # Where the statements of a body come from

    A built body keeps nothing of the requests that it was built by but the statements they
    left.  Still every point of it stems from one request, which was met in the builder as
    it was then: `Operation.Derives` says which statement an operation leaves, and
    `Builder.exists_origin_of_finish` finds the request for each point.

    One request adds at most what it derives (`Builder.mem_facts_of_does`), and leaves the variables
    that are known alone.  So the types of places that counted then are those that the body
    has in the end (`Builder.KnownIn.typeOf`).
-/

namespace BorrowFlow

open BuildM

/-! ## Statements that come in -/

namespace OpenBlock

/-- The statements of a block so far, with its terminator if it has one. -/
def facts (blk : OpenBlock) : List Statement :=
  blk.statements ++ (blk.terminator.map Terminator.toStatement).toList

theorem mem_facts_push {blk : OpenBlock} {s s' : Statement} :
    s' ∈ (blk.push s).facts ↔ s' ∈ blk.facts ∨ s' = s := by
  simp only [facts, push, List.mem_append, List.mem_singleton]
  tauto

theorem mem_facts_close {blk : OpenBlock} {t : Terminator} {s : Statement}
    (h : s ∈ (blk.close t).facts) : s ∈ blk.facts ∨ s = t.toStatement := by
  rcases List.mem_append.mp h with hs | ht
  · exact Or.inl (List.mem_append_left _ hs)
  · exact Or.inr (List.mem_singleton.mp ht)

end OpenBlock

namespace Builder

variable {b b' : Builder} {body : Body}

/-- What stands in a block after one is changed stood there before, or the change brought it
    in. -/
theorem mem_facts_updateBlock {P : Statement → Prop} {block : String} {f : OpenBlock → OpenBlock}
    (hf : ∀ blk, ∀ s ∈ (f blk).facts, s ∈ blk.facts ∨ P s) {changed : OpenBlock}
    (hchanged : changed ∈ (b.updateBlock block f).blocks) {s : Statement} (hs : s ∈ changed.facts) :
    (∃ blk ∈ b.blocks, s ∈ blk.facts) ∨ P s := by
  obtain ⟨blk, hblk, rfl⟩ := List.mem_map.mp hchanged
  split at hs
  · rcases hf blk s hs with hold | hnew
    · exact Or.inl ⟨blk, hblk, hold⟩
    · exact Or.inr hnew
  · exact Or.inl ⟨blk, hblk, hs⟩

theorem mem_facts_updateBlock_push {block : String} {s s' : Statement} {changed : OpenBlock}
    (hchanged : changed ∈ (b.updateBlock block (·.push s)).blocks) (hs' : s' ∈ changed.facts) :
    (∃ blk ∈ b.blocks, s' ∈ blk.facts) ∨ s' = s :=
  mem_facts_updateBlock (fun _ _ => OpenBlock.mem_facts_push.mp) hchanged hs'

/-- **Step lemma**: what an operation brings into a block is what it derives. -/
theorem mem_facts_of_does {op : Operation} {span : Option Span} (h : op.Does span b b')
    {blk' : OpenBlock} (hblk' : blk' ∈ b'.blocks) {s : Statement} (hs : s ∈ blk'.facts) :
    (∃ blk ∈ b.blocks, s ∈ blk.facts) ∨ op.Derives span b s := by
  cases h with
  | enters h =>
    rw [blocks_of_entries h] at hblk'
    exact Or.inl ⟨blk', hblk', hs⟩
  | opens =>
    rcases List.mem_append.mp hblk' with hold | hlast
    · exact Or.inl ⟨blk', hold, hs⟩
    · rw [List.mem_singleton.mp hlast] at hs
      cases hs
  | appends _ _ hderives =>
    rcases mem_facts_updateBlock_push hblk' hs with hold | rfl
    · exact Or.inl hold
    · exact Or.inr hderives
  | lends _ hderives =>
    rcases mem_facts_updateBlock_push hblk' hs with hold | rfl
    · exact Or.inl hold
    · exact Or.inr hderives
  | ends _ _ hderives =>
    rcases mem_facts_updateBlock (fun _ _ => OpenBlock.mem_facts_close) hblk' hs with hold | rfl
    · exact Or.inl hold
    · exact Or.inr hderives

/-! ## Runs -/

/-- **Every statement has an origin**: what stands in a block after a run stood there before
    it, or was derived by one of its requests. -/
theorem exists_origin (b : Builder) (qs : List Request) {blk : OpenBlock}
    (hblk : blk ∈ (b.after qs).blocks) {s : Statement} (hs : s ∈ blk.facts) :
    (∃ blk' ∈ b.blocks, s ∈ blk'.facts) ∨ ∃ before q rest, qs = before ++ q :: rest ∧
      q.operation.Derives q.span (b.after before) s := by
  induction qs generalizing b with
  | nil => exact Or.inl ⟨blk, hblk, hs⟩
  | cons q qs ih =>
    obtain ⟨blk', hblk', hs'⟩ | ⟨before, q', rest, rfl, hq'⟩ := ih _ hblk
    · -- before the other requests it can only come from the first one
      obtain hold | hq := mem_facts_of_does (q.does_step b) hblk' hs'
      · exact Or.inl hold
      · exact Or.inr ⟨[], q, qs, rfl, hq⟩
    · exact Or.inr ⟨q :: before, q', rest, rfl, hq'⟩

/-! ## Finished bodies -/

/-- What stands at a point of a finished body stood in a block of the builder. -/
theorem exists_mem_facts_of_finish (hnames : (b.blocks.map OpenBlock.name).Nodup)
    (h : b.finish = .ok body) {p : Point} (hp : p ∈ body.points) :
    ∃ blk ∈ b.blocks, body.facts p ∈ blk.facts := by
  obtain ⟨d, _, hcheck⟩ := finish_eq_ok.mp h
  have hbody := Draft.wellFormed_of_check hcheck
  obtain ⟨blk, hblk, i, hi, rfl⟩ := Body.mem_points.mp hp
  have hlength : i < blk.facts.length := by simpa [Block.facts, Block.size] using hi
  have hget := List.getElem?_eq_getElem hlength
  rw [hbody.facts_eq hblk hget]
  exact ⟨_, ofBlock_mem_of_finish hnames h hblk, List.mem_of_getElem? hget⟩

/-- The variables of the builder are in the body, each under its name. -/
def KnownIn (b : Builder) (body : Body) : Prop :=
  ∀ name v, b.locals.get? name = some v → body.var? name = some { v with name := name }

theorem knownIn_of_finish (h : b.finish = .ok body) : b.KnownIn body := by
  intro name v hv
  obtain ⟨d, hd, hcheck⟩ := finish_eq_ok.mp h
  obtain ⟨blocks, hblocks⟩ := exists_drafts hd
  rw [(Draft.wellFormed_of_check hcheck).var?_eq_some_iff]
  obtain ⟨checked, _, rfl⟩ := Draft.check_eq_ok.mp hcheck
  refine ⟨?_, rfl⟩
  rw [← hblocks.locals] at hv
  exact List.mem_map.mpr ⟨(name, v), OrderedMap.get?_eq_some_iff.mp hv, rfl⟩

/-- **Every point of a body has its request**, one of those that the body was built by.  It
    derived what stands there in a builder whose variables are those of the body. -/
theorem exists_origin_of_finish {name : String} {span : Span} {qs : List Request}
    (h : (after { name := name, span := span } qs).finish = .ok body) {p : Point}
    (hp : p ∈ body.points) :
    ∃ q ∈ qs, ∃ b : Builder, b.KnownIn body ∧ q.operation.Derives q.span b (body.facts p) := by
  have hnames := (grows_after { name := name, span := span } qs).blockNames List.nodup_nil
  obtain ⟨blk, hblk, hs⟩ := exists_mem_facts_of_finish hnames h hp
  obtain ⟨_, hnone, _⟩ | ⟨before, q, rest, rfl, hq⟩ := exists_origin _ qs hblk hs
  · exact absurd hnone List.not_mem_nil
  · refine ⟨q, by simp, _, ?_, hq⟩
    intro name' v hv
    apply knownIn_of_finish h
    rw [after_append]
    exact (grows_after _ (q :: rest)).locals name' v hv

/-- **A statement that is called something** stands at a point, and its request is called so. -/
theorem exists_origin_of_kind {name : String} {span : Span} {qs : List Request}
    (h : (after { name := name, span := span } qs).finish = .ok body) {p : Point} {kind : String}
    (hkind : (body.facts p).kind = kind) (hkind' : kind ≠ (default : Statement).kind) :
    p ∈ body.points ∧ ∃ q ∈ qs, q.operation.kind? = some kind ∧
      ∃ b : Builder, b.KnownIn body ∧ q.operation.Derives q.span b (body.facts p) := by
  obtain ⟨d, _, hcheck⟩ := finish_eq_ok.mp h
  have hp : p ∈ body.points := by
    by_contra hnot
    rw [(Draft.wellFormed_of_check hcheck).facts_of_not_mem hnot] at hkind
    exact hkind' hkind.symm
  obtain ⟨q, hq, b, hknown, hderives⟩ := exists_origin_of_finish h hp
  refine ⟨hp, q, hq, ?_, b, hknown, hderives⟩
  rw [hderives.heading.1, hkind]

end Builder

/-! ## Types of places -/

/-- The type of a place of a body, if types alone tell. -/
def Body.typeOf (body : Body) (p : Place) : Option Ty :=
  (body.var? p.base).bind fun v => Builder.follow v.ty p.path

/-- **Types that were told once stay**: they are those of the body. -/
theorem Builder.KnownIn.typeOf {b : Builder} {body : Body} (h : b.KnownIn body) {p : Place}
    {t : Option Ty} (ht : b.placeType p = .ok t) : body.typeOf p = t := by
  rw [placeType, map_eq_ok] at ht
  obtain ⟨v, hv, rfl⟩ := ht
  rw [Body.typeOf, h p.base v (variableNamed_eq_ok.mp hv)]
  rfl

end BorrowFlow
