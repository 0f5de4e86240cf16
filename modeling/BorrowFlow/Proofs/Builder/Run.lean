import BorrowFlow.Proofs.Builder.Finish
import BorrowFlow.Proofs.Builder.Statement

/-! # Runs of a builder

    A run is a list of requests, each met or not, after which the builder is asked for
    its body.  Two things follow from what a single request does.  Whether it is refused or
    not, the builder only grows (`Builder.grows_after`), and unless it is mistaken about a
    region it keeps a builder sound (`Request.changes_step`).

    A mistake is never made good: the obligation it leaves stays in its block, and the
    table keeps the region it had.  So the draft at the end of a run is refused exactly
    if there was one (`Builder.finish_refused_iff`).
-/

namespace BorrowFlow

open Relation (ReflTransGen)
open BuildM

namespace Builder

/-! ## Growth -/

/-- **Growth**: regions and variables that are found stay, the statements of a block stay in
    one, and blocks that have different names go on to have them. -/
structure Grows (b b' : Builder) : Prop where
  regions : ∀ name r, b.region? name = some r → b'.region? name = some r
  locals : ∀ name v, b.locals.get? name = some v → b'.locals.get? name = some v
  statements : ∀ blk ∈ b.blocks, ∃ blk' ∈ b'.blocks, blk.statements <+: blk'.statements
  blockNames : (b.blocks.map OpenBlock.name).Nodup → (b'.blocks.map OpenBlock.name).Nodup

namespace Grows

theorem refl (b : Builder) : b.Grows b :=
  ⟨fun _ _ => id, fun _ _ => id, fun blk hblk => ⟨blk, hblk, List.prefix_refl _⟩, id⟩

theorem trans {b b' b'' : Builder} (h : b.Grows b') (h' : b'.Grows b'') : b.Grows b'' where
  regions := fun name r hr => h'.regions name r (h.regions name r hr)
  locals := fun name v hv => h'.locals name v (h.locals name v hv)
  statements := by
    intro blk hblk
    obtain ⟨blk', hblk', hprefix'⟩ := h.statements blk hblk
    obtain ⟨blk'', hblk'', hprefix''⟩ := h'.statements blk' hblk'
    exact ⟨blk'', hblk'', hprefix'.trans hprefix''⟩
  blockNames := h'.blockNames ∘ h.blockNames

theorem of_entries {b b' : Builder} (h : ReflTransGen Entry b b') : b.Grows b' := by
  obtain ⟨hregions, hlocals⟩ := finds_of_fills (fills_of_entries h)
  have hblocks := blocks_of_entries h
  refine ⟨hregions, hlocals, fun blk hblk => ⟨blk, hblocks ▸ hblk, List.prefix_refl _⟩, ?_⟩
  rw [hblocks]
  exact id

theorem updateBlock (b : Builder) (name : String) {f : OpenBlock → OpenBlock}
    (hf : ∀ blk, (f blk).name = blk.name ∧ blk.statements <+: (f blk).statements) :
    b.Grows (b.updateBlock name f) where
  regions := fun _ _ => id
  locals := fun _ _ => id
  statements := by
    intro blk hblk
    refine ⟨_, List.mem_map_of_mem hblk, ?_⟩
    split
    · exact (hf blk).2
    · exact List.prefix_refl _
  blockNames := by
    have hnames : (b.updateBlock name f).blocks.map OpenBlock.name =
        b.blocks.map OpenBlock.name := by
      rw [Builder.updateBlock, List.map_map]
      refine List.map_congr_left fun blk _ => ?_
      show (if blk.name = name then f blk else blk).name = blk.name
      split
      · exact (hf blk).1
      · rfl
    rw [hnames]
    exact id

theorem open_block {b : Builder} {name : String} (hnew : b.block? name = none) :
    b.Grows { b with blocks := b.blocks ++ [⟨name, [], none⟩] } where
  regions := fun _ _ => id
  locals := fun _ _ => id
  statements := fun blk hblk => ⟨blk, List.mem_append_left _ hblk, List.prefix_refl _⟩
  blockNames := by
    intro hnames
    rw [List.map_append, List.nodup_append]
    refine ⟨hnames, List.nodup_singleton _, ?_⟩
    rintro _ hmem _ hlast rfl
    obtain ⟨blk, hblk, hname⟩ := List.mem_map.mp hmem
    have hother := List.find?_eq_none.mp hnew blk hblk
    rw [decide_eq_true_eq] at hother
    exact hother (hname.trans (List.mem_singleton.mp hlast))

/-- **Step lemma**: whatever an operation does, the builder grows. -/
theorem of_does {b b' : Builder} {op : Operation} {span : Option Span} (h : op.Does span b b') :
    b.Grows b' := by
  cases h with
  | enters h => exact .of_entries h
  | opens hnew => exact .open_block hnew
  | appends => exact .updateBlock _ _ fun _ => ⟨rfl, List.prefix_append _ _⟩
  | lends =>
    have htaken : b.Grows { b with loanCount := b.loanCount + 1 } :=
      .of_entries (.single ⟨.loanName, rfl⟩)
    exact htaken.trans (.updateBlock _ _ fun _ => ⟨rfl, List.prefix_append _ _⟩)
  | ends => exact .updateBlock _ _ fun _ => ⟨rfl, List.prefix_refl _⟩

end Grows

/-- **Run lemma**: a builder grows along every run. -/
theorem grows_after (b : Builder) (qs : List Request) : b.Grows (b.after qs) := by
  induction qs generalizing b with
  | nil => exact .refl b
  | cons q qs ih => exact (Grows.of_does (q.does_step b)).trans (ih _)

end Builder

/-! ## Mistaken requests -/

namespace Request

open Builder

variable {b : Builder}

/-- **A mistaken request** is met although it brings in a region that is not the one
    of its name in the table. -/
def Mistaken (q : Request) (b : Builder) : Prop :=
  Gives q.step b () (q.step.perform b).2 ∧ ∃ r ∈ q.operation.namedRegions, ¬ b.Declares r

/-- A request that is not mistaken makes changes that keep a builder sound. -/
theorem changes_step (hb : b.Sound) (q : Request) (hq : ¬ q.Mistaken b) :
    ReflTransGen Change b (q.step.perform b).2 := by
  rcases gives_or_fails q.step b with ⟨_, hgives⟩ | ⟨e, hfails⟩
  · refine hb.changes_of_does ((q.effect b).met _ hgives) fun r hr => ?_
    by_contra hnot
    exact hq ⟨hgives, r, hr, hnot⟩
  · exact changes_of_fills (fills_of_entries ((q.effect b).refused e _ hfails).entries)

end Request

namespace Builder

variable {b b' : Builder}

/-! ## Regions that go by a name that another one has -/

theorem regionNamed_eq_ok {name : String} {r : Region} :
    b.regionNamed name = .ok r ↔ b.region? name = some r := by
  rw [regionNamed]
  cases b.region? name <;> simp

theorem mem_obligationsAt {p : Point} {edges : List RegionEdge} {e : RegionEdge} (he : e ∈ edges) :
    ⟨e.1, e.2, some p⟩ ∈ obligationsAt p edges := by
  rw [obligationsAt, List.mem_eraseDups]
  exact List.mem_map_of_mem he

/-- **A misnamed region**: some statement puts an obligation on a region, while the table
    has another one of that name. -/
def Misnames (b : Builder) : Prop :=
  ∃ blk ∈ b.blocks, ∃ s ∈ blk.statements, ∃ o ∈ s.obligations, ∃ r, (r = o.sub ∨ r = o.sup) ∧
    ∃ known, b.region? r.name = some known ∧ known ≠ r

theorem Grows.misnames (h : b.Grows b') (hb : b.Misnames) : b'.Misnames := by
  obtain ⟨blk, hblk, s, hs, o, ho, r, hr, known, hknown, hne⟩ := hb
  obtain ⟨blk', hblk', hprefix⟩ := h.statements blk hblk
  exact ⟨blk', hblk', s, hprefix.subset hs, o, ho, r, hr, known, h.regions _ _ hknown, hne⟩

/-- **A draft with a misnamed region does not pass its check.** -/
theorem Misnames.finish_eq_draft (hb : b.Misnames)
    (hnames : (b.blocks.map OpenBlock.name).Nodup) {d : Draft} (hd : b.draft = .ok d) :
    ∃ fault, b.finish = .error (.draft fault) := by
  obtain ⟨blocks, hblocks⟩ := exists_drafts hd
  cases hcheck : d.check with
  | error fault => exact ⟨fault, by simp [finish, hd, hcheck]⟩
  | ok body =>
    exfalso
    obtain ⟨checked, haccepts, rfl⟩ := Draft.check_eq_ok.mp hcheck
    obtain ⟨o', ho', s, hs, o, ho, r, hr, known, hknown, hne⟩ := hb
    rw [hblocks.opened] at ho'
    obtain ⟨blk, hblk, rfl⟩ := List.mem_map.mp ho'
    -- the statement is one of those that were checked, so its regions are in the table
    have hentry : (blk.name, Draft.ofBlock blk) ∈ d.blocks.entries := by
      rw [hblocks.entries_eq hnames]
      exact List.mem_map_of_mem hblk
    rw [haccepts.entries] at hentry
    obtain ⟨blk', hblk', heq⟩ := List.mem_map.mp hentry
    have hsame : blk' = blk := Draft.ofBlock_injective (congrArg Prod.snd heq)
    subst hsame
    have hfact : s ∈ blk'.facts := List.mem_append_left _ hs
    obtain ⟨i, hi, hget⟩ := List.mem_iff_getElem.mp hfact
    have horder := (haccepts.inOrder blk' hblk').facts i s
      (by rw [List.getElem?_eq_getElem hi, hget])
    have hmem : r ∈ d.regions.values := by
      rcases hr with rfl | rfl
      · exact (horder.obligations o ho).2.1
      · exact (horder.obligations o ho).2.2
    have hdeclared := (Draft.declares_iff haccepts.keys).mpr hmem
    rw [Draft.declares, decide_eq_true_eq, hblocks.regions] at hdeclared
    exact hne (Option.some.inj (hknown.symm.trans hdeclared))

/-- **Requests that are not mistaken keep a builder sound.** -/
theorem Sound.after (hb : b.Sound) {qs : List Request}
    (h : ∀ before q rest, qs = before ++ q :: rest → ¬ q.Mistaken (b.after before)) :
    (b.after qs).Sound := by
  induction qs generalizing b with
  | nil => exact hb
  | cons q qs ih =>
    have hq : ¬ q.Mistaken b := h [] q qs rfl
    have hnext : (q.step.perform b).2.Sound := sound_of_changes (q.changes_step hb hq) hb
    exact ih hnext fun before q' rest hsplit => h (q :: before) q' rest (by rw [hsplit]; rfl)

end Builder

namespace Request

open Builder

variable {b : Builder}

/-- The statement with an obligation on `r` that a step appends. -/
theorem misnames_of_append {block : String} {span : Option Span}
    {derive : Builder → Except BuildFault Statement} {b' : Builder}
    (h : Gives (do let _ ← append block span derive) b () b') {r : Region}
    (hr : ¬ b.Declares r)
    (hs : ∀ s, derive b = .ok s → (∃ o ∈ s.obligations, r = o.sub ∨ r = o.sup) ∧
      ∃ known, b.region? r.name = some known) : b'.Misnames := by
  obtain ⟨s, hgives⟩ := gives_ignored.mp h
  obtain ⟨hderive, hopen, rfl⟩ := gives_append.mp hgives
  obtain ⟨⟨o, ho, hside⟩, known, hknown⟩ := hs s hderive
  obtain ⟨blk, hblk, _⟩ := hopen
  have hname : blk.name = block := by simpa using List.find?_some hblk
  refine ⟨blk.push s, ?_, s, ?_, o, ho, r, hside, known, hknown, ?_⟩
  · refine List.mem_map.mpr ⟨blk, List.mem_of_find?_eq_some hblk, ?_⟩
    rw [if_pos hname]
  · exact List.mem_append_right _ (List.mem_singleton.mpr rfl)
  · rintro rfl
    exact hr hknown

/-- **A mistaken request leaves a misnamed region behind.** -/
theorem Mistaken.misnames {q : Request} (h : q.Mistaken b) : (q.step.perform b).2.Misnames := by
  obtain ⟨hgives, r, hr, hnot⟩ := h
  obtain ⟨op, span⟩ := q
  cases op with
  | call block dest func operands bounds =>
    refine misnames_of_append hgives hnot fun s hs => ?_
    simp only [bind_eq_ok, pure_eq_ok, forM_eq_ok] at hs
    obtain ⟨_, _, _, _, _, hfound, rfl⟩ := hs
    obtain ⟨edge, hedge, hside⟩ := List.mem_flatMap.mp hr
    obtain ⟨sub, hsub, sup, hsup, _⟩ := hfound edge hedge
    have hside : r = edge.1 ∨ r = edge.2 := by simpa using hside
    refine ⟨⟨_, mem_obligationsAt hedge, hside⟩, ?_⟩
    rcases hside with rfl | rfl
    · exact ⟨sub, regionNamed_eq_ok.mp hsub⟩
    · exact ⟨sup, regionNamed_eq_ok.mp hsup⟩
  | outlives block sub sup =>
    refine misnames_of_append hgives hnot fun s hs => ?_
    simp only [bind_eq_ok, pure_eq_ok] at hs
    obtain ⟨subKnown, hsub, supKnown, hsup, rfl⟩ := hs
    have hside : r = sub ∨ r = sup := by simpa [Operation.namedRegions] using hr
    refine ⟨⟨_, mem_obligationsAt (List.mem_singleton.mpr rfl), hside⟩, ?_⟩
    rcases hside with rfl | rfl
    · exact ⟨subKnown, regionNamed_eq_ok.mp hsub⟩
    · exact ⟨supKnown, regionNamed_eq_ok.mp hsup⟩
  | _ => cases hr

end Request

namespace Builder

/-! ## Finishing -/

/-- **When finishing is refused**: a draft does not pass its check exactly if the blocks
    are complete but some request brought in a region by its name only, and the region of
    that name was another one. -/
theorem finish_refused_iff (name : String) (span : Span) (qs : List Request) :
    (∃ fault, (after { name := name, span := span } qs).finish = .error (.draft fault)) ↔
      (∃ d, (after { name := name, span := span } qs).draft = .ok d) ∧
        ∃ before q rest, qs = before ++ q :: rest ∧
          q.Mistaken (after { name := name, span := span } before) := by
  constructor
  · rintro ⟨fault, hfault⟩
    constructor
    · cases hd : (after { name := name, span := span } qs).draft with
      | ok d => exact ⟨d, rfl⟩
      | error e => simp [finish, hd] at hfault
    · by_contra hnone
      push Not at hnone
      have hsound := (sound_new name span).after hnone
      exact hsound.finish_ne_draft fault hfault
  · rintro ⟨⟨d, hd⟩, before, q, rest, rfl, hq⟩
    have hgrows : (q.step.perform (after { name := name, span := span } before)).2.Grows
        (after { name := name, span := span } (before ++ q :: rest)) := by
      rw [after_append]
      exact grows_after _ rest
    have hnames := (grows_after { name := name, span := span } (before ++ q :: rest)).blockNames
      List.nodup_nil
    exact (hgrows.misnames hq.misnames).finish_eq_draft hnames hd

/-- A region `'a` of the body, and an obligation on a universal one of the same name. -/
def crossedRegions : List Request :=
  [{ operation := .declareRegion "'a" false }, { operation := .openBlock "bb0" },
    { operation := .outlives "bb0" ⟨"'a", true⟩ ⟨"'a", false⟩ }, { operation := .ret "bb0" }]

/-- All of these requests are met, and yet the draft that they end in is refused. -/
theorem finish_crossedRegions : (after { name := "f" } crossedRegions).finish = .error
    (.draft (.obligationRegion ⟨⟨"'a", true⟩, ⟨"'a", false⟩, some ⟨"bb0", 0⟩⟩ ⟨"'a", true⟩)) := by
  rfl

end Builder

end BorrowFlow
