import BorrowFlow.Proofs.Analysis
import BorrowFlow.Proofs.Builder.Change

/-! # Finishing a builder

    A sound builder whose blocks are complete becomes a draft that passes its check
    (`Builder.Sound.exists_check`), and the body can be analysed to the end: a block
    that issues a loan has its terminator besides, so there is room for the sweeps
    (`Builder.Sound.exists_findings`).
-/

namespace BorrowFlow

/-- If no terminator issues a loan, a body with loans has two points or more. -/
theorem Body.WellFormed.room {b : Body} (hb : b.WellFormed)
    (hloans : ∀ blk ∈ b.blocks, blk.terminator.loan = none) :
    2 ≤ b.points.length ∨ ∀ issue, ¬ b.Issues issue := by
  by_cases hissues : ∃ issue, b.Issues issue
  · left
    obtain ⟨issue, hissue⟩ := hissues
    obtain ⟨blk, hblk, i, hi, hp⟩ := Body.mem_points.mp (hb.mem_points_of_issues hissue)
    -- the loan stands at a statement, and the terminator comes after it
    have hlt : i < blk.statements.length := by
      by_contra hge
      have hlast : i = blk.statements.length := by
        rw [Block.size] at hi
        omega
      have hfacts : b.facts ⟨blk.name, i⟩ = blk.terminator.toStatement :=
        hb.facts_eq hblk (by simp [Block.facts, hlast])
      rw [Body.Issues, hp, hfacts, hloans blk hblk] at hissue
      cases hissue
    have hpoints : blk.points.length = blk.statements.length + 1 := by
      simp [Block.points, Block.size]
    obtain ⟨before, after, hsplit⟩ := List.append_of_mem hblk
    rw [Body.points, hsplit, List.flatMap_append, List.flatMap_cons, List.length_append,
      List.length_append]
    omega
  · exact Or.inr fun issue hissue => hissues ⟨issue, hissue⟩

/-- A complete block as it was while it was open. -/
def OpenBlock.ofBlock (blk : Block) : OpenBlock := ⟨blk.name, blk.statements, some blk.terminator⟩

theorem OpenBlock.ofBlock_injective : Function.Injective OpenBlock.ofBlock := by
  intro blk blk' h
  obtain ⟨name, statements, terminator⟩ := blk
  simp only [OpenBlock.ofBlock, OpenBlock.mk.injEq, Option.some.injEq] at h
  obtain ⟨rfl, rfl, rfl⟩ := h
  rfl

namespace Builder

variable {b : Builder}

/-! ## Complete blocks -/

theorem finishBlock_eq_ok {o : OpenBlock} {entry : String × DraftBlock}
    (h : b.finishBlock o = .ok entry) : ∃ blk : Block, o = .ofBlock blk ∧
      entry = (blk.name, Draft.ofBlock blk) ∧
      ∀ t ∈ blk.terminator.targets, (b.block? t).isSome = true := by
  rw [finishBlock] at h
  split at h
  · cases h
  · next t ht =>
    split at h
    · cases h
    · next hfind =>
      cases h
      refine ⟨⟨o.name, o.statements, t⟩, ?_, rfl, ?_⟩
      · rw [OpenBlock.ofBlock, ← ht]
      · intro target htarget
        have hknown := List.find?_eq_none.mp hfind target htarget
        simpa [Option.isSome_iff_ne_none] using hknown

/-- If all blocks are complete, they are listed by name as they are. -/
theorem finishBlocks_eq_ok {l : List OpenBlock} {entries : List (String × DraftBlock)}
    (h : l.mapM b.finishBlock = .ok entries) : ∃ blocks : List Block,
      l = blocks.map .ofBlock ∧ entries = blocks.map (fun blk => (blk.name, Draft.ofBlock blk)) ∧
      ∀ blk ∈ blocks, ∀ t ∈ blk.terminator.targets, (b.block? t).isSome = true := by
  induction l generalizing entries with
  | nil =>
    cases h
    exact ⟨[], rfl, rfl, by simp⟩
  | cons o l ih =>
    simp only [List.mapM_cons, bind_eq_ok, pure_eq_ok] at h
    obtain ⟨entry, hentry, rest, hrest, rfl⟩ := h
    obtain ⟨blk, rfl, rfl, htargets⟩ := finishBlock_eq_ok hentry
    obtain ⟨blocks, rfl, rfl, htargets'⟩ := ih hrest
    exact ⟨blk :: blocks, rfl, rfl, List.forall_mem_cons.mpr ⟨htargets, htargets'⟩⟩

/-- A draft lists the blocks of its builder. -/
structure Drafts (b : Builder) (d : Draft) (blocks : List Block) : Prop where
  name : d.name = b.name
  span : d.span = b.span
  locals : d.locals = b.locals
  regions : d.regions = b.regions
  bounds : d.bounds = b.bounds
  entry : b.entry? = some d.entry
  opened : b.blocks = blocks.map .ofBlock
  entries : d.blocks = .ofList (blocks.map fun blk => (blk.name, Draft.ofBlock blk))
  targets : ∀ blk ∈ blocks, ∀ t ∈ blk.terminator.targets, (b.block? t).isSome = true

theorem exists_drafts {d : Draft} (h : b.draft = .ok d) : ∃ blocks, b.Drafts d blocks := by
  rw [draft] at h
  split at h
  · cases h
  · next entry hentry =>
    simp only [bind_eq_ok, pure_eq_ok] at h
    obtain ⟨entries, hentries, rfl⟩ := h
    obtain ⟨blocks, hblocks, rfl, htargets⟩ := finishBlocks_eq_ok hentries
    exact ⟨blocks, rfl, rfl, rfl, rfl, rfl, hentry, hblocks, rfl, htargets⟩

/-- If no name repeats, every block is in the draft. -/
theorem Drafts.entries_eq {d : Draft} {blocks : List Block} (hd : b.Drafts d blocks)
    (hnames : (b.blocks.map OpenBlock.name).Nodup) :
    d.blocks.entries = blocks.map fun blk => (blk.name, Draft.ofBlock blk) := by
  rw [hd.entries]
  apply OrderedMap.entries_ofList
  rw [hd.opened, List.map_map] at hnames
  rw [List.map_map]
  exact hnames

/-! ## The draft passes its check -/

namespace Sound

variable {d : Draft} {blocks : List Block}

theorem entries_eq (hb : b.Sound) (hd : b.Drafts d blocks) :
    d.blocks.entries = blocks.map fun blk => (blk.name, Draft.ofBlock blk) :=
  hd.entries_eq hb.blockNames

theorem names_eq (hb : b.Sound) (hd : b.Drafts d blocks) :
    d.blocks.names = b.blocks.map OpenBlock.name := by
  rw [OrderedMap.names, hb.entries_eq hd, hd.opened, List.map_map, List.map_map]
  rfl

theorem ends_terminator (hb : b.Sound) (hd : b.Drafts d blocks) {blk : Block}
    (hblk : blk ∈ blocks) : Ends b.locals.names blk.terminator := by
  refine hb.ends (.ofBlock blk) ?_ _ rfl
  rw [hd.opened]
  exact List.mem_map_of_mem hblk

/-- The statements and the terminator of each block are in order. -/
theorem blockInOrder (hb : b.Sound) (hd : b.Drafts d blocks) {blk : Block} (hblk : blk ∈ blocks) :
    d.BlockInOrder blk where
  targets := by
    intro t ht
    obtain ⟨o, ho⟩ := Option.isSome_iff_exists.mp (hd.targets blk hblk t ht)
    obtain ⟨hmem, rfl⟩ := hb.block?_eq_some_iff.mp ho
    rw [hb.names_eq hd]
    exact List.mem_map_of_mem hmem
  facts := by
    have hends := hb.ends_terminator hd hblk
    have hopen : OpenBlock.ofBlock blk ∈ b.blocks := by
      rw [hd.opened]
      exact List.mem_map_of_mem hblk
    rw [hd.locals, hd.regions, Block.facts, inOrderFrom_append, inOrderFrom_cons]
    refine ⟨?_, ⟨hends.mentions, ?_, ?_⟩, by simp [InOrderFrom]⟩
    · intro i s hs
      rw [Nat.zero_add]
      exact hb.facts _ hopen i s hs
    · simp [hends.obligations]
    · simp [hends.loan]

theorem loanNames_eq (hb : b.Sound) (hd : b.Drafts d blocks) :
    blocks.flatMap Block.loanNames = b.loanNames := by
  rw [loanNames, hd.opened, List.flatMap_map]
  refine List.flatMap_congr fun blk hblk => ?_
  have hnone : blk.terminator.toStatement.loanNames = [] := by
    rw [Statement.loanNames, (hb.ends_terminator hd hblk).loan]
    rfl
  rw [Block.loanNames_eq, hnone, List.append_nil]
  rfl

/-- **The draft of a sound builder passes its check.** -/
theorem accepts (hb : b.Sound) (hd : b.Drafts d blocks) : d.Accepts blocks where
  entry := by
    have hentry := hd.entry
    unfold entry? at hentry
    rw [Option.map_eq_some_iff] at hentry
    obtain ⟨o, ho, hname⟩ := hentry
    rw [hb.names_eq hd, ← hname]
    exact List.mem_map_of_mem (List.mem_of_mem_head? ho)
  keys := by
    rw [Draft.KeyedRegions, hd.regions]
    exact hb.keys
  localRegions := by
    rw [hd.locals, hd.regions]
    exact fun v hv r hr => (hb.localRegions v hv r hr).mem_values
  bounds := by
    rw [hd.bounds, hd.regions]
    exact fun o ho => ⟨(hb.bounds o ho).1.mem_values, (hb.bounds o ho).2.mem_values⟩
  entries := hb.entries_eq hd
  inOrder := fun _ hblk => hb.blockInOrder hd hblk
  loanNames := by
    rw [hb.loanNames_eq hd]
    exact hb.loansDiffer

/-- A draft of a sound builder is never refused. -/
theorem finish_ne_draft (hb : b.Sound) (fault : DraftFault) : b.finish ≠ .error (.draft fault) := by
  rw [finish]
  cases hd : b.draft with
  | error e => simp
  | ok d =>
    obtain ⟨blocks, hblocks⟩ := exists_drafts hd
    have hcheck := Draft.check_eq_ok.mpr ⟨blocks, hb.accepts hblocks, rfl⟩
    simp [hcheck]

/-- A body that a sound builder finishes has its name and its span. -/
theorem of_finish (hb : b.Sound) {body : Body} (h : b.finish = .ok body) :
    body.WellFormed ∧ body.name = b.name ∧ body.span = b.span ∧
      ∀ blk ∈ body.blocks, blk.terminator.loan = none := by
  obtain ⟨d, hd, hcheck⟩ := finish_eq_ok.mp h
  obtain ⟨blocks, hblocks⟩ := exists_drafts hd
  have hok := Draft.check_eq_ok.mpr ⟨blocks, hb.accepts hblocks, rfl⟩
  obtain rfl : body = d.withBlocks blocks := Except.ok.inj (hcheck.symm.trans hok)
  exact ⟨Draft.wellFormed_of_check hcheck, hblocks.name, hblocks.span,
    fun blk hblk => (hb.ends_terminator hblocks hblk).loan⟩

/-- **A finished body can be analysed to the end.** -/
theorem exists_findings (hb : b.Sound) {body : Body} (h : b.finish = .ok body) (precise : Bool) :
    ∃ f, body.analyze { preciseDrops := precise } = .ok ⟨body, .complete f⟩ := by
  obtain ⟨hbody, _, _, hloans⟩ := hb.of_finish h
  exact hbody.exists_findings precise (hbody.room hloans)

end Sound

/-! ## What a builder finishes -/

theorem isSome_block?_iff {name : String} :
    (b.block? name).isSome = true ↔ name ∈ b.blocks.map OpenBlock.name := by
  rw [block?, List.find?_isSome, List.mem_map]
  simp

/-- Complete blocks are finished as they are. -/
theorem finishBlocks_ofBlock {blocks : List Block}
    (h : ∀ blk ∈ blocks, ∀ t ∈ blk.terminator.targets, (b.block? t).isSome = true) :
    (blocks.map OpenBlock.ofBlock).mapM b.finishBlock =
      .ok (blocks.map fun blk => (blk.name, Draft.ofBlock blk)) := by
  rw [List.mapM_map]
  apply mapM_eq_ok_map
  intro blk hblk
  have hfind : blk.terminator.targets.find? (fun t => (b.block? t).isNone) = none := by
    rw [List.find?_eq_none]
    intro t ht
    simpa using Option.isSome_iff_ne_none.mp (h blk hblk t ht)
  show b.finishBlock (.ofBlock blk) = .ok (blk.name, Draft.ofBlock blk)
  rw [finishBlock, OpenBlock.ofBlock]
  simp only [hfind]
  rfl

/-- The body of a builder whose blocks are complete. -/
def bodyOf (b : Builder) (blocks : List Block) : Body where
  name := b.name
  locals := b.locals.entries.map fun e => { e.2 with name := e.1 }
  regions := b.regions.values
  blocks := blocks
  entry := (blocks.head?.map Block.name).getD ""
  bounds := b.bounds
  span := b.span

/-- **A sound builder finishes** if it has blocks, all of them complete, and they jump to
    blocks that it has. -/
theorem Sound.finish_iff (hb : b.Sound) {body : Body} : b.finish = .ok body ↔
    ∃ blocks, blocks ≠ [] ∧ b.blocks = blocks.map .ofBlock ∧
      (∀ blk ∈ blocks, ∀ t ∈ blk.terminator.targets, t ∈ blocks.map Block.name) ∧
      body = b.bodyOf blocks := by
  have hnames : ∀ blocks : List Block, (blocks.map OpenBlock.ofBlock).map OpenBlock.name =
      blocks.map Block.name := by
    intro blocks
    rw [List.map_map]
    rfl
  constructor
  · intro h
    obtain ⟨d, hd, hcheck⟩ := finish_eq_ok.mp h
    obtain ⟨blocks, hblocks⟩ := exists_drafts hd
    have hok := Draft.check_eq_ok.mpr ⟨blocks, hb.accepts hblocks, rfl⟩
    obtain rfl : body = d.withBlocks blocks := Except.ok.inj (hcheck.symm.trans hok)
    have hentry := hblocks.entry
    unfold entry? at hentry
    rw [hblocks.opened, List.head?_map, Option.map_map] at hentry
    change blocks.head?.map Block.name = some d.entry at hentry
    refine ⟨blocks, ?_, hblocks.opened, fun blk hblk t ht => ?_, ?_⟩
    · rintro rfl
      cases hentry
    · have hsome := isSome_block?_iff.mp (hblocks.targets blk hblk t ht)
      rw [hblocks.opened, hnames] at hsome
      exact hsome
    · rw [bodyOf, Draft.withBlocks, Draft.listed, hentry, hblocks.name, hblocks.span,
        hblocks.locals, hblocks.regions, hblocks.bounds]
      rfl
  · rintro ⟨blocks, hne, hopened, htargets, rfl⟩
    have hsome : ∀ blk ∈ blocks, ∀ t ∈ blk.terminator.targets, (b.block? t).isSome = true := by
      intro blk hblk t ht
      rw [isSome_block?_iff, hopened, hnames]
      exact htargets blk hblk t ht
    obtain ⟨blk, rest, rfl⟩ := List.exists_cons_of_ne_nil hne
    have hentry : b.entry? = some blk.name := by
      unfold entry?
      rw [hopened]
      rfl
    have hblocks : b.blocks.mapM b.finishBlock =
        .ok ((blk :: rest).map fun blk => (blk.name, Draft.ofBlock blk)) := by
      rw [hopened]
      exact finishBlocks_ofBlock hsome
    have hdrafts : b.Drafts ⟨b.name, b.locals, b.regions,
        .ofList ((blk :: rest).map fun blk => (blk.name, Draft.ofBlock blk)), blk.name, b.bounds,
        b.span⟩ (blk :: rest) := ⟨rfl, rfl, rfl, rfl, rfl, hentry, hopened, rfl, hsome⟩
    refine finish_eq_ok.mpr ⟨_, ?_, Draft.check_eq_ok.mpr ⟨_, hb.accepts hdrafts, rfl⟩⟩
    rw [draft]
    simp only [hentry, hblocks]
    rfl

/-- The blocks of a finished body were blocks of the builder. -/
theorem ofBlock_mem_of_finish {body : Body} (hnames : (b.blocks.map OpenBlock.name).Nodup)
    (h : b.finish = .ok body) {blk : Block} (hblk : blk ∈ body.blocks) :
    OpenBlock.ofBlock blk ∈ b.blocks := by
  obtain ⟨d, hd, hcheck⟩ := finish_eq_ok.mp h
  obtain ⟨blocks, hblocks⟩ := exists_drafts hd
  obtain ⟨checked, haccepts, rfl⟩ := Draft.check_eq_ok.mp hcheck
  have hentry : (blk.name, Draft.ofBlock blk) ∈ d.blocks.entries := by
    rw [haccepts.entries]
    exact List.mem_map_of_mem hblk
  rw [hblocks.entries_eq hnames] at hentry
  obtain ⟨blk', hblk', heq⟩ := List.mem_map.mp hentry
  obtain rfl : blk' = blk := Draft.ofBlock_injective (congrArg Prod.snd heq)
  rw [hblocks.opened]
  exact List.mem_map_of_mem hblk'

/-! ## Why there is no draft -/

/-- If every block of the outline has its terminator, what is missing in a draft has
    the span of a terminator or of the function. -/
theorem span_of_finish_error {P : Span → Prop} {e : BuildError} (hspan : P b.span)
    (hclosed : ∀ entry ∈ b.outline, ∃ t, entry.2 = some t ∧ P t.span)
    (h : b.finish = .error (.build e)) : ∃ span, e.span = some span ∧ P span := by
  have hdraft : b.draft = .error e := by
    rw [finish] at h
    split at h
    · next hdraft =>
      cases h
      exact hdraft
    · split at h <;> cases h
  rw [draft] at hdraft
  split at hdraft
  · cases hdraft
    exact ⟨b.span, rfl, hspan⟩
  · cases hblocks : b.blocks.mapM b.finishBlock with
    | ok entries =>
      rw [hblocks] at hdraft
      cases hdraft
    | error e' =>
      rw [hblocks] at hdraft
      cases hdraft
      obtain ⟨o, ho, herror⟩ := exists_of_mapM_error hblocks
      obtain ⟨t, ht, hP⟩ := hclosed (o.name, o.terminator) (List.mem_map_of_mem ho)
      dsimp only at ht
      rw [finishBlock, ht] at herror
      dsimp only at herror
      split at herror
      · cases herror
        exact ⟨t.span, rfl, hP⟩
      · cases herror

end Builder

end BorrowFlow
