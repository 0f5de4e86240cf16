import BorrowFlow.Proofs.Builder.Finish
import BorrowFlow.Proofs.Builder.Outcome
import Mathlib.Data.List.Forall2

/-! # Steps that do not look at spans

    A span is recorded and never looked at: `unplaced` forgets all spans, and builders are
    `Alike` if they agree but for these.  What a step does on a builder it also does, with
    the same answer, on one that is alike (`BuildM.Replays`), whatever spans it is given.
-/

namespace BorrowFlow

/-! ## Forgetting spans -/

/-- The statement without its span. -/
def Statement.unplaced (s : Statement) : Statement := { s with span := {} }

/-- The terminator without its span. -/
def Terminator.unplaced (t : Terminator) : Terminator := { t with span := {} }

/-- The block without spans. -/
def Block.unplaced (blk : Block) : Block :=
  ⟨blk.name, blk.statements.map Statement.unplaced, blk.terminator.unplaced⟩

/-- **The body without spans**: everything else of it stays. -/
def Body.unplaced (b : Body) : Body := { b with blocks := b.blocks.map Block.unplaced, span := {} }

/-- The open block without spans. -/
def OpenBlock.unplaced (blk : OpenBlock) : OpenBlock :=
  ⟨blk.name, blk.statements.map Statement.unplaced, blk.terminator.map Terminator.unplaced⟩

namespace Builder

/-- The builder without spans. -/
def unplaced (b : Builder) : Builder :=
  { b with span := {}, blocks := b.blocks.map OpenBlock.unplaced }

theorem block?_unplaced (b : Builder) (name : String) :
    b.unplaced.block? name = (b.block? name).map OpenBlock.unplaced := by
  rw [block?, block?, unplaced, List.find?_map]
  rfl

theorem nextPoint_unplaced (b : Builder) (block : String) :
    b.unplaced.nextPoint block = b.nextPoint block := by
  rw [nextPoint, nextPoint, block?_unplaced]
  cases b.block? block with
  | none => rfl
  | some blk => simp [OpenBlock.nextPoint, OpenBlock.unplaced]

theorem isOpen_unplaced {b : Builder} {block : String} :
    b.unplaced.IsOpen block ↔ b.IsOpen block := by
  rw [IsOpen, IsOpen, block?_unplaced]
  cases b.block? block with
  | none => simp
  | some blk => simp [OpenBlock.unplaced]

theorem operandsFacts_unplaced (b : Builder) (ops : List Operand) :
    b.unplaced.operandsFacts ops = b.operandsFacts ops := by
  induction ops with
  | nil => rfl
  | cons op ops ih =>
    rw [operandsFacts, operandsFacts, ih]
    rfl

theorem reborrowEdges_unplaced (b : Builder) (target : Region) (bases : List Place) :
    b.unplaced.reborrowEdges target bases = b.reborrowEdges target bases := by
  induction bases with
  | nil => rfl
  | cons base bases ih =>
    rw [reborrowEdges, reborrowEdges, ih]
    rfl

/-- **Builders that agree but for spans.** -/
def Alike (b c : Builder) : Prop := c.unplaced = b.unplaced

variable {b c : Builder}

/-- What does not look at spans has the same answer on builders that are alike. -/
theorem Alike.congr {α : Type} (h : b.Alike c) (ask : Builder → α)
    (hask : ∀ b, ask b.unplaced = ask b) : ask c = ask b := by
  rw [← hask c, h, hask]

/-- What does not look at spans makes like builders of like ones. -/
theorem Alike.update (h : b.Alike c) (f : Builder → Builder)
    (hf : ∀ b, (f b).unplaced = f b.unplaced) : (f b).Alike (f c) := by
  rw [Alike, hf, hf, h]

theorem unplaced_updateBlock (b : Builder) (block : String) {f g : OpenBlock → OpenBlock}
    (hf : ∀ blk, (f blk).unplaced = g blk.unplaced) :
    (b.updateBlock block f).unplaced = b.unplaced.updateBlock block g := by
  have heach : ∀ blk : OpenBlock, (if blk.name = block then f blk else blk).unplaced =
      if blk.unplaced.name = block then g blk.unplaced else blk.unplaced := by
    intro blk
    by_cases hname : blk.name = block
    · rw [if_pos hname, if_pos (show blk.unplaced.name = block from hname), hf]
    · rw [if_neg hname, if_neg (show ¬ blk.unplaced.name = block from hname)]
  simp only [updateBlock, unplaced, List.map_map, Function.comp_def, heach]

end Builder

/-! ## Steps on like builders -/

namespace BuildM

open Builder

variable {α α' β β' : Type} {b c : Builder}

/-- **What `x` does from `b` on, `y` does from `c` on**: it gives an answer that goes with
    the other by `R`, and leaves a builder behind that is alike. -/
def Replays (R : α → α' → Prop) (b c : Builder) (x : BuildM α) (y : BuildM α') : Prop :=
  ∀ a b', Gives x b a b' → ∃ a' c', Gives y c a' c' ∧ R a a' ∧ b'.Alike c'

variable {R : α → α' → Prop} {S : β → β' → Prop} {x : BuildM α} {y : BuildM α'}

theorem replays_pure (h : b.Alike c) {a : α} {a' : α'} (ha : R a a') :
    Replays R b c (pure a) (pure a') := by
  intro _ _ hgives
  obtain ⟨rfl, rfl⟩ := gives_pure.mp hgives
  exact ⟨a', c, gives_pure.mpr ⟨rfl, rfl⟩, ha, h⟩

theorem replays_throw {e e' : BuildError} : Replays R b c (throw e) (throw e') :=
  fun _ _ hgives => absurd hgives gives_throw

/-- **Two steps in a row** are replayed one by one. -/
theorem Replays.bind {f : α → BuildM β} {g : α' → BuildM β'} (h : Replays R b c x y)
    (hnext : ∀ a a' b' c', R a a' → b'.Alike c' → Replays S b' c' (f a) (g a')) :
    Replays S b c (x >>= f) (y >>= g) := by
  intro d b'' hgives
  obtain ⟨a, b', hx, hf⟩ := gives_bind.mp hgives
  obtain ⟨a', c', hy, ha, halike⟩ := h a b' hx
  obtain ⟨d', c'', hg, hd, halike'⟩ := hnext a a' b' c' ha halike d b'' hf
  exact ⟨d', c'', gives_bind.mpr ⟨a', c', hy, hg⟩, hd, halike'⟩

/-- The answer of a step may be left aside. -/
theorem Replays.ignored (h : Replays R b c x y) :
    Replays Eq b c (do let _ ← x) (do let _ ← y) :=
  h.bind fun _ _ _ _ _ h' => replays_pure h' rfl

theorem replays_get_bind {f : Builder → BuildM α} {g : Builder → BuildM α'}
    (h : Replays R b c (f b) (g c)) : Replays R b c (get >>= f) (get >>= g) := h

/-- **A question that does not look at spans** has the same answer. -/
theorem replays_derive (h : b.Alike c) {span span' : Option Span}
    {ask : Builder → Except BuildFault α} (hask : ∀ b, ask b.unplaced = ask b) :
    Replays Eq b c (derive span ask) (derive span' ask) := by
  intro a b' hgives
  obtain ⟨ha, rfl⟩ := gives_derive.mp hgives
  exact ⟨a, c, gives_derive.mpr ⟨(h.congr ask hask).trans ha, rfl⟩, rfl, h⟩

/-- **A loop** is replayed round by round. -/
theorem replays_forM {f : α → BuildM Unit} {g : α' → BuildM Unit}
    (hstep : ∀ a a' b c, R a a' → b.Alike c → Replays Eq b c (f a) (g a')) {l : List α}
    {l' : List α'} (hl : List.Forall₂ R l l') (h : b.Alike c) :
    Replays Eq b c (l.forM f) (l'.forM g) := by
  induction hl generalizing b c with
  | nil => exact replays_pure h rfl
  | cons ha _ ih => exact (hstep _ _ b c ha h).bind fun _ _ _ _ _ h' => ih h'

/-- A loop that gathers answers is replayed round by round. -/
theorem replays_mapM {f : α → BuildM β} {g : α' → BuildM β}
    (hstep : ∀ a a' b c, R a a' → b.Alike c → Replays Eq b c (f a) (g a')) {l : List α}
    {l' : List α'} (hl : List.Forall₂ R l l') (h : b.Alike c) :
    Replays Eq b c (l.mapM f) (l'.mapM g) := by
  induction hl generalizing b c with
  | nil => exact replays_pure h rfl
  | cons ha _ ih =>
    rw [List.mapM_cons, List.mapM_cons]
    refine (hstep _ _ b c ha h).bind fun x _ _ _ hx h' => (ih h').bind fun xs _ _ _ hxs h'' => ?_
    exact replays_pure h'' (by rw [hx, hxs])

end BuildM

/-- **If the second way to go on follows the first**, it does so after any start. -/
theorem exists_ok_bind {ε α β : Type} {x : Except ε α} {f f' : α → Except ε β} {R : β → β → Prop}
    (h : ∀ a d, f a = .ok d → ∃ d', f' a = .ok d' ∧ R d d') :
    ∀ d, (x >>= f) = .ok d → ∃ d', (x >>= f') = .ok d' ∧ R d d' := by
  intro d hd
  obtain ⟨a, hx, hf⟩ := bind_eq_ok.mp hd
  obtain ⟨d', hf', hR⟩ := h a d hf
  exact ⟨d', bind_eq_ok.mpr ⟨a, hx, hf'⟩, hR⟩

namespace Builder

open BuildM

variable {b c : Builder} {span span' : Option Span}

/-! ## Declarations -/

theorem replays_adopt (h : b.Alike c) (r : Region) :
    Replays Eq b c (adopt span r) (adopt span' r) := by
  have hregion : c.region? r.name = b.region? r.name := h.congr (·.region? r.name) fun _ => rfl
  intro u b' hgives
  rcases gives_adopt.mp hgives with ⟨hdeclared, rfl⟩ | ⟨hnew, rfl⟩
  · exact ⟨u, c, gives_adopt.mpr (Or.inl ⟨hregion.trans hdeclared, rfl⟩), rfl, h⟩
  · refine ⟨u, _, gives_adopt.mpr (Or.inr ⟨hregion.trans hnew, rfl⟩), rfl, ?_⟩
    exact h.update (fun b => { b with regions := b.regions.insert r.name r }) fun _ => rfl

theorem replays_declare (h : b.Alike c) (name : String) (ty : Ty) (drops : Option (List Region))
    (param : Bool) :
    Replays Eq b c (declare name ty drops param span) (declare name ty drops param span') := by
  have hcontains : c.locals.contains name = b.locals.contains name :=
    h.congr (·.locals.contains name) fun _ => rfl
  intro v b' hgives
  obtain ⟨hnew, hdrops, rfl, m, hadopt, rfl⟩ := gives_declare.mp hgives
  have hregions : Replays Eq b c (ty.regions.forM (adopt span)) (ty.regions.forM (adopt span')) :=
    replays_forM (R := Eq) (fun r _ _ _ hr h' => hr ▸ replays_adopt h' r) (List.forall₂_refl _) h
  obtain ⟨_, m', hadopt', _, halike⟩ := hregions () m hadopt
  refine ⟨_, _, gives_declare.mpr ⟨hcontains.trans hnew, hdrops, rfl, m', hadopt', rfl⟩, rfl, ?_⟩
  exact halike.update (fun m => { m with locals := m.locals.insert name _ }) fun _ => rfl

theorem replays_openBlock (h : b.Alike c) (name : String) :
    Replays Eq b c (openBlock name span) (openBlock name span') := by
  intro u b' hgives
  obtain ⟨hnew, rfl⟩ := gives_openBlock.mp hgives
  -- the blocks of the two builders differ, but not in their names
  have hnew' : c.block? name = none := by
    have hmap : (c.block? name).map OpenBlock.unplaced =
        (b.block? name).map OpenBlock.unplaced := by
      rw [← block?_unplaced, ← block?_unplaced, h]
    rw [hnew] at hmap
    exact Option.map_eq_none_iff.mp hmap
  refine ⟨u, _, gives_openBlock.mpr ⟨hnew', rfl⟩, rfl, ?_⟩
  refine h.update (fun b => { b with blocks := b.blocks ++ [⟨name, [], none⟩] }) fun b => ?_
  simp [unplaced, OpenBlock.unplaced]

/-! ## Statements and terminators -/

theorem isOpen_of_alike (h : b.Alike c) {block : String} (hopen : b.IsOpen block) :
    c.IsOpen block := by
  rw [← isOpen_unplaced, h, isOpen_unplaced]
  exact hopen

/-- The statements agree but for their spans. -/
abbrev SameStatement (s s' : Statement) : Prop := s'.unplaced = s.unplaced

/-- The terminators agree but for their spans. -/
abbrev SameTerminator (t t' : Terminator) : Prop := t'.unplaced = t.unplaced

/-- **A statement is appended again** if it is derived without a look at spans. -/
theorem replays_append (h : b.Alike c) {block : String}
    {derive derive' : Builder → Except BuildFault Statement}
    (hspan : ∀ b s, derive b = .ok s → ∃ s', derive' b = .ok s' ∧ SameStatement s s')
    (hask : ∀ b, derive' b.unplaced = derive' b) :
    Replays SameStatement b c (append block span derive) (append block span' derive') := by
  intro s b' hgives
  obtain ⟨hs, hopen, rfl⟩ := gives_append.mp hgives
  obtain ⟨s', hs', heq⟩ := hspan b s hs
  have hderive : derive' c = .ok s' := (h.congr derive' hask).trans hs'
  refine ⟨s', _, gives_append.mpr ⟨hderive, isOpen_of_alike h hopen, rfl⟩, heq, ?_⟩
  have hpush : ∀ (b : Builder) (s : Statement), (b.updateBlock block (·.push s)).unplaced =
      b.unplaced.updateBlock block (·.push s.unplaced) := by
    intro b s
    refine unplaced_updateBlock b block fun blk => ?_
    simp [OpenBlock.push, OpenBlock.unplaced]
  rw [Alike, hpush, hpush, heq, h]

/-- **A block is ended again** if the terminator is derived without a look at spans. -/
theorem replays_terminate (h : b.Alike c) {block : String}
    {derive derive' : Builder → Except BuildFault Terminator}
    (hspan : ∀ b t, derive b = .ok t → ∃ t', derive' b = .ok t' ∧ SameTerminator t t')
    (hask : ∀ b, derive' b.unplaced = derive' b) :
    Replays SameTerminator b c (terminate block span derive) (terminate block span' derive') := by
  intro t b' hgives
  obtain ⟨ht, hopen, rfl⟩ := gives_terminate.mp hgives
  obtain ⟨t', ht', heq⟩ := hspan b t ht
  have hderive : derive' c = .ok t' := (h.congr derive' hask).trans ht'
  refine ⟨t', _, gives_terminate.mpr ⟨hderive, isOpen_of_alike h hopen, rfl⟩, heq, ?_⟩
  have hclose : ∀ (b : Builder) (t : Terminator), (b.updateBlock block (·.close t)).unplaced =
      b.unplaced.updateBlock block (·.close t.unplaced) :=
    fun b t => unplaced_updateBlock b block fun _ => rfl
  rw [Alike, hclose, hclose, heq, h]

theorem replays_nextLoanName (h : b.Alike c) : Replays Eq b c nextLoanName nextLoanName := by
  have hcount : c.loanCount = b.loanCount := h.congr Builder.loanCount fun _ => rfl
  intro name b' hgives
  obtain ⟨rfl, rfl⟩ := gives_nextLoanName.mp hgives
  refine ⟨_, _, gives_nextLoanName.mpr ⟨rfl, rfl⟩, by rw [hcount], ?_⟩
  exact h.update (fun b => { b with loanCount := b.loanCount + 1 }) fun _ => rfl

/-- **A borrow** takes the same loan name at the same point. -/
theorem replays_borrow (h : b.Alike c) (block : String) (dest place : Place) (mutable : Bool) :
    Replays Eq b c (borrow block dest place mutable span)
      (borrow block dest place mutable span') := by
  rw [borrow, borrow]
  refine (replays_derive h fun _ => rfl).bind fun found _ b₁ c₁ hfound h₁ => ?_
  subst hfound
  obtain ⟨target, referent⟩ := found
  refine (replays_nextLoanName h₁).bind fun name _ b₂ c₂ hname h₂ => ?_
  subst hname
  refine replays_get_bind ?_
  -- the loan carries its point, which counts statements and not lines
  have hpoint : c₂.nextPoint block = b₂.nextPoint block :=
    h₂.congr (·.nextPoint block) fun b => b.nextPoint_unplaced block
  rw [hpoint]
  refine (replays_append h₂ (fun b => ?_) fun b => ?_).bind fun _ _ _ _ _ h₃ => replays_pure h₃ rfl
  · rw [borrowStatement, borrowStatement]
    refine exists_ok_bind fun _ => exists_ok_bind fun _ => exists_ok_bind fun _ =>
      exists_ok_bind fun _ s hs => ⟨_, rfl, ?_⟩
    cases hs
    rfl
  · simp only [borrowStatement, reborrowEdges_unplaced]
    rfl

theorem replays_assign (h : b.Alike c) (block : String) (dest : Place) (src : Operand) :
    Replays SameStatement b c (assign block dest src span) (assign block dest src span') := by
  refine replays_append h (fun b => ?_) fun b => ?_
  · refine exists_ok_bind fun _ => exists_ok_bind fun _ => exists_ok_bind fun _ s hs =>
      ⟨_, rfl, ?_⟩
    cases hs
    rfl
  · simp only [nextPoint_unplaced]
    rfl

/-- **A call** may leave out bounds that are given twice. -/
theorem replays_call (h : b.Alike c) (block : String) (dest : Place) (func : String)
    (operands : List Operand) {bounds bounds' : List RegionEdge}
    (hmem : ∀ e ∈ bounds', e ∈ bounds)
    (hobligations : ∀ p, obligationsAt p bounds' = obligationsAt p bounds) :
    Replays SameStatement b c (call block dest func operands bounds span)
      (call block dest func operands bounds' span') := by
  refine replays_append h (fun b => ?_) fun b => ?_
  · refine exists_ok_bind fun _ => exists_ok_bind fun _ s hs => ?_
    obtain ⟨_, hknown, hs⟩ := bind_eq_ok.mp hs
    refine ⟨_, bind_eq_ok.mpr ⟨(), ?_, rfl⟩, ?_⟩
    -- every bound that is left was checked the first time
    · exact forM_eq_ok.mpr fun e he => forM_eq_ok.mp hknown e (hmem e he)
    · cases hs
      simp only [SameStatement, Statement.unplaced, hobligations]
  · simp only [nextPoint_unplaced, operandsFacts_unplaced]
    rfl

theorem replays_use (h : b.Alike c) (block : String) (operands : List Operand) :
    Replays SameStatement b c (use block operands span) (use block operands span') := by
  refine replays_append h (fun b => ?_) fun b => ?_
  · refine exists_ok_bind fun _ s hs => ⟨_, rfl, ?_⟩
    cases hs
    rfl
  · simp only [operandsFacts_unplaced]

theorem replays_drop (h : b.Alike c) (block var : String) :
    Replays SameStatement b c (drop block var span) (drop block var span') := by
  refine replays_append h (fun b => ?_) fun _ => rfl
  refine exists_ok_bind fun _ s hs => ⟨_, rfl, ?_⟩
  cases hs
  rfl

theorem replays_storageDead (h : b.Alike c) (block var : String) :
    Replays SameStatement b c (storageDead block var span) (storageDead block var span') := by
  refine replays_append h (fun b => ?_) fun _ => rfl
  refine exists_ok_bind fun _ s hs => ⟨_, rfl, ?_⟩
  cases hs
  rfl

theorem replays_outlives (h : b.Alike c) (block : String) (sub sup : Region) :
    Replays SameStatement b c (outlives block sub sup span) (outlives block sub sup span') := by
  refine replays_append h (fun b => ?_) fun b => ?_
  · refine exists_ok_bind fun _ => exists_ok_bind fun _ s hs => ⟨_, rfl, ?_⟩
    cases hs
    rfl
  · simp only [nextPoint_unplaced]
    rfl

theorem replays_nop (h : b.Alike c) (block : String) :
    Replays SameStatement b c (nop block span) (nop block span') := by
  refine replays_append h (fun b s hs => ⟨_, rfl, ?_⟩) fun _ => rfl
  cases hs
  rfl

theorem replays_goto (h : b.Alike c) (block target : String) :
    Replays SameTerminator b c (goto block target span) (goto block target span') := by
  refine replays_terminate h (fun b t ht => ⟨_, rfl, ?_⟩) fun _ => rfl
  cases ht
  rfl

theorem replays_branch (h : b.Alike c) (block : String) (targets : List String)
    (cond : Option Operand) :
    Replays SameTerminator b c (branch block targets cond span)
      (branch block targets cond span') := by
  refine replays_terminate h (fun b => ?_) fun b => ?_
  · refine exists_ok_bind fun _ t ht => ⟨_, rfl, ?_⟩
    cases ht
    rfl
  · simp only [operandsFacts_unplaced]

theorem replays_ret (h : b.Alike c) (block : String) :
    Replays SameTerminator b c (ret block span) (ret block span') := by
  refine replays_terminate h (fun b t ht => ⟨_, rfl, ?_⟩) fun _ => rfl
  cases ht
  rfl

theorem replays_unreachable (h : b.Alike c) (block : String) :
    Replays SameTerminator b c (unreachable block span) (unreachable block span') := by
  refine replays_terminate h (fun b t ht => ⟨_, rfl, ?_⟩) fun _ => rfl
  cases ht
  rfl

/-! ## Finishing -/

/-- A block that is complete without spans is complete with them. -/
theorem exists_ofBlock {l : List OpenBlock} {blocks : List Block}
    (h : l.map OpenBlock.unplaced = (blocks.map OpenBlock.ofBlock).map OpenBlock.unplaced) :
    ∃ blocks' : List Block, l = blocks'.map .ofBlock ∧
      blocks'.map Block.unplaced = blocks.map Block.unplaced := by
  induction blocks generalizing l with
  | nil => exact ⟨[], List.map_eq_nil_iff.mp h, rfl⟩
  | cons blk blocks ih =>
    cases l with
    | nil => cases h
    | cons o l =>
      rw [List.map_cons, List.map_cons, List.map_cons, List.cons.injEq] at h
      obtain ⟨hhead, hrest⟩ := h
      obtain ⟨blocks', rfl, hblocks⟩ := ih hrest
      simp only [OpenBlock.unplaced, OpenBlock.ofBlock, OpenBlock.mk.injEq] at hhead
      obtain ⟨hname, hstatements, hterminator⟩ := hhead
      obtain ⟨t, ht, hlast⟩ := Option.map_eq_some_iff.mp hterminator
      refine ⟨⟨o.name, o.statements, t⟩ :: blocks', ?_, ?_⟩
      · rw [List.map_cons, OpenBlock.ofBlock, ← ht]
      · rw [List.map_cons, List.map_cons, hblocks]
        simp only [Block.unplaced, hname, hstatements, hlast]

/-- **Like builders finish like bodies.** -/
theorem Alike.finish (h : b.Alike c) (hb : b.Sound) (hc : c.Sound) {body : Body}
    (hfinish : b.finish = .ok body) :
    ∃ body', c.finish = .ok body' ∧ body'.unplaced = body.unplaced := by
  obtain ⟨blocks, hne, hopened, htargets, rfl⟩ := hb.finish_iff.mp hfinish
  have hblocks : c.blocks.map OpenBlock.unplaced = b.blocks.map OpenBlock.unplaced :=
    congrArg Builder.blocks h
  rw [hopened] at hblocks
  obtain ⟨blocks', hopened', hsame⟩ := exists_ofBlock hblocks
  -- targets are looked up by name, and so is the entry
  have hnames : blocks'.map Block.name = blocks.map Block.name := by
    have hcomp := congrArg (List.map Block.name) hsame
    rw [List.map_map, List.map_map] at hcomp
    exact hcomp
  refine ⟨c.bodyOf blocks', hc.finish_iff.mpr ⟨blocks', ?_, hopened', ?_, rfl⟩, ?_⟩
  · rintro rfl
    exact hne (List.map_eq_nil_iff.mp hsame.symm)
  · intro blk' hblk' t ht
    have hmem : blk'.unplaced ∈ blocks.map Block.unplaced := hsame ▸ List.mem_map_of_mem hblk'
    obtain ⟨blk, hblk, heq⟩ := List.mem_map.mp hmem
    rw [hnames]
    refine htargets blk hblk t ?_
    show t ∈ blk.unplaced.terminator.targets
    rw [heq]
    exact ht
  · have hentry : blocks'.head?.map Block.name = blocks.head?.map Block.name := by
      rw [← List.head?_map, ← List.head?_map, hnames]
    have hname : c.name = b.name := h.congr Builder.name fun _ => rfl
    have hlocals : c.locals = b.locals := h.congr Builder.locals fun _ => rfl
    have hregions : c.regions = b.regions := h.congr Builder.regions fun _ => rfl
    have hbounds : c.bounds = b.bounds := h.congr Builder.bounds fun _ => rfl
    simp only [Body.unplaced, bodyOf, hsame, hentry, hname, hlocals, hregions, hbounds]

end Builder

end BorrowFlow
