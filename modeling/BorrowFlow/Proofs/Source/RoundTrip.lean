import BorrowFlow.Proofs.Source.Replay

/-! # Writing down a body and reading it again

    A body keeps all that its source text said: `Body.source` writes it down again.  Each
    step of elaboration adds to a builder what there is to write of its piece of the text
    (`Builder.listing`), so a body is written as the function it comes from
    (`listing_of_body`).  That text is parsed to a function that says the same, and this
    one has the same body: reading takes back what writing does
    (`read_source_of_read`).
-/

namespace BorrowFlow

open Source BuildM

/-! ## The text of a body -/

/-- The names of the regions of an obligation. -/
def Obligation.names (o : Obligation) : String × String := (o.sub.name, o.sup.name)

/-- A statement as a source text has it.  The text of a call leaves out its bounds. -/
def Statement.source (s : Statement) : String :=
  if s.kind = "call" then s.text ++ whereText (s.obligations.map fun o => boundText o.names)
  else s.text

namespace Variable

/-- A parameter with its type. -/
def paramEntry (v : Variable) : String × String := (v.name, v.ty.render)

/-- A declared local with its type and its drops. -/
def letEntry (v : Variable) : String × String × Option (List String) :=
  (v.name, v.ty.render, v.drops.map fun rs => rs.map Region.name)

end Variable

/-- **What there is to write of a body.** -/
def Body.listing (b : Body) : Listing where
  name := b.name
  params := (b.locals.filter Variable.param).map Variable.paramEntry
  bounds := b.bounds.map Obligation.render
  lets := (b.locals.filter fun v => !v.param).map Variable.letEntry
  blocks := b.blocks.map fun blk =>
    (blk.name, blk.statements.map Statement.source, blk.terminator.text)

/-- **The source text of a body.** -/
def Body.source (b : Body) : String := b.listing.text

namespace Source.Listing

/-- The listing with more parameters, declarations and blocks. -/
def extend (l : Listing) (ps : List (String × String))
    (ds : List (String × String × Option (List String)))
    (bs : List (String × List String × String)) : Listing :=
  { l with params := l.params ++ ps, lets := l.lets ++ ds, blocks := l.blocks ++ bs }

theorem extend_nil (l : Listing) : l.extend [] [] [] = l := by simp [extend]

theorem extend_extend (l : Listing) (ps ps' : List (String × String))
    (ds ds' : List (String × String × Option (List String)))
    (bs bs' : List (String × List String × String)) :
    (l.extend ps ds bs).extend ps' ds' bs' = l.extend (ps ++ ps') (ds ++ ds') (bs ++ bs') := by
  simp [extend]

end Source.Listing

namespace Builder

variable {b b' : Builder}

/-! ## The listing of a builder -/

/-- The variables that have been declared. -/
def vars (b : Builder) : List Variable := b.locals.entries.map fun e => { e.2 with name := e.1 }

/-- What there is to write so far. -/
def listing (b : Builder) : Listing where
  name := b.name
  params := (b.vars.filter Variable.param).map Variable.paramEntry
  bounds := b.bounds.map Obligation.render
  lets := (b.vars.filter fun v => !v.param).map Variable.letEntry
  blocks := b.blocks.map fun blk =>
    (blk.name, blk.statements.map Statement.source, (blk.terminator.map (·.text)).getD "")

theorem listing_bodyOf {blocks : List Block} (h : b.blocks = blocks.map .ofBlock) :
    (b.bodyOf blocks).listing = b.listing := by
  unfold Body.listing listing bodyOf
  rw [h, List.map_map]
  rfl

theorem Declared.vars_eq {v : Variable} (h : b.Declared v b') :
    b'.vars = b.vars ++ [v] := by
  obtain ⟨hnew, heq⟩ := h
  rw [heq, vars, vars, OrderedMap.entries_insert_of_not_mem v hnew, List.map_append]
  rfl

theorem Declared.listing_param {v : Variable} (h : b.Declared v b') (hv : v.param = true) :
    b'.listing = b.listing.extend [v.paramEntry] [] [] := by
  have hvars := h.vars_eq
  obtain ⟨_, heq⟩ := h
  unfold listing
  rw [hvars, heq]
  simp [Listing.extend, hv]

theorem Declared.listing_let {v : Variable} (h : b.Declared v b') (hv : v.param = false) :
    b'.listing = b.listing.extend [] [v.letEntry] [] := by
  have hvars := h.vars_eq
  obtain ⟨_, heq⟩ := h
  unfold listing
  rw [hvars, heq]
  simp [Listing.extend, hv]

/-- The block that was opened last changes alone. -/
theorem updateBlock_last {earlier : List OpenBlock} {blk : OpenBlock}
    (hblocks : b.blocks = earlier ++ [blk]) (hnew : ∀ o ∈ earlier, o.name ≠ blk.name)
    (f : OpenBlock → OpenBlock) :
    b.updateBlock blk.name f = { b with blocks := earlier ++ [f blk] } := by
  unfold updateBlock
  rw [hblocks, List.map_append, List.map_singleton, if_pos rfl]
  have hearlier : (earlier.map fun o => if o.name = blk.name then f o else o) = earlier := by
    rw [List.map_congr_left fun o ho => if_neg (hnew o ho), List.map_id']
  rw [hearlier]

end Builder

namespace Source

open Builder

variable {file : Option String} {b b' : Builder}

theorem render_boundOf (e : RegionEdge) : (boundOf e).render = boundText (boundOf e).names := by
  simp [boundOf, Obligation.render, boundText, Obligation.names]

/-! ## Statements -/

/-- The bounds of a call are written as they were, each once. -/
theorem names_obligationsAt {m : Builder} (hm : m.Sound) {bounds : List BoundExpr} (p : Point)
    (h : ∀ e ∈ bounds, m.KnowsBoth e.names) :
    (obligationsAt p (bounds.map fun e => m.edgeOf e.names)).map Obligation.names =
      distinctNames bounds := by
  rw [obligationsAt_distinctNames, distinctNames, eraseDups_map_eraseDups]
  refine map_eraseDups_map fun names hnames => ?_
  obtain ⟨e, he, rfl⟩ := List.mem_map.mp hnames
  exact Prod.ext (hm.name_regionOf (h e he).1) (hm.name_regionOf (h e he).2)

/-- **The statement is recorded like this**: a source text has it so, and it knows its span. -/
def Records (text : String) (span : Option Span) (s : Statement) : Prop :=
  s.source = text ∧ s.span = span.getD {}

/-- **The step appends one statement**, which is recorded like this. -/
def Appends {α : Type} (b : Builder) (block text : String) (span : Option Span)
    (step : BuildM α) : Prop :=
  ∀ a b', Gives step b a b' → ∃ s : Statement, Records text span s ∧
    b' = { b.updateBlock block (·.push s) with loanCount := b'.loanCount }

theorem appends_append {block text : String} {span : Option Span}
    {derive : Builder → Except BuildFault Statement}
    (h : ∀ s, derive b = .ok s → Records text span s) :
    Appends b block text span (append block span derive) := by
  intro s b' hgives
  obtain ⟨hs, _, rfl⟩ := gives_append.mp hgives
  exact ⟨s, h s hs, rfl⟩

theorem Appends.ignored {α : Type} {block text : String} {span : Option Span} {step : BuildM α}
    (h : Appends b block text span step) : Appends b block text span (do let _ ← step) := by
  intro u b' hgives
  obtain ⟨a, m, hstep, hpure⟩ := gives_bind.mp hgives
  obtain ⟨_, rfl⟩ := gives_pure.mp hpure
  exact h a m hstep

/-- **What holds however it goes on** holds after any start. -/
theorem forall_ok_bind {ε α β : Type} {x : Except ε α} {f : α → Except ε β} {P : β → Prop}
    (h : ∀ a d, f a = .ok d → P d) : ∀ d, (x >>= f) = .ok d → P d := by
  intro d hd
  obtain ⟨a, _, hf⟩ := bind_eq_ok.mp hd
  exact h a d hf

theorem records_borrowStatement {loan : Loan} {dest : Place} {target : Region} {referent : Ty}
    {span : Option Span} : ∀ s, b.borrowStatement loan dest target referent span = .ok s →
      Records (dest.render ++ " = " ++ (if loan.isMutable then "&mut " else "&") ++
        loan.place.render) span s := by
  unfold borrowStatement
  refine forall_ok_bind fun _ => forall_ok_bind fun _ => forall_ok_bind fun _ => forall_ok_bind
    fun _ s hs => ?_
  cases hs
  exact ⟨rfl, rfl⟩

theorem appends_borrow (block : String) (dest place : Place) (mutable : Bool) (span : Option Span) :
    Appends b block (StatementShape.borrow dest mutable place).text span
      (Builder.borrow block dest place mutable span) := by
  intro loan b' h
  unfold Builder.borrow at h
  obtain ⟨⟨target, referent⟩, _, hask, h⟩ := gives_bind.mp h
  obtain ⟨_, rfl⟩ := gives_derive.mp hask
  -- the loan takes a number, which is all that changes apart from the block
  obtain ⟨name, m, hname, h⟩ := gives_bind.mp h
  obtain ⟨rfl, rfl⟩ := gives_nextLoanName.mp hname
  rw [gives_get_bind] at h
  obtain ⟨st, m, happend, hpure⟩ := gives_bind.mp h
  obtain ⟨_, rfl⟩ := gives_pure.mp hpure
  obtain ⟨hst, _, rfl⟩ := gives_append.mp happend
  refine ⟨st, ?_, rfl⟩
  have hrecords := records_borrowStatement st hst
  cases mutable <;> exact hrecords

theorem appends_call {m : Builder} (hm : m.Sound) (block : String) (dest : Place) (func : String)
    (operands : List Operand) {bounds : List BoundExpr} (span : Option Span)
    (h : ∀ e ∈ bounds, m.KnowsBoth e.names) :
    Appends m block (StatementShape.call dest func operands bounds).text span
      (Builder.call block dest func operands (bounds.map fun e => m.edgeOf e.names) span) := by
  refine appends_append (forall_ok_bind fun _ => forall_ok_bind fun _ => forall_ok_bind
    fun _ st hst => ?_)
  cases hst
  have hnames := names_obligationsAt hm (m.nextPoint block) h
  refine ⟨?_, rfl⟩
  simp only [Statement.source, StatementShape.text, if_true, ← hnames, List.map_map]
  rfl

/-- **A statement is appended** that a source text has as it was. -/
theorem appends_elaborateStatement (hb : b.Sound) (block : String) (s : StatementExpr) :
    Appends b block s.shape.text (some (s.extent.span file)) (elaborateStatement file block s) := by
  unfold elaborateStatement
  cases s.shape with
  | borrow dest mutable place => exact (appends_borrow block dest place mutable _).ignored
  | assign dest src =>
    refine (appends_append ?_).ignored
    refine forall_ok_bind fun _ => forall_ok_bind fun _ => forall_ok_bind fun _ st hst => ?_
    cases hst
    exact ⟨rfl, rfl⟩
  | call dest func operands bounds =>
    intro u b' h
    obtain ⟨edges, m, hedges, h⟩ := gives_bind.mp h
    obtain ⟨hknown, rfl, rfl⟩ := (gives_mapM_derive fun _ _ _ => gives_knownBound).mp hedges
    exact (appends_call hb block dest func operands _ hknown).ignored _ _ h
  | use operands =>
    refine (appends_append ?_).ignored
    refine forall_ok_bind fun _ st hst => ?_
    cases hst
    exact ⟨rfl, rfl⟩
  | drop var =>
    refine (appends_append ?_).ignored
    refine forall_ok_bind fun _ st hst => ?_
    cases hst
    exact ⟨rfl, rfl⟩
  | storageDead var =>
    refine (appends_append ?_).ignored
    refine forall_ok_bind fun _ st hst => ?_
    cases hst
    exact ⟨rfl, rfl⟩
  | outlives bound =>
    intro u b' h
    obtain ⟨edge, m, hedge, h⟩ := gives_bind.mp h
    obtain ⟨hknown, rfl, rfl⟩ := gives_knownBound.mp hedge
    refine (appends_append ?_).ignored _ _ h
    refine forall_ok_bind fun _ => forall_ok_bind fun _ st hst => ?_
    cases hst
    refine ⟨?_, rfl⟩
    show (m.regionOf bound.names.1).name ++ ": " ++ (m.regionOf bound.names.2).name =
      boundText bound.names
    rw [hb.name_regionOf hknown.1, hb.name_regionOf hknown.2, boundText]
  | nop =>
    refine (appends_append fun st hst => ?_).ignored
    cases hst
    exact ⟨rfl, rfl⟩

/-- **The step ends the block**, and the terminator has this text and this span. -/
def EndsWith {α : Type} (b : Builder) (block text : String) (span : Option Span)
    (step : BuildM α) : Prop :=
  ∀ a b', Gives step b a b' → ∃ t : Terminator, (t.text = text ∧ t.span = span.getD {}) ∧
    b' = b.updateBlock block (·.close t)

theorem endsWith_terminate {block text : String} {span : Option Span}
    {derive : Builder → Except BuildFault Terminator}
    (h : ∀ t, derive b = .ok t → t.text = text ∧ t.span = span.getD {}) :
    EndsWith b block text span (do let _ ← terminate block span derive) := by
  intro u b' hgives
  obtain ⟨t, m, hterminate, hpure⟩ := gives_bind.mp hgives
  obtain ⟨_, rfl⟩ := gives_pure.mp hpure
  obtain ⟨ht, _, rfl⟩ := gives_terminate.mp hterminate
  exact ⟨t, h t ht, rfl⟩

/-- **A block is ended** with a terminator that has its text. -/
theorem endsWith_elaborateTerminator (block : String) (t : TerminatorExpr) :
    EndsWith b block t.shape.text (some (t.extent.span file)) (elaborateTerminator file block t) := by
  unfold elaborateTerminator
  cases t.shape with
  | goto target =>
    refine endsWith_terminate fun t ht => ?_
    cases ht
    exact ⟨rfl, rfl⟩
  | branch cond targets =>
    by_cases hfew : targets.length < 2
    · simp only [if_pos hfew]
      intro u b' h
      obtain ⟨_, _, hthrow, _⟩ := gives_bind.mp h
      exact absurd hthrow gives_throw
    · simp only [if_neg hfew]
      refine endsWith_terminate (forall_ok_bind fun _ t ht => ?_)
      cases ht
      cases cond <;> exact ⟨rfl, rfl⟩
  | ret =>
    refine endsWith_terminate fun t ht => ?_
    cases ht
    exact ⟨rfl, rfl⟩
  | unreachable =>
    refine endsWith_terminate fun t ht => ?_
    cases ht
    exact ⟨rfl, rfl⟩

/-! ## Blocks -/

/-- **The block is recorded** as it stands in the source text. -/
structure BlockDecl.RecordedAs (file : Option String) (d : BlockDecl) (blk : Block) : Prop where
  name : blk.name = d.name
  statements : List.Forall₂ (fun s st => Records s.shape.text (some (s.extent.span file)) st)
    d.statements blk.statements
  text : blk.terminator.text = d.terminator.shape.text
  span : blk.terminator.span = d.terminator.extent.span file

/-- **The statements of a block** are appended one by one to the block opened last. -/
theorem gives_elaborateStatements (hb : b.Sound) {earlier : List OpenBlock} {blk : OpenBlock}
    (hblocks : b.blocks = earlier ++ [blk]) (hnew : ∀ o ∈ earlier, o.name ≠ blk.name)
    {ss : List StatementExpr} {u : Unit}
    (h : Gives (ss.forM (elaborateStatement file blk.name)) b u b') :
    b'.Sound ∧ ∃ sts : List Statement,
      List.Forall₂ (fun s st => Records s.shape.text (some (s.extent.span file)) st) ss sts ∧
      b' = { b with
        blocks := earlier ++ [⟨blk.name, blk.statements ++ sts, blk.terminator⟩]
        loanCount := b'.loanCount } := by
  induction ss generalizing b blk with
  | nil =>
    obtain rfl := gives_forM_nil.mp h
    refine ⟨hb, [], .nil, ?_⟩
    rw [List.append_nil, ← hblocks]
  | cons s ss ih =>
    obtain ⟨m, hs, hss⟩ := gives_forM_cons.mp h
    have hm : m.Sound :=
      sound_of_fills ((meets_elaborateStatement file hb blk.name s).changes_of_gives hs) hb
    obtain ⟨st, hst, heq⟩ := appends_elaborateStatement hb blk.name s () m hs
    rw [updateBlock_last hblocks hnew] at heq
    have hlast : m.blocks = earlier ++ [blk.push st] := congrArg Builder.blocks heq
    obtain ⟨hb', sts, hsts, heq'⟩ := ih hm hlast hnew hss
    refine ⟨hb', st :: sts, .cons hst hsts, ?_⟩
    rw [heq', heq]
    simp [OpenBlock.push]

/-- **A block** is added behind the others, recorded as it stands. -/
theorem gives_elaborateBlock (hb : b.Sound) {d : BlockDecl} {u : Unit}
    (h : Gives (elaborateBlock file d) b u b') :
    b'.Sound ∧ ∃ blk : Block, d.RecordedAs file blk ∧
      b' = { b with blocks := b.blocks ++ [.ofBlock blk], loanCount := b'.loanCount } := by
  unfold elaborateBlock at h
  obtain ⟨_, m₁, hopen, h⟩ := gives_bind.mp h
  obtain ⟨_, m₂, hstatements, hterminator⟩ := gives_bind.mp h
  have hm₁ : m₁.Sound :=
    sound_of_changes ((meets_openBlock d.name _).changes_of_gives hopen) hb
  obtain ⟨hnone, heq₁⟩ := gives_openBlock.mp hopen
  -- from here on the new block is the last one, and no other has its name
  have hnew : ∀ o ∈ b.blocks, o.name ≠ d.name := by
    intro o ho
    simpa using List.find?_eq_none.mp hnone o ho
  have hblocks : m₁.blocks = b.blocks ++ [⟨d.name, [], none⟩] := congrArg Builder.blocks heq₁
  obtain ⟨hm₂, sts, hsts, heq₂⟩ := gives_elaborateStatements hm₁ hblocks hnew hstatements
  have hchanges := (meets_elaborateTerminator file d.name d.terminator).changes_of_gives
    hterminator
  refine ⟨sound_of_changes hchanges hm₂, ?_⟩
  obtain ⟨t, ht, heq₃⟩ := endsWith_elaborateTerminator d.name d.terminator _ _ hterminator
  have hblocks₂ : m₂.blocks = b.blocks ++ [⟨d.name, sts, none⟩] := congrArg Builder.blocks heq₂
  rw [updateBlock_last hblocks₂ hnew] at heq₃
  refine ⟨⟨d.name, sts, t⟩, ⟨rfl, hsts, ht.1, ht.2⟩, ?_⟩
  rw [heq₃, heq₂, heq₁]
  rfl

/-- **The blocks of a function** are added one behind the other. -/
theorem gives_elaborateBlocks (hb : b.Sound) {ds : List BlockDecl} {u : Unit}
    (h : Gives (ds.forM (elaborateBlock file)) b u b') :
    ∃ blocks : List Block, List.Forall₂ (BlockDecl.RecordedAs file) ds blocks ∧
      b' = { b with blocks := b.blocks ++ blocks.map .ofBlock, loanCount := b'.loanCount } := by
  induction ds generalizing b with
  | nil =>
    obtain rfl := gives_forM_nil.mp h
    exact ⟨[], .nil, by simp⟩
  | cons d ds ih =>
    obtain ⟨m, hd, hds⟩ := gives_forM_cons.mp h
    obtain ⟨hm, blk, hblk, heq⟩ := gives_elaborateBlock hb hd
    obtain ⟨blocks, hblocks, heq'⟩ := ih hm hds
    refine ⟨blk :: blocks, .cons hblk hblocks, ?_⟩
    rw [heq', heq]
    simp

/-- **A block** is written as it was. -/
theorem listing_elaborateBlock (hb : b.Sound) {blk : BlockDecl} {u : Unit}
    (h : Gives (elaborateBlock file blk) b u b') :
    b'.Sound ∧ b'.listing = b.listing.extend [] []
      [(blk.name, blk.statements.map fun s => s.shape.text, blk.terminator.shape.text)] := by
  obtain ⟨hb', added, hadded, heq⟩ := gives_elaborateBlock hb h
  refine ⟨hb', ?_⟩
  have hsources : added.statements.map Statement.source =
      blk.statements.map fun s => s.shape.text :=
    forall₂_iff_map_eq.mp (hadded.statements.imp fun _ _ hs => hs.1)
  rw [heq]
  simp [listing, Listing.extend, vars, OpenBlock.ofBlock, hadded.name, hsources, hadded.text]

/-! ## Functions -/

/-- **A loop writes what its rounds write.** -/
theorem listing_forM {α : Type} {step : α → BuildM Unit} {ps : α → List (String × String)}
    {ds : α → List (String × String × Option (List String))}
    {bs : α → List (String × List String × String)}
    (hstep : ∀ a b b', b.Sound → Gives (step a) b () b' →
      b'.Sound ∧ b'.listing = b.listing.extend (ps a) (ds a) (bs a))
    {as : List α} {u : Unit} (hb : b.Sound) (h : Gives (as.forM step) b u b') :
    b'.Sound ∧ b'.listing = b.listing.extend (as.flatMap ps) (as.flatMap ds) (as.flatMap bs) := by
  induction as generalizing b with
  | nil =>
    obtain rfl := gives_forM_nil.mp h
    exact ⟨hb, (Listing.extend_nil _).symm⟩
  | cons a as ih =>
    obtain ⟨m, ha, has⟩ := gives_forM_cons.mp h
    obtain ⟨hm, hlisting⟩ := hstep a b m hb ha
    obtain ⟨hb', hlisting'⟩ := ih hm has
    exact ⟨hb', by rw [hlisting', hlisting, Listing.extend_extend]; rfl⟩

theorem listing_elaborateParam (hb : b.Sound) {p : ParamDecl} {u : Unit}
    (h : Gives (elaborateParam file p) b u b') :
    b'.listing = b.listing.extend [(p.name, p.ty.render)] [] [] := by
  obtain ⟨ty, hty, hdeclared⟩ := declared_of_elaborateParam hb h
  rw [hdeclared.listing_param rfl, Variable.paramEntry, hty]

theorem listing_elaborateLet (hb : b.Sound) {d : LetDecl} {u : Unit}
    (h : Gives (elaborateLet file d) b u b') :
    b'.listing = b.listing.extend []
      [(d.name, d.ty.render, d.drops.map fun rs => rs.map RegionName.name)] [] := by
  obtain ⟨ty, drops, hty, hdrops, hdeclared⟩ := declared_of_elaborateLet hb h
  rw [hdeclared.listing_let rfl, Variable.letEntry, hty, ← hdrops]

/-- **The bounds of a signature** are written as they were, each once. -/
theorem listing_addBounds (hb : b.Sound) (hnone : b.bounds = []) {e : Extent}
    {bounds : List BoundExpr} {u : Unit}
    (h : Gives (addBounds file (some (e.span file)) bounds) b u b') :
    b'.Sound ∧ b'.listing = { b.listing with bounds := (distinctNames bounds).map boundText } := by
  have hb' := sound_of_addBounds hb h
  refine ⟨hb', ?_⟩
  obtain ⟨hadmits, rfl⟩ := (gives_addBounds hb hnone).mp h
  have hnames : (b.signed (bounds.map BoundExpr.names)).bounds.map Obligation.names =
      distinctNames bounds := by
    refine map_eraseDups_map fun names hmem => ?_
    obtain ⟨hsub, hsup⟩ := hadmits names hmem
    exact Prod.ext (hb'.name_regionOf hsub.isSome) (hb'.name_regionOf hsup.isSome)
  have hbounds : (b.signed (bounds.map BoundExpr.names)).bounds.map Obligation.render =
      (distinctNames bounds).map boundText := by
    rw [← hnames, List.map_map]
    refine List.map_congr_left fun o ho => ?_
    obtain ⟨names, _, rfl⟩ := List.mem_map.mp (List.mem_eraseDups.mp ho)
    exact render_boundOf _
  calc (b.signed (bounds.map BoundExpr.names)).listing
      = { b.listing with
          bounds := (b.signed (bounds.map BoundExpr.names)).bounds.map Obligation.render } := by
        rw [signed_eq]
        rfl
    _ = { b.listing with bounds := (distinctNames bounds).map boundText } := by rw [hbounds]

/-- **Before its blocks**, a function has written all the rest. -/
theorem listing_beforeBlocks {f : FunctionDecl} {b₁ b₂ b₃ : Builder}
    (hparams : Gives (f.params.forM (elaborateParam file)) (f.start file) () b₁)
    (hbounds : Gives (addBounds file (some (f.boundsExtent.span file)) f.bounds) b₁ () b₂)
    (hlets : Gives (f.declarations.forM (elaborateLet file)) b₂ () b₃) :
    b₃.Sound ∧ b₃.listing = { f.listing with blocks := [] } := by
  have hnew : (f.start file).Sound := sound_new _ _
  have hnone : b₁.bounds = [] := (elaborateParams_spec hnew hparams).2
  obtain ⟨hb₁, hlisting₁⟩ := listing_forM
    (fun _ _ _ hb h => ⟨sound_of_elaborateParam hb h, listing_elaborateParam hb h⟩) hnew hparams
  obtain ⟨hb₂, hlisting₂⟩ := listing_addBounds hb₁ hnone hbounds
  obtain ⟨hb₃, hlisting₃⟩ := listing_forM
    (fun _ _ _ hb h => ⟨sound_of_elaborateLet hb h, listing_elaborateLet hb h⟩) hb₂ hlets
  refine ⟨hb₃, ?_⟩
  -- nothing is written before the first part, and each part writes its own
  have hempty : (f.start file).listing = ⟨f.name, [], [], [], []⟩ := rfl
  have hnothing : ∀ {α γ : Type} (l : List α), (l.flatMap fun _ => ([] : List γ)) = [] := by simp
  rw [hlisting₃, hlisting₂, hlisting₁, hempty]
  simp only [Listing.extend, hnothing, ← List.map_eq_flatMap, List.nil_append, List.append_nil]
  rfl

/-- **A body is written as the function it comes from.** -/
theorem listing_of_body {f : FunctionDecl} {body : Body} (h : f.body file = .ok body) :
    body.listing = f.listing := by
  obtain ⟨b, hrun, hfinish⟩ := body_eq_ok.mp h
  obtain ⟨blocks, _, hblocks, _, rfl⟩ := (sound_of_elaborateFunction hrun).finish_iff.mp hfinish
  rw [listing_bodyOf hblocks]
  obtain ⟨_, _, b₃, hparams, hbounds, hlets, hblocks⟩ := gives_elaborateFunction.mp hrun
  obtain ⟨hb₃, hlisting₃⟩ := listing_beforeBlocks hparams hbounds hlets
  obtain ⟨_, hlisting⟩ := listing_forM (fun _ _ _ hb h => listing_elaborateBlock hb h) hb₃ hblocks
  rw [hlisting, hlisting₃]
  simp [Listing.extend, FunctionDecl.listing, ← List.map_eq_flatMap]

/-! ## Texts -/

/-- Each body comes from a function of its own. -/
theorem exists_function_of_bodiesAfter {fs : List FunctionDecl} {earlier found : List Body}
    (h : bodiesAfter file earlier fs = .ok found) {body : Body} (hbody : body ∈ found) :
    body ∈ earlier ∨ ∃ f ∈ fs, f.body file = .ok body := by
  induction fs generalizing earlier with
  | nil =>
    cases h
    exact Or.inl hbody
  | cons f fs ih =>
    rw [bodiesAfter] at h
    obtain ⟨first, hfirst, h⟩ := bind_eq_ok.mp h
    split at h
    · cases h
    · rcases ih h with hearlier | ⟨g, hg, hgbody⟩
      · rcases List.mem_append.mp hearlier with hearlier | hlast
        · exact Or.inl hearlier
        · rw [List.mem_singleton.mp hlast]
          exact Or.inr ⟨f, List.mem_cons_self, hfirst⟩
      · exact Or.inr ⟨g, List.mem_cons_of_mem f hg, hgbody⟩

theorem read_eq_ok {text : String} {found : List Body} :
    read text file = .ok found ↔
      ∃ program, parseText text = .ok program ∧ bodies file program = .ok found := by
  unfold read
  cases parseText text with
  | error fault => simp
  | ok program =>
    cases hbodies : bodies file program <;> simp [hbodies]

/-- **Reading takes back what writing does.**  Every body of a text that can be read,
    written down and read again, is the only body of its text and the same but for the
    spans. -/
theorem read_source_of_read {text : String} {found : List Body} (h : read text file = .ok found)
    {body : Body} (hbody : body ∈ found) (file' : Option String) :
    ∃ body', read body.source file' = .ok [body'] ∧ body'.unplaced = body.unplaced := by
  obtain ⟨program, hparse, hbodies⟩ := read_eq_ok.mp h
  obtain ⟨f, hf, hfbody⟩ : ∃ f ∈ program, f.body file = .ok body := by
    rcases exists_function_of_bodiesAfter hbodies hbody with hnone | hfunction
    · cases hnone
    · exact hfunction
  -- the listing of the function, parsed again, says the same
  obtain ⟨f', hparse', hrestated⟩ := parseText_listing (proper_of_parseText hparse f hf)
  obtain ⟨body', hbody', hsame⟩ := body_of_restatedAs file' hrestated hfbody
  refine ⟨body', read_eq_ok.mpr ⟨[f'], ?_, ?_⟩, hsame⟩
  · rw [Body.source, listing_of_body hfbody]
    exact hparse'
  · rw [bodies, bodiesAfter, hbody']
    rfl

/-- A function with nested places, and with bounds that are given twice. -/
def nestedPlaces : String :=
  "fn f(p: &'a mut P<'b>) where 'a: 'b, 'a: 'b \x7b s: \x7b r = &(*p).x;" ++
    " *(*p).y = call g(copy r) where 'b: 'c, 'b: 'c; goto s; \x7d let r: &'c i32; \x7d"

/-- The same with the declaration first, and with each bound once. -/
def nestedPlacesInOrder : String :=
  "fn f(p: &'a mut P<'b>) where 'a: 'b \x7b let r: &'c i32; s: \x7b r = &(*p).x;" ++
    " *(*p).y = call g(copy r) where 'b: 'c; goto s; \x7d \x7d"

theorem nestedPlaces_reread : ∃ body body', read nestedPlaces none = .ok [body] ∧
    body.source = nestedPlacesInOrder ∧ read body.source none = .ok [body'] ∧
    body'.unplaced = body.unplaced := by
  have hsources : (read nestedPlaces none).toOption.map (fun found => found.map Body.source) =
      some [nestedPlacesInOrder] := by decide +kernel
  cases hread : read nestedPlaces none with
  | error d =>
    rw [hread] at hsources
    cases hsources
  | ok found =>
    rw [hread] at hsources
    obtain ⟨body, rfl, hsource⟩ := List.map_eq_singleton_iff.mp (Option.some.inj hsources)
    obtain ⟨body', hbody', hsame⟩ := read_source_of_read hread List.mem_cons_self none
    exact ⟨body, body', rfl, hsource, hbody', hsame⟩

end Source

end BorrowFlow
