import BorrowFlow.Proofs.Builder.Finish
import BorrowFlow.Proofs.Builder.Statement
import BorrowFlow.Proofs.Lookup
import BorrowFlow.Source.Read

/-! # What becomes of a source text

    Elaboration is a run of a builder, so what it leaves behind is sound.  It blames
    a place in the text for every failure, and a block that it has gone through has
    its terminator.  Hence a text yields bodies that can be analysed to the end, or
    one finding that points into the text (`read_bodies_or_finding`).
-/

namespace BorrowFlow

open Relation (ReflTransGen)

/-- The span has a line and a column. -/
def Span.Located (s : Span) : Prop := s.line.isSome = true ∧ s.column.isSome = true

/-- The error points to a place in the text. -/
def BuildError.Located (e : BuildError) : Prop := ∃ s, e.span = some s ∧ s.Located

/-- Every block has its terminator, which stands somewhere in the text. -/
def Builder.Closed (b : Builder) : Prop :=
  ∀ entry ∈ b.outline, ∃ t, entry.2 = some t ∧ t.span.Located

/-- An extent is somewhere in the text. -/
theorem Source.Extent.located (file : Option String) (e : Extent) : (e.span file).Located :=
  ⟨rfl, rfl⟩

namespace BuildM.Meets

variable {α : Type} {b : Builder} {step : BuildM α} {post : α → Builder → Prop}

/-- A step that blames an extent blames a place in the text. -/
theorem located {C : Builder → Builder → Prop} {file : Option String} {e : Source.Extent}
    (h : Meets C b step (fun error => error.span = some (e.span file)) post) :
    Meets C b step BuildError.Located post :=
  h.mono (fun _ herror => ⟨_, herror, e.located file⟩) fun _ _ _ => id

/-- Filling in leaves closed blocks closed. -/
theorem keepsClosed {blame : BuildError → Prop} (h : Meets Builder.Fill b step blame post)
    (hclosed : b.Closed) : Meets Builder.Change b step blame fun a b' => b'.Closed ∧ post a b' := by
  refine h.lift.imp ?_
  rintro a b' _ ⟨houtline, hpost⟩
  rw [Builder.Closed, houtline]
  exact ⟨hclosed, hpost⟩

end BuildM.Meets

namespace Source

open BuildM Builder Ty

variable (file : Option String) {b : Builder}

section Ignored

variable {α : Type} {C : Builder → Builder → Prop} {step : BuildM α} {blame : BuildError → Prop}
  {post : α → Builder → Prop}

/-- The answer of a step may be left aside. -/
theorem meets_ignored (h : Meets C b step blame post) :
    Meets C b (do let _ ← step) blame fun _ b' => ∃ a, post a b' :=
  h.bind fun a _ _ ha => meets_pure ⟨a, ha⟩

theorem meets_done (h : Meets C b step blame post) :
    Meets C b (do let _ ← step) blame fun _ _ => True :=
  (meets_ignored h).imp fun _ _ _ _ => trivial

end Ignored

/-! ## Regions and types -/

theorem meets_resolveRegion (universal : Bool) (r : RegionName) :
    Meets Fill b (resolveRegion file universal r) BuildError.Located fun _ _ => True := by
  rw [resolveRegion]
  split
  · exact (meets_declareRegion _ _ _).fills.located
  · apply meets_get_bind
    split
    · exact meets_pure trivial
    · exact (meets_declareRegion _ _ _).fills.located

theorem meets_knownRegion (hb : b.Sound) (r : RegionName) :
    Meets Fill b (knownRegion file r) BuildError.Located fun known b' => b'.Declares known := by
  rw [knownRegion]
  refine (meets_derive fun known hknown => ?_).located
  rw [regionNamed] at hknown
  split at hknown
  · next hr =>
    cases hknown
    exact hb.declares_of_region? hr
  · cases hknown

mutual

theorem meets_resolveType {b : Builder} (universal : Bool) (t : TypeExpr) :
    Meets Fill b (resolveType file universal t) BuildError.Located fun _ _ => True := by
  match t with
  | .region r =>
    rw [resolveType]
    exact (meets_resolveRegion file universal r).bind fun _ _ _ _ => meets_pure trivial
  | .ref r mutable referent =>
    rw [resolveType]
    refine (meets_resolveRegion file universal r).bind fun _ _ _ _ => ?_
    exact (meets_resolveType universal referent).bind fun _ _ _ _ => meets_pure trivial
  | .named name args =>
    rw [resolveType]
    exact (meets_resolveTypes universal args).bind fun _ _ _ _ => meets_pure trivial

theorem meets_resolveTypes {b : Builder} (universal : Bool) (ts : List TypeExpr) :
    Meets Fill b (resolveTypes file universal ts) BuildError.Located fun _ _ => True := by
  match ts with
  | [] =>
    rw [resolveTypes]
    exact meets_pure trivial
  | t :: ts =>
    rw [resolveTypes]
    refine (meets_resolveType universal t).bind fun _ _ _ _ => ?_
    exact (meets_resolveTypes universal ts).bind fun _ _ _ _ => meets_pure trivial

end

theorem meets_signatureBound (bound : BoundExpr) :
    Meets Fill b (signatureBound file bound) BuildError.Located fun _ _ => True := by
  rw [signatureBound]
  refine (meets_resolveRegion file true bound.sub).bind fun _ _ _ _ => ?_
  exact (meets_resolveRegion file true bound.sup).bind fun _ _ _ _ => meets_pure trivial

theorem meets_knownBound (hb : b.Sound) (bound : BoundExpr) :
    Meets Fill b (knownBound file bound) BuildError.Located fun e b' =>
      b'.Declares e.1 ∧ b'.Declares e.2 := by
  rw [knownBound]
  refine (meets_knownRegion file hb bound.sub).bind fun sub b₁ hfills hsub => ?_
  have hb₁ := sound_of_fills hfills hb
  refine (meets_knownRegion file hb₁ bound.sup).bind fun sup b₂ hfills' hsup => ?_
  exact meets_pure ⟨(keeps_of_fills hfills').declares sub hsub, hsup⟩

/-! ## Declarations -/

theorem meets_elaborateParam (p : ParamDecl) :
    Meets Fill b (elaborateParam file p) BuildError.Located fun _ _ => True := by
  rw [elaborateParam]
  refine (meets_resolveType file true p.ty).bind fun ty _ _ _ => ?_
  exact meets_done (meets_declare _ _ _ _ _).fills.located

theorem meets_elaborateLet (hb : b.Sound) (d : LetDecl) :
    Meets Fill b (elaborateLet file d) BuildError.Located fun _ _ => True := by
  rw [elaborateLet]
  refine (meets_resolveType file false d.ty).bind fun ty b₁ hfills _ => ?_
  have hb₁ := sound_of_fills hfills hb
  have hdeclare : ∀ (drops : Option (List Region)) (b₂ : Builder),
      Meets Fill b₂ (do let _ ← Builder.declare d.name ty drops false (some (d.extent.span file)))
        BuildError.Located fun _ _ => True :=
    fun _ _ => meets_done (meets_declare _ _ _ _ _).fills.located
  cases d.drops with
  | none => exact hdeclare none b₁
  | some names =>
    have hnames : Meets Fill b₁ (names.mapM (knownRegion file)) BuildError.Located
        fun known b' => ∀ r ∈ known, b'.Declares r :=
      meets_mapM (fun r _ _ hfills' => (keeps_of_fills hfills').declares r) fun name _ b' hfills' =>
        meets_knownRegion file (sound_of_fills hfills' hb₁) name
    have hdrops : Meets Fill b₁ (some <$> names.mapM (knownRegion file)) BuildError.Located
        fun _ _ => True := by
      rw [map_eq_pure_bind]
      exact hnames.bind fun _ _ _ _ => meets_pure trivial
    exact hdrops.bind fun drops b₂ _ _ => hdeclare drops b₂

/-! ## Blocks -/

theorem meets_elaborateStatement (hb : b.Sound) (block : String) (s : StatementExpr) :
    Meets Fill b (elaborateStatement file block s) BuildError.Located fun _ _ => True := by
  rw [elaborateStatement]
  cases s.shape with
  | borrow dest mutable place =>
    exact meets_done (meets_borrow hb _ _ _ _ _).located
  | assign dest src =>
    exact meets_done (meets_assign hb _ _ _ _).located
  | call dest func operands bounds =>
    have hbounds : Meets Fill b (bounds.mapM (knownBound file)) BuildError.Located
        fun edges b' => ∀ e ∈ edges, b'.Declares e.1 ∧ b'.Declares e.2 := by
      refine meets_mapM (fun e _ _ hfills he => ?_) fun bound _ b' hfills =>
        meets_knownBound file (sound_of_fills hfills hb) bound
      have hkeeps := keeps_of_fills hfills
      exact ⟨hkeeps.declares _ he.1, hkeeps.declares _ he.2⟩
    refine hbounds.bind fun edges b' hfills hedges => ?_
    exact meets_done (meets_call (sound_of_fills hfills hb) hedges _ _ _ _ _).located
  | use operands => exact meets_done (meets_use hb _ _ _).located
  | drop var => exact meets_done (meets_drop hb _ _ _).located
  | storageDead var =>
    exact meets_done (meets_storageDead hb _ _ _).located
  | outlives bound =>
    refine (meets_knownBound file hb bound).bind fun ⟨sub, sup⟩ b' hfills hdeclared => ?_
    have hb' := sound_of_fills hfills hb
    exact meets_done (meets_outlives hb' hdeclared.1 hdeclared.2 _ _).located
  | nop => exact meets_done (meets_nop hb _ _).located

theorem meets_elaborateTerminator (block : String) (t : TerminatorExpr) :
    Meets Change b (elaborateTerminator file block t) BuildError.Located fun _ b' =>
      ∃ t', Closes block (some (t.extent.span file)) b t' b' := by
  rw [elaborateTerminator]
  cases t.shape with
  | goto target => exact meets_ignored (meets_goto _ _ _).located
  | branch cond targets =>
    by_cases hfew : targets.length < 2
    · simp only [if_pos hfew]
      exact meets_throw_bind ⟨_, rfl, t.extent.located file⟩
    · simp only [if_neg hfew]
      exact meets_ignored (meets_branch _ _ _ _).located
  | ret => exact meets_ignored (meets_ret _ _).located
  | unreachable => exact meets_ignored (meets_unreachable _ _).located

/-- **A block is gone through from its name to its terminator**, so it is closed. -/
theorem meets_elaborateBlock (hb : b.Sound) (hclosed : b.Closed) (blk : BlockDecl) :
    Meets Change b (elaborateBlock file blk) BuildError.Located fun _ b' => b'.Closed := by
  rw [elaborateBlock]
  refine (meets_openBlock _ _).located.bind ?_
  rintro _ b₁ hchanges ⟨hnew, hopened⟩
  have hb₁ := sound_of_changes hchanges hb
  have hstatements : Meets Fill b₁ (blk.statements.forM (elaborateStatement file blk.name))
      BuildError.Located fun _ _ => True :=
    meets_forM (fun _ _ => True) trivial fun _ s _ _ b' hfills _ =>
      meets_elaborateStatement file (sound_of_fills hfills hb₁) blk.name s
  refine hstatements.lift.bind ?_
  rintro _ b₂ _ ⟨hfilled, _⟩
  refine (meets_elaborateTerminator file blk.name blk.terminator).imp ?_
  rintro _ b₃ _ ⟨t, hspan, hended⟩
  rw [hfilled, hopened] at hended
  intro entry hentry
  rw [hended, List.map_append, List.mem_append] at hentry
  rcases hentry with hentry | hentry
  · -- an earlier block has another name and keeps its terminator
    obtain ⟨old, hold, rfl⟩ := List.mem_map.mp hentry
    have hname : old.1 ≠ blk.name := fun h => hnew (h ▸ List.mem_map_of_mem hold)
    rw [if_neg hname]
    exact hclosed old hold
  · rw [List.map_singleton, if_pos rfl, List.mem_singleton] at hentry
    subst hentry
    exact ⟨t, rfl, hspan ▸ blk.terminator.extent.located file⟩

/-! ## Functions -/

/-- Up to the blocks everything only fills in. -/
theorem meets_elaborateHeader (hb : b.Sound) (f : FunctionDecl) :
    Meets Fill b (elaborateHeader file f) BuildError.Located fun _ _ => True := by
  rw [elaborateHeader]
  have hparams : Meets Fill b (f.params.forM (elaborateParam file)) BuildError.Located
      fun _ _ => True :=
    meets_forM (fun _ _ => True) trivial fun _ p _ _ _ _ _ => meets_elaborateParam file p
  refine hparams.bind fun _ b₁ h₁ _ => ?_
  have hedges : Meets Fill b₁ (f.bounds.mapM (signatureBound file)) BuildError.Located
      fun edges _ => ∀ e ∈ edges, True :=
    meets_mapM (fun _ _ _ _ _ => trivial) fun bound _ _ _ => meets_signatureBound file bound
  refine hedges.bind fun edges b₂ h₂ _ => ?_
  have hbounds : Meets Fill b₂
      (edges.forM fun e => Builder.bound e.1 e.2 (some (f.boundsExtent.span file)))
      BuildError.Located fun _ _ => True :=
    meets_forM (fun _ _ => True) trivial fun _ e _ _ _ _ _ => (meets_bound e.1 e.2 _).fills.located
  refine hbounds.bind fun _ b₃ h₃ _ => ?_
  have hb₃ := sound_of_fills ((h₁.trans h₂).trans h₃) hb
  exact meets_forM (fun _ _ => True) trivial fun _ d _ _ _ hfills _ =>
    meets_elaborateLet file (sound_of_fills hfills hb₃) d

/-- **A run over a function** leaves all blocks closed. -/
theorem meets_elaborateFunction (hb : b.Sound) (hclosed : b.Closed) (f : FunctionDecl) :
    Meets Change b (elaborateFunction file f) BuildError.Located fun _ b' => b'.Closed := by
  rw [elaborateFunction]
  refine ((meets_elaborateHeader file hb f).keepsClosed hclosed).bind fun _ b₁ h₁ hclosed₁ => ?_
  have hb₁ := sound_of_changes h₁ hb
  exact meets_forM (fun _ b' => b'.Closed) hclosed₁.1 fun _ blk _ _ _ hchanges hdone =>
    meets_elaborateBlock file (sound_of_changes hchanges hb₁) hdone blk

/-- **A good body**: it stands somewhere in the text, it is in order, and its analysis
    comes to an end with findings, however drops are looked at. -/
structure Good (body : Body) : Prop where
  located : body.span.Located
  wellFormed : body.WellFormed
  analysed : ∀ precise, ∃ f, body.analyze { preciseDrops := precise } = .ok ⟨body, .complete f⟩

/-- A function has a good body, or some place in it is to blame. -/
theorem body_good_or_located (f : FunctionDecl) :
    (∃ body, f.body file = .ok body ∧ Good body) ∨
      ∃ e, f.body file = .error (.build e) ∧ e.Located := by
  have hnew : (f.start file).Sound := sound_new _ _
  obtain ⟨hchanges, hok, herror⟩ :=
    meets_elaborateFunction file hnew (fun _ h => absurd h List.not_mem_nil) f
  rw [FunctionDecl.body]
  rcases hrun : (elaborateFunction file f).perform (f.start file) with ⟨e | ⟨⟩, b⟩
  · right
    exact ⟨e, rfl, herror e (by rw [hrun])⟩
  · rw [hrun] at hchanges hok
    have hb : b.Sound := sound_of_changes hchanges hnew
    have hspan : b.span.Located := by
      rw [(keeps_of_changes hchanges).span]
      exact f.extent.located file
    -- a sound builder fails to finish only for a step that is missing or wrong
    dsimp only
    cases hfinish : b.finish with
    | ok body =>
      left
      obtain ⟨hbody, _, hsame, _⟩ := hb.of_finish hfinish
      exact ⟨body, rfl, hsame ▸ hspan, hbody, hb.exists_findings hfinish⟩
    | error fault =>
      cases fault with
      | build e => exact Or.inr ⟨e, rfl, span_of_finish_error hspan (hok () rfl) hfinish⟩
      | draft fault => exact absurd hfinish (hb.finish_ne_draft fault)

/-! ## Texts -/

theorem bodiesAfter_good_or_located (fs : List FunctionDecl) {earlier : List Body}
    (hearlier : ∀ body ∈ earlier, Good body) :
    (∃ bodies, bodiesAfter file earlier fs = .ok bodies ∧ ∀ body ∈ bodies, Good body) ∨
      ∃ fault, bodiesAfter file earlier fs = .error fault ∧ (fault.span file).Located := by
  induction fs generalizing earlier with
  | nil => exact Or.inl ⟨earlier, rfl, hearlier⟩
  | cons f fs ih =>
    rw [bodiesAfter]
    rcases body_good_or_located file f with ⟨body, hbody, hgood⟩ | ⟨e, hbody, s, hs, hlocated⟩
    · rw [hbody]
      simp only [bind, Except.bind]
      split
      · exact Or.inr ⟨_, rfl, hgood.located⟩
      · apply ih
        intro other hother
        rcases List.mem_append.mp hother with hother | hother
        · exact hearlier other hother
        · exact List.mem_singleton.mp hother ▸ hgood
    · refine Or.inr ⟨.build e, by rw [hbody]; rfl, ?_⟩
      rw [ElaborationFault.span, hs]
      exact hlocated

/-- Elaboration yields good bodies, or a fault that points into the text. -/
theorem bodies_good_or_located (program : List FunctionDecl) :
    (∃ found, bodies file program = .ok found ∧ ∀ body ∈ found, Good body) ∨
      ∃ fault, bodies file program = .error fault ∧ (fault.span file).Located :=
  bodiesAfter_good_or_located file program (fun _ h => absurd h List.not_mem_nil)

/-- The analysis of a good body ends with findings, and no lookup on the way misses. -/
theorem Good.exists_answered {body : Body} (h : Good body) (precise : Bool) :
    ∃ f, body.analyze { preciseDrops := precise } = .ok ⟨body, .complete f⟩ ∧
      body.Answered f := by
  obtain ⟨f, hf⟩ := h.analysed precise
  obtain ⟨rules, hfinds⟩ := Body.analyze_complete hf rfl
  exact ⟨f, hf, hfinds.answered h.wellFormed⟩

/-- **Every text is read to an end.**  It yields bodies, and the analysis of each of
    them comes to an end with findings, however drops are looked at, and every lookup
    that it makes on the way is answered; or the text yields one finding of the parser,
    which has a line and a column.  The draft of a function is never refused. -/
theorem read_bodies_or_finding (text : String) (file : Option String) :
    ((∃ found, read text file = .ok found ∧ ∀ body ∈ found, ∀ precise : Bool,
        ∃ f, body.analyze { preciseDrops := precise } = .ok ⟨body, .complete f⟩ ∧
          body.Answered f) ∨
      ∃ d, read text file = .error d ∧ d.phase = some "parser" ∧
        d.span.line.isSome = true ∧ d.span.column.isSome = true) ∧
    ∀ program name fault, bodies file program ≠ .error (.draft name fault) := by
  constructor
  · rw [read]
    cases parseText text with
    | error fault => exact Or.inr ⟨_, rfl, rfl, rfl, rfl⟩
    | ok program =>
      rcases bodies_good_or_located file program with ⟨found, hfound, hgood⟩ | ⟨fault, hfault, hspan⟩
      · left
        simp only [hfound]
        exact ⟨found, rfl, fun body hbody => (hgood body hbody).exists_answered⟩
      · right
        simp only [hfault]
        exact ⟨_, rfl, rfl, hspan⟩
  · intro program name fault hdraft
    rcases bodies_good_or_located file program with ⟨found, hfound, _⟩ | ⟨fault', hfault, hspan⟩
    · rw [hfound] at hdraft
      cases hdraft
    · -- a refused draft would have no line
      obtain rfl : fault' = .draft name fault := Except.error.inj (hfault.symm.trans hdraft)
      cases hspan.1

/-- A function that borrows its parameter again and again. -/
def endlessLoop : String :=
  "fn f(v: i32) \x7b let r: &'a i32; bb0: \x7b r = &v; goto bb0; \x7d \x7d"

theorem endlessLoop_analysed : ∃ body f, read endlessLoop none = .ok [body] ∧
    body.analyze { preciseDrops := true } = .ok ⟨body, .complete f⟩ ∧ body.Answered f := by
  have hlength : (read endlessLoop none).toOption.map List.length = some 1 := by decide +kernel
  rcases (read_bodies_or_finding endlessLoop none).1 with ⟨found, hfound, hanalysed⟩ | ⟨d, hd, _⟩
  · rw [hfound] at hlength
    obtain ⟨body, rfl⟩ := List.length_eq_one_iff.mp (Option.some.inj hlength)
    obtain ⟨f, hf⟩ := hanalysed body List.mem_cons_self true
    exact ⟨body, f, hfound, hf⟩
  · rw [hd] at hlength
    cases hlength

end Source

end BorrowFlow
