import BorrowFlow.Proofs.Lists
import BorrowFlow.Proofs.Source.Written

/-! # Listings

    A listing is what there is to write of a function: its name, its parameters, bounds
    and declarations, and its blocks with their statements.  `Listing.text` writes it
    down.

    The listing of a syntax tree, written down and parsed again, gives one tree that says
    the same (`parseText_listing`): only the extents differ, and bounds that were given
    twice are given once.
-/

namespace BorrowFlow.Source

/-! ## Texts -/

/-- A clause of bounds, if there are any. -/
def whereText (bounds : List String) : String :=
  if bounds = [] then "" else " where " ++ ", ".intercalate bounds

/-- A clause of drops, if there is one. -/
def dropsText : Option (List String) → String
  | none => ""
  | some regions => " drops(" ++ ", ".intercalate regions ++ ")"

/-- The texts that a function is made of. -/
structure Listing where
  name : String
  /-- Each parameter with its type. -/
  params : List (String × String)
  bounds : List String
  /-- Each declared local with its type and its drops. -/
  lets : List (String × String × Option (List String))
  /-- Each block with its statements and its terminator. -/
  blocks : List (String × List String × String)
  deriving DecidableEq, Inhabited

namespace Listing

/-- A parameter. -/
def paramText (p : String × String) : String := p.1 ++ ": " ++ p.2

/-- A declaration. -/
def letText (d : String × String × Option (List String)) : String :=
  "let " ++ d.1 ++ ": " ++ d.2.1 ++ dropsText d.2.2 ++ ";"

/-- A block. -/
def blockText (b : String × List String × String) : String :=
  b.1 ++ ": \x7b" ++ String.join (b.2.1.map fun s => " " ++ (s ++ ";")) ++ " " ++ b.2.2 ++ "; \x7d"

/-- **The text of a listing**: one function. -/
def text (l : Listing) : String :=
  "fn " ++ l.name ++ "(" ++ ", ".intercalate (l.params.map paramText) ++ ")" ++
    whereText l.bounds ++ " \x7b" ++ String.join (l.lets.map fun d => " " ++ letText d) ++
    String.join (l.blocks.map fun b => " " ++ blockText b) ++ " \x7d"

end Listing

/-- A bound by the names of its regions. -/
def boundText (names : String × String) : String := names.1 ++ ": " ++ names.2

/-! ## Listings of trees -/

namespace TypeExpr

mutual

/-- The type as it is written. -/
def render : TypeExpr → String
  | .region r => r.name
  | .ref r mutable referent =>
    "&" ++ r.name ++ " " ++ (if mutable then "mut " else "") ++ referent.render
  | .named name [] => name
  | .named name (a :: as) => name ++ "<" ++ ", ".intercalate (renderAll (a :: as)) ++ ">"

/-- The written forms of the arguments of a named type. -/
def renderAll : List TypeExpr → List String
  | [] => []
  | t :: ts => t.render :: renderAll ts

end

mutual

/-- The type without the extents of its regions. -/
def unplaced : TypeExpr → TypeExpr
  | .region r => .region ⟨r.name, default⟩
  | .ref r mutable referent => .ref ⟨r.name, default⟩ mutable referent.unplaced
  | .named name args => .named name (unplacedAll args)

/-- The arguments of a named type without the extents of their regions. -/
def unplacedAll : List TypeExpr → List TypeExpr
  | [] => []
  | t :: ts => t.unplaced :: unplacedAll ts

end

theorem renderAll_eq (ts : List TypeExpr) : renderAll ts = ts.map render := by
  induction ts with
  | nil => rfl
  | cons t ts ih => rw [renderAll, ih, List.map_cons]

theorem unplacedAll_eq (ts : List TypeExpr) : unplacedAll ts = ts.map unplaced := by
  induction ts with
  | nil => rfl
  | cons t ts ih => rw [unplacedAll, ih, List.map_cons]

end TypeExpr

/-- The names of the regions of a bound. -/
def BoundExpr.names (e : BoundExpr) : String × String := (e.sub.name, e.sup.name)

/-- The names of bounds, each once. -/
def distinctNames (bounds : List BoundExpr) : List (String × String) :=
  (bounds.map BoundExpr.names).eraseDups

/-- A statement as it is written. -/
def StatementShape.text : StatementShape → String
  | .borrow dest mutable place =>
    dest.render ++ " = " ++ (if mutable then "&mut " else "&") ++ place.render
  | .assign dest src => dest.render ++ " = " ++ src.render
  | .call dest func operands bounds =>
    dest.render ++ " = call " ++ func ++
      "(" ++ ", ".intercalate (operands.map Operand.render) ++ ")" ++
      whereText ((distinctNames bounds).map boundText)
  | .use operands => "use(" ++ ", ".intercalate (operands.map Operand.render) ++ ")"
  | .drop var => "drop(" ++ var ++ ")"
  | .storageDead var => "storage_dead(" ++ var ++ ")"
  | .outlives e => boundText e.names
  | .nop => "nop"

/-- A terminator as it is written. -/
def TerminatorShape.text : TerminatorShape → String
  | .goto target => "goto " ++ target
  | .branch none targets => "branch" ++ " -> " ++ ", ".intercalate targets
  | .branch (some op) targets =>
    "branch" ++ (" " ++ op.render) ++ " -> " ++ ", ".intercalate targets
  | .ret => "return"
  | .unreachable => "unreachable"

/-- The listing of a function. -/
def FunctionDecl.listing (f : FunctionDecl) : Listing where
  name := f.name
  params := f.params.map fun p => (p.name, p.ty.render)
  bounds := (distinctNames f.bounds).map boundText
  lets := f.declarations.map fun d =>
    (d.name, d.ty.render, d.drops.map fun rs => rs.map RegionName.name)
  blocks := f.blocks.map fun b =>
    (b.name, b.statements.map fun s => s.shape.text, b.terminator.shape.text)

/-! ## Trees that say the same -/

/-- A statement says the same as another; a call may have given its bounds twice. -/
inductive StatementShape.RestatedAs : StatementShape → StatementShape → Prop where
  | same (s : StatementShape) : RestatedAs s s
  | call {dest : Place} {func : String} {operands : List Operand} {bounds bounds' : List BoundExpr}
      (h : bounds'.map BoundExpr.names = distinctNames bounds) :
      RestatedAs (.call dest func operands bounds) (.call dest func operands bounds')
  | outlives {e e' : BoundExpr} (h : e'.names = e.names) : RestatedAs (.outlives e) (.outlives e')

/-- A parameter of the same name and type. -/
def ParamDecl.RestatedAs (p p' : ParamDecl) : Prop :=
  p'.name = p.name ∧ p'.ty.unplaced = p.ty.unplaced

/-- A declaration of the same name, type and drops. -/
structure LetDecl.RestatedAs (d d' : LetDecl) : Prop where
  name : d'.name = d.name
  ty : d'.ty.unplaced = d.ty.unplaced
  drops : (d'.drops.map fun rs => rs.map RegionName.name) =
    d.drops.map fun rs => rs.map RegionName.name

/-- A block of the same name and contents. -/
structure BlockDecl.RestatedAs (b b' : BlockDecl) : Prop where
  name : b'.name = b.name
  statements : List.Forall₂ (fun s s' => s.shape.RestatedAs s'.shape) b.statements b'.statements
  terminator : b'.terminator.shape = b.terminator.shape

/-- **A function that says the same**: only extents differ, the order in which
    declarations and blocks alternate, and how often a bound is given. -/
structure FunctionDecl.RestatedAs (f f' : FunctionDecl) : Prop where
  name : f'.name = f.name
  params : List.Forall₂ ParamDecl.RestatedAs f.params f'.params
  bounds : f'.bounds.map BoundExpr.names = distinctNames f.bounds
  declarations : List.Forall₂ LetDecl.RestatedAs f.declarations f'.declarations
  blocks : List.Forall₂ BlockDecl.RestatedAs f.blocks f'.blocks

/-! ## Types and bounds -/

/-- **A written type** is that type. -/
theorem spelled_type {argument : Bool} {t : TypeExpr} (h : t.Proper argument) :
    Spelled t.render.toList fun ts => ∃ t', IsType argument ts t' ∧ t'.unplaced = t.unplaced := by
  induction h with
  | @region r hr =>
    rw [TypeExpr.render]
    refine (spelled_lexeme (l := .region r.name) hr).mono ?_
    rintro _ ⟨t, rfl, ht⟩
    exact ⟨_, .region ht, by simp only [TypeExpr.unplaced]⟩
  | @ref argument r mutable t hr ht ih =>
    rw [TypeExpr.render]
    simp only [String.toList_append, List.append_assoc]
    cases mutable with
    | false =>
      show Spelled (Mark.ampersand.text.toList ++ ((Lexeme.region r.name).text.toList ++
        (' ' :: t.render.toList))) _
      refine ((ih.blank.word (l := .region r.name) hr (sharp_blank _)).mark .ampersand).mono ?_
      rintro _ ⟨a, _, rfl, ha, r', us, rfl, hr', t', ht', heq⟩
      exact ⟨_, .ref ha hr' ht', by simp only [TypeExpr.unplaced, heq]⟩
    | true =>
      show Spelled (Mark.ampersand.text.toList ++ ((Lexeme.region r.name).text.toList ++
        (' ' :: ((Lexeme.keyword .mutable).text.toList ++ (' ' :: t.render.toList))))) _
      refine (((ih.blank.word (l := .keyword .mutable) trivial (sharp_blank _)).blank.word
        (l := .region r.name) hr (sharp_blank _)).mark .ampersand).mono ?_
      rintro _ ⟨a, _, rfl, ha, r', _, rfl, hr', m, us, rfl, hm, t', ht', heq⟩
      exact ⟨_, .refMut ha hr' hm ht', by simp only [TypeExpr.unplaced, heq]⟩
  | @named argument name args hn hargs ih =>
    cases args with
    | nil =>
      rw [TypeExpr.render]
      refine (spelled_lexeme (l := .name name) hn).mono ?_
      rintro _ ⟨n, rfl, hn⟩
      exact ⟨_, .name hn, rfl⟩
    | cons a as =>
      rw [TypeExpr.render, TypeExpr.renderAll_eq]
      simp only [String.toList_append, List.append_assoc]
      have hlist := spelled_separated (List.cons_ne_nil a as) ih
      show Spelled ((Lexeme.name name).text.toList ++ (Mark.less.text.toList ++
        ((", ".intercalate ((a :: as).map TypeExpr.render)).toList ++
          (Mark.more.text.toList ++ [])))) _
      refine (((hlist.seq (sharp_mark _ _) (spelled_nil.mark .more)).mark .less).word
        (l := .name name) hn (sharp_mark _ _)).mono ?_
      rintro _ ⟨n, _, rfl, hn, l, _, rfl, hl, us, _, rfl, ⟨args, hargs, heq⟩, g, _, rfl, hg, rfl⟩
      refine ⟨_, .apply hn hl (fun _ _ h => h) hargs hg, ?_⟩
      simp only [TypeExpr.unplaced, TypeExpr.unplacedAll_eq, forall₂_iff_map_eq.mp heq]

/-- **A written bound** is that bound. -/
theorem spelled_bound {names : String × String} (hsub : IsRegion names.1)
    (hsup : IsRegion names.2) :
    Spelled (boundText names).toList fun ts => ∃ e, IsBound ts e ∧ e.names = names := by
  rw [boundText]
  simp only [String.toList_append, List.append_assoc]
  show Spelled ((Lexeme.region names.1).text.toList ++ (Mark.colon.text.toList ++
    (' ' :: (Lexeme.region names.2).text.toList))) _
  refine (((spelled_lexeme (l := .region names.2) hsup).blank.mark .colon).word
    (l := .region names.1) hsub (sharp_mark _ _)).mono ?_
  rintro _ ⟨r, _, rfl, hr, c, _, rfl, hc, s, rfl, hs⟩
  exact ⟨_, .mk hr hc hs, rfl⟩

theorem sharp_whereText (bounds : List String) {cs : List Char} (h : Sharp cs) :
    Sharp ((whereText bounds).toList ++ cs) := by
  rw [whereText]
  split
  · exact h
  · rw [String.toList_append, List.append_assoc]
    exact sharp_blank _

/-- **A written clause of bounds** are those bounds. -/
theorem spelled_whereText {bounds : List (String × String)}
    (h : ∀ names ∈ bounds, IsRegion names.1 ∧ IsRegion names.2) :
    Spelled (whereText (bounds.map boundText)).toList fun ts =>
      ∃ es, AreBounds ts es ∧ es.map BoundExpr.names = bounds := by
  by_cases hne : bounds = []
  · subst hne
    refine spelled_nil.mono ?_
    rintro _ rfl
    exact ⟨[], .none, rfl⟩
  · rw [whereText, if_neg (by simpa using hne), String.toList_append]
    have hlist := spelled_separated hne fun names hnames =>
      spelled_bound (h names hnames).1 (h names hnames).2
    show Spelled (' ' :: ((Lexeme.keyword .bounds).text.toList ++
      (' ' :: (", ".intercalate (bounds.map boundText)).toList))) _
    refine (hlist.blank.word (l := .keyword .bounds) trivial (sharp_blank _)).blank.mono ?_
    rintro _ ⟨k, us, rfl, hk, es, hes, heq⟩
    refine ⟨es, .some hk hes, ?_⟩
    rw [(forall₂_iff_map_eq (f := fun names => names)).mp heq, List.map_id']

/-- Bounds of a tree, each once. -/
theorem spelled_distinctNames {bounds : List BoundExpr} (h : ∀ e ∈ bounds, e.Proper) :
    Spelled (whereText ((distinctNames bounds).map boundText)).toList fun ts =>
      ∃ es, AreBounds ts es ∧ es.map BoundExpr.names = distinctNames bounds := by
  refine spelled_whereText fun names hnames => ?_
  obtain ⟨e, he, rfl⟩ := List.mem_map.mp (List.mem_eraseDups.mp hnames)
  exact h e he

/-! ## Statements -/

theorem spelled_operands {operands : List Operand} (h : ∀ op ∈ operands, op.Proper) :
    Spelled ("(" ++ ", ".intercalate (operands.map Operand.render) ++ ")").toList
      (Parenthesised IsOperand · operands) := by
  have heach : ∀ op ∈ operands,
      Spelled op.render.toList fun ts => ∃ op', IsOperand ts op' ∧ op = op' :=
    fun op hop => (spelled_operand (h op hop)).mono fun _ hts => ⟨op, hts, rfl⟩
  refine (spelled_parenthesised heach).mono ?_
  rintro ts ⟨operands', hts, heq⟩
  rw [List.forall₂_eq_eq_eq] at heq
  exact heq ▸ hts

/-- **A written assignment**: the place, the sign of equality and the right-hand side. -/
theorem spelled_assignment {dest : Place} (hdest : dest.Proper) {cs : List Char}
    {shape : StatementShape}
    (h : Spelled cs fun ts => ∃ shape', IsAssignment dest ts shape' ∧ shape.RestatedAs shape') :
    Spelled (dest.render.toList ++ (" = ".toList ++ cs)) fun ts =>
      ∃ shape', IsShape ts shape' ∧ shape.RestatedAs shape' := by
  show Spelled (dest.render.toList ++ (' ' :: (Mark.equal.text.toList ++ (' ' :: cs)))) _
  refine ((spelled_place hdest).seq (sharp_blank _) (h.blank.mark .equal).blank).mono ?_
  rintro _ ⟨ts, _, rfl, ⟨tight, hts⟩, e, us, rfl, he, shape', hus, hshape⟩
  exact ⟨shape', .assignment hts he hus, hshape⟩

/-- **A name in parentheses** after a keyword. -/
theorem spelled_parenName {k : Keyword} {name : String} (h : IsName name) :
    Spelled (k.word.toList ++ ("(".toList ++ (name.toList ++ ")".toList))) fun ts =>
      ∃ t us, ts = t :: us ∧ t.lexeme = .keyword k ∧ IsParenName us name := by
  show Spelled ((Lexeme.keyword k).text.toList ++ (Mark.parenOpen.text.toList ++
    ((Lexeme.name name).text.toList ++ (Mark.parenClose.text.toList ++ [])))) _
  refine ((((spelled_nil.mark .parenClose).word (l := .name name) h (sharp_mark _ _)).mark
    .parenOpen).word (l := .keyword k) trivial (sharp_mark _ _)).mono ?_
  rintro _ ⟨t, _, rfl, ht, o, _, rfl, ho, n, _, rfl, hn, c, _, rfl, hc, rfl⟩
  exact ⟨t, _, rfl, ht, .mk ho hn hc⟩

/-- **A written statement** says the same. -/
theorem spelled_shape {shape : StatementShape} (h : shape.Proper) :
    Spelled shape.text.toList fun ts => ∃ shape', IsShape ts shape' ∧ shape.RestatedAs shape' := by
  cases shape with
  | borrow dest mutable place =>
    obtain ⟨hdest, hplace⟩ := h
    rw [StatementShape.text]
    simp only [String.toList_append, List.append_assoc]
    refine spelled_assignment hdest ?_
    cases mutable with
    | false =>
      show Spelled (Mark.ampersand.text.toList ++ place.render.toList) _
      refine ((spelled_place hplace).mark .ampersand).mono ?_
      rintro _ ⟨a, us, rfl, ha, tight, hus⟩
      exact ⟨_, .borrow ha hus, .same _⟩
    | true =>
      show Spelled (Mark.ampersand.text.toList ++ ((Lexeme.keyword .mutable).text.toList ++
        (' ' :: place.render.toList))) _
      refine (((spelled_place hplace).blank.word (l := .keyword .mutable) trivial
        (sharp_blank _)).mark .ampersand).mono ?_
      rintro _ ⟨a, _, rfl, ha, m, us, rfl, hm, tight, hus⟩
      exact ⟨_, .borrowMut ha hm hus, .same _⟩
  | assign dest src =>
    obtain ⟨hdest, hsrc⟩ := h
    rw [StatementShape.text]
    simp only [String.toList_append, List.append_assoc]
    refine spelled_assignment hdest ((spelled_operand hsrc).mono fun ts hts => ?_)
    exact ⟨_, .assign hts, .same _⟩
  | call dest func operands bounds =>
    -- the clause of bounds is all that may come back in another form
    obtain ⟨hdest, hfunc, hoperands, hbounds⟩ := h
    have hargs := (spelled_operands hoperands).seq (sharp_whereText _ sharp_nil)
      (by simpa using spelled_distinctNames hbounds)
    rw [StatementShape.text]
    simp only [String.toList_append, List.append_assoc, List.append_nil] at hargs ⊢
    refine spelled_assignment hdest ?_
    show Spelled ((Lexeme.keyword .call).text.toList ++ (' ' :: ((Lexeme.name func).text.toList ++
      ("(".toList ++ _)))) _
    refine ((hargs.word (l := .name func) hfunc (sharp_mark .parenOpen _)).blank.word
      (l := .keyword .call) trivial (sharp_blank _)).mono ?_
    rintro _ ⟨k, _, rfl, hk, n, _, rfl, hn, ts, us, rfl, hts, bounds', hus, hnames⟩
    exact ⟨_, .call hk hn hts hus, .call hnames⟩
  | use operands =>
    rw [StatementShape.text]
    have hargs := spelled_operands h
    simp only [String.toList_append, List.append_assoc] at hargs ⊢
    refine (hargs.word (l := .keyword .use) trivial (sharp_mark .parenOpen _)).mono ?_
    rintro _ ⟨k, us, rfl, hk, hus⟩
    exact ⟨_, .use hk hus, .same _⟩
  | drop var =>
    rw [StatementShape.text]
    simp only [String.toList_append, List.append_assoc]
    refine (spelled_parenName (k := .drop) h).mono ?_
    rintro _ ⟨k, us, rfl, hk, hus⟩
    exact ⟨_, .drop hk hus, .same _⟩
  | storageDead var =>
    rw [StatementShape.text]
    simp only [String.toList_append, List.append_assoc]
    refine (spelled_parenName (k := .storageDead) h).mono ?_
    rintro _ ⟨k, us, rfl, hk, hus⟩
    exact ⟨_, .storageDead hk hus, .same _⟩
  | outlives e =>
    refine (spelled_bound h.1 h.2).mono ?_
    rintro ts ⟨e', hts, he⟩
    exact ⟨_, .outlives hts, .outlives he⟩
  | nop =>
    refine (spelled_lexeme (l := .keyword .nop) trivial).mono ?_
    rintro _ ⟨k, rfl, hk⟩
    exact ⟨_, .nop hk, .same _⟩

/-- **A written statement** with its semicolon. -/
theorem spelled_statement {shape : StatementShape} (h : shape.Proper) :
    Spelled (shape.text ++ ";").toList fun ts =>
      ∃ s, IsStatement ts s ∧ shape.RestatedAs s.shape := by
  rw [String.toList_append]
  refine ((spelled_shape h).seq (sharp_mark .semicolon []) (spelled_nil.mark .semicolon)).mono ?_
  rintro _ ⟨us, _, rfl, ⟨shape', hus, hshape⟩, s, _, rfl, hs, rfl⟩
  obtain ⟨t, us, rfl⟩ := hus.exists_cons
  exact ⟨_, .mk hus hs, hshape⟩

/-- A word after a keyword. -/
theorem spelled_target {name : String} (h : IsName name) :
    Spelled name.toList (IsTarget · name) := by
  refine (spelled_lexeme (l := .name name) h).mono ?_
  rintro _ ⟨n, rfl, hn⟩
  exact .mk hn

theorem spelled_targets {targets : List String} (hne : targets ≠ [])
    (h : ∀ target ∈ targets, IsName target) :
    Spelled (", ".intercalate targets).toList (Separated IsTarget · targets) := by
  have heach : ∀ target ∈ targets,
      Spelled target.toList fun ts => ∃ target', IsTarget ts target' ∧ target = target' :=
    fun target ht => (spelled_target (h target ht)).mono fun _ hts => ⟨target, hts, rfl⟩
  have hmap : Spelled (", ".intercalate (targets.map fun target => target)).toList fun ts =>
      ∃ targets', Separated IsTarget ts targets' ∧ List.Forall₂ (· = ·) targets targets' :=
    spelled_separated hne heach
  rw [List.map_id'] at hmap
  refine hmap.mono ?_
  rintro ts ⟨targets', hts, heq⟩
  rw [List.forall₂_eq_eq_eq] at heq
  exact heq ▸ hts

/-- **A written terminator** is that terminator. -/
theorem spelled_terminatorShape {shape : TerminatorShape} (h : shape.Proper) :
    Spelled shape.text.toList (IsTerminatorShape · shape) := by
  cases shape with
  | goto target =>
    rw [TerminatorShape.text, String.toList_append]
    refine ((spelled_target h).blank.word (l := .keyword .goto) trivial (sharp_blank _)).mono ?_
    rintro _ ⟨k, us, rfl, hk, hus⟩
    exact .goto hk hus
  | branch cond targets =>
    obtain ⟨hcond, hne, htargets⟩ := h
    have harrow := ((spelled_targets hne htargets).blank.mark .arrow).blank
    cases cond with
    | none =>
      rw [TerminatorShape.text]
      simp only [String.toList_append, List.append_assoc]
      show Spelled ((Lexeme.keyword .branch).text.toList ++ (' ' :: (Mark.arrow.text.toList ++
        (' ' :: (", ".intercalate targets).toList)))) _
      refine (harrow.word (l := .keyword .branch) trivial (sharp_blank _)).mono ?_
      rintro _ ⟨k, _, rfl, hk, a, us, rfl, ha, hus⟩
      exact .branch hk .none ha hus
    | some op =>
      rw [TerminatorShape.text]
      simp only [String.toList_append, List.append_assoc]
      refine (((spelled_operand (hcond op rfl)).seq (sharp_blank _) harrow).blank.word
        (l := .keyword .branch) trivial (sharp_blank _)).mono ?_
      rintro _ ⟨k, _, rfl, hk, ts, _, rfl, hts, a, us, rfl, ha, hus⟩
      exact .branch hk (.some hts) ha hus
  | ret =>
    refine (spelled_lexeme (l := .keyword .ret) trivial).mono ?_
    rintro _ ⟨k, rfl, hk⟩
    exact .ret hk
  | unreachable =>
    refine (spelled_lexeme (l := .keyword .unreachable) trivial).mono ?_
    rintro _ ⟨k, rfl, hk⟩
    exact .unreachable hk

/-- **A written terminator** with its semicolon, before what follows it. -/
theorem spelled_terminator {shape : TerminatorShape} (h : shape.Proper) {cs : List Char}
    {P : List Token → Prop} (hcs : Spelled cs P) :
    Spelled (shape.text.toList ++ (Mark.semicolon.text.toList ++ cs)) fun ts =>
      ∃ us vs last, ts = us ++ vs ∧ IsTerminator us last ∧ last.shape = shape ∧ P vs := by
  refine ((spelled_terminatorShape h).seq (sharp_mark _ _) (hcs.mark .semicolon)).mono ?_
  rintro _ ⟨us, _, rfl, hus, s, vs, rfl, hs, hvs⟩
  obtain ⟨t, us, rfl⟩ : ∃ t us', us = t :: us' := by
    cases hus <;> exact ⟨_, _, rfl⟩
  exact ⟨t :: (us ++ [s]), vs, _, by simp, .mk hus hs, rfl, hvs⟩

/-! ## Items and functions -/

theorem spelled_dropsText {drops : Option (List RegionName)}
    (h : ∀ names ∈ drops, ∀ r ∈ names, IsRegion r.name) :
    Spelled (dropsText (drops.map fun rs => rs.map RegionName.name)).toList fun ts =>
      ∃ drops', Optional IsDrops ts drops' ∧
        (drops'.map fun rs => rs.map RegionName.name) =
          drops.map fun rs => rs.map RegionName.name := by
  cases drops with
  | none =>
    refine spelled_nil.mono ?_
    rintro _ rfl
    exact ⟨none, .none, rfl⟩
  | some names =>
    have heach : ∀ r ∈ names,
        Spelled r.name.toList fun ts => ∃ r', IsRegionName ts r' ∧ r'.name = r.name := by
      intro r hr
      refine (spelled_lexeme (l := .region r.name) (h names rfl r hr)).mono ?_
      rintro _ ⟨t, rfl, ht⟩
      exact ⟨_, .mk ht, rfl⟩
    have hlist := spelled_parenthesised heach
    rw [Option.map_some, dropsText]
    simp only [String.toList_append, List.append_assoc] at hlist ⊢
    show Spelled (' ' :: ((Lexeme.keyword .drops).text.toList ++ ("(".toList ++ _))) _
    refine (hlist.word (l := .keyword .drops) trivial (sharp_mark .parenOpen _)).blank.mono ?_
    rintro _ ⟨k, us, rfl, hk, names', hus, heq⟩
    refine ⟨some names', .some (.mk hk hus), ?_⟩
    rw [Option.map_some, forall₂_iff_map_eq.mp heq]

theorem sharp_dropsText (drops : Option (List String)) {cs : List Char} (h : Sharp cs) :
    Sharp ((dropsText drops).toList ++ cs) := by
  cases drops with
  | none => exact h
  | some regions =>
    rw [dropsText, String.toList_append, String.toList_append, List.append_assoc, List.append_assoc]
    exact sharp_blank _

/-- **A written declaration** says the same. -/
theorem spelled_let {d : LetDecl} (h : d.Proper) :
    Spelled (Listing.letText
        (d.name, d.ty.render, d.drops.map fun rs => rs.map RegionName.name)).toList
      fun ts => ∃ d', IsDeclaration ts d' ∧ d.RestatedAs d' := by
  rw [Listing.letText]
  simp only [String.toList_append, List.append_assoc]
  have hsemi : Sharp (Mark.semicolon.text.toList ++ []) := sharp_mark _ _
  have htail := (spelled_type h.ty).seq (sharp_dropsText _ hsemi)
    ((spelled_dropsText h.drops).seq hsemi (spelled_nil.mark .semicolon))
  show Spelled ((Lexeme.keyword .declare).text.toList ++
    (' ' :: ((Lexeme.name d.name).text.toList ++ (Mark.colon.text.toList ++ (' ' :: _))))) _
  refine (((htail.blank.mark .colon).word (l := .name d.name) h.name (sharp_mark _ _)).blank.word
    (l := .keyword .declare) trivial (sharp_blank _)).mono ?_
  rintro _ ⟨k, _, rfl, hk, n, _, rfl, hn, c, _, rfl, hc, ts, _, rfl, ⟨ty, hty, htyEq⟩,
    us, _, rfl, ⟨drops, hdrops, hdropsEq⟩, s, _, rfl, hs, rfl⟩
  exact ⟨_, .mk hk hn hc hty hdrops hs, rfl, htyEq, hdropsEq⟩

/-- **A written block** says the same. -/
theorem spelled_block {b : BlockDecl} (h : b.Proper) :
    Spelled (Listing.blockText
      (b.name, b.statements.map fun s => s.shape.text, b.terminator.shape.text)).toList
      fun ts => ∃ b', IsBlock ts b' ∧ b.RestatedAs b' := by
  have hlast := (spelled_terminator h.terminator (spelled_nil.mark .braceClose).blank).blank
  have hbody := spelled_sequence fun s hs => spelled_statement (h.statements s hs)
  have htail := hbody.seq (sharp_blank _) hlast
  rw [Listing.blockText]
  simp only [List.map_map, Function.comp_def]
  simp only [String.toList_append, List.append_assoc] at htail ⊢
  show Spelled ((Lexeme.name b.name).text.toList ++ (Mark.colon.text.toList ++
    (' ' :: (Mark.braceOpen.text.toList ++ _)))) _
  refine (((htail.mark .braceOpen).blank.mark .colon).word (l := .name b.name) h.name
    (sharp_mark _ _)).mono ?_
  rintro _ ⟨n, _, rfl, hn, c, _, rfl, hc, o, _, rfl, ho, ts, _, rfl, ⟨body, hbody, heq⟩,
    us, _, last, rfl, hlast, hlastEq, e, _, rfl, he, rfl⟩
  exact ⟨_, .mk hn hc ho hbody hlast he, rfl, heq, hlastEq⟩

theorem spelled_param {p : ParamDecl} (h : p.Proper) :
    Spelled (Listing.paramText (p.name, p.ty.render)).toList fun ts =>
      ∃ p', IsParam ts p' ∧ p.RestatedAs p' := by
  rw [Listing.paramText]
  simp only [String.toList_append, List.append_assoc]
  refine (((spelled_type h.ty).blank.mark .colon).word (l := .name p.name) h.name
    (sharp_mark .colon _)).mono ?_
  rintro _ ⟨n, _, rfl, hn, c, _, rfl, hc, ty, hty, heq⟩
  exact ⟨_, .mk hn hc hty, rfl, heq⟩

section Sequences

variable {α β : Type} {item : List Token → α → Prop}

theorem Sequence.append {ts us : List Token} {as bs : List α} (h : Sequence item ts as)
    (h' : Sequence item us bs) : Sequence item (ts ++ us) (as ++ bs) := by
  induction h with
  | nil => exact h'
  | cons h _ ih =>
    rw [List.append_assoc, List.cons_append]
    exact .cons h ih

theorem Sequence.map {item' : List Token → β → Prop} {g : α → β}
    (hg : ∀ ts a, item ts a → item' ts (g a)) {ts : List Token} {as : List α}
    (h : Sequence item ts as) : Sequence item' ts (as.map g) := by
  induction h with
  | nil => exact .nil
  | cons h _ ih => exact .cons (hg _ _ h) ih

end Sequences

/-- Declarations and blocks are told apart again. -/
theorem FunctionDecl.parts_of_items {f : FunctionDecl} {lets : List LetDecl}
    {blocks : List BlockDecl}
    (h : f.items = lets.map .declaration ++ blocks.map .block) :
    f.declarations = lets ∧ f.blocks = blocks := by
  rw [FunctionDecl.declarations, FunctionDecl.blocks, h]
  simp [List.filterMap_append, List.filterMap_map]

/-- **A written function** says the same. -/
theorem spelled_function {f : FunctionDecl} (h : f.Proper) :
    Spelled f.listing.text.toList fun ts => ∃ f', IsFunction ts f' ∧ f.RestatedAs f' := by
  have hparams := spelled_parenthesised fun p hp => spelled_param (h.params p hp)
  have hbounds := spelled_distinctNames h.bounds
  have hlets := spelled_sequence fun d hd => spelled_let (h.declarations d hd)
  have hblocks := spelled_sequence fun b hb => spelled_block (h.blocks b hb)
  have hclose := (spelled_nil.mark .braceClose).blank
  have hitems := hlets.seq (sharp_sequence _ (sharp_blank _)) (hblocks.seq (sharp_blank _) hclose)
  have hbody := hbounds.seq (sharp_blank _) (hitems.mark .braceOpen).blank
  have htail := hparams.seq (sharp_whereText _ (sharp_blank _)) hbody
  rw [Listing.text, FunctionDecl.listing]
  simp only [List.map_map, Function.comp_def]
  simp only [String.toList_append, List.append_assoc] at htail ⊢
  show Spelled ((Lexeme.keyword .function).text.toList ++
    (' ' :: ((Lexeme.name f.name).text.toList ++ ("(".toList ++ _)))) _
  refine ((htail.word (l := .name f.name) h.name (sharp_mark .parenOpen _)).blank.word
    (l := .keyword .function) trivial (sharp_blank _)).mono ?_
  rintro _ ⟨k, _, rfl, hk, n, _, rfl, hn, ts, _, rfl, ⟨params, hparams, hparamsEq⟩,
    us, _, rfl, ⟨bounds, hbounds, hboundsEq⟩, o, _, rfl, ho, vs, _, rfl, ⟨lets, hlets, hletsEq⟩,
    ws, _, rfl, ⟨blocks, hblocks, hblocksEq⟩, e, _, rfl, he, rfl⟩
  -- declarations and blocks alternate no longer
  have hitems : Sequence IsItem (vs ++ ws) (lets.map .declaration ++ blocks.map .block) :=
    (hlets.map fun _ _ h => .declaration h).append (hblocks.map fun _ _ h => .block h)
  rw [← List.append_assoc vs]
  obtain ⟨hdeclarations, hblockDecls⟩ := FunctionDecl.parts_of_items (f := ⟨f.name, params, bounds,
    .covering us, lets.map .declaration ++ blocks.map .block, ⟨k.extent.start, e.extent.stop⟩⟩) rfl
  exact ⟨_, .mk hk hn hparams hbounds ho hitems he, rfl, hparamsEq, hboundsEq,
    hdeclarations.symm ▸ hletsEq, hblockDecls.symm ▸ hblocksEq⟩

/-- **A listing is parsed back.**  The listing of a proper function gives one function,
    which says the same. -/
theorem parseText_listing {f : FunctionDecl} (h : f.Proper) :
    ∃ f', parseText f.listing.text = .ok [f'] ∧ f.RestatedAs f' := by
  obtain ⟨ts, ⟨f', hf', hsame⟩, hlex⟩ := (spelled_function h).lex_eq
  refine ⟨f', ?_, hsame⟩
  have hprogram : IsProgram ts [f'] := by
    rw [← List.append_nil ts]
    exact .cons hf' .nil
  rw [parseText, hlex]
  exact parseTokens_of_isProgram hprogram

end BorrowFlow.Source
