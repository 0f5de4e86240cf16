import BorrowFlow.Proofs.Source.Spelling
import BorrowFlow.Source.Parser

/-! # What syntax trees can hold

    The names in a syntax tree are names of tokens, so they are proper: words that are no
    keywords.  The same goes for its regions, and an index is no negative number.
    `ParseM.Yields p Q` says that `p` makes nothing but answers with `Q` out of proper
    tokens; hence all trees of a text are proper (`proper_of_parseText`).
-/

namespace BorrowFlow

open Source

/-! ## Proper trees -/

/-- A step that a text can name. -/
def Projection.Proper : Projection → Prop
  | .deref => True
  | .field name => IsName name
  | .constIndex value => 0 ≤ value
  | .varIndex name => ∃ var, name = some var ∧ IsName var

/-- A place that a text can name. -/
structure Place.Proper (p : Place) : Prop where
  base : IsName p.base
  path : ∀ step ∈ p.path, step.Proper

theorem Place.proper_ofLocal {name : String} (h : IsName name) : (Place.ofLocal name).Proper :=
  ⟨h, by simp [Place.ofLocal]⟩

theorem Place.Proper.project {p : Place} (h : p.Proper) {step : Projection} (hstep : step.Proper) :
    (p.project step).Proper := by
  refine ⟨h.base, fun s hs => ?_⟩
  rcases List.mem_append.mp hs with hs | hs
  · exact h.path s hs
  · exact List.mem_singleton.mp hs ▸ hstep

/-- An operand that a text can name. -/
def Operand.Proper (op : Operand) : Prop := ∀ p ∈ op.place?, p.Proper

namespace Source

/-- A type that a text can name, or, as an `argument`, a region. -/
inductive TypeExpr.Proper : (argument : Bool) → TypeExpr → Prop where
  | region {r : RegionName} (hr : IsRegion r.name) : Proper true (.region r)
  | ref {argument : Bool} {r : RegionName} {mutable : Bool} {t : TypeExpr} (hr : IsRegion r.name)
      (ht : Proper false t) : Proper argument (.ref r mutable t)
  | named {argument : Bool} {name : String} {args : List TypeExpr} (hn : IsName name)
      (hargs : ∀ t ∈ args, Proper true t) : Proper argument (.named name args)

/-- Every type is an argument. -/
theorem TypeExpr.Proper.argument {t : TypeExpr} (h : t.Proper false) : t.Proper true := by
  cases h with
  | ref hr ht => exact .ref hr ht
  | named hn hargs => exact .named hn hargs

/-- Both regions of a bound are proper. -/
def BoundExpr.Proper (e : BoundExpr) : Prop := IsRegion e.sub.name ∧ IsRegion e.sup.name

/-- A statement that a text can hold. -/
def StatementShape.Proper : StatementShape → Prop
  | .borrow dest _ place => dest.Proper ∧ place.Proper
  | .assign dest src => dest.Proper ∧ src.Proper
  | .call dest func operands bounds =>
    dest.Proper ∧ IsName func ∧ (∀ op ∈ operands, op.Proper) ∧ ∀ e ∈ bounds, e.Proper
  | .use operands => ∀ op ∈ operands, op.Proper
  | .drop var => IsName var
  | .storageDead var => IsName var
  | .outlives e => e.Proper
  | .nop => True

/-- A terminator that a text can hold. -/
def TerminatorShape.Proper : TerminatorShape → Prop
  | .goto target => IsName target
  | .branch cond targets =>
    (∀ op ∈ cond, op.Proper) ∧ targets ≠ [] ∧ ∀ target ∈ targets, IsName target
  | .ret => True
  | .unreachable => True

/-- A declaration that a text can hold. -/
structure LetDecl.Proper (d : LetDecl) : Prop where
  name : IsName d.name
  ty : d.ty.Proper false
  drops : ∀ names ∈ d.drops, ∀ r ∈ names, IsRegion r.name

/-- A block that a text can hold. -/
structure BlockDecl.Proper (b : BlockDecl) : Prop where
  name : IsName b.name
  statements : ∀ s ∈ b.statements, s.shape.Proper
  terminator : b.terminator.shape.Proper

/-- An item that a text can hold. -/
def Item.Proper : Item → Prop
  | .declaration d => d.Proper
  | .block b => b.Proper

/-- A parameter that a text can hold. -/
structure ParamDecl.Proper (p : ParamDecl) : Prop where
  name : IsName p.name
  ty : p.ty.Proper false

/-- **A function that a text can hold.** -/
structure FunctionDecl.Proper (f : FunctionDecl) : Prop where
  name : IsName f.name
  params : ∀ p ∈ f.params, p.Proper
  bounds : ∀ e ∈ f.bounds, e.Proper
  items : ∀ i ∈ f.items, i.Proper

theorem FunctionDecl.Proper.declarations {f : FunctionDecl} (h : f.Proper) :
    ∀ d ∈ f.declarations, d.Proper := by
  intro d hd
  obtain ⟨i, hi, hsome⟩ := List.mem_filterMap.mp hd
  cases i with
  | declaration d' => exact Option.some.inj hsome ▸ h.items _ hi
  | block b => cases hsome

theorem FunctionDecl.Proper.blocks {f : FunctionDecl} (h : f.Proper) :
    ∀ b ∈ f.blocks, b.Proper := by
  intro b hb
  obtain ⟨i, hi, hsome⟩ := List.mem_filterMap.mp hb
  cases i with
  | declaration d => cases hsome
  | block b' => exact Option.some.inj hsome ▸ h.items _ hi

/-! ## What parsers yield -/

namespace ParseM

variable {α β : Type}

/-- **The parser yields** only answers with `Q` from proper tokens. -/
def Yields (p : ParseM α) (Q : α → Prop) : Prop :=
  ∀ tokens a rest, (∀ t ∈ tokens, t.lexeme.Proper) → p tokens = .ok (a, rest) →
    Q a ∧ ∀ t ∈ rest, t.lexeme.Proper

variable {p : ParseM α} {f : α → ParseM β} {Q Q' : α → Prop} {R : β → Prop}

theorem yields_pure {a : α} (h : Q a) : Yields (pure a) Q := by
  intro tokens a' rest htokens hrun
  cases hrun
  exact ⟨h, htokens⟩

theorem yields_unexpected : Yields unexpected Q := by
  intro tokens a rest _ hrun
  cases hrun

/-- **One parser after another** yields what the second does with the answers of the first. -/
theorem Yields.bind (hp : Yields p Q) (hf : ∀ a, Q a → Yields (f a) R) : Yields (p >>= f) R := by
  intro tokens b rest htokens hrun
  change (p tokens >>= fun r => f r.1 r.2) = _ at hrun
  cases hfirst : p tokens with
  | error e =>
    rw [hfirst] at hrun
    cases hrun
  | ok r =>
    rw [hfirst] at hrun
    obtain ⟨ha, hrest⟩ := hp tokens r.1 r.2 htokens hfirst
    exact hf r.1 ha r.2 b rest hrest hrun

theorem Yields.mono (hp : Yields p Q) (h : ∀ a, Q a → Q' a) : Yields p Q' := by
  intro tokens a rest htokens hrun
  obtain ⟨ha, hrest⟩ := hp tokens a rest htokens hrun
  exact ⟨h a ha, hrest⟩

/-- The answer of a parser may be made into another. -/
theorem Yields.bind_pure {g : α → β} (hp : Yields p Q) (hg : ∀ a, Q a → R (g a)) :
    Yields (p >>= fun a => pure (g a)) R := hp.bind fun a ha => yields_pure (hg a ha)

/-- Where something stands is no matter. -/
theorem Yields.located {p : ParseM (Extent → α)} (hp : Yields p fun place => ∀ e, Q (place e)) :
    Yields (located p) Q := by
  intro tokens a rest htokens hrun
  change (p tokens >>= fun r => _) = _ at hrun
  cases hplace : p tokens with
  | error e =>
    rw [hplace] at hrun
    cases hrun
  | ok r =>
    rw [hplace] at hrun
    cases hrun
    obtain ⟨hall, hrest⟩ := hp tokens r.1 r.2 htokens hplace
    exact ⟨hall _, hrest⟩

/-! ## Single tokens -/

theorem yields_peek : Yields peek fun n => ∀ l ∈ n, l.Proper := by
  intro tokens n rest htokens hrun
  cases hrun
  refine ⟨fun l hl => ?_, htokens⟩
  obtain ⟨t, ht, rfl⟩ := Option.map_eq_some_iff.mp hl
  exact htokens t (List.mem_of_head? ht)

theorem yields_next : Yields next fun _ => True := by
  intro tokens t rest htokens hrun
  cases tokens with
  | nil => cases hrun
  | cons t' rest' =>
    cases hrun
    exact ⟨trivial, (List.forall_mem_cons.mp htokens).2⟩

theorem yields_here : Yields here fun _ => True := by
  intro tokens pos rest htokens hrun
  cases tokens with
  | nil =>
    cases hrun
    exact ⟨trivial, htokens⟩
  | cons t tokens =>
    cases hrun
    exact ⟨trivial, htokens⟩

theorem yields_nextIs (l : Lexeme) : Yields (nextIs l) fun _ => True :=
  yields_peek.bind_pure fun _ _ => trivial

theorem yields_expect (l : Lexeme) : Yields (expect l) fun _ => True := by
  refine (yields_nextIs l).bind fun found _ => ?_
  cases found with
  | true => exact yields_next
  | false => exact yields_unexpected

theorem yields_accept (l : Lexeme) : Yields (accept l) fun _ => True := by
  refine (yields_nextIs l).bind fun found _ => ?_
  cases found with
  | true => exact yields_next.bind_pure fun _ _ => trivial
  | false => exact yields_pure trivial

theorem yields_mark (m : Mark) : Yields (mark m) fun _ => True := yields_expect _

theorem yields_keyword (k : Keyword) : Yields (keyword k) fun _ => True := yields_expect _

theorem yields_name : Yields name IsName := by
  refine yields_peek.bind fun n hn => ?_
  split
  · exact yields_next.bind_pure fun _ _ => hn _ rfl
  · exact yields_unexpected

theorem yields_region : Yields region fun r => IsRegion r.name := by
  refine yields_peek.bind fun n hn => ?_
  split
  · exact yields_next.bind_pure fun _ _ => hn _ rfl
  · exact yields_unexpected

/-! ## Lists -/

theorem yields_moreAfterComma {item : ParseM α} (hitem : Yields item Q) (n : Nat) :
    Yields (moreAfterComma item n) fun as => ∀ a ∈ as, Q a := by
  induction n with
  | zero => exact yields_unexpected
  | succ n ih =>
    refine (yields_accept _).bind fun found _ => ?_
    cases found with
    | true =>
      refine hitem.bind fun a ha => ih.bind_pure fun as has => ?_
      exact List.forall_mem_cons.mpr ⟨ha, has⟩
    | false => exact yields_pure (by simp)

theorem yields_separated {item : ParseM α} (hitem : Yields item Q) (n : Nat) :
    Yields (separated n item) fun as => as ≠ [] ∧ ∀ a ∈ as, Q a :=
  hitem.bind fun _ ha => (yields_moreAfterComma hitem n).bind_pure fun _ has =>
    ⟨List.cons_ne_nil _ _, List.forall_mem_cons.mpr ⟨ha, has⟩⟩

theorem yields_parenthesised {item : ParseM α} (hitem : Yields item Q) (n : Nat) :
    Yields (parenthesised n item) fun as => ∀ a ∈ as, Q a := by
  refine (yields_mark _).bind fun _ _ => (yields_accept _).bind fun found _ => ?_
  cases found with
  | true => exact yields_pure (by simp)
  | false =>
    exact (yields_separated hitem n).bind fun _ has => (yields_mark _).bind_pure fun _ _ => has.2

end ParseM

open ParseM

/-! ## Places and operands -/

theorem yields_index : Yields index Projection.Proper := by
  refine yields_peek.bind fun n hn => ?_
  split
  · exact yields_next.bind_pure fun _ _ => Int.natCast_nonneg _
  · exact yields_next.bind_pure fun _ _ => ⟨_, rfl, hn _ rfl⟩
  · exact yields_unexpected

theorem yields_projections (n : Nat) {p : Place} (hp : p.Proper) :
    Yields (projections p n) Place.Proper := by
  induction n generalizing p with
  | zero => exact yields_unexpected
  | succ n ih =>
    rw [projections]
    refine yields_peek.bind fun _ _ => ?_
    split
    · exact yields_next.bind fun _ _ => yields_name.bind fun _ hfield => ih (hp.project hfield)
    · exact yields_next.bind fun _ _ => yields_index.bind fun _ hstep =>
        (yields_mark _).bind fun _ _ => ih (hp.project hstep)
    · exact yields_pure hp

theorem yields_place (n : Nat) : Yields (place n) Place.Proper := by
  induction n with
  | zero => exact yields_unexpected
  | succ n ih =>
    rw [place]
    refine yields_peek.bind fun l hl => ?_
    split
    · exact yields_next.bind fun _ _ => ih.bind_pure fun _ hp => hp.project trivial
    · exact yields_next.bind fun _ _ => ih.bind fun _ hp =>
        (yields_mark _).bind fun _ _ => yields_projections (n + 1) hp
    · exact yields_next.bind fun _ _ => yields_projections (n + 1) (Place.proper_ofLocal (hl _ rfl))
    · exact yields_unexpected

theorem yields_operand (n : Nat) : Yields (operand n) Operand.Proper := by
  -- a place alone is copied, so three of the four forms read one
  have used : ∀ {make : Place → Operand}, (∀ p, (make p).place? = some p) →
      Yields (do return make (← place n)) Operand.Proper := by
    intro make hmake
    refine (yields_place n).bind_pure fun p hp q hq => ?_
    rw [hmake] at hq
    exact Option.some.inj hq ▸ hp
  refine yields_peek.bind fun _ _ => ?_
  split
  · exact yields_next.bind fun _ _ => used fun _ => rfl
  · exact yields_next.bind fun _ _ => used fun _ => rfl
  · exact yields_next.bind_pure fun _ _ p hp => by cases hp
  · exact used fun _ => rfl

/-! ## Types and bounds -/

/-- Types and arguments are proper; the induction is on the bound of both. -/
theorem yields_types (n : Nat) :
    Yields (typeExpr n) (TypeExpr.Proper false) ∧
      Yields (typeArgument n) (TypeExpr.Proper true) := by
  induction n with
  | zero => exact ⟨yields_unexpected, yields_unexpected⟩
  | succ n ih =>
    obtain ⟨htype, hargument⟩ := ih
    constructor
    · rw [typeExpr]
      refine yields_peek.bind fun l hl => ?_
      split
      · exact yields_next.bind fun _ _ => yields_region.bind fun _ hr =>
          (yields_accept _).bind fun _ _ => htype.bind_pure fun _ ht => .ref hr ht
      · next text =>
        have hname : IsName text := hl _ rfl
        refine yields_next.bind fun _ _ => (yields_accept _).bind fun found _ => ?_
        cases found with
        | true =>
          exact (yields_separated hargument n).bind fun _ hargs =>
            (yields_mark _).bind_pure fun _ _ => .named hname hargs.2
        | false => exact yields_pure (.named hname (by simp))
      · exact yields_unexpected
    · rw [typeArgument]
      refine yields_peek.bind fun l hl => ?_
      split
      · exact yields_next.bind_pure fun _ _ => .region (hl _ rfl)
      · exact htype.mono fun _ ht => ht.argument

theorem yields_bound : Yields bound BoundExpr.Proper :=
  yields_region.bind fun _ hsub => (yields_mark _).bind fun _ _ =>
    yields_region.bind_pure fun _ hsup => ⟨hsub, hsup⟩

theorem yields_boundsClause (limit : Nat) :
    Yields (boundsClause limit) fun bounds => ∀ e ∈ bounds, e.Proper := by
  refine (yields_accept _).bind fun found _ => ?_
  cases found with
  | true => exact (yields_separated yields_bound limit).mono fun _ h => h.2
  | false => exact yields_pure (by simp)

/-! ## Statements -/

theorem yields_operands (limit : Nat) :
    Yields (parenthesised limit (operand limit)) fun operands => ∀ op ∈ operands, op.Proper :=
  yields_parenthesised (yields_operand limit) limit

theorem yields_assignment (limit : Nat) {dest : Place} (hdest : dest.Proper) :
    Yields (assignment limit dest) StatementShape.Proper := by
  refine yields_peek.bind fun _ _ => ?_
  split
  · exact yields_next.bind fun _ _ => (yields_accept _).bind fun _ _ =>
      (yields_place limit).bind_pure fun _ hp => ⟨hdest, hp⟩
  · exact yields_next.bind fun _ _ => yields_name.bind fun _ hfunc =>
      (yields_operands limit).bind fun _ hoperands => (yields_boundsClause limit).bind_pure
        fun _ hbounds => ⟨hdest, hfunc, hoperands, hbounds⟩
  · exact (yields_operand limit).bind_pure fun _ hsrc => ⟨hdest, hsrc⟩

theorem yields_parenthesisedName : Yields parenthesisedName IsName :=
  (yields_mark _).bind fun _ _ => yields_name.bind fun _ htext =>
    (yields_mark _).bind_pure fun _ _ => htext

theorem yields_statementShape (limit : Nat) :
    Yields (statementShape? limit) fun shape => ∀ s ∈ shape, s.Proper := by
  have found : ∀ {s : StatementShape}, s.Proper → ∀ s' ∈ some s, s'.Proper :=
    fun hs _ hs' => Option.some.inj hs' ▸ hs
  have assigned : Yields (do
      let dest ← place limit
      let _ ← mark .equal
      return some (← assignment limit dest)) fun shape => ∀ s ∈ shape, s.Proper :=
    (yields_place limit).bind fun _ hdest => (yields_mark _).bind fun _ _ =>
      (yields_assignment limit hdest).bind_pure fun _ h => found h
  refine yields_peek.bind fun _ _ => ?_
  split
  · exact yields_next.bind fun _ _ => (yields_operands limit).bind_pure fun _ h => found h
  · exact yields_next.bind fun _ _ => yields_parenthesisedName.bind_pure fun _ h => found h
  · exact yields_next.bind fun _ _ => yields_parenthesisedName.bind_pure fun _ h => found h
  · exact yields_next.bind_pure fun _ _ => found trivial
  · exact yields_bound.bind_pure fun _ h => found h
  · exact assigned
  · exact assigned
  · exact assigned
  · exact yields_pure (by simp)

theorem yields_statements (limit rounds : Nat) :
    Yields (statements limit rounds) fun body => ∀ s ∈ body, s.shape.Proper := by
  induction rounds with
  | zero => exact yields_unexpected
  | succ n ih =>
    refine yields_here.bind fun _ _ => (yields_statementShape limit).bind fun shape hshape => ?_
    cases shape with
    | none => exact yields_pure (by simp)
    | some shape =>
      refine (yields_mark _).bind fun _ _ => ih.bind_pure fun _ hrest => ?_
      exact List.forall_mem_cons.mpr ⟨hshape shape rfl, hrest⟩

theorem yields_terminatorShape (limit : Nat) :
    Yields (terminatorShape limit) TerminatorShape.Proper := by
  have jump : ∀ {cond : Option Operand}, (∀ op ∈ cond, op.Proper) → Yields (do
      let _ ← mark .arrow
      return TerminatorShape.branch cond (← separated limit name)) TerminatorShape.Proper :=
    fun hcond => (yields_mark _).bind fun _ _ =>
      (yields_separated yields_name limit).bind_pure fun _ h => ⟨hcond, h.1, h.2⟩
  refine yields_peek.bind fun _ _ => ?_
  split
  · exact yields_next.bind fun _ _ => yields_name.bind_pure fun _ h => h
  · refine yields_next.bind fun _ _ => (yields_nextIs _).bind fun found _ => ?_
    cases found with
    | true => exact jump (by simp)
    | false =>
      have hcond : Yields (some <$> operand limit) fun cond => ∀ op ∈ cond, op.Proper := by
        rw [map_eq_pure_bind]
        exact (yields_operand limit).bind_pure fun _ h _ hop => Option.some.inj hop ▸ h
      exact hcond.bind fun _ h => jump h
  · exact yields_next.bind_pure fun _ _ => trivial
  · exact yields_next.bind_pure fun _ _ => trivial
  · exact yields_unexpected

theorem yields_terminator (limit : Nat) :
    Yields (terminator limit) fun last => last.shape.Proper :=
  yields_here.bind fun _ _ => (yields_terminatorShape limit).bind fun _ hshape =>
    (yields_mark _).bind_pure fun _ _ => hshape

/-! ## Items and functions -/

theorem yields_declaration (limit : Nat) : Yields (declaration limit) LetDecl.Proper := by
  refine yields_here.bind fun start _ => (yields_keyword _).bind fun _ _ => ?_
  refine yields_name.bind fun text htext => (yields_mark _).bind fun _ _ => ?_
  refine (yields_types limit).1.bind fun ty hty => (yields_accept _).bind fun found _ => ?_
  have closed : ∀ {drops : Option (List RegionName)},
      (∀ names ∈ drops, ∀ r ∈ names, IsRegion r.name) → Yields (do
        let close ← mark .semicolon
        return (⟨text, ty, drops, ⟨start, close.extent.stop⟩⟩ : LetDecl)) LetDecl.Proper :=
    fun hdrops => (yields_mark _).bind_pure fun _ _ => ⟨htext, hty, hdrops⟩
  cases found with
  | true =>
    have hdrops : Yields (some <$> parenthesised limit region)
        fun drops => ∀ names ∈ drops, ∀ r ∈ names, IsRegion r.name := by
      rw [map_eq_pure_bind]
      exact (yields_parenthesised yields_region limit).bind_pure fun _ h _ hnames =>
        Option.some.inj hnames ▸ h
    exact hdrops.bind fun _ h => closed h
  | false => exact closed (by simp)

theorem yields_block (limit : Nat) : Yields (block limit) BlockDecl.Proper := by
  refine yields_here.bind fun _ _ => yields_name.bind fun _ htext => ?_
  refine (yields_mark _).bind fun _ _ => (yields_mark _).bind fun _ _ => ?_
  exact (yields_statements limit limit).bind fun _ hbody => (yields_terminator limit).bind
    fun _ hlast => (yields_mark _).bind_pure fun _ _ => ⟨htext, hbody, hlast⟩

theorem yields_items (limit rounds : Nat) :
    Yields (items limit rounds) fun l => ∀ i ∈ l, i.Proper := by
  induction rounds with
  | zero => exact yields_unexpected
  | succ n ih =>
    refine yields_peek.bind fun _ _ => ?_
    split
    · exact (yields_declaration limit).bind fun _ h => ih.bind_pure fun _ hrest =>
        List.forall_mem_cons.mpr ⟨h, hrest⟩
    · exact (yields_block limit).bind fun _ h => ih.bind_pure fun _ hrest =>
        List.forall_mem_cons.mpr ⟨h, hrest⟩
    · exact yields_pure (by simp)

theorem yields_param (limit : Nat) : Yields (param limit) ParamDecl.Proper :=
  .located (yields_name.bind fun _ htext => (yields_mark _).bind fun _ _ =>
    (yields_types limit).1.bind_pure fun _ hty _ => ⟨htext, hty⟩)

theorem yields_function (limit : Nat) : Yields (function limit) FunctionDecl.Proper := by
  refine yields_here.bind fun _ _ => (yields_keyword _).bind fun _ _ => ?_
  refine yields_name.bind fun _ htext => ?_
  refine (yields_parenthesised (yields_param limit) limit).bind fun _ hparams => ?_
  have hclause : Yields (located do
      let bounds ← boundsClause limit
      return fun extent => (bounds, extent)) fun clause => ∀ e ∈ clause.1, e.Proper :=
    .located ((yields_boundsClause limit).bind_pure fun _ hbounds _ => hbounds)
  refine hclause.bind fun _ hbounds => (yields_mark _).bind fun _ _ => ?_
  exact (yields_items limit limit).bind fun _ hitems => (yields_mark _).bind_pure
    fun _ _ => ⟨htext, hparams, hbounds, hitems⟩

theorem yields_functions (limit rounds : Nat) :
    Yields (functions limit rounds) fun program => ∀ f ∈ program, f.Proper := by
  induction rounds with
  | zero => exact yields_unexpected
  | succ n ih =>
    refine yields_peek.bind fun _ _ => ?_
    split
    · exact yields_pure (by simp)
    · exact (yields_function limit).bind fun _ h => ih.bind_pure fun _ hrest =>
        List.forall_mem_cons.mpr ⟨h, hrest⟩

/-- **All functions of a text are proper.** -/
theorem proper_of_parseText {text : String} {program : List FunctionDecl}
    (h : parseText text = .ok program) : ∀ f ∈ program, f.Proper := by
  have htokens : ∀ t ∈ (lex text).1, t.lexeme.Proper := fun t => proper_of_mem_lex
  change parseTokens (lex text).1 (lex text).2 = .ok program at h
  unfold parseTokens at h
  dsimp only at h
  split at h
  · cases h
  · split at h <;> cases h
  · next rest hrun =>
    split at h
    · cases h
    · cases h
      exact (yields_functions _ _ _ _ rest htokens hrun).1

end Source

end BorrowFlow
