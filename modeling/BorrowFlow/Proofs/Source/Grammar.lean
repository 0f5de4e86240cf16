import BorrowFlow.Source.Parser

/-! # The grammar

    What the tokens of a text mean, rule by rule and without a parser: `IsPlace ts p`
    says that the tokens `ts` are a place and that they denote `p`, and so on for every
    rule of the grammar.  An extent runs from the first token of what it belongs to, or
    from its name, up to the last.
-/

namespace BorrowFlow.Source

/-! ## Lists -/

section Lists

variable {α : Type}

/-- One item or more, with commas between them. -/
inductive Separated (item : List Token → α → Prop) : List Token → List α → Prop where
  | one {ts : List Token} {a : α} (h : item ts a) : Separated item ts [a]
  | more {ts us : List Token} {c : Token} {a : α} {as : List α} (h : item ts a)
      (hc : c.lexeme = .mark .comma) (hs : Separated item us as) :
      Separated item (ts ++ c :: us) (a :: as)

/-- Items in parentheses, with commas between them, perhaps none. -/
inductive Parenthesised (item : List Token → α → Prop) : List Token → List α → Prop where
  | none {o c : Token} (ho : o.lexeme = .mark .parenOpen) (hc : c.lexeme = .mark .parenClose) :
      Parenthesised item [o, c] []
  | some {o c : Token} {ts : List Token} {as : List α} (ho : o.lexeme = .mark .parenOpen)
      (hs : Separated item ts as) (hc : c.lexeme = .mark .parenClose) :
      Parenthesised item (o :: (ts ++ [c])) as

/-- Items one after the other. -/
inductive Sequence (item : List Token → α → Prop) : List Token → List α → Prop where
  | nil : Sequence item [] []
  | cons {ts us : List Token} {a : α} {as : List α} (h : item ts a) (hs : Sequence item us as) :
      Sequence item (ts ++ us) (a :: as)

/-- An item or nothing. -/
inductive Optional (item : List Token → α → Prop) : List Token → Option α → Prop where
  | none : Optional item [] .none
  | some {ts : List Token} {a : α} (h : item ts a) : Optional item ts (.some a)

end Lists

/-! ## Places and operands -/

/-- A field or an index after a place. -/
inductive IsSuffix : List Token → Projection → Prop where
  | field {d n : Token} {text : String} (hd : d.lexeme = .mark .dot) (hn : n.lexeme = .name text) :
      IsSuffix [d, n] (.field text)
  | constIndex {o i c : Token} {digits : String} (ho : o.lexeme = .mark .bracketOpen)
      (hi : i.lexeme = .number digits) (hc : c.lexeme = .mark .bracketClose) :
      IsSuffix [o, i, c] (.constIndex (numberValue digits))
  | varIndex {o i c : Token} {var : String} (ho : o.lexeme = .mark .bracketOpen)
      (hi : i.lexeme = .name var) (hc : c.lexeme = .mark .bracketClose) :
      IsSuffix [o, i, c] (.varIndex (some var))

/-- A place.  It is tight if fields and indices may follow: a dereference applies to
    everything after it, so what is to be taken of a dereferenced place needs parentheses. -/
inductive IsPlace : (tight : Bool) → List Token → Place → Prop where
  | name {n : Token} {base : String} (hn : n.lexeme = .name base) :
      IsPlace true [n] (.ofLocal base)
  | deref {s : Token} {tight : Bool} {ts : List Token} {p : Place} (hs : s.lexeme = .mark .star)
      (hp : IsPlace tight ts p) : IsPlace false (s :: ts) (p.project .deref)
  | parens {o c : Token} {tight : Bool} {ts : List Token} {p : Place}
      (ho : o.lexeme = .mark .parenOpen) (hp : IsPlace tight ts p)
      (hc : c.lexeme = .mark .parenClose) : IsPlace true (o :: (ts ++ [c])) p
  | suffix {ts us : List Token} {p : Place} {step : Projection} (hp : IsPlace true ts p)
      (hs : IsSuffix us step) : IsPlace true (ts ++ us) (p.project step)

/-- An operand; a bare place is copied. -/
inductive IsOperand : List Token → Operand → Prop where
  | const {k : Token} (hk : k.lexeme = .keyword .const) : IsOperand [k] .const
  | copy {k : Token} {tight : Bool} {ts : List Token} {p : Place} (hk : k.lexeme = .keyword .copy)
      (hp : IsPlace tight ts p) : IsOperand (k :: ts) (.copy p)
  | move {k : Token} {tight : Bool} {ts : List Token} {p : Place} (hk : k.lexeme = .keyword .move)
      (hp : IsPlace tight ts p) : IsOperand (k :: ts) (.move p)
  | bare {tight : Bool} {ts : List Token} {p : Place} (hp : IsPlace tight ts p) :
      IsOperand ts (.copy p)

/-! ## Types and bounds -/

/-- A type, or what may stand as an argument of a named type: also a region.  `arg` says
    what the arguments of a named type are; each of them is an argument. -/
inductive IsType : (argument : Bool) → List Token → TypeExpr → Prop where
  | region {r : Token} {text : String} (hr : r.lexeme = .region text) :
      IsType true [r] (.region ⟨text, r.extent⟩)
  | ref {argument : Bool} {a r : Token} {ts : List Token} {text : String} {ty : TypeExpr}
      (ha : a.lexeme = .mark .ampersand) (hr : r.lexeme = .region text) (ht : IsType false ts ty) :
      IsType argument (a :: r :: ts) (.ref ⟨text, r.extent⟩ false ty)
  | refMut {argument : Bool} {a r m : Token} {ts : List Token} {text : String} {ty : TypeExpr}
      (ha : a.lexeme = .mark .ampersand) (hr : r.lexeme = .region text)
      (hm : m.lexeme = .keyword .mutable) (ht : IsType false ts ty) :
      IsType argument (a :: r :: m :: ts) (.ref ⟨text, r.extent⟩ true ty)
  | name {argument : Bool} {n : Token} {text : String} (hn : n.lexeme = .name text) :
      IsType argument [n] (.named text [])
  | apply {argument : Bool} {n l g : Token} {ts : List Token} {text : String}
      {args : List TypeExpr} {arg : List Token → TypeExpr → Prop} (hn : n.lexeme = .name text)
      (hl : l.lexeme = .mark .less) (harg : ∀ ts ty, arg ts ty → IsType true ts ty)
      (hargs : Separated arg ts args) (hg : g.lexeme = .mark .more) :
      IsType argument (n :: l :: (ts ++ [g])) (.named text args)

/-- A region. -/
inductive IsRegionName : List Token → RegionName → Prop where
  | mk {r : Token} {text : String} (hr : r.lexeme = .region text) :
      IsRegionName [r] ⟨text, r.extent⟩

/-- `'a: 'b`. -/
inductive IsBound : List Token → BoundExpr → Prop where
  | mk {r c s : Token} {sub sup : String} (hr : r.lexeme = .region sub)
      (hc : c.lexeme = .mark .colon) (hs : s.lexeme = .region sup) :
      IsBound [r, c, s] ⟨⟨sub, r.extent⟩, ⟨sup, s.extent⟩⟩

/-- An optional clause of bounds. -/
inductive AreBounds : List Token → List BoundExpr → Prop where
  | none : AreBounds [] []
  | some {k : Token} {ts : List Token} {bounds : List BoundExpr} (hk : k.lexeme = .keyword .bounds)
      (hs : Separated IsBound ts bounds) : AreBounds (k :: ts) bounds

/-! ## Statements -/

/-- The right-hand side of an assignment to `dest`. -/
inductive IsAssignment (dest : Place) : List Token → StatementShape → Prop where
  | borrow {a : Token} {tight : Bool} {ts : List Token} {p : Place}
      (ha : a.lexeme = .mark .ampersand) (hp : IsPlace tight ts p) :
      IsAssignment dest (a :: ts) (.borrow dest false p)
  | borrowMut {a m : Token} {tight : Bool} {ts : List Token} {p : Place}
      (ha : a.lexeme = .mark .ampersand) (hm : m.lexeme = .keyword .mutable)
      (hp : IsPlace tight ts p) :
      IsAssignment dest (a :: m :: ts) (.borrow dest true p)
  | call {k n : Token} {ts us : List Token} {func : String} {operands : List Operand}
      {bounds : List BoundExpr} (hk : k.lexeme = .keyword .call) (hn : n.lexeme = .name func)
      (hoperands : Parenthesised IsOperand ts operands) (hbounds : AreBounds us bounds) :
      IsAssignment dest (k :: n :: (ts ++ us)) (.call dest func operands bounds)
  | assign {ts : List Token} {src : Operand} (h : IsOperand ts src) :
      IsAssignment dest ts (.assign dest src)

/-- A name in parentheses. -/
inductive IsParenName : List Token → String → Prop where
  | mk {o n c : Token} {text : String} (ho : o.lexeme = .mark .parenOpen)
      (hn : n.lexeme = .name text) (hc : c.lexeme = .mark .parenClose) : IsParenName [o, n, c] text

/-- A statement up to its semicolon. -/
inductive IsShape : List Token → StatementShape → Prop where
  | use {k : Token} {ts : List Token} {operands : List Operand} (hk : k.lexeme = .keyword .use)
      (h : Parenthesised IsOperand ts operands) : IsShape (k :: ts) (.use operands)
  | drop {k : Token} {ts : List Token} {var : String} (hk : k.lexeme = .keyword .drop)
      (h : IsParenName ts var) : IsShape (k :: ts) (.drop var)
  | storageDead {k : Token} {ts : List Token} {var : String}
      (hk : k.lexeme = .keyword .storageDead) (h : IsParenName ts var) :
      IsShape (k :: ts) (.storageDead var)
  | nop {k : Token} (hk : k.lexeme = .keyword .nop) : IsShape [k] .nop
  | outlives {ts : List Token} {bound : BoundExpr} (h : IsBound ts bound) :
      IsShape ts (.outlives bound)
  | assignment {tight : Bool} {ts us : List Token} {e : Token} {dest : Place}
      {shape : StatementShape} (hdest : IsPlace tight ts dest) (he : e.lexeme = .mark .equal)
      (h : IsAssignment dest us shape) : IsShape (ts ++ e :: us) shape

theorem IsShape.exists_cons {ts : List Token} {shape : StatementShape} (h : IsShape ts shape) :
    ∃ t us, ts = t :: us := by
  cases h with
  | outlives h =>
    cases h with
    | mk _ _ _ => exact ⟨_, _, rfl⟩
  | assignment _ _ _ => exact List.exists_cons_of_ne_nil (by simp)
  | _ => exact ⟨_, _, rfl⟩

/-- A statement. -/
inductive IsStatement : List Token → StatementExpr → Prop where
  | mk {first s : Token} {ts : List Token} {shape : StatementShape}
      (h : IsShape (first :: ts) shape) (hs : s.lexeme = .mark .semicolon) :
      IsStatement (first :: (ts ++ [s])) ⟨shape, ⟨first.extent.start, s.extent.stop⟩⟩

/-- The targets of a jump: names with commas between them. -/
inductive IsTarget : List Token → String → Prop where
  | mk {n : Token} {text : String} (hn : n.lexeme = .name text) : IsTarget [n] text

/-- A terminator up to its semicolon. -/
inductive IsTerminatorShape : List Token → TerminatorShape → Prop where
  | goto {k : Token} {ts : List Token} {target : String} (hk : k.lexeme = .keyword .goto)
      (h : IsTarget ts target) : IsTerminatorShape (k :: ts) (.goto target)
  | branch {k a : Token} {ts us : List Token} {cond : Option Operand} {targets : List String}
      (hk : k.lexeme = .keyword .branch) (hcond : Optional IsOperand ts cond)
      (ha : a.lexeme = .mark .arrow) (htargets : Separated IsTarget us targets) :
      IsTerminatorShape (k :: (ts ++ a :: us)) (.branch cond targets)
  | ret {k : Token} (hk : k.lexeme = .keyword .ret) : IsTerminatorShape [k] .ret
  | unreachable {k : Token} (hk : k.lexeme = .keyword .unreachable) :
      IsTerminatorShape [k] .unreachable

/-- A terminator. -/
inductive IsTerminator : List Token → TerminatorExpr → Prop where
  | mk {first s : Token} {ts : List Token} {shape : TerminatorShape}
      (h : IsTerminatorShape (first :: ts) shape) (hs : s.lexeme = .mark .semicolon) :
      IsTerminator (first :: (ts ++ [s])) ⟨shape, ⟨first.extent.start, s.extent.stop⟩⟩

/-! ## Items and functions -/

/-- The regions that a destructor may touch. -/
inductive IsDrops : List Token → List RegionName → Prop where
  | mk {k : Token} {ts : List Token} {names : List RegionName} (hk : k.lexeme = .keyword .drops)
      (h : Parenthesised IsRegionName ts names) : IsDrops (k :: ts) names

/-- The declaration of a local. -/
inductive IsDeclaration : List Token → LetDecl → Prop where
  | mk {k n c s : Token} {ts us : List Token} {text : String} {ty : TypeExpr}
      {drops : Option (List RegionName)} (hk : k.lexeme = .keyword .declare)
      (hn : n.lexeme = .name text) (hc : c.lexeme = .mark .colon) (ht : IsType false ts ty)
      (hd : Optional IsDrops us drops) (hs : s.lexeme = .mark .semicolon) :
      IsDeclaration (k :: n :: c :: (ts ++ (us ++ [s])))
        ⟨text, ty, drops, ⟨k.extent.start, s.extent.stop⟩⟩

/-- A block. -/
inductive IsBlock : List Token → BlockDecl → Prop where
  | mk {n c o e : Token} {ts us : List Token} {text : String} {body : List StatementExpr}
      {last : TerminatorExpr} (hn : n.lexeme = .name text) (hc : c.lexeme = .mark .colon)
      (ho : o.lexeme = .mark .braceOpen) (hbody : Sequence IsStatement ts body)
      (hlast : IsTerminator us last) (he : e.lexeme = .mark .braceClose) :
      IsBlock (n :: c :: o :: (ts ++ (us ++ [e])))
        ⟨text, ⟨n.extent.start, n.extent.start.after (.name text)⟩, body, last⟩

/-- What may stand in a function. -/
inductive IsItem : List Token → Item → Prop where
  | declaration {ts : List Token} {d : LetDecl} (h : IsDeclaration ts d) :
      IsItem ts (.declaration d)
  | block {ts : List Token} {b : BlockDecl} (h : IsBlock ts b) : IsItem ts (.block b)

/-- A parameter. -/
inductive IsParam : List Token → ParamDecl → Prop where
  | mk {n c : Token} {ts : List Token} {text : String} {ty : TypeExpr}
      (hn : n.lexeme = .name text) (hc : c.lexeme = .mark .colon) (ht : IsType false ts ty) :
      IsParam (n :: c :: ts) ⟨text, ty, .covering (n :: c :: ts)⟩

/-- A function. -/
inductive IsFunction : List Token → FunctionDecl → Prop where
  | mk {k n o e : Token} {ts us vs : List Token} {text : String} {params : List ParamDecl}
      {bounds : List BoundExpr} {items : List Item} (hk : k.lexeme = .keyword .function)
      (hn : n.lexeme = .name text) (hparams : Parenthesised IsParam ts params)
      (hbounds : AreBounds us bounds) (ho : o.lexeme = .mark .braceOpen)
      (hitems : Sequence IsItem vs items) (he : e.lexeme = .mark .braceClose) :
      IsFunction (k :: n :: (ts ++ (us ++ o :: (vs ++ [e]))))
        ⟨text, params, bounds, .covering us, items, ⟨k.extent.start, e.extent.stop⟩⟩

/-- A program. -/
abbrev IsProgram : List Token → List FunctionDecl → Prop := Sequence IsFunction

end BorrowFlow.Source
