import BorrowFlow.Proofs.Source.Grammar

/-! # The parser reads all of the grammar

    Whatever the tokens of a text denote by the grammar, the parser finds
    (`parseTokens_of_isProgram`).  `Reads p ts follow a` says that `p` takes the tokens
    `ts` off the front and answers `a`, if what comes next allows it to stop; each way of
    putting parsers together has its rule, and each rule of the grammar its theorem.

    The bound of a parser that repeats or nests is never exhausted: it only has to exceed
    the number of tokens.
-/

namespace BorrowFlow.Source

open ParseM

variable {α β : Type}

/-- The lexeme that comes next: the first of `ts`, or `next` if there is none. -/
def first (ts : List Token) (next : Option Lexeme) : Option Lexeme :=
  (ts.head?.map Token.lexeme).or next

@[simp] theorem first_nil (next : Option Lexeme) : first [] next = next := rfl

@[simp] theorem first_cons (t : Token) (ts : List Token) (next : Option Lexeme) :
    first (t :: ts) next = some t.lexeme := rfl

theorem first_append (ts us : List Token) (next : Option Lexeme) :
    first (ts ++ us) next = first ts (first us next) := by
  cases ts <;> rfl

/-- **A parser reads** the tokens `ts` as `a`, if what comes next allows it to stop there. -/
def Reads (p : ParseM α) (ts : List Token) (follow : Option Lexeme → Prop) (a : α) : Prop :=
  ∀ rest, follow (first rest none) → p (ts ++ rest) = .ok (a, rest)

section Rules

variable {p : ParseM α} {f : α → ParseM β} {ts us : List Token} {t : Token} {a : α} {b : β}
  {follow follow' : Option Lexeme → Prop}

theorem Reads.mono (h : Reads p ts follow a) (hfollow : ∀ n, follow' n → follow n) :
    Reads p ts follow' a := fun rest hrest => h rest (hfollow _ hrest)

theorem reads_pure : Reads (pure a) [] follow a := fun _ _ => rfl

theorem Reads.bind (h : Reads p ts follow a) (hf : Reads (f a) us follow' b)
    (hfollow : ∀ n, follow' n → follow (first us n)) : Reads (p >>= f) (ts ++ us) follow' b := by
  intro rest hrest
  have hp : p (ts ++ (us ++ rest)) = .ok (a, us ++ rest) := by
    refine h _ ?_
    rw [first_append]
    exact hfollow _ hrest
  show (p (ts ++ us ++ rest) >>= fun r => f r.1 r.2) = _
  rw [List.append_assoc, hp]
  exact hf rest hrest

theorem Reads.bind_eq (h : Reads p ts follow a) {rest : List Token}
    (hrest : follow (first rest none)) : (p >>= f) (ts ++ rest) = f a rest := by
  show (p (ts ++ rest) >>= fun r => f r.1 r.2) = _
  rw [h rest hrest]
  rfl

theorem peek_bind (f : Option Lexeme → ParseM β) (tokens : List Token) :
    (peek >>= f) tokens = f (first tokens none) tokens := by
  cases tokens <;> rfl

theorem reads_peek {f : Option Lexeme → ParseM β} {l : Lexeme} (ht : t.lexeme = l)
    (hf : Reads (f (some l)) (t :: ts) follow b) : Reads (peek >>= f) (t :: ts) follow b := by
  intro rest hrest
  have hrun := hf rest hrest
  rw [← ht] at hrun
  exact hrun

theorem reads_peek_nil {f : Option Lexeme → ParseM β}
    (hf : ∀ n, follow n → Reads (f n) [] (· = n) b) : Reads (peek >>= f) [] follow b := by
  intro rest hrest
  have hrun := hf _ hrest rest rfl
  cases rest <;> exact hrun

theorem reads_peek_first {f : Option Lexeme → ParseM β}
    (hf : ∀ n, Reads (f (first ts n)) ts follow b) : Reads (peek >>= f) ts follow b := by
  intro rest hrest
  rw [peek_bind, first_append]
  exact hf _ rest hrest

theorem reads_next {f : Token → ParseM β} (hf : Reads (f t) ts follow b) :
    Reads (next >>= f) (t :: ts) follow b := fun rest hrest => hf rest hrest

theorem reads_here {f : Pos → ParseM β} (hf : Reads (f t.extent.start) (t :: ts) follow b) :
    Reads (here >>= f) (t :: ts) follow b := fun rest hrest => hf rest hrest

theorem reads_here_any {f : Pos → ParseM β} (hf : ∀ pos, Reads (f pos) ts follow b) :
    Reads (here >>= f) ts follow b := by
  intro rest hrest
  obtain ⟨pos, hpos⟩ : ∃ pos, here (ts ++ rest) = .ok (pos, ts ++ rest) := by
    cases ts ++ rest <;> exact ⟨_, rfl⟩
  show (here (ts ++ rest) >>= fun r => f r.1 r.2) = _
  rw [hpos]
  exact hf pos rest hrest

theorem nextIs_eq (l : Lexeme) (tokens : List Token) :
    nextIs l tokens = .ok (decide (first tokens none = some l), tokens) := by
  cases tokens <;> rfl

theorem reads_nextIs {f : Bool → ParseM β} {l : Lexeme} (ht : t.lexeme = l)
    (hf : Reads (f true) (t :: ts) follow b) : Reads (nextIs l >>= f) (t :: ts) follow b := by
  intro rest hrest
  show (nextIs l (t :: (ts ++ rest)) >>= fun r => f r.1 r.2) = _
  rw [nextIs_eq, first_cons, ht, decide_eq_true rfl]
  exact hf rest hrest

theorem reads_nextIs_not {f : Bool → ParseM β} {l : Lexeme}
    (hl : ∀ n, follow n → first ts n ≠ some l) (hf : Reads (f false) ts follow b) :
    Reads (nextIs l >>= f) ts follow b := by
  intro rest hrest
  have hne : first (ts ++ rest) none ≠ some l := by
    rw [first_append]
    exact hl _ hrest
  show (nextIs l (ts ++ rest) >>= fun r => f r.1 r.2) = _
  rw [nextIs_eq, decide_eq_false hne]
  exact hf rest hrest

theorem accept_of_eq {l : Lexeme} (ht : t.lexeme = l) (rest : List Token) :
    accept l (t :: rest) = .ok (true, rest) := by
  show (nextIs l (t :: rest) >>= fun r => _) = _
  rw [nextIs_eq, first_cons, ht, decide_eq_true rfl]
  rfl

theorem accept_of_ne {l : Lexeme} {tokens : List Token} (h : first tokens none ≠ some l) :
    accept l tokens = .ok (false, tokens) := by
  show (nextIs l tokens >>= fun r => _) = _
  rw [nextIs_eq, decide_eq_false h]
  rfl

theorem reads_accept {f : Bool → ParseM β} {l : Lexeme} (ht : t.lexeme = l)
    (hf : Reads (f true) ts follow b) : Reads (accept l >>= f) (t :: ts) follow b := by
  intro rest hrest
  show (accept l (t :: (ts ++ rest)) >>= fun r => f r.1 r.2) = _
  rw [accept_of_eq ht]
  exact hf rest hrest

theorem reads_accept_not {f : Bool → ParseM β} {l : Lexeme}
    (hl : ∀ n, follow n → first ts n ≠ some l) (hf : Reads (f false) ts follow b) :
    Reads (accept l >>= f) ts follow b := by
  intro rest hrest
  have hne : first (ts ++ rest) none ≠ some l := by
    rw [first_append]
    exact hl _ hrest
  show (accept l (ts ++ rest) >>= fun r => f r.1 r.2) = _
  rw [accept_of_ne hne]
  exact hf rest hrest

theorem expect_of_eq {l : Lexeme} (ht : t.lexeme = l) (rest : List Token) :
    expect l (t :: rest) = .ok (t, rest) := by
  show (nextIs l (t :: rest) >>= fun r => _) = _
  rw [nextIs_eq, first_cons, ht, decide_eq_true rfl]
  rfl

theorem reads_expect {f : Token → ParseM β} {l : Lexeme} (ht : t.lexeme = l)
    (hf : Reads (f t) ts follow b) : Reads (expect l >>= f) (t :: ts) follow b := by
  intro rest hrest
  show (expect l (t :: (ts ++ rest)) >>= fun r => f r.1 r.2) = _
  rw [expect_of_eq ht]
  exact hf rest hrest

theorem reads_mark {f : Token → ParseM β} {m : Mark} (ht : t.lexeme = .mark m)
    (hf : Reads (f t) ts follow b) : Reads (mark m >>= f) (t :: ts) follow b :=
  reads_expect ht hf

theorem reads_keyword {f : Token → ParseM β} {k : Keyword} (ht : t.lexeme = .keyword k)
    (hf : Reads (f t) ts follow b) : Reads (keyword k >>= f) (t :: ts) follow b :=
  reads_expect ht hf

theorem mark_bind {f : Token → ParseM β} {m : Mark} (ht : t.lexeme = .mark m) (rest : List Token) :
    (mark m >>= f) (t :: rest) = f t rest := by
  show (expect (.mark m) (t :: rest) >>= fun r => f r.1 r.2) = _
  rw [expect_of_eq ht]
  rfl

theorem reads_name {text : String} (ht : t.lexeme = .name text) :
    Reads name [t] (fun _ => True) text :=
  reads_peek ht (reads_next reads_pure)

theorem reads_region {text : String} (ht : t.lexeme = .region text) :
    Reads region [t] (fun _ => True) ⟨text, t.extent⟩ :=
  reads_peek ht (reads_next reads_pure)

/-- What is read may be turned into something else. -/
theorem Reads.bind_pure {g : α → β} (h : Reads p ts follow a) :
    Reads (p >>= fun x => pure (g x)) ts follow (g a) := by
  rw [← List.append_nil ts]
  exact h.bind reads_pure fun _ hn => hn

theorem Reads.map {g : α → β} (h : Reads p ts follow a) : Reads (g <$> p) ts follow (g a) := by
  rw [map_eq_pure_bind]
  exact h.bind_pure

/-- What is read stands where its tokens do. -/
theorem Reads.located {p : ParseM (Extent → α)} {g : Extent → α} (h : Reads p ts follow g) :
    Reads (located p) ts follow (g (.covering ts)) := by
  intro rest hrest
  show (p (ts ++ rest) >>= fun r => _) = _
  have htaken : (ts ++ rest).take ((ts ++ rest).length - rest.length) = ts := by simp
  rw [h rest hrest]
  show Except.ok (g (.covering ((ts ++ rest).take _)), rest) = _
  rw [htaken]

/-- Reading one thing after another that may stop anywhere. -/
theorem Reads.then (h : Reads p ts (fun _ => True) a) (hf : Reads (f a) us follow b) :
    Reads (p >>= f) (ts ++ us) follow b := h.bind hf fun _ _ => trivial

end Rules

/-! ## Lists -/

section Lists

variable {item : ParseM α} {G : List Token → α → Prop} {follow : Option Lexeme → Prop}
  {ts : List Token}

/-- What a list of items is followed by: what an item may be followed by, and no comma. -/
def Ends (follow : Option Lexeme → Prop) (n : Option Lexeme) : Prop :=
  follow n ∧ n ≠ some (.mark .comma)

/-- **A list of items** is read if each of them is. -/
theorem reads_separated (hitem : ∀ us a, G us a → us.length ≤ ts.length → Reads item us follow a)
    (hcomma : follow (some (.mark .comma))) {as : List α} (h : Separated G ts as) {rounds : Nat}
    (hrounds : ts.length < rounds) : Reads (separated rounds item) ts (Ends follow) as := by
  induction h generalizing rounds with
  | @one ts a h =>
    obtain ⟨n, rfl⟩ : ∃ n, rounds = n + 1 := ⟨rounds - 1, by omega⟩
    have hmore : Reads (moreAfterComma item (n + 1)) [] (Ends follow) [] :=
      reads_accept_not (fun _ hn => hn.2) reads_pure
    rw [← List.append_nil ts]
    exact (hitem ts a h (Nat.le_refl _)).bind hmore.bind_pure fun _ hn => hn.1
  | @more ts us c a as h hc hs ih =>
    -- the comma pays for the round
    rw [List.length_append, List.length_cons] at hitem hrounds
    obtain ⟨n, rfl⟩ : ∃ n, rounds = n + 1 := ⟨rounds - 1, by omega⟩
    have hrest : Reads (separated n item) us (Ends follow) as :=
      ih (fun vs b hvs hlength => hitem vs b hvs (by omega)) (by omega)
    have hmore : Reads (moreAfterComma item (n + 1)) (c :: us) (Ends follow) as :=
      reads_accept hc hrest
    refine (hitem ts a h (by omega)).bind hmore.bind_pure fun _ _ => ?_
    rw [first_cons, hc]
    exact hcomma

/-- **Items in parentheses**, none of which begins with a closing one. -/
theorem reads_parenthesised
    (hitem : ∀ us a, G us a → us.length ≤ ts.length → Reads item us follow a)
    (hcomma : follow (some (.mark .comma))) (hclose : follow (some (.mark .parenClose)))
    (hfirst : ∀ us a, G us a → ∀ n, first us n ≠ some (.mark .parenClose)) {as : List α}
    (h : Parenthesised G ts as) {limit : Nat} (hlimit : ts.length < limit) :
    Reads (parenthesised limit item) ts (fun _ => True) as := by
  cases h with
  | none ho hc => exact reads_mark ho (reads_accept hc reads_pure)
  | @some o c ts as ho hs hc =>
    simp only [List.length_cons, List.length_append, List.length_nil] at hlimit hitem
    refine reads_mark ho (reads_accept_not (fun n _ => ?_) ?_)
    · -- the first of the items comes first
      cases hs with
      | one h =>
        rw [first_append]
        exact hfirst _ _ h _
      | more h _ _ =>
        rw [first_append, first_append]
        exact hfirst _ _ h _
    · have hlist : Reads (separated limit item) ts (Ends follow) as :=
        reads_separated (fun us a h hus => hitem us a h (by omega)) hcomma hs (by omega)
      refine hlist.bind (reads_mark hc reads_pure) fun n _ => ?_
      rw [first_cons, hc]
      exact ⟨hclose, by simp⟩

end Lists

/-! ## Places and operands -/

/-- What may follow a place. -/
def EndsPlace (n : Option Lexeme) : Prop :=
  n ≠ some (.mark .dot) ∧ n ≠ some (.mark .bracketOpen)

/-- A place stands at the end of the projections. -/
theorem projections_of_endsPlace (p : Place) {m : Nat} (hm : 0 < m) {rest : List Token}
    (h : EndsPlace (first rest none)) : projections p m rest = .ok (p, rest) := by
  obtain ⟨m, rfl⟩ : ∃ k, m = k + 1 := ⟨m - 1, by omega⟩
  rw [projections, peek_bind]
  generalize first rest none = n at h
  obtain ⟨hdot, hbracket⟩ := h
  rcases n with _ | l
  · rfl
  · cases l with
    | mark m =>
      cases m with
      | dot => exact absurd rfl hdot
      | bracketOpen => exact absurd rfl hbracket
      | _ => rfl
    | _ => rfl

theorem IsSuffix.length_pos {us : List Token} {step : Projection} (h : IsSuffix us step) :
    0 < us.length := by
  cases h <;> simp

/-- One suffix is read in one round. -/
theorem projections_of_suffix {us : List Token} {step : Projection} (h : IsSuffix us step)
    (p : Place) (m : Nat) (rest : List Token) :
    projections p (m + 1) (us ++ rest) = projections (p.project step) m rest := by
  have indexed : ∀ {o i c : Token} {step : Projection}, o.lexeme = .mark .bracketOpen →
      Reads index [i] (fun _ => True) step → c.lexeme = .mark .bracketClose →
      projections p (m + 1) (o :: i :: c :: rest) = projections (p.project step) m rest := by
    intro o i c step ho hi hc
    rw [projections, peek_bind, first_cons, ho]
    show (index >>= fun step => mark .bracketClose >>= fun _ => projections (p.project step) m)
      ([i] ++ c :: rest) = _
    rw [hi.bind_eq trivial, mark_bind hc]
  cases h with
  | @field d n text hd hn =>
    rw [projections, peek_bind, List.cons_append, first_cons, hd]
    show (name >>= fun field => projections (p.project (.field field)) m) ([n] ++ rest) = _
    exact (reads_name hn).bind_eq trivial
  | constIndex ho hi hc => exact indexed ho (reads_peek hi (reads_next reads_pure)) hc
  | varIndex ho hi hc => exact indexed ho (reads_peek hi (reads_next reads_pure)) hc

/-- **A place is read** as what it denotes; a tight one up to the projections after it. -/
theorem place_reads {tight : Bool} {ts : List Token} {p : Place} (h : IsPlace tight ts p)
    {n : Nat} (hn : ts.length < n) : Reads (place n) ts EndsPlace p ∧ (tight = true →
      ∀ rest, ∃ m, n ≤ m + ts.length ∧ place n (ts ++ rest) = projections p m rest) := by
  -- a tight place goes on with projections, which may stop if no suffix follows
  have stop : ∀ {ts p n}, ts.length < n →
      (∀ rest, ∃ m, n ≤ m + ts.length ∧ place n (ts ++ rest) = projections p m rest) →
      Reads (place n) ts EndsPlace p := by
    intro ts p n hn htight rest hrest
    obtain ⟨m, hm, hplace⟩ := htight rest
    rw [hplace]
    exact projections_of_endsPlace p (by omega) hrest
  induction h generalizing n with
  | @name t base hb =>
    obtain ⟨n, rfl⟩ : ∃ k, n = k + 1 := ⟨n - 1, by omega⟩
    have htight : ∀ rest, ∃ m, n + 1 ≤ m + [t].length ∧
        place (n + 1) ([t] ++ rest) = projections (.ofLocal base) m rest := by
      intro rest
      refine ⟨n + 1, by omega, ?_⟩
      rw [place, peek_bind, List.singleton_append, first_cons, hb]
      rfl
    exact ⟨stop hn htight, fun _ => htight⟩
  | deref hs hp ih =>
    obtain ⟨n, rfl⟩ : ∃ k, n = k + 1 := ⟨n - 1, by omega⟩
    rw [List.length_cons] at hn
    refine ⟨reads_peek hs (reads_next ?_), fun h => by cases h⟩
    exact (ih (by omega)).1.bind_pure
  | @parens o c _ ts p ho hp hc ih =>
    obtain ⟨n, rfl⟩ : ∃ k, n = k + 1 := ⟨n - 1, by omega⟩
    have hlength : ts.length < n := by
      simp only [List.length_cons, List.length_append, List.length_nil] at hn
      omega
    have htight : ∀ rest, ∃ m, n + 1 ≤ m + (o :: (ts ++ [c])).length ∧
        place (n + 1) (o :: (ts ++ [c]) ++ rest) = projections p m rest := by
      intro rest
      refine ⟨n + 1, by omega, ?_⟩
      have hends : EndsPlace (first (c :: rest) none) := by
        rw [first_cons, hc]
        exact ⟨by simp, by simp⟩
      rw [place, peek_bind, List.cons_append, first_cons, ho, List.append_assoc]
      show (place n >>= fun p => mark .parenClose >>= fun _ => projections p (n + 1))
        (ts ++ c :: rest) = _
      rw [(ih hlength).1.bind_eq hends, mark_bind hc]
    exact ⟨stop hn htight, fun _ => htight⟩
  | @suffix ts us p step hp hs ih =>
    -- a suffix takes a token at least, so a round is left for what follows
    have hpos := hs.length_pos
    have hlength : ts.length < n := by
      rw [List.length_append] at hn
      omega
    have htight : ∀ rest, ∃ m, n ≤ m + (ts ++ us).length ∧
        place n (ts ++ us ++ rest) = projections (p.project step) m rest := by
      intro rest
      rw [List.length_append] at hn ⊢
      obtain ⟨m, hm, hplace⟩ := (ih hlength).2 rfl (us ++ rest)
      obtain ⟨m, rfl⟩ : ∃ k, m = k + 1 := ⟨m - 1, by omega⟩
      refine ⟨m, by omega, ?_⟩
      rw [List.append_assoc, hplace, projections_of_suffix hs]
    exact ⟨stop hn htight, fun _ => htight⟩

theorem reads_place {tight : Bool} {ts : List Token} {p : Place} (h : IsPlace tight ts p) {n : Nat}
    (hn : ts.length < n) : Reads (place n) ts EndsPlace p := (place_reads h hn).1

/-- A place begins here. -/
def BeginsPlace (n : Option Lexeme) : Prop :=
  (∃ text, n = some (.name text)) ∨ n = some (.mark .star) ∨ n = some (.mark .parenOpen)

theorem IsPlace.begins {tight : Bool} {ts : List Token} {p : Place} (h : IsPlace tight ts p)
    (n : Option Lexeme) : BeginsPlace (first ts n) := by
  induction h generalizing n with
  | name hb => exact Or.inl ⟨_, by rw [first_cons, hb]⟩
  | deref hs _ _ => exact Or.inr (Or.inl (by rw [first_cons, hs]))
  | parens ho _ _ _ => exact Or.inr (Or.inr (by rw [first_cons, ho]))
  | suffix _ _ ih =>
    rw [first_append]
    exact ih _

/-- An operand begins here. -/
def BeginsOperand (n : Option Lexeme) : Prop :=
  BeginsPlace n ∨ n = some (.keyword .copy) ∨ n = some (.keyword .move) ∨ n = some (.keyword .const)

theorem IsOperand.begins {ts : List Token} {op : Operand} (h : IsOperand ts op)
    (n : Option Lexeme) : BeginsOperand (first ts n) := by
  cases h with
  | const hk => simp [BeginsOperand, hk]
  | copy hk _ => simp [BeginsOperand, hk]
  | move hk _ => simp [BeginsOperand, hk]
  | bare hp => exact Or.inl (hp.begins n)

/-- No other mark begins an operand. -/
theorem BeginsOperand.ne_mark {n : Option Lexeme} (h : BeginsOperand n) {m : Mark}
    (hstar : m ≠ .star) (hparen : m ≠ .parenOpen) : n ≠ some (.mark m) := by
  rcases h with (⟨text, rfl⟩ | rfl | rfl) | rfl | rfl | rfl <;> simp [hstar.symm, hparen.symm]

/-- **An operand is read** as what it denotes. -/
theorem reads_operand {ts : List Token} {op : Operand} (h : IsOperand ts op) {limit : Nat}
    (hlimit : ts.length < limit) : Reads (operand limit) ts EndsPlace op := by
  cases h with
  | const hk => exact reads_peek hk (reads_next reads_pure)
  | copy hk hp =>
    rw [List.length_cons] at hlimit
    exact reads_peek hk (reads_next (reads_place hp (by omega)).bind_pure)
  | move hk hp =>
    rw [List.length_cons] at hlimit
    exact reads_peek hk (reads_next (reads_place hp (by omega)).bind_pure)
  | bare hp =>
    -- no keyword begins a place, so the last case of the parser is taken
    refine reads_peek_first fun n => ?_
    rcases hp.begins n with ⟨text, hfirst⟩ | hfirst | hfirst <;> rw [hfirst] <;>
      exact (reads_place hp hlimit).bind_pure

/-! ## Types and bounds -/

/-- What may follow a type. -/
def EndsType (n : Option Lexeme) : Prop := n ≠ some (.mark .less)

theorem IsType.begins {argument : Bool} {ts : List Token} {ty : TypeExpr}
    (h : IsType argument ts ty) (n : Option Lexeme) : first ts n = some (.mark .ampersand) ∨
      (∃ text, first ts n = some (.name text)) ∨
        (argument = true ∧ ∃ text, first ts n = some (.region text)) := by
  cases h with
  | region hr => exact Or.inr (Or.inr ⟨rfl, _, by rw [first_cons, hr]⟩)
  | ref ha _ _ => exact Or.inl (by rw [first_cons, ha])
  | refMut ha _ _ _ => exact Or.inl (by rw [first_cons, ha])
  | name hn => exact Or.inr (Or.inl ⟨_, by rw [first_cons, hn]⟩)
  | apply hn _ _ _ _ => exact Or.inr (Or.inl ⟨_, by rw [first_cons, hn]⟩)

/-- What is read as a type, is read as an argument. -/
theorem reads_argument {ts : List Token} {ty : TypeExpr} (h : IsType false ts ty) {n : Nat}
    (hreads : Reads (typeExpr n) ts EndsType ty) : Reads (typeArgument (n + 1)) ts EndsType ty := by
  rw [typeArgument]
  refine reads_peek_first fun next => ?_
  rcases h.begins next with hfirst | ⟨text, hfirst⟩ | ⟨hfalse, _⟩
  · rw [hfirst]
    exact hreads
  · rw [hfirst]
    exact hreads
  · cases hfalse

/-- **Types and arguments are read** as what they denote. -/
theorem types_read {argument : Bool} {ts : List Token} {ty : TypeExpr} (h : IsType argument ts ty) :
    (argument = false → ∀ n, ts.length < n → Reads (typeExpr n) ts EndsType ty) ∧
      (argument = true → ∀ n, ts.length + 1 < n → Reads (typeArgument n) ts EndsType ty) := by
  -- what is no region is the same as a type and as an argument
  have both : ∀ {argument ts ty}, IsType false ts ty →
      (∀ n, ts.length < n + 1 → Reads (typeExpr (n + 1)) ts EndsType ty) →
      (argument = false → ∀ n, ts.length < n → Reads (typeExpr n) ts EndsType ty) ∧
        (argument = true → ∀ n, ts.length + 1 < n → Reads (typeArgument n) ts EndsType ty) := by
    intro argument ts ty hty hreads
    refine ⟨fun _ n hn => ?_, fun _ n hn => ?_⟩
    · obtain ⟨n, rfl⟩ : ∃ k, n = k + 1 := ⟨n - 1, by omega⟩
      exact hreads n hn
    · obtain ⟨n, rfl⟩ : ∃ k, n = k + 1 + 1 := ⟨n - 2, by omega⟩
      exact reads_argument hty (hreads n (by omega))
  induction h with
  | region hr =>
    refine ⟨nofun, fun _ n hn => ?_⟩
    obtain ⟨n, rfl⟩ : ∃ k, n = k + 1 := ⟨n - 1, by omega⟩
    rw [typeArgument]
    exact reads_peek hr (reads_next reads_pure)
  | ref ha hr ht ih =>
    refine both (.ref ha hr ht) fun n hn => ?_
    rw [List.length_cons, List.length_cons] at hn
    rw [typeExpr]
    refine reads_peek ha (reads_next ((reads_region hr).then (reads_accept_not (fun n _ => ?_) ?_)))
    · rcases ht.begins n with hfirst | ⟨text, hfirst⟩ | ⟨hfalse, _⟩
      · simp [hfirst]
      · simp [hfirst]
      · cases hfalse
    · exact (ih.1 rfl n (by omega)).bind_pure
  | refMut ha hr hm ht ih =>
    refine both (.refMut ha hr hm ht) fun n hn => ?_
    rw [List.length_cons, List.length_cons, List.length_cons] at hn
    rw [typeExpr]
    refine reads_peek ha (reads_next ((reads_region hr).then (reads_accept hm ?_)))
    exact (ih.1 rfl n (by omega)).bind_pure
  | name hn =>
    refine both (.name hn) fun n _ => ?_
    rw [typeExpr]
    exact reads_peek hn (reads_next (reads_accept_not (fun _ h => h) reads_pure))
  | @apply _ _ l g ts text args arg hn hl harg hargs hg ih =>
    refine both (.apply hn hl harg hargs hg) fun n hlength => ?_
    simp only [List.length_cons, List.length_append, List.length_nil] at hlength
    rw [typeExpr]
    refine reads_peek hn (reads_next (reads_accept hl ?_))
    have hlist : Reads (separated n (typeArgument n)) ts (Ends EndsType) args :=
      reads_separated (fun us ty h hus => (ih us ty h).2 rfl n (by omega)) (by simp [EndsType])
        hargs (by omega)
    refine hlist.bind (reads_mark hg reads_pure) fun _ _ => ?_
    rw [first_cons, hg]
    exact ⟨by simp [EndsType], by simp⟩

theorem reads_type {ts : List Token} {ty : TypeExpr} (h : IsType false ts ty) {n : Nat}
    (hn : ts.length < n) : Reads (typeExpr n) ts EndsType ty := (types_read h).1 rfl n hn

/-- A bound is read; it may be followed by anything. -/
theorem reads_bound {ts : List Token} {e : BoundExpr} (h : IsBound ts e) :
    Reads bound ts (fun _ => True) e := by
  cases h with
  | mk hr hc hs =>
    exact (reads_region hr).then (reads_mark hc (reads_region hs).bind_pure)

/-- What may follow bounds. -/
def EndsBounds (n : Option Lexeme) : Prop :=
  n ≠ some (.mark .comma) ∧ n ≠ some (.keyword .bounds)

theorem reads_boundsClause {ts : List Token} {bounds : List BoundExpr} (h : AreBounds ts bounds)
    {limit : Nat} (hlimit : ts.length < limit) :
    Reads (boundsClause limit) ts EndsBounds bounds := by
  cases h with
  | none => exact reads_accept_not (fun _ h => h.2) reads_pure
  | some hk hs =>
    rw [List.length_cons] at hlimit
    refine reads_accept hk ?_
    exact (reads_separated (fun _ _ h _ => reads_bound h) trivial hs (by omega)).mono
      fun _ h => ⟨trivial, h.1⟩

/-! ## Statements -/

/-- A semicolon follows. -/
def EndsStatement (n : Option Lexeme) : Prop := n = some (.mark .semicolon)

theorem EndsStatement.endsPlace {n : Option Lexeme} (h : EndsStatement n) : EndsPlace n := by
  rw [h]
  exact ⟨by simp, by simp⟩

theorem EndsStatement.endsBounds {n : Option Lexeme} (h : EndsStatement n) : EndsBounds n := by
  rw [h]
  exact ⟨by simp, by simp⟩

/-- **Operands in parentheses.** -/
theorem reads_operands {ts : List Token} {operands : List Operand}
    (h : Parenthesised IsOperand ts operands) {limit : Nat} (hlimit : ts.length < limit) :
    Reads (parenthesised limit (operand limit)) ts (fun _ => True) operands := by
  refine reads_parenthesised (fun us op hop hus => reads_operand hop (by omega))
    ⟨by simp, by simp⟩ ⟨by simp, by simp⟩ (fun us op hop n => ?_) h hlimit
  exact (hop.begins n).ne_mark (by simp) (by simp)

/-- **The right-hand side of an assignment** is read up to the semicolon. -/
theorem reads_assignment {dest : Place} {ts : List Token} {shape : StatementShape}
    (h : IsAssignment dest ts shape) {limit : Nat} (hlimit : ts.length < limit) :
    Reads (assignment limit dest) ts EndsStatement shape := by
  cases h with
  | borrow ha hp =>
    rw [List.length_cons] at hlimit
    refine reads_peek ha (reads_next (reads_accept_not (fun n _ => ?_) ?_))
    · rcases hp.begins n with ⟨text, hfirst⟩ | hfirst | hfirst <;> simp [hfirst]
    · exact ((reads_place hp (by omega)).mono fun _ h => h.endsPlace).bind_pure
  | borrowMut ha hm hp =>
    rw [List.length_cons, List.length_cons] at hlimit
    refine reads_peek ha (reads_next (reads_accept hm ?_))
    exact ((reads_place hp (by omega)).mono fun _ h => h.endsPlace).bind_pure
  | call hk hn hoperands hbounds =>
    rw [List.length_cons, List.length_cons, List.length_append] at hlimit
    refine reads_peek hk (reads_next ((reads_name hn).then ?_))
    refine (reads_operands hoperands (by omega)).then ?_
    exact ((reads_boundsClause hbounds (by omega)).mono fun _ h => h.endsBounds).bind_pure
  | assign h =>
    have hread : Reads (do return StatementShape.assign dest (← operand limit)) ts
        EndsStatement _ :=
      ((reads_operand h hlimit).mono fun _ h => EndsStatement.endsPlace h).bind_pure
    refine reads_peek_first fun n => ?_
    rcases h.begins n with (⟨text, hfirst⟩ | hfirst | hfirst) | hfirst | hfirst | hfirst <;>
      rw [hfirst] <;> exact hread

theorem reads_parenthesisedName {ts : List Token} {text : String} (h : IsParenName ts text) :
    Reads parenthesisedName ts (fun _ => True) text := by
  cases h with
  | mk ho hn hc => exact reads_mark ho ((reads_name hn).then (reads_mark hc reads_pure))

/-- **A statement** is read up to its semicolon. -/
theorem reads_statementShape {ts : List Token} {shape : StatementShape} (h : IsShape ts shape)
    {limit : Nat} (hlimit : ts.length < limit) :
    Reads (statementShape? limit) ts EndsStatement (some shape) := by
  cases h with
  | use hk h =>
    rw [List.length_cons] at hlimit
    exact reads_peek hk (reads_next
      ((reads_operands h (by omega)).mono fun _ _ => trivial).bind_pure)
  | drop hk h =>
    exact reads_peek hk (reads_next
      ((reads_parenthesisedName h).mono fun _ _ => trivial).bind_pure)
  | storageDead hk h =>
    exact reads_peek hk (reads_next
      ((reads_parenthesisedName h).mono fun _ _ => trivial).bind_pure)
  | nop hk => exact reads_peek hk (reads_next reads_pure)
  | outlives h =>
    cases h with
    | mk hr hc hs =>
      exact reads_peek hr ((reads_bound (.mk hr hc hs)).mono fun _ _ => trivial).bind_pure
  | @assignment _ ts us e dest shape hdest he h =>
    rw [List.length_append, List.length_cons] at hlimit
    have hread : Reads (do
        let dest ← place limit
        let _ ← mark .equal
        return some (← assignment limit dest)) (ts ++ e :: us) EndsStatement (some shape) := by
      refine (reads_place hdest (by omega)).bind
        (reads_mark he (reads_assignment h (by omega)).bind_pure) fun _ _ => ?_
      rw [first_cons, he]
      exact ⟨by simp, by simp⟩
    refine reads_peek_first fun n => ?_
    rw [first_append]
    rcases hdest.begins (first (e :: us) n) with ⟨text, hfirst⟩ | hfirst | hfirst <;>
      rw [hfirst] <;> exact hread

/-- A terminator begins here. -/
def BeginsTerminator (n : Option Lexeme) : Prop :=
  n = some (.keyword .goto) ∨ n = some (.keyword .branch) ∨ n = some (.keyword .ret) ∨
    n = some (.keyword .unreachable)

/-- No statement begins with a terminator. -/
theorem reads_noStatement (limit : Nat) :
    Reads (statementShape? limit) [] BeginsTerminator none := by
  refine reads_peek_nil ?_
  rintro n (rfl | rfl | rfl | rfl) <;> exact reads_pure

/-- **The statements of a block** are read up to its terminator, one in each round. -/
theorem reads_statements {ts : List Token} {body : List StatementExpr}
    (h : Sequence IsStatement ts body) {limit rounds : Nat} (hlimit : ts.length < limit)
    (hrounds : ts.length < rounds) : Reads (statements limit rounds) ts BeginsTerminator body := by
  induction h generalizing rounds with
  | nil =>
    obtain ⟨n, rfl⟩ : ∃ n, rounds = n + 1 := ⟨rounds - 1, by omega⟩
    rw [statements]
    refine reads_here_any fun pos => ?_
    show Reads _ ([] ++ []) _ _
    exact (reads_noStatement limit).bind reads_pure fun _ h => h
  | @cons ts us a as h hs ih =>
    rw [List.length_append] at hlimit hrounds
    cases h with
    | @mk t s ts shape h hsemi =>
      -- the first token of the statement says where it is
      simp only [List.length_append, List.length_cons, List.length_nil] at hlimit hrounds
      obtain ⟨n, rfl⟩ : ∃ n, rounds = n + 1 := ⟨rounds - 1, by omega⟩
      have hrest : Reads (statements limit n) us BeginsTerminator as := ih (by omega) (by omega)
      have hshape : Reads (statementShape? limit) (t :: ts) EndsStatement (some shape) :=
        reads_statementShape h (by rw [List.length_cons]; omega)
      have hsplit : t :: (ts ++ [s]) ++ us = (t :: ts) ++ s :: us := by simp
      rw [statements, hsplit]
      show Reads _ (t :: (ts ++ s :: us)) _ _
      refine reads_here ?_
      refine hshape.bind (reads_mark hsemi hrest.bind_pure) fun _ _ => ?_
      rw [first_cons, hsemi]
      rfl

theorem reads_target {ts : List Token} {text : String} (h : IsTarget ts text) :
    Reads name ts (fun _ => True) text := by
  cases h with
  | mk hn => exact reads_name hn

/-- **How a block ends** is read up to the semicolon. -/
theorem reads_terminatorShape {ts : List Token} {shape : TerminatorShape}
    (h : IsTerminatorShape ts shape) {limit : Nat} (hlimit : ts.length < limit) :
    Reads (terminatorShape limit) ts EndsStatement shape := by
  cases h with
  | goto hk h =>
    exact reads_peek hk (reads_next ((reads_target h).mono fun _ _ => trivial).bind_pure)
  | @branch k a ts us cond targets hk hcond ha htargets =>
    simp only [List.length_append, List.length_cons] at hlimit
    have hlist : Reads (separated limit name) us EndsStatement targets := by
      refine (reads_separated (fun _ _ h _ => reads_target h) trivial htargets (by omega)).mono ?_
      rintro _ rfl
      exact ⟨trivial, by simp⟩
    refine reads_peek hk (reads_next ?_)
    cases hcond with
    | none =>
      have hopen : Reads (do
          let _ ← mark .arrow
          return TerminatorShape.branch none (← separated limit name)) (a :: us) EndsStatement _ :=
        reads_mark ha hlist.bind_pure
      exact reads_nextIs ha hopen
    | some hop =>
      -- no operand begins with an arrow
      refine reads_nextIs_not (fun n _ => ?_) ?_
      · rw [first_append]
        exact (hop.begins _).ne_mark (by simp) (by simp)
      · refine (reads_operand hop (by omega)).map.bind (reads_mark ha hlist.bind_pure) fun _ _ => ?_
        rw [first_cons, ha]
        exact ⟨by simp, by simp⟩
  | ret hk => exact reads_peek hk (reads_next reads_pure)
  | unreachable hk => exact reads_peek hk (reads_next reads_pure)

/-- **A terminator** is read with its semicolon. -/
theorem reads_terminator {ts : List Token} {last : TerminatorExpr} (h : IsTerminator ts last)
    {limit : Nat} (hlimit : ts.length < limit) :
    Reads (terminator limit) ts (fun _ => True) last := by
  cases h with
  | @mk t s ts shape h hsemi =>
    simp only [List.length_cons, List.length_append, List.length_nil] at hlimit
    have hshape : Reads (terminatorShape limit) (t :: ts) EndsStatement shape :=
      reads_terminatorShape h (by rw [List.length_cons]; omega)
    refine reads_here (hshape.bind (reads_mark hsemi reads_pure) fun _ _ => ?_)
    rw [first_cons, hsemi]
    rfl

theorem IsTerminator.begins {ts : List Token} {last : TerminatorExpr} (h : IsTerminator ts last)
    (n : Option Lexeme) : BeginsTerminator (first ts n) := by
  obtain ⟨h, _⟩ := h
  rw [first_cons]
  cases h with
  | goto hk _ => simp [BeginsTerminator, hk]
  | branch hk _ _ _ => simp [BeginsTerminator, hk]
  | ret hk => simp [BeginsTerminator, hk]
  | unreachable hk => simp [BeginsTerminator, hk]

/-! ## Items and functions -/

theorem reads_regionName {ts : List Token} {r : RegionName} (h : IsRegionName ts r) :
    Reads region ts (fun _ => True) r := by
  cases h with
  | mk hr => exact reads_region hr

theorem reads_regionNames {ts : List Token} {names : List RegionName}
    (h : Parenthesised IsRegionName ts names) {limit : Nat} (hlimit : ts.length < limit) :
    Reads (parenthesised limit region) ts (fun _ => True) names := by
  refine reads_parenthesised (fun _ _ h _ => reads_regionName h) trivial trivial
    (fun _ _ h n => ?_) h hlimit
  obtain ⟨hr⟩ := h
  simp [hr]

/-- **A declaration** is read with its semicolon. -/
theorem reads_declaration {ts : List Token} {d : LetDecl} (h : IsDeclaration ts d) {limit : Nat}
    (hlimit : ts.length < limit) : Reads (declaration limit) ts (fun _ => True) d := by
  cases h with
  | @mk k n c s ts us text ty drops hk hn hc ht hd hs =>
    simp only [List.length_cons, List.length_append, List.length_nil] at hlimit
    refine reads_here (reads_keyword hk ((reads_name hn).then (reads_mark hc ?_)))
    cases hd with
    | none =>
      have hclose : Reads (do
          let close ← mark .semicolon
          return (⟨text, ty, none, ⟨k.extent.start, close.extent.stop⟩⟩ : LetDecl)) [s]
          (fun _ => True) _ := reads_mark hs reads_pure
      show Reads _ (ts ++ [s]) _ _
      refine (reads_type ht (by omega)).bind (reads_accept_not (fun _ _ => ?_) hclose) fun _ _ => ?_
      · simp [hs]
      · simp [EndsType, hs]
    | @some us names hd =>
      obtain ⟨hk, hnames⟩ := hd
      rw [List.length_cons] at hlimit
      refine (reads_type ht (by omega)).bind (reads_accept hk ?_) fun _ _ => ?_
      · exact (reads_regionNames hnames (by omega)).map.then (reads_mark hs reads_pure)
      · simp [EndsType, hk]

/-- **A block** is read with its braces. -/
theorem reads_block {ts : List Token} {b : BlockDecl} (h : IsBlock ts b) {limit : Nat}
    (hlimit : ts.length < limit) : Reads (block limit) ts (fun _ => True) b := by
  cases h with
  | mk hn hc ho hbody hlast he =>
    simp only [List.length_cons, List.length_append, List.length_nil] at hlimit
    refine reads_here ((reads_name hn).then (reads_mark hc (reads_mark ho ?_)))
    refine (reads_statements hbody (by omega) (by omega)).bind ?_ fun n _ => ?_
    · exact (reads_terminator hlast (by omega)).then (reads_mark he reads_pure)
    · rw [first_append]
      exact hlast.begins _

/-- A closing brace follows. -/
def EndsItems (n : Option Lexeme) : Prop := n = some (.mark .braceClose)

/-- **The items of a function** are read up to its closing brace, one in each round. -/
theorem reads_items {ts : List Token} {l : List Item} (h : Sequence IsItem ts l)
    {limit rounds : Nat} (hlimit : ts.length < limit) (hrounds : ts.length < rounds) :
    Reads (items limit rounds) ts EndsItems l := by
  induction h generalizing rounds with
  | nil =>
    obtain ⟨n, rfl⟩ : ∃ n, rounds = n + 1 := ⟨rounds - 1, by omega⟩
    refine reads_peek_nil ?_
    rintro _ rfl
    exact reads_pure
  | @cons ts us a as h hs ih =>
    obtain ⟨n, rfl⟩ : ∃ n, rounds = n + 1 := ⟨rounds - 1, by omega⟩
    rw [List.length_append] at hlimit hrounds
    cases h with
    | declaration h =>
      have hread : Reads (declaration limit) _ (fun _ => True) _ := reads_declaration h (by omega)
      obtain ⟨hk, _, _, _, _, _⟩ := h
      rw [List.length_cons] at hrounds
      exact reads_peek hk (hread.then (ih (by omega) (by omega)).bind_pure)
    | block h =>
      have hread : Reads (block limit) _ (fun _ => True) _ := reads_block h (by omega)
      obtain ⟨hn, _, _, _, _, _⟩ := h
      rw [List.length_cons] at hrounds
      exact reads_peek hn (hread.then (ih (by omega) (by omega)).bind_pure)

theorem reads_param {ts : List Token} {p : ParamDecl} (h : IsParam ts p) {limit : Nat}
    (hlimit : ts.length < limit) : Reads (param limit) ts EndsType p := by
  cases h with
  | @mk n c ts text ty hn hc ht =>
    rw [List.length_cons, List.length_cons] at hlimit
    refine Reads.located (g := fun extent => ParamDecl.mk text ty extent) ?_
    exact (reads_name hn).then (reads_mark hc (reads_type ht (by omega)).bind_pure)

/-- **A function** is read with its braces. -/
theorem reads_function {ts : List Token} {f : FunctionDecl} (h : IsFunction ts f) {limit : Nat}
    (hlimit : ts.length < limit) : Reads (function limit) ts (fun _ => True) f := by
  cases h with
  | @mk k n o e ts us vs text params bounds body hk hn hparams hbounds ho hitems he =>
    simp only [List.length_cons, List.length_append, List.length_nil] at hlimit
    refine reads_here (reads_keyword hk ((reads_name hn).then ?_))
    have hparamList : Reads (parenthesised limit (param limit)) ts (fun _ => True) params := by
      refine reads_parenthesised (fun us p h hus => reads_param h (by omega)) (by simp [EndsType])
        (by simp [EndsType]) (fun us p h n => ?_) hparams (by omega)
      obtain ⟨hn, _, _⟩ := h
      simp [hn]
    have hclause : Reads (located do
        let bounds ← boundsClause limit
        return fun extent => (bounds, extent)) us EndsBounds (bounds, .covering us) :=
      Reads.located (g := fun extent => (bounds, extent))
        (reads_boundsClause hbounds (by omega)).bind_pure
    refine hparamList.then (hclause.bind (reads_mark ho ?_) ?_)
    · refine (reads_items hitems (by omega) (by omega)).bind (reads_mark he reads_pure) ?_
      intro _ _
      rw [first_cons, he]
      rfl
    · intro _ _
      simp [EndsBounds, ho]

/-- **The functions of a program** are read up to its end, one in each round. -/
theorem reads_functions {ts : List Token} {program : List FunctionDecl} (h : IsProgram ts program)
    {limit rounds : Nat} (hlimit : ts.length < limit) (hrounds : ts.length < rounds) :
    Reads (functions limit rounds) ts (· = none) program := by
  induction h generalizing rounds with
  | nil =>
    obtain ⟨n, rfl⟩ : ∃ n, rounds = n + 1 := ⟨rounds - 1, by omega⟩
    refine reads_peek_nil ?_
    rintro _ rfl
    exact reads_pure
  | @cons ts us f fs h hs ih =>
    obtain ⟨n, rfl⟩ : ∃ n, rounds = n + 1 := ⟨rounds - 1, by omega⟩
    rw [List.length_append] at hlimit hrounds
    have hread : Reads (function limit) ts (fun _ => True) f := reads_function h (by omega)
    obtain ⟨hk, _, _, _, _, _, _⟩ := h
    rw [List.length_cons] at hrounds
    exact reads_peek hk (hread.then (ih (by omega) (by omega)).bind_pure)

/-- **A text whose tokens are a program** is parsed as that program. -/
theorem parseTokens_of_isProgram {tokens : List Token} {program : List FunctionDecl}
    (h : IsProgram tokens program) : parseTokens tokens .finished = .ok program := by
  have hread : Reads (functions (tokens.length + 1) (tokens.length + 1)) tokens (· = none)
      program :=
    reads_functions h (by omega) (by omega)
  have hrun : (functions (tokens.length + 1) (tokens.length + 1)).run tokens =
      .ok (program, []) := by
    have hnil := hread [] rfl
    rw [List.append_nil] at hnil
    exact hnil
  simp only [parseTokens, hrun]

end BorrowFlow.Source
