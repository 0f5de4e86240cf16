import BorrowFlow.Proofs.Except
import BorrowFlow.Proofs.Source.Completeness

/-! # The parser reads nothing but the grammar

    What a parser takes off the front of the tokens is a sentence of its rule, and where it
    gives up, the tokens that it has taken can still be completed to one.  `Parses p G` says
    so: each way of putting parsers together has its rule, and each rule of the grammar its
    theorem, up to whole programs (`parses_functions`).

    Only the tokens matter here, not what they denote: `Derives R` forgets the answers, and
    what the parser makes of the sentences of the grammar is known already
    (`parseTokens_of_isProgram`).
-/

namespace BorrowFlow.Source

open ParseM

variable {α β γ : Type}

/-! ## Sentences and their beginnings -/

/-- **The result of a parser explains** the tokens it was given: the ones that it has taken are
    a sentence, or, if it fails, the beginning of one. -/
def Explains (G : List Token → α → Prop) (ts : List Token) :
    Except (List Token) (α × List Token) → Prop
  | .ok r => ∃ us, ts = us ++ r.2 ∧ G us r.1
  | .error rest => ∃ us, ts = us ++ rest ∧ ∃ vs a, G (us ++ vs) a

/-- **A parser of a language**: there is something to read, and every run explains its tokens. -/
structure Parses (p : ParseM α) (G : List Token → α → Prop) : Prop where
  inhabited : ∃ us a, G us a
  run : ∀ ts, Explains G ts (p ts)

/-- A parser that does its work if the next lexeme is this one. -/
def ParsesAt (next : Option Lexeme) (p : ParseM α) (G : List Token → α → Prop) : Prop :=
  ∀ ts, first ts none = next → Explains G ts (p ts)

/-- The sentences of a rule, whatever they denote. -/
def Derives (R : List Token → β → Prop) : List Token → α → Prop := fun us _ => ∃ b, R us b

section Rules

variable {p : ParseM α} {f : α → ParseM β} {G G' : List Token → α → Prop}
  {H : List Token → β → Prop}

/-- What explains the tokens after some others, explains them all. -/
theorem Explains.after {us ts : List Token} {r : Except (List Token) (α × List Token)}
    (h : Explains (fun vs a => G (us ++ vs) a) ts r) : Explains G (us ++ ts) r := by
  cases r with
  | ok r =>
    obtain ⟨vs, rfl, hG⟩ := h
    exact ⟨us ++ vs, (List.append_assoc _ _ _).symm, hG⟩
  | error rest =>
    obtain ⟨vs, rfl, ws, a, hG⟩ := h
    refine ⟨us ++ vs, (List.append_assoc _ _ _).symm, ws, a, ?_⟩
    rw [List.append_assoc]
    exact hG

theorem Parses.mono (h : Parses p G) (hG : ∀ us a, G us a → G' us a) : Parses p G' where
  inhabited := by
    obtain ⟨us, a, hus⟩ := h.inhabited
    exact ⟨us, a, hG _ _ hus⟩
  run := by
    intro ts
    have hrun := h.run ts
    cases hp : p ts with
    | ok r =>
      rw [hp] at hrun
      obtain ⟨us, hts, hus⟩ := hrun
      exact ⟨us, hts, hG _ _ hus⟩
    | error rest =>
      rw [hp] at hrun
      obtain ⟨us, hts, vs, a, hus⟩ := hrun
      exact ⟨us, hts, vs, a, hG _ _ hus⟩

theorem Parses.parsesAt (h : Parses p G) (next : Option Lexeme) : ParsesAt next p G :=
  fun ts _ => h.run ts

theorem parses_pure {a : α} (h : G [] a) : Parses (pure a) G where
  inhabited := ⟨[], a, h⟩
  run := fun _ => ⟨[], rfl, h⟩

theorem parses_unexpected (h : ∃ us a, G us a) : Parses unexpected G where
  inhabited := h
  run := fun _ => ⟨[], rfl, h⟩

/-- **One parser after another**: the second reads what is left of a sentence. -/
theorem Parses.bind (hp : Parses p G)
    (hf : ∀ us a, G us a → Parses (f a) fun vs b => H (us ++ vs) b) : Parses (p >>= f) H where
  inhabited := by
    obtain ⟨us, a, hus⟩ := hp.inhabited
    obtain ⟨vs, b, hvs⟩ := (hf us a hus).inhabited
    exact ⟨us ++ vs, b, hvs⟩
  run := by
    intro ts
    have hrun := hp.run ts
    show Explains H ts (p ts >>= fun r => f r.1 r.2)
    cases hts : p ts with
    | error rest =>
      -- `vs` completes what the first parser was reading, and `ws` stands for the second
      rw [hts] at hrun
      obtain ⟨us, hus, vs, a, hG⟩ := hrun
      obtain ⟨ws, b, hH⟩ := (hf _ a hG).inhabited
      refine ⟨us, hus, vs ++ ws, b, ?_⟩
      rw [← List.append_assoc]
      exact hH
    | ok r =>
      rw [hts] at hrun
      obtain ⟨us, rfl, hG⟩ := hrun
      exact ((hf us r.1 hG).run r.2).after

theorem Parses.bind_pure {g : α → β} (hp : Parses p G) (hg : ∀ us a, G us a → H us (g a)) :
    Parses (p >>= fun a => pure (g a)) H := by
  refine hp.bind fun us a hus => parses_pure ?_
  rw [List.append_nil]
  exact hg us a hus

theorem Parses.located {p : ParseM (Extent → α)} {R : List Token → γ → Prop}
    (hp : Parses p (Derives R)) : Parses (located p) (Derives R) where
  inhabited := by
    obtain ⟨us, place, hus⟩ := hp.inhabited
    exact ⟨us, place default, hus⟩
  run := by
    intro ts
    have hrun := hp.run ts
    show Explains (Derives R) ts (p ts >>= fun r => _)
    cases hts : p ts with
    | error rest =>
      rw [hts] at hrun
      obtain ⟨us, hus, vs, place, hvs⟩ := hrun
      exact ⟨us, hus, vs, place default, hvs⟩
    | ok r =>
      rw [hts] at hrun
      exact hrun

theorem Parses.map {g : α → β} (hp : Parses p G) (hg : ∀ us a, G us a → H us (g a)) :
    Parses (g <$> p) H := by
  rw [map_eq_pure_bind]
  exact hp.bind_pure hg

/-! ## Single tokens -/

/-- A look ahead tells the alternatives apart. -/
theorem parses_peek {f : Option Lexeme → ParseM β} (h : ∃ us b, H us b)
    (hf : ∀ next, ParsesAt next (f next) H) : Parses (peek >>= f) H where
  inhabited := h
  run := by
    intro ts
    rw [peek_bind]
    exact hf _ ts rfl

/-- The token that was looked at is read. -/
theorem parsesAt_next {f : Token → ParseM β} {l : Lexeme}
    (hf : ∀ t, t.lexeme = l → Parses (f t) fun vs b => H (t :: vs) b) :
    ParsesAt (some l) (next >>= f) H := by
  intro ts hfirst
  cases ts with
  | nil => cases hfirst
  | cons t ts =>
    show Explains H ([t] ++ ts) _
    exact ((hf t (Option.some.inj hfirst)).run ts).after

theorem parses_here {f : Pos → ParseM β} (hf : ∀ pos, Parses (f pos) H) :
    Parses (here >>= f) H where
  inhabited := (hf default).inhabited
  run := by
    intro ts
    cases ts with
    | nil => exact (hf default).run []
    | cons t ts => exact (hf t.extent.start).run (t :: ts)

theorem expect_of_ne {l : Lexeme} {ts : List Token} (h : first ts none ≠ some l) :
    expect l ts = .error ts := by
  show (nextIs l ts >>= fun r => _) = _
  rw [nextIs_eq, decide_eq_false h]
  rfl

theorem parses_expect {f : Token → ParseM β} {l : Lexeme}
    (hf : ∀ t, t.lexeme = l → Parses (f t) fun vs b => H (t :: vs) b) :
    Parses (expect l >>= f) H := by
  have hexpect : Parses (expect l) fun us t => us = [t] ∧ t.lexeme = l := by
    refine ⟨⟨[⟨l, default⟩], ⟨l, default⟩, rfl, rfl⟩, fun ts => ?_⟩
    by_cases hfirst : first ts none = some l
    · cases ts with
      | nil => cases hfirst
      | cons t ts =>
        have ht := Option.some.inj hfirst
        rw [expect_of_eq ht]
        exact ⟨[t], rfl, rfl, ht⟩
    · rw [expect_of_ne hfirst]
      exact ⟨[], rfl, [⟨l, default⟩], ⟨l, default⟩, rfl, rfl⟩
  refine hexpect.bind ?_
  rintro _ t ⟨rfl, ht⟩
  exact hf t ht

theorem parses_mark {f : Token → ParseM β} {m : Mark}
    (hf : ∀ t, t.lexeme = .mark m → Parses (f t) fun vs b => H (t :: vs) b) :
    Parses (mark m >>= f) H := parses_expect hf

theorem parses_keyword {f : Token → ParseM β} {k : Keyword}
    (hf : ∀ t, t.lexeme = .keyword k → Parses (f t) fun vs b => H (t :: vs) b) :
    Parses (keyword k >>= f) H := parses_expect hf

/-- A token that may be missing. -/
theorem parses_accept {f : Bool → ParseM β} {l : Lexeme}
    (htrue : ∀ t, t.lexeme = l → Parses (f true) fun vs b => H (t :: vs) b)
    (hfalse : Parses (f false) H) : Parses (accept l >>= f) H := by
  refine ⟨hfalse.inhabited, fun ts => ?_⟩
  show Explains H ts (accept l ts >>= fun r => f r.1 r.2)
  by_cases hfirst : first ts none = some l
  · cases ts with
    | nil => cases hfirst
    | cons t ts =>
      have ht := Option.some.inj hfirst
      rw [accept_of_eq ht]
      show Explains H ([t] ++ ts) _
      exact ((htrue t ht).run ts).after
  · rw [accept_of_ne hfirst]
    exact hfalse.run ts

theorem parses_nextIs {f : Bool → ParseM β} {l : Lexeme} (hf : ∀ is, Parses (f is) H) :
    Parses (nextIs l >>= f) H := by
  refine ⟨(hf false).inhabited, fun ts => ?_⟩
  show Explains H ts (nextIs l ts >>= fun r => f r.1 r.2)
  rw [nextIs_eq]
  exact (hf _).run ts

theorem parses_name : Parses name IsTarget := by
  have hone : ∃ us text, IsTarget us text := ⟨[⟨.name "", default⟩], "", .mk rfl⟩
  refine parses_peek hone fun next => ?_
  split
  · exact parsesAt_next fun t ht => parses_pure (.mk ht)
  · exact (parses_unexpected hone).parsesAt _

theorem parses_region : Parses region IsRegionName := by
  have hone : ∃ us r, IsRegionName us r := ⟨[⟨.region "", default⟩], _, .mk rfl⟩
  refine parses_peek hone fun next => ?_
  split
  · exact parsesAt_next fun t ht => parses_pure (.mk ht)
  · exact (parses_unexpected hone).parsesAt _

theorem Parses.name_bind {f : String → ParseM β}
    (hf : ∀ t text, t.lexeme = .name text → Parses (f text) fun vs b => H (t :: vs) b) :
    Parses (name >>= f) H := by
  refine parses_name.bind fun us text hus => ?_
  cases hus with
  | mk hn => exact hf _ _ hn

theorem Parses.region_bind {f : RegionName → ParseM β}
    (hf : ∀ t text, t.lexeme = .region text →
      Parses (f ⟨text, t.extent⟩) fun vs b => H (t :: vs) b) :
    Parses (region >>= f) H := by
  refine parses_region.bind fun us r hus => ?_
  cases hus with
  | mk hr => exact hf _ _ hr

end Rules

/-! ## Lists -/

section Lists

variable {item : ParseM α} {R : List Token → γ → Prop}

/-- More items after a comma prolong a list. -/
theorem parses_moreAfterComma (hitem : Parses item (Derives R)) (rounds : Nat) :
    Parses (moreAfterComma item rounds) fun us _ =>
      ∀ ts c, R ts c → ∃ cs, Separated R (ts ++ us) cs := by
  have hnone : ∀ ts c, R ts c → ∃ cs, Separated R (ts ++ []) cs := by
    intro ts c h
    rw [List.append_nil]
    exact ⟨[c], .one h⟩
  -- without rounds the parser gives up at once, and nothing is the beginning of any sentence
  induction rounds with
  | zero => exact parses_unexpected ⟨[], [], hnone⟩
  | succ rounds ih =>
    refine parses_accept (fun comma hcomma => ?_) (parses_pure hnone)
    refine hitem.bind fun us _ hus => ih.bind_pure fun vs _ hvs ts c h => ?_
    obtain ⟨c', hc'⟩ := hus
    obtain ⟨cs, hcs⟩ := hvs us c' hc'
    exact ⟨c :: cs, .more h hcomma hcs⟩

/-- **A list of items.** -/
theorem parses_separated (hitem : Parses item (Derives R)) (rounds : Nat) :
    Parses (separated rounds item) (Derives (Separated R)) := by
  refine hitem.bind fun us _ hus => ?_
  refine (parses_moreAfterComma hitem rounds).bind_pure fun vs _ hvs => ?_
  obtain ⟨c, hc⟩ := hus
  exact hvs us c hc

/-- **Items in parentheses.** -/
theorem parses_parenthesised (hitem : Parses item (Derives R)) (limit : Nat) :
    Parses (parenthesised limit item) (Derives (Parenthesised R)) := by
  refine parses_mark fun o ho => parses_accept (fun c hc => ?_) ?_
  · exact parses_pure ⟨[], .none ho hc⟩
  · refine (parses_separated hitem limit).bind fun us _ hus => parses_mark fun c hc => ?_
    obtain ⟨cs, hcs⟩ := hus
    exact parses_pure ⟨cs, .some ho hcs hc⟩

end Lists

/-! ## Places and operands -/

/-- A place, tight or not. -/
def IsAnyPlace (ts : List Token) (p : Place) : Prop := ∃ tight, IsPlace tight ts p

/-- Tokens that prolong a tight place. -/
def Prolongs (us : List Token) (_ : Place) : Prop :=
  ∀ ts p, IsPlace true ts p → ∃ q, IsPlace true (ts ++ us) q

theorem prolongs_nil (p : Place) : Prolongs [] p := by
  intro ts q h
  rw [List.append_nil]
  exact ⟨q, h⟩

/-- A suffix, and what prolongs the place after it. -/
theorem Prolongs.cons {us vs : List Token} {step : Projection} {p q : Place} (hs : IsSuffix us step)
    (h : Prolongs vs p) : Prolongs (us ++ vs) q := by
  intro ts r hr
  rw [← List.append_assoc]
  exact h _ _ (.suffix hr hs)

/-- The index between brackets. -/
def IsIndex (us : List Token) (step : Projection) : Prop :=
  ∀ o c : Token, o.lexeme = .mark .bracketOpen → c.lexeme = .mark .bracketClose →
    IsSuffix (o :: (us ++ [c])) step

theorem parses_index : Parses index IsIndex := by
  have hname : ∀ (t : Token) (text : String), t.lexeme = .name text →
      IsIndex [t] (.varIndex (some text)) := fun t text ht o c ho hc => .varIndex ho ht hc
  have hone : ∃ us step, IsIndex us step := ⟨_, _, hname ⟨.name "", default⟩ "" rfl⟩
  refine parses_peek hone fun next => ?_
  split
  · exact parsesAt_next fun t ht => parses_pure fun o c ho hc => .constIndex ho ht hc
  · exact parsesAt_next fun t ht => parses_pure (hname t _ ht)
  · exact (parses_unexpected hone).parsesAt _

theorem parses_projections (p : Place) (n : Nat) : Parses (projections p n) Prolongs := by
  have hone : ∃ us q, Prolongs us q := ⟨[], p, prolongs_nil p⟩
  induction n generalizing p with
  | zero => exact parses_unexpected hone
  | succ n ih =>
    refine parses_peek hone fun next => ?_
    -- a field, an index, or the end of the place
    split
    · refine parsesAt_next fun d hd => .name_bind fun n text hn => ?_
      exact (ih _).mono fun vs q h => h.cons (.field hd hn)
    · refine parsesAt_next fun o ho => parses_index.bind fun us step hus => ?_
      refine parses_mark fun c hc => (ih _).mono fun vs q h => ?_
      have hprolongs := h.cons (q := q) (hus o c ho hc)
      rwa [List.cons_append, List.append_assoc] at hprolongs
    · exact (parses_pure (prolongs_nil p)).parsesAt _

/-- **Places.** -/
theorem parses_place (n : Nat) : Parses (place n) (Derives IsAnyPlace) := by
  have hone : ∃ (us : List Token) (p : Place), Derives IsAnyPlace us p :=
    ⟨[⟨.name "", default⟩], .ofLocal "", .ofLocal "", true, .name rfl⟩
  induction n with
  | zero => exact parses_unexpected hone
  | succ n ih =>
    refine parses_peek hone fun next => ?_
    -- a dereference, a place in parentheses, a variable, or no place
    split
    · refine parsesAt_next fun s hs => ih.bind_pure ?_
      rintro us _ ⟨p, _, hp⟩
      exact ⟨_, false, .deref hs hp⟩
    · refine parsesAt_next fun o ho => ih.bind ?_
      rintro us q ⟨p, _, hp⟩
      refine parses_mark fun c hc => (parses_projections _ _).mono fun vs _ hvs => ?_
      obtain ⟨r, hr⟩ := hvs _ _ (.parens ho hp hc)
      rw [List.cons_append, List.append_assoc] at hr
      exact ⟨r, true, hr⟩
    · refine parsesAt_next fun t ht => (parses_projections _ _).mono fun vs _ hvs => ?_
      obtain ⟨r, hr⟩ := hvs _ _ (.name ht)
      exact ⟨r, true, hr⟩
    · exact (parses_unexpected hone).parsesAt _

/-- **Operands.** -/
theorem parses_operand (limit : Nat) : Parses (operand limit) (Derives IsOperand) := by
  have hone : ∃ (us : List Token) (op : Operand), Derives IsOperand us op :=
    ⟨[⟨.keyword .const, default⟩], .const, .const, .const rfl⟩
  refine parses_peek hone fun next => ?_
  split
  · refine parsesAt_next fun k hk => (parses_place limit).bind_pure ?_
    rintro us _ ⟨p, _, hp⟩
    exact ⟨_, .copy hk hp⟩
  · refine parsesAt_next fun k hk => (parses_place limit).bind_pure ?_
    rintro us _ ⟨p, _, hp⟩
    exact ⟨_, .move hk hp⟩
  · exact parsesAt_next fun k hk => parses_pure ⟨_, .const hk⟩
  · refine ((parses_place limit).bind_pure ?_).parsesAt _
    rintro us _ ⟨p, _, hp⟩
    exact ⟨_, .bare hp⟩

/-! ## Types and bounds -/

/-- Every type is an argument. -/
theorem IsType.argument {ts : List Token} {ty : TypeExpr} (h : IsType false ts ty) :
    IsType true ts ty := by
  cases h with
  | ref ha hr ht => exact .ref ha hr ht
  | refMut ha hr hm ht => exact .refMut ha hr hm ht
  | name hn => exact .name hn
  | apply hn hl harg hargs hg => exact .apply hn hl harg hargs hg

/-- **Types and their arguments.** -/
theorem parses_types (n : Nat) : Parses (typeExpr n) (Derives (IsType false)) ∧
    Parses (typeArgument n) (Derives (IsType true)) := by
  have hone : ∀ argument, ∃ (us : List Token) (ty : TypeExpr), Derives (IsType argument) us ty :=
    fun _ => ⟨[⟨.name "", default⟩], .named "" [], _, .name rfl⟩
  induction n with
  | zero => exact ⟨parses_unexpected (hone _), parses_unexpected (hone _)⟩
  | succ n ih =>
    refine ⟨?_, ?_⟩
    · rw [typeExpr]
      refine parses_peek (hone _) fun next => ?_
      split
      · refine parsesAt_next fun a ha => .region_bind fun r text hr => ?_
        refine parses_accept (fun m hm => ih.1.bind_pure ?_) (ih.1.bind_pure ?_)
        · rintro us _ ⟨ty, hty⟩
          exact ⟨_, .refMut ha hr hm hty⟩
        · rintro us _ ⟨ty, hty⟩
          exact ⟨_, .ref ha hr hty⟩
      · refine parsesAt_next fun t ht => parses_accept (fun l hl => ?_) ?_
        · refine (parses_separated ih.2 n).bind ?_
          rintro us _ ⟨args, hargs⟩
          exact parses_mark fun g hg => parses_pure ⟨_, .apply ht hl (fun _ _ h => h) hargs hg⟩
        · exact parses_pure ⟨_, .name ht⟩
      · exact (parses_unexpected (hone _)).parsesAt _
    · rw [typeArgument]
      refine parses_peek (hone _) fun next => ?_
      split
      · exact parsesAt_next fun r hr => parses_pure ⟨_, .region hr⟩
      · refine (ih.1.mono ?_).parsesAt _
        rintro us _ ⟨ty, hty⟩
        exact ⟨ty, hty.argument⟩

theorem parses_type (n : Nat) : Parses (typeExpr n) (Derives (IsType false)) := (parses_types n).1

theorem parses_bound : Parses bound (Derives IsBound) := by
  refine .region_bind fun r sub hr => parses_mark fun c hc => ?_
  exact .region_bind fun s sup hs => parses_pure ⟨_, .mk hr hc hs⟩

theorem parses_boundsClause (limit : Nat) :
    Parses (boundsClause limit) (Derives AreBounds) := by
  refine parses_accept (fun k hk => ?_) (parses_pure ⟨_, .none⟩)
  refine (parses_separated parses_bound limit).mono ?_
  rintro us _ ⟨bounds, hbounds⟩
  exact ⟨bounds, .some hk hbounds⟩

/-! ## Statements -/

/-- **The right-hand side of an assignment.** -/
theorem parses_assignment (limit : Nat) (dest : Place) : Parses (assignment limit dest)
    fun us _ => ∀ dest, ∃ shape, IsAssignment dest us shape := by
  have hone : ∃ (us : List Token) (_ : StatementShape),
      ∀ dest, ∃ shape, IsAssignment dest us shape :=
    ⟨[⟨.keyword .const, default⟩], .nop, fun dest => ⟨_, .assign (.const rfl)⟩⟩
  refine parses_peek hone fun next => ?_
  -- a borrow, a call, or an operand
  split
  · refine parsesAt_next fun a ha => parses_accept (fun m hm => ?_) ?_
    · refine (parses_place limit).bind_pure ?_
      rintro us _ ⟨p, _, hp⟩ dest
      exact ⟨_, .borrowMut ha hm hp⟩
    · refine (parses_place limit).bind_pure ?_
      rintro us _ ⟨p, _, hp⟩ dest
      exact ⟨_, .borrow ha hp⟩
  · refine parsesAt_next fun k hk => .name_bind fun n func hn => ?_
    refine (parses_parenthesised (parses_operand limit) limit).bind ?_
    rintro us _ ⟨operands, hoperands⟩
    refine (parses_boundsClause limit).bind_pure ?_
    rintro vs _ ⟨bounds, hbounds⟩ dest
    exact ⟨_, .call hk hn hoperands hbounds⟩
  · refine ((parses_operand limit).bind_pure ?_).parsesAt _
    rintro us _ ⟨op, hop⟩ dest
    exact ⟨_, .assign hop⟩

theorem parses_parenthesisedName : Parses parenthesisedName IsParenName := by
  refine parses_mark fun o ho => .name_bind fun n text hn => parses_mark fun c hc => ?_
  exact parses_pure (.mk ho hn hc)

/-- A statement, or nothing if there is none. -/
def IsShape? (us : List Token) : Option StatementShape → Prop
  | none => us = []
  | some _ => ∃ shape, IsShape us shape

/-- **Statements**, up to the semicolon. -/
theorem parses_statementShape? (limit : Nat) : Parses (statementShape? limit) IsShape? := by
  refine parses_peek ⟨[], none, rfl⟩ fun next => ?_
  -- three lexemes begin a place, and so an assignment
  have hplace : Parses (do
      let dest ← place limit
      let _ ← mark .equal
      return some (← assignment limit dest)) IsShape? := by
    refine (parses_place limit).bind ?_
    rintro us q ⟨dest, _, hdest⟩
    refine parses_mark fun e he => (parses_assignment limit q).bind_pure fun vs _ hvs => ?_
    obtain ⟨shape, hshape⟩ := hvs dest
    exact ⟨shape, .assignment hdest he hshape⟩
  split
  · refine parsesAt_next fun k hk =>
      (parses_parenthesised (parses_operand limit) limit).bind_pure ?_
    rintro us _ ⟨operands, hoperands⟩
    exact ⟨_, .use hk hoperands⟩
  · exact parsesAt_next fun k hk =>
      parses_parenthesisedName.bind_pure fun us var hus => ⟨_, .drop hk hus⟩
  · exact parsesAt_next fun k hk =>
      parses_parenthesisedName.bind_pure fun us var hus => ⟨_, .storageDead hk hus⟩
  · exact parsesAt_next fun k hk => parses_pure ⟨_, .nop hk⟩
  · refine (parses_bound.bind_pure ?_).parsesAt _
    rintro us _ ⟨e, he⟩
    exact ⟨_, .outlives he⟩
  · exact hplace.parsesAt _
  · exact hplace.parsesAt _
  · exact hplace.parsesAt _
  · exact (parses_pure rfl).parsesAt _

/-- **The statements of a block.** -/
theorem parses_statements (limit rounds : Nat) :
    Parses (statements limit rounds) (Derives (Sequence IsStatement)) := by
  induction rounds with
  | zero => exact parses_unexpected ⟨[], [], [], .nil⟩
  | succ rounds ih =>
    refine parses_here fun start => (parses_statementShape? limit).bind fun us shape? hus => ?_
    cases shape? with
    | none =>
      obtain rfl : us = [] := hus
      exact parses_pure ⟨_, .nil⟩
    | some found =>
      obtain ⟨shape, hshape⟩ := hus
      obtain ⟨t, us, rfl⟩ := hshape.exists_cons
      refine parses_mark fun s hs => ih.bind_pure ?_
      rintro vs _ ⟨rest, hrest⟩
      have hall := Sequence.cons (.mk hshape hs) hrest
      rw [List.cons_append, List.append_assoc] at hall
      exact ⟨_, hall⟩

/-- **How a block ends**, up to the semicolon. -/
theorem parses_terminatorShape (limit : Nat) :
    Parses (terminatorShape limit) (Derives IsTerminatorShape) := by
  have hone : ∃ (us : List Token) (shape : TerminatorShape), Derives IsTerminatorShape us shape :=
    ⟨[⟨.keyword .ret, default⟩], .ret, .ret, .ret rfl⟩
  have htarget : Parses name (Derives IsTarget) := parses_name.mono fun us text h => ⟨text, h⟩
  refine parses_peek hone fun next => ?_
  split
  · exact parsesAt_next fun k hk => parses_name.bind_pure fun us target hus => ⟨_, .goto hk hus⟩
  · refine parsesAt_next fun k hk => parses_nextIs fun is => ?_
    -- the parser goes on in the same way, whether there was a condition or not
    have htargets : ∀ us (cond : Option Operand), Derives (Optional IsOperand) us cond →
        Parses (do
          let _ ← mark .arrow
          return TerminatorShape.branch cond (← separated limit name))
          fun vs shape => Derives IsTerminatorShape (k :: (us ++ vs)) shape := by
      rintro us _ ⟨cond, hcond⟩
      refine parses_mark fun a ha => (parses_separated htarget limit).bind_pure ?_
      rintro vs _ ⟨targets, htargets⟩
      exact ⟨_, .branch hk hcond ha htargets⟩
    cases is with
    | true => exact htargets [] none ⟨_, .none⟩
    | false =>
      refine ((parses_operand limit).map ?_).bind htargets
      rintro us _ ⟨op, hop⟩
      exact ⟨_, .some hop⟩
  · exact parsesAt_next fun k hk => parses_pure ⟨_, .ret hk⟩
  · exact parsesAt_next fun k hk => parses_pure ⟨_, .unreachable hk⟩
  · exact (parses_unexpected hone).parsesAt _

theorem IsTerminatorShape.exists_cons {ts : List Token} {shape : TerminatorShape}
    (h : IsTerminatorShape ts shape) : ∃ t us, ts = t :: us := by
  cases h <;> exact ⟨_, _, rfl⟩

theorem parses_terminator (limit : Nat) : Parses (terminator limit) (Derives IsTerminator) := by
  refine parses_here fun start => (parses_terminatorShape limit).bind ?_
  rintro us _ ⟨shape, hshape⟩
  obtain ⟨t, us, rfl⟩ := hshape.exists_cons
  exact parses_mark fun s hs => parses_pure ⟨_, .mk hshape hs⟩

/-! ## Items and functions -/

theorem parses_declaration (limit : Nat) :
    Parses (declaration limit) (Derives IsDeclaration) := by
  have hregion : Parses region (Derives IsRegionName) := parses_region.mono fun us r h => ⟨r, h⟩
  refine parses_here fun start => parses_keyword fun k hk => .name_bind fun n text hn =>
    parses_mark fun c hc => (parses_type limit).bind ?_
  rintro ts found ⟨ty, hty⟩
  have hclose : ∀ us (drops : Option (List RegionName)), Derives (Optional IsDrops) us drops →
      Parses (do
        let close ← mark .semicolon
        return (⟨text, found, drops, ⟨start, close.extent.stop⟩⟩ : LetDecl))
        fun vs d => Derives IsDeclaration (k :: n :: c :: (ts ++ (us ++ vs))) d := by
    rintro us _ ⟨drops, hdrops⟩
    exact parses_mark fun s hs => parses_pure ⟨_, .mk hk hn hc hty hdrops hs⟩
  refine parses_accept (fun d hd => ?_) (hclose [] none ⟨_, .none⟩)
  refine ((parses_parenthesised hregion limit).map ?_).bind fun us => hclose (d :: us)
  rintro us _ ⟨names, hnames⟩
  exact ⟨_, .some (.mk hd hnames)⟩

theorem parses_block (limit : Nat) : Parses (block limit) (Derives IsBlock) := by
  refine parses_here fun start => .name_bind fun n text hn => parses_mark fun c hc =>
    parses_mark fun o ho => (parses_statements limit limit).bind ?_
  rintro ts _ ⟨body, hbody⟩
  refine (parses_terminator limit).bind ?_
  rintro us _ ⟨last, hlast⟩
  exact parses_mark fun e he => parses_pure ⟨_, .mk hn hc ho hbody hlast he⟩

/-- **The items of a function.** -/
theorem parses_items (limit rounds : Nat) :
    Parses (items limit rounds) (Derives (Sequence IsItem)) := by
  have hnone : ∃ (us : List Token) (l : List Item), Derives (Sequence IsItem) us l :=
    ⟨[], [], [], .nil⟩
  induction rounds with
  | zero => exact parses_unexpected hnone
  | succ rounds ih =>
    refine parses_peek hnone fun next => ?_
    split
    · refine ((parses_declaration limit).bind ?_).parsesAt _
      rintro us _ ⟨d, hd⟩
      refine ih.bind_pure ?_
      rintro vs _ ⟨rest, hrest⟩
      exact ⟨_, .cons (.declaration hd) hrest⟩
    · refine ((parses_block limit).bind ?_).parsesAt _
      rintro us _ ⟨b, hb⟩
      refine ih.bind_pure ?_
      rintro vs _ ⟨rest, hrest⟩
      exact ⟨_, .cons (.block hb) hrest⟩
    · exact (parses_pure ⟨_, .nil⟩).parsesAt _

theorem parses_param (limit : Nat) : Parses (param limit) (Derives IsParam) := by
  refine .located (.name_bind fun n text hn => parses_mark fun c hc =>
    (parses_type limit).bind_pure ?_)
  rintro ts _ ⟨ty, hty⟩
  exact ⟨_, .mk hn hc hty⟩

theorem parses_function (limit : Nat) : Parses (function limit) (Derives IsFunction) := by
  refine parses_here fun start => parses_keyword fun k hk => .name_bind fun n text hn =>
    (parses_parenthesised (parses_param limit) limit).bind ?_
  rintro ts _ ⟨params, hparams⟩
  have hclause : Parses (located do
      let bounds ← boundsClause limit
      return fun extent => (bounds, extent)) (Derives AreBounds) :=
    .located ((parses_boundsClause limit).bind_pure fun _ _ h => h)
  refine hclause.bind ?_
  rintro us _ ⟨bounds, hbounds⟩
  refine parses_mark fun o ho => (parses_items limit limit).bind ?_
  rintro vs _ ⟨items, hitems⟩
  exact parses_mark fun e he => parses_pure ⟨_, .mk hk hn hparams hbounds ho hitems he⟩

/-- **The functions of a program.** -/
theorem parses_functions (limit rounds : Nat) :
    Parses (functions limit rounds) (Derives IsProgram) := by
  have hnone : ∃ (us : List Token) (l : List FunctionDecl), Derives IsProgram us l :=
    ⟨[], [], [], .nil⟩
  induction rounds with
  | zero => exact parses_unexpected hnone
  | succ rounds ih =>
    refine parses_peek hnone fun next => ?_
    split
    · exact (parses_pure ⟨_, .nil⟩).parsesAt _
    · refine ((parses_function limit).bind ?_).parsesAt _
      rintro us _ ⟨f, hf⟩
      refine ih.bind_pure ?_
      rintro vs _ ⟨rest, hrest⟩
      exact ⟨_, .cons hf hrest⟩

/-- A program is read up to the end of the tokens. -/
theorem eq_nil_of_functions {limit rounds : Nat} {ts rest : List Token}
    {program : List FunctionDecl} (h : functions limit rounds ts = .ok (program, rest)) :
    rest = [] := by
  induction rounds generalizing ts program with
  | zero => cases h
  | succ rounds ih =>
    rw [functions, peek_bind] at h
    cases ts with
    | nil =>
      cases h
      rfl
    | cons t ts =>
      obtain ⟨⟨f, mid⟩, _, h⟩ := bind_eq_ok.mp h
      obtain ⟨⟨fs, mid'⟩, hmore, h⟩ := bind_eq_ok.mp h
      cases h
      exact ih hmore

end BorrowFlow.Source
