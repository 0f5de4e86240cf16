import BorrowFlow.Proofs.Source.Viability

/-! # One token of lookahead

    A parser never looks past the token that comes next, and its bound never shows as long as
    it is not exhausted.  `Tracks k p q` says so of two parsers that differ in their bounds
    only: on token lists that agree up to some token, with less than `k` tokens before it,
    they do the same until that token is read.
-/

namespace BorrowFlow.Source

open ParseM

variable {α β : Type}

/-- The tokens that a result leaves. -/
def leftover : Except (List Token) (α × List Token) → List Token
  | .ok r => r.2
  | .error rest => rest

/-- Two results that are the same up to the token `t`, which both leave. -/
inductive Agree (t : Token) (x y : List Token) (c : List Token) :
    Except (List Token) (α × List Token) → Except (List Token) (α × List Token) → Prop where
  | ok (a : α) : Agree t x y c (.ok (a, c ++ t :: x)) (.ok (a, c ++ t :: y))
  | error : Agree t x y c (.error (c ++ t :: x)) (.error (c ++ t :: y))

theorem Agree.of_error {t : Token} {x y c rest : List Token}
    {r s : Except (List Token) (α × List Token)} (h : Agree t x y c r s) (hr : r = .error rest) :
    s = .error (c ++ t :: y) := by
  cases h with
  | ok a => cases hr
  | error => rfl

/-- **A parser tracks another** up to a token, if less than `k` tokens come before it: the first
    reads it, or both leave it, with the same result. -/
structure Tracks (k : Nat) (p q : ParseM α) : Prop where
  shrinks : ∀ ts, (leftover (p ts)).length ≤ ts.length
  agree : ∀ c t x y, c.length < k → (leftover (p (c ++ t :: x))).length ≤ x.length ∨
    ∃ c', c'.length ≤ c.length ∧ Agree t x y c' (p (c ++ t :: x)) (q (c ++ t :: y))

/-- A parser that reads a token at least, if it succeeds. -/
def Takes (p : ParseM α) : Prop := ∀ ts a rest, p ts = .ok (a, rest) → rest.length < ts.length

section Rules

variable {k : Nat} {p q : ParseM α} {f g : α → ParseM β}

theorem Tracks.mono {j : Nat} (h : Tracks k p q) (hj : j ≤ k) : Tracks j p q where
  shrinks := h.shrinks
  agree := fun c t x y hc => h.agree c t x y (by omega)

theorem tracks_pure (a : α) : Tracks k (pure a) (pure a) where
  shrinks := fun _ => Nat.le_refl _
  agree := fun c _ _ _ _ => .inr ⟨c, Nat.le_refl _, .ok a⟩

theorem tracks_unexpected : Tracks k (unexpected : ParseM α) unexpected where
  shrinks := fun _ => Nat.le_refl _
  agree := fun c _ _ _ _ => .inr ⟨c, Nat.le_refl _, .error⟩

/-- An exhausted parser tracks any other for no tokens at all. -/
theorem tracks_exhausted (hk : k ≤ 0) (q : ParseM α) : Tracks k unexpected q where
  shrinks := fun _ => Nat.le_refl _
  agree := fun c _ _ _ hc => by omega

/-- **One parser after another.**  If the first takes a token, the second has one less before
    it. -/
theorem Tracks.bind_of_le {j : Nat} (hp : Tracks k p q) (hf : ∀ a, Tracks j (f a) (g a))
    (hj : j = k ∨ Takes p ∧ j = k - 1) : Tracks k (p >>= f) (q >>= g) := by
  have hbind : ∀ ts, (p >>= f) ts = p ts >>= fun r => f r.1 r.2 := fun _ => rfl
  have hbind' : ∀ ts, (q >>= g) ts = q ts >>= fun r => g r.1 r.2 := fun _ => rfl
  refine ⟨fun ts => ?_, fun c t x y hc => ?_⟩
  · have hshrinks := hp.shrinks ts
    rw [hbind]
    cases hrun : p ts with
    | error rest =>
      rw [hrun] at hshrinks
      exact hshrinks
    | ok r =>
      rw [hrun] at hshrinks
      exact Nat.le_trans ((hf r.1).shrinks r.2) hshrinks
  · rw [hbind, hbind']
    have hagree := hp.agree c t x y hc
    have htakes := fun (h : Takes p) a rest => h (c ++ t :: x) a rest
    -- from here on only what is known of the two results counts
    generalize p (c ++ t :: x) = r at hagree htakes
    generalize q (c ++ t :: y) = s at hagree
    rcases hagree with hread | ⟨c', hc', hsame⟩
    · -- the token has been read, so it stays read
      refine .inl ?_
      cases r with
      | error rest => exact hread
      | ok r => exact Nat.le_trans ((hf r.1).shrinks r.2) hread
    · cases hsame with
      | error => exact .inr ⟨c', hc', .error⟩
      | ok a =>
        have hless : c'.length < j := by
          rcases hj with rfl | ⟨hp', rfl⟩
          · omega
          · have htaken := htakes hp' a _ rfl
            simp only [List.length_append, List.length_cons] at htaken
            omega
        rcases (hf a).agree c' t x y hless with hread | ⟨c'', hc'', hsame⟩
        · exact .inl hread
        · exact .inr ⟨c'', Nat.le_trans hc'' hc', hsame⟩

theorem Tracks.bind (hp : Tracks k p q) (hf : ∀ a, Tracks k (f a) (g a)) :
    Tracks k (p >>= f) (q >>= g) := hp.bind_of_le hf (.inl rfl)

theorem Tracks.bind_takes (hp : Tracks k p q) (hp' : Takes p)
    (hf : ∀ a, Tracks (k - 1) (f a) (g a)) : Tracks k (p >>= f) (q >>= g) :=
  hp.bind_of_le hf (.inr ⟨hp', rfl⟩)

theorem Tracks.bind_pure {h : α → β} (hp : Tracks k p q) :
    Tracks k (p >>= fun a => pure (h a)) (q >>= fun a => pure (h a)) :=
  hp.bind fun _ => tracks_pure _

theorem Tracks.map {h : α → β} (hp : Tracks k p q) : Tracks k (h <$> p) (h <$> q) := by
  rw [map_eq_pure_bind, map_eq_pure_bind]
  exact hp.bind_pure

/-- What is read stands in both where its tokens do, which are the same ones. -/
theorem Tracks.located {p q : ParseM (Extent → α)} (hp : Tracks k p q) :
    Tracks k (located p) (located q) where
  shrinks := by
    intro ts
    have hshrinks := hp.shrinks ts
    show (leftover (p ts >>= fun r => _)).length ≤ _
    cases hts : p ts with
    | error rest =>
      rw [hts] at hshrinks
      exact hshrinks
    | ok r =>
      rw [hts] at hshrinks
      exact hshrinks
  agree := by
    intro c t x y hc
    have hagree := hp.agree c t x y hc
    show (leftover (p (c ++ t :: x) >>= fun r => _)).length ≤ _ ∨ ∃ c', _ ∧
      Agree t x y c' (p (c ++ t :: x) >>= fun r => _) (q (c ++ t :: y) >>= fun r => _)
    generalize p (c ++ t :: x) = r at hagree
    generalize q (c ++ t :: y) = s at hagree
    rcases hagree with hread | ⟨c', hc', hsame⟩
    · refine .inl ?_
      cases r with
      | error rest => exact hread
      | ok r => exact hread
    · refine .inr ⟨c', hc', ?_⟩
      cases hsame with
      | error => exact .error
      | ok place =>
        have htaken : ∀ z, (c ++ t :: z).take ((c ++ t :: z).length - (c' ++ t :: z).length) =
            c.take (c.length - c'.length) := by
          intro z
          have hlength : (c ++ t :: z).length - (c' ++ t :: z).length = c.length - c'.length := by
            simp only [List.length_append, List.length_cons]
            omega
          rw [hlength, List.take_append_of_le_length (Nat.sub_le _ _)]
        show Agree t x y c' (.ok (place (.covering ((c ++ t :: x).take _)), _))
          (.ok (place (.covering ((c ++ t :: y).take _)), _))
        rw [htaken, htaken]
        exact .ok _

/-- A parser takes a token if there is one in every sentence that it reads. -/
theorem Parses.takes {G : List Token → α → Prop} (h : Parses p G) (hG : ∀ us a, G us a → us ≠ []) :
    Takes p := by
  intro ts a rest hrun
  have hexplains := h.run ts
  rw [hrun] at hexplains
  obtain ⟨us, rfl, hus⟩ := hexplains
  rw [List.length_append]
  exact Nat.lt_add_of_pos_left (List.length_pos_iff.mpr (hG us a hus))

/-! ## Single tokens -/

theorem tracks_peek {f g : Option Lexeme → ParseM β} (hf : ∀ next, Tracks k (f next) (g next)) :
    Tracks k (peek >>= f) (peek >>= g) := by
  have hpeek : Tracks k peek peek := by
    refine ⟨fun _ => Nat.le_refl _, fun c t x y _ => .inr ⟨c, Nat.le_refl _, ?_⟩⟩
    cases c with
    | nil => exact .ok (some t.lexeme)
    | cons c cs => exact .ok (some c.lexeme)
  exact hpeek.bind hf

theorem tracks_here {f g : Pos → ParseM β} (hf : ∀ pos, Tracks k (f pos) (g pos)) :
    Tracks k (here >>= f) (here >>= g) := by
  have hhere : Tracks k here here := by
    refine ⟨fun ts => ?_, fun c t x y _ => .inr ⟨c, Nat.le_refl _, ?_⟩⟩
    · cases ts <;> exact Nat.le_refl _
    · cases c with
      | nil => exact .ok t.extent.start
      | cons c cs => exact .ok c.extent.start
  exact hhere.bind hf

theorem tracks_nextIs {f g : Bool → ParseM β} {l : Lexeme} (hf : ∀ is, Tracks k (f is) (g is)) :
    Tracks k (nextIs l >>= f) (nextIs l >>= g) := by
  have hnextIs : Tracks k (nextIs l) (nextIs l) := tracks_peek fun _ => tracks_pure _
  exact hnextIs.bind hf

theorem tracks_next_self : Tracks k next next := by
  refine ⟨fun ts => ?_, fun c t x y _ => ?_⟩
  · cases ts with
    | nil => exact Nat.le_refl _
    | cons t ts => exact Nat.le_succ _
  · cases c with
    | nil => exact .inl (Nat.le_refl _)
    | cons c cs => exact .inr ⟨cs, Nat.le_succ _, .ok c⟩

theorem takes_next : Takes next := by
  intro ts t rest h
  cases ts with
  | nil => cases h
  | cons t ts =>
    cases h
    exact Nat.lt_succ_self _

theorem tracks_next {f g : Token → ParseM β} (hf : ∀ t, Tracks (k - 1) (f t) (g t)) :
    Tracks k (next >>= f) (next >>= g) := tracks_next_self.bind_takes takes_next hf

theorem tracks_expect {f g : Token → ParseM β} {l : Lexeme}
    (hf : ∀ t, Tracks (k - 1) (f t) (g t)) : Tracks k (expect l >>= f) (expect l >>= g) := by
  have hexpect : Tracks k (expect l) (expect l) := by
    refine tracks_nextIs fun is => ?_
    cases is with
    | true => exact tracks_next_self
    | false => exact tracks_unexpected
  refine hexpect.bind_takes (fun ts t rest h => ?_) hf
  by_cases hfirst : first ts none = some l
  · cases ts with
    | nil => cases hfirst
    | cons t ts =>
      rw [expect_of_eq (Option.some.inj hfirst)] at h
      cases h
      exact Nat.lt_succ_self _
  · rw [expect_of_ne hfirst] at h
    cases h

theorem tracks_mark {f g : Token → ParseM β} {m : Mark} (hf : ∀ t, Tracks (k - 1) (f t) (g t)) :
    Tracks k (mark m >>= f) (mark m >>= g) := tracks_expect hf

theorem tracks_keyword {f g : Token → ParseM β} {w : Keyword}
    (hf : ∀ t, Tracks (k - 1) (f t) (g t)) : Tracks k (keyword w >>= f) (keyword w >>= g) :=
  tracks_expect hf

theorem accept_bind (l : Lexeme) (f : Bool → ParseM β) : (accept l >>= f) =
    nextIs l >>= fun is => if is = true then next >>= fun _ => f true else f false := by
  funext ts
  show (accept l ts >>= fun r => f r.1 r.2) = (nextIs l ts >>= fun r => _)
  by_cases hfirst : first ts none = some l
  · cases ts with
    | nil => cases hfirst
    | cons t ts =>
      rw [accept_of_eq (Option.some.inj hfirst), nextIs_eq, decide_eq_true hfirst]
      rfl
  · rw [accept_of_ne hfirst, nextIs_eq, decide_eq_false hfirst]
    rfl

theorem tracks_accept {f g : Bool → ParseM β} {l : Lexeme}
    (htrue : Tracks (k - 1) (f true) (g true)) (hfalse : Tracks k (f false) (g false)) :
    Tracks k (accept l >>= f) (accept l >>= g) := by
  rw [accept_bind, accept_bind]
  refine tracks_nextIs fun is => ?_
  cases is with
  | true => exact tracks_next fun _ => htrue
  | false => exact hfalse

theorem tracks_name : Tracks k name name := by
  refine tracks_peek fun next => ?_
  split
  · exact tracks_next fun _ => tracks_pure _
  · exact tracks_unexpected

theorem tracks_name_bind {f g : String → ParseM β} (hf : ∀ text, Tracks (k - 1) (f text) (g text)) :
    Tracks k (name >>= f) (name >>= g) := by
  refine tracks_name.bind_takes (parses_name.takes ?_) hf
  rintro _ _ ⟨_⟩
  exact List.cons_ne_nil _ _

theorem tracks_region : Tracks k region region := by
  refine tracks_peek fun next => ?_
  split
  · exact tracks_next fun _ => tracks_pure _
  · exact tracks_unexpected

end Rules

/-! ## Lists -/

section Lists

variable {k n m : Nat} {item item' : ParseM α}

theorem tracks_moreAfterComma (hitem : Tracks k item item') (hk : k ≤ n) (hn : n ≤ m) :
    Tracks k (moreAfterComma item n) (moreAfterComma item' m) := by
  induction n generalizing k m with
  | zero => exact tracks_exhausted hk _
  | succ n ih =>
    obtain ⟨m, rfl⟩ : ∃ j, m = j + 1 := ⟨m - 1, by omega⟩
    -- the comma costs a round, but it is also one token less before `t`
    have hitem' := hitem.mono (Nat.sub_le k 1)
    refine tracks_accept (hitem'.bind fun a => ?_) (tracks_pure _)
    exact (ih hitem' (by omega) (by omega)).bind_pure

theorem tracks_separated (hitem : Tracks k item item') (hk : k ≤ n) (hn : n ≤ m) :
    Tracks k (separated n item) (separated m item') :=
  hitem.bind fun _ => (tracks_moreAfterComma hitem hk hn).bind_pure

theorem tracks_parenthesised (hitem : Tracks k item item') (hk : k ≤ n) (hn : n ≤ m) :
    Tracks k (parenthesised n item) (parenthesised m item') := by
  refine tracks_mark fun o => tracks_accept (tracks_pure _) ?_
  refine Tracks.bind ?_ fun as => tracks_mark fun c => tracks_pure _
  exact (tracks_separated hitem hk hn).mono (Nat.sub_le k 1)

end Lists

/-! ## Places and operands -/

section

variable {k n m : Nat} (hk : k ≤ n) (hn : n ≤ m)

theorem tracks_index : Tracks k index index := by
  refine tracks_peek fun next => ?_
  split
  · exact tracks_next fun _ => tracks_pure _
  · exact tracks_next fun _ => tracks_pure _
  · exact tracks_unexpected

include hk hn

theorem tracks_projections (p : Place) : Tracks k (projections p n) (projections p m) := by
  induction n generalizing k m p with
  | zero => exact tracks_exhausted hk _
  | succ n ih =>
    obtain ⟨m, rfl⟩ : ∃ j, m = j + 1 := ⟨m - 1, by omega⟩
    refine tracks_peek fun next => ?_
    split
    · exact tracks_next fun d => tracks_name_bind fun field => ih (by omega) (by omega) _
    · exact tracks_next fun o => tracks_index.bind fun step => tracks_mark fun c =>
        ih (by omega) (by omega) _
    · exact tracks_pure _

theorem tracks_place : Tracks k (place n) (place m) := by
  induction n generalizing k m with
  | zero => exact tracks_exhausted hk _
  | succ n ih =>
    obtain ⟨m, rfl⟩ : ∃ j, m = j + 1 := ⟨m - 1, by omega⟩
    refine tracks_peek fun next => ?_
    split
    · exact tracks_next fun s => (ih (by omega) (by omega)).bind_pure
    · exact tracks_next fun o => (ih (by omega) (by omega)).bind fun p => tracks_mark fun c =>
        tracks_projections (by omega) (by omega) p
    · exact tracks_next fun b => tracks_projections (by omega) (by omega) _
    · exact tracks_unexpected

theorem tracks_operand : Tracks k (operand n) (operand m) := by
  refine tracks_peek fun next => ?_
  split
  · exact tracks_next fun w => (tracks_place (by omega) hn).bind_pure
  · exact tracks_next fun w => (tracks_place (by omega) hn).bind_pure
  · exact tracks_next fun w => tracks_pure _
  · exact (tracks_place hk hn).bind_pure

/-! ## Types and bounds -/

/-- An argument that is a type has one round less. -/
theorem tracks_types : Tracks k (typeExpr n) (typeExpr m) ∧
    ∀ j ≤ n - 1, Tracks j (typeArgument n) (typeArgument m) := by
  induction n generalizing k m with
  | zero =>
    rw [typeExpr, typeArgument]
    exact ⟨tracks_exhausted hk _, fun j hj => tracks_exhausted hj _⟩
  | succ n ih =>
    obtain ⟨m, rfl⟩ : ∃ j, m = j + 1 := ⟨m - 1, by omega⟩
    have htype : ∀ {j}, j ≤ n → Tracks j (typeExpr n) (typeExpr m) :=
      fun hj => (ih hj (by omega)).1
    refine ⟨?_, fun j hj => ?_⟩
    · rw [typeExpr, typeExpr]
      refine tracks_peek fun next => ?_
      split
      · refine tracks_next fun a => tracks_region.bind fun r => tracks_accept ?_ ?_
        · exact (htype (by omega)).bind_pure
        · exact (htype (by omega)).bind_pure
      · refine tracks_next fun t => tracks_accept ?_ (tracks_pure _)
        -- two tokens have been read, and two rounds are gone
        have harg := (ih (Nat.le_refl n) (by omega : n ≤ m)).2 (k - 1 - 1) (by omega)
        exact (tracks_separated harg (by omega) (by omega)).bind fun args =>
          tracks_mark fun g => tracks_pure _
      · exact tracks_unexpected
    · rw [typeArgument, typeArgument]
      refine tracks_peek fun next => ?_
      split
      · exact tracks_next fun r => tracks_pure _
      · exact htype (by omega)

theorem tracks_type : Tracks k (typeExpr n) (typeExpr m) := (tracks_types hk hn).1

omit hk hn in
theorem tracks_bound : Tracks k bound bound :=
  tracks_region.bind fun _ => tracks_mark fun _ => tracks_region.bind_pure

theorem tracks_boundsClause : Tracks k (boundsClause n) (boundsClause m) :=
  tracks_accept (tracks_separated tracks_bound (by omega) hn) (tracks_pure _)

/-! ## Statements -/

theorem tracks_assignment (dest : Place) : Tracks k (assignment n dest) (assignment m dest) := by
  refine tracks_peek fun next => ?_
  split
  · refine tracks_next fun a => tracks_accept ?_ ?_
    · exact (tracks_place (by omega) hn).bind_pure
    · exact (tracks_place (by omega) hn).bind_pure
  · exact tracks_next fun w => tracks_name_bind fun func =>
      (tracks_parenthesised (tracks_operand (by omega) hn) (by omega) hn).bind fun operands =>
        (tracks_boundsClause (by omega) hn).bind_pure
  · exact (tracks_operand hk hn).bind_pure

omit hk hn in
theorem tracks_parenthesisedName : Tracks k parenthesisedName parenthesisedName :=
  tracks_mark fun _ => tracks_name_bind fun _ => tracks_mark fun _ => tracks_pure _

theorem tracks_statementShape? : Tracks k (statementShape? n) (statementShape? m) := by
  refine tracks_peek fun next => ?_
  have hplace : Tracks k (do
      let dest ← place n
      let _ ← mark .equal
      return some (← assignment n dest)) (do
      let dest ← place m
      let _ ← mark .equal
      return some (← assignment m dest)) :=
    (tracks_place hk hn).bind fun dest => tracks_mark fun e =>
      (tracks_assignment (by omega) hn dest).bind_pure
  split
  · exact tracks_next fun w =>
      (tracks_parenthesised (tracks_operand (by omega) hn) (by omega) hn).bind_pure
  · exact tracks_next fun w => tracks_parenthesisedName.bind_pure
  · exact tracks_next fun w => tracks_parenthesisedName.bind_pure
  · exact tracks_next fun w => tracks_pure _
  · exact tracks_bound.bind_pure
  · exact hplace
  · exact hplace
  · exact hplace
  · exact tracks_pure _

theorem tracks_statements {r r' : Nat} (hr : k ≤ r) (hr' : r ≤ r') :
    Tracks k (statements n r) (statements m r') := by
  induction r generalizing k r' with
  | zero => exact tracks_exhausted hr _
  | succ r ih =>
    obtain ⟨r', rfl⟩ : ∃ j, r' = j + 1 := ⟨r' - 1, by omega⟩
    refine tracks_here fun start => (tracks_statementShape? hk hn).bind fun shape? => ?_
    cases shape? with
    | none => exact tracks_pure _
    | some shape =>
      -- the semicolon pays for the round, whatever the statement was
      exact tracks_mark fun close => (ih (by omega) (by omega) (by omega)).bind_pure

theorem tracks_terminatorShape : Tracks k (terminatorShape n) (terminatorShape m) := by
  refine tracks_peek fun next => ?_
  split
  · exact tracks_next fun w => tracks_name.bind_pure
  · refine tracks_next fun w => tracks_nextIs fun is => ?_
    have htargets : ∀ cond : Option Operand, Tracks (k - 1) (do
        let _ ← mark .arrow
        return TerminatorShape.branch cond (← separated n name)) (do
        let _ ← mark .arrow
        return TerminatorShape.branch cond (← separated m name)) :=
      fun cond => tracks_mark fun a => (tracks_separated tracks_name (by omega) hn).bind_pure
    cases is with
    | true => exact htargets none
    | false => exact (tracks_operand (by omega) hn).map.bind htargets
  · exact tracks_next fun w => tracks_pure _
  · exact tracks_next fun w => tracks_pure _
  · exact tracks_unexpected

theorem tracks_terminator : Tracks k (terminator n) (terminator m) :=
  tracks_here fun _ => (tracks_terminatorShape hk hn).bind fun _ => tracks_mark fun _ =>
    tracks_pure _

/-! ## Items and functions -/

theorem tracks_declaration : Tracks k (declaration n) (declaration m) := by
  refine tracks_here fun start => tracks_keyword fun w => tracks_name_bind fun text =>
    tracks_mark fun c => (tracks_type (by omega) hn).bind fun ty => ?_
  have hclose : ∀ {j} (drops : Option (List RegionName)), Tracks j (do
      let close ← mark .semicolon
      return (⟨text, ty, drops, ⟨start, close.extent.stop⟩⟩ : LetDecl)) (do
      let close ← mark .semicolon
      return (⟨text, ty, drops, ⟨start, close.extent.stop⟩⟩ : LetDecl)) :=
    fun drops => tracks_mark fun close => tracks_pure _
  refine tracks_accept ?_ (hclose none)
  exact (tracks_parenthesised tracks_region (by omega) hn).map.bind hclose

theorem tracks_block : Tracks k (block n) (block m) :=
  tracks_here fun _ => tracks_name_bind fun _ => tracks_mark fun _ => tracks_mark fun _ =>
    (tracks_statements (by omega) hn (by omega) hn).bind fun _ =>
      (tracks_terminator (by omega) hn).bind fun _ => tracks_mark fun _ => tracks_pure _

theorem tracks_items {r r' : Nat} (hr : k ≤ r) (hr' : r ≤ r') :
    Tracks k (items n r) (items m r') := by
  induction r generalizing k r' with
  | zero => exact tracks_exhausted hr _
  | succ r ih =>
    obtain ⟨r', rfl⟩ : ∃ j, r' = j + 1 := ⟨r' - 1, by omega⟩
    refine tracks_peek fun next => ?_
    -- an item pays for its round, because it is not empty
    split
    · refine (tracks_declaration hk hn).bind_takes ((parses_declaration n).takes ?_) fun d => ?_
      · rintro _ _ ⟨_, ⟨_⟩⟩
        exact List.cons_ne_nil _ _
      · exact (ih (by omega) (by omega) (by omega)).bind_pure
    · refine (tracks_block hk hn).bind_takes ((parses_block n).takes ?_) fun b => ?_
      · rintro _ _ ⟨_, ⟨_⟩⟩
        exact List.cons_ne_nil _ _
      · exact (ih (by omega) (by omega) (by omega)).bind_pure
    · exact tracks_pure _

theorem tracks_param : Tracks k (param n) (param m) :=
  .located (tracks_name_bind fun _ => tracks_mark fun _ => (tracks_type (by omega) hn).bind_pure)

theorem tracks_function : Tracks k (function n) (function m) :=
  tracks_here fun _ => tracks_keyword fun _ => tracks_name_bind fun _ =>
    (tracks_parenthesised (tracks_param (by omega) hn) (by omega) hn).bind fun _ =>
      (tracks_boundsClause (by omega) hn).bind_pure.located.bind fun _ => tracks_mark fun _ =>
        (tracks_items (by omega) hn (by omega) hn).bind fun _ => tracks_mark fun _ =>
          tracks_pure _

/-- **Programs** are read with one token of lookahead, whatever the bounds. -/
theorem tracks_functions {r r' : Nat} (hr : k ≤ r) (hr' : r ≤ r') :
    Tracks k (functions n r) (functions m r') := by
  induction r generalizing k r' with
  | zero => exact tracks_exhausted hr _
  | succ r ih =>
    obtain ⟨r', rfl⟩ : ∃ j, r' = j + 1 := ⟨r' - 1, by omega⟩
    refine tracks_peek fun next => ?_
    split
    · exact tracks_pure _
    · refine (tracks_function hk hn).bind_takes ((parses_function n).takes ?_) fun f => ?_
      · rintro _ _ ⟨_, ⟨_⟩⟩
        exact List.cons_ne_nil _ _
      · exact (ih (by omega) (by omega) (by omega)).bind_pure

end

end BorrowFlow.Source
