import BorrowFlow.Proofs.Builder.Outcome

/-! # Requests

    What can be asked of a builder is an `Operation`, and a run is a list of requests, each of
    them met or refused (`Builder.after`).

    The operations are gone through once, in `Request.effect`.  A request that is met makes
    entries in the tables, opens a block, appends the statement that it derives, issues a loan
    with it, or ends a block (`Operation.Does`).  One that is refused leaves regions that it has
    taken in, or the name of a loan, or nothing (`Operation.Leaves`).  What is to hold of every
    builder has to be shown of these few cases only.
-/

namespace BorrowFlow

open Relation (ReflTransGen)
open BuildM

/-! ## Operations -/

/-- What can be asked of a builder. -/
inductive Operation where
  | declareRegion (name : String) (universal : Bool)
  | findRegion (name : String)
  | declare (name : String) (ty : Ty) (drops : Option (List Region)) (param : Bool)
  | findVariable (name : String)
  | bound (sub sup : Region)
  | typeOf (p : Place)
  | takeLoanName
  | openBlock (name : String)
  | borrow (block : String) (dest place : Place) (mutable : Bool)
  | assign (block : String) (dest : Place) (src : Operand)
  | call (block : String) (dest : Place) (func : String) (operands : List Operand)
      (bounds : List RegionEdge)
  | use (block : String) (operands : List Operand)
  | drop (block var : String)
  | storageDead (block var : String)
  | outlives (block : String) (sub sup : Region)
  | nop (block : String)
  | goto (block target : String)
  | branch (block : String) (targets : List String) (cond : Option Operand)
  | ret (block : String)
  | unreachable (block : String)
  | finish

/-- An operation, and the place in a source that it stems from. -/
structure Request where
  operation : Operation
  span : Option Span := none

open Builder in
/-- The step of a builder that answers a request. -/
def Request.step (q : Request) : BuildM Unit := do
  match q.operation with
  | .declareRegion name universal => let _ ← declareRegion name universal q.span
  | .findRegion name => let _ ← BuildM.derive q.span fun b => b.regionNamed name
  | .declare name ty drops param => let _ ← declare name ty drops param q.span
  | .findVariable name => let _ ← BuildM.derive q.span fun b => b.variableNamed name
  | .bound sub sup => bound sub sup q.span
  | .typeOf p => let _ ← BuildM.derive q.span fun b => b.placeType p
  | .takeLoanName => let _ ← nextLoanName
  | .openBlock name => openBlock name q.span
  | .borrow block dest place mutable => let _ ← borrow block dest place mutable q.span
  | .assign block dest src => let _ ← assign block dest src q.span
  | .call block dest func operands bounds => let _ ← call block dest func operands bounds q.span
  | .use block operands => let _ ← use block operands q.span
  | .drop block var => let _ ← drop block var q.span
  | .storageDead block var => let _ ← storageDead block var q.span
  | .outlives block sub sup => let _ ← outlives block sub sup q.span
  | .nop block => let _ ← nop block q.span
  | .goto block target => let _ ← goto block target q.span
  | .branch block targets cond => let _ ← branch block targets cond q.span
  | .ret block => let _ ← ret block q.span
  | .unreachable block => let _ ← unreachable block q.span
  -- a body is a copy of what the builder holds, which goes on as it is
  | .finish => pure ()

namespace Builder

/-- The builder after a list of requests; one that fails is passed over. -/
def after (b : Builder) : List Request → Builder
  | [] => b
  | q :: qs => (q.step.perform b).2.after qs

theorem after_append (b : Builder) (qs rs : List Request) :
    b.after (qs ++ rs) = (b.after qs).after rs := by
  induction qs generalizing b with
  | nil => rfl
  | cons q qs ih => exact ih _

end Builder

/-! ## What a request derives -/

/-- **The statement that an operation leaves** when it is met in the builder `b`: its own
    statement, or the terminator that it ends a block with. -/
inductive Operation.Derives (span : Option Span) (b : Builder) : Operation → Statement → Prop where
  | borrow {block : String} {dest place : Place} {mutable : Bool} {target : Region}
      {referent : Ty} {s : Statement}
      (htarget : b.borrowTarget dest mutable = .ok (target, referent))
      (h : b.borrowStatement (b.nextLoan block place mutable) dest target referent span = .ok s) :
      Derives span b (.borrow block dest place mutable) s
  | assign {block : String} {dest : Place} {src : Operand} {s : Statement} {b' : Builder}
      (h : Gives (Builder.assign block dest src span) b s b') :
      Derives span b (.assign block dest src) s
  | call {block : String} {dest : Place} {func : String} {operands : List Operand}
      {bounds : List RegionEdge} {s : Statement} {b' : Builder}
      (h : Gives (Builder.call block dest func operands bounds span) b s b') :
      Derives span b (.call block dest func operands bounds) s
  | use {block : String} {operands : List Operand} {s : Statement} {b' : Builder}
      (h : Gives (Builder.use block operands span) b s b') : Derives span b (.use block operands) s
  | drop {block var : String} {s : Statement} {b' : Builder}
      (h : Gives (Builder.drop block var span) b s b') : Derives span b (.drop block var) s
  | storageDead {block var : String} {s : Statement} {b' : Builder}
      (h : Gives (Builder.storageDead block var span) b s b') :
      Derives span b (.storageDead block var) s
  | outlives {block : String} {sub sup : Region} {s : Statement} {b' : Builder}
      (h : Gives (Builder.outlives block sub sup span) b s b') :
      Derives span b (.outlives block sub sup) s
  | nop {block : String} {s : Statement} {b' : Builder}
      (h : Gives (Builder.nop block span) b s b') : Derives span b (.nop block) s
  | goto {block target : String} {t : Terminator} {b' : Builder}
      (h : Gives (Builder.goto block target span) b t b') :
      Derives span b (.goto block target) t.toStatement
  | branch {block : String} {targets : List String} {cond : Option Operand} {t : Terminator}
      {b' : Builder} (h : Gives (Builder.branch block targets cond span) b t b') :
      Derives span b (.branch block targets cond) t.toStatement
  | ret {block : String} {t : Terminator} {b' : Builder}
      (h : Gives (Builder.ret block span) b t b') : Derives span b (.ret block) t.toStatement
  | unreachable {block : String} {t : Terminator} {b' : Builder}
      (h : Gives (Builder.unreachable block span) b t b') :
      Derives span b (.unreachable block) t.toStatement

namespace Operation

/-- What the statement of an operation is called, if the operation leaves one. -/
def kind? : Operation → Option String
  | .borrow .. => some "borrow"
  | .assign .. => some "assign"
  | .call .. => some "call"
  | .use .. => some "use"
  | .drop .. => some "drop"
  | .storageDead .. => some "storage_dead"
  | .outlives .. => some "outlives"
  | .nop _ => some "nop"
  | .goto .. => some "goto"
  | .branch .. => some "branch"
  | .ret _ => some "return"
  | .unreachable _ => some "unreachable"
  | _ => none

open Builder in
/-- **A statement is called after its operation** and stands where it was asked to, and only a
    borrow issues a loan. -/
theorem Derives.heading {op : Operation} {span : Option Span} {b : Builder} {s : Statement}
    (h : op.Derives span b s) : op.kind? = some s.kind ∧ s.span = span.getD {} ∧
      (s.kind ≠ "borrow" → s.loan = none) := by
  cases h with
  | borrow _ h =>
    simp only [borrowStatement, bind_eq_ok, pure_eq_ok] at h
    obtain ⟨_, _, _, _, _, _, _, _, rfl⟩ := h
    exact ⟨rfl, rfl, fun hne => absurd rfl hne⟩
  | assign h =>
    have hs := (gives_append.mp h).1
    simp only [bind_eq_ok, pure_eq_ok] at hs
    obtain ⟨_, _, _, _, _, _, rfl⟩ := hs
    exact ⟨rfl, rfl, fun _ => rfl⟩
  | call h =>
    have hs := (gives_append.mp h).1
    simp only [bind_eq_ok, pure_eq_ok] at hs
    obtain ⟨_, _, _, _, _, _, rfl⟩ := hs
    exact ⟨rfl, rfl, fun _ => rfl⟩
  | use h =>
    have hs := (gives_append.mp h).1
    simp only [bind_eq_ok, pure_eq_ok] at hs
    obtain ⟨_, _, rfl⟩ := hs
    exact ⟨rfl, rfl, fun _ => rfl⟩
  | drop h =>
    have hs := (gives_append.mp h).1
    simp only [bind_eq_ok, pure_eq_ok] at hs
    obtain ⟨_, _, rfl⟩ := hs
    exact ⟨rfl, rfl, fun _ => rfl⟩
  | storageDead h =>
    have hs := (gives_append.mp h).1
    simp only [bind_eq_ok, pure_eq_ok] at hs
    obtain ⟨_, _, rfl⟩ := hs
    exact ⟨rfl, rfl, fun _ => rfl⟩
  | outlives h =>
    have hs := (gives_append.mp h).1
    simp only [bind_eq_ok, pure_eq_ok] at hs
    obtain ⟨_, _, _, _, rfl⟩ := hs
    exact ⟨rfl, rfl, fun _ => rfl⟩
  | nop h =>
    cases (gives_append.mp h).1
    exact ⟨rfl, rfl, fun _ => rfl⟩
  | goto h =>
    cases (gives_terminate.mp h).1
    exact ⟨rfl, rfl, fun _ => rfl⟩
  | branch h =>
    have ht := (gives_terminate.mp h).1
    simp only [bind_eq_ok, pure_eq_ok] at ht
    obtain ⟨_, _, rfl⟩ := ht
    exact ⟨rfl, rfl, fun _ => rfl⟩
  | ret h =>
    cases (gives_terminate.mp h).1
    exact ⟨rfl, rfl, fun _ => rfl⟩
  | unreachable h =>
    cases (gives_terminate.mp h).1
    exact ⟨rfl, rfl, fun _ => rfl⟩

/-- **A borrow issues a loan** of its place, under the next name and where it is going to stand,
    and overwrites its destination. -/
theorem Derives.exists_issue {block : String} {dest place : Place} {mutable : Bool}
    {span : Option Span} {b : Builder} {s : Statement}
    (h : (Operation.borrow block dest place mutable).Derives span b s) :
    ∃ issue, s.loan = some issue ∧ issue.loan = b.nextLoan block place mutable ∧
      s.assigned = some dest := by
  cases h with
  | borrow _ h =>
    simp only [Builder.borrowStatement, bind_eq_ok, pure_eq_ok] at h
    obtain ⟨_, _, _, _, _, _, _, _, rfl⟩ := h
    exact ⟨_, rfl, rfl, rfl⟩

theorem Derives.loan_eq_none {op : Operation} {span : Option Span} {b : Builder} {s : Statement}
    (h : op.Derives span b s) (hop : op.kind? ≠ some "borrow") : s.loan = none := by
  obtain ⟨hkind, _, hloan⟩ := h.heading
  exact hloan fun hborrow => hop (hborrow ▸ hkind)

end Operation

/-! ## What a request does -/

namespace Operation

/-- The block that an operation appends a statement to. -/
def appendsTo? : Operation → Option String
  | .borrow block .. => some block
  | .assign block .. => some block
  | .call block .. => some block
  | .use block _ => some block
  | .drop block _ => some block
  | .storageDead block _ => some block
  | .outlives block .. => some block
  | .nop block => some block
  | _ => none

/-- The block that an operation ends. -/
def ends? : Operation → Option String
  | .goto block _ => some block
  | .branch block .. => some block
  | .ret block => some block
  | .unreachable block => some block
  | _ => none

/-- The regions that an operation looks up by their names only. -/
def namedRegions : Operation → List Region
  | .call _ _ _ _ bounds => bounds.flatMap fun e => [e.1, e.2]
  | .outlives _ sub sup => [sub, sup]
  | _ => []

/-- The operations that take in regions one by one. -/
def takesRegions : Operation → Bool
  | .declare .. => true
  | .bound .. => true
  | _ => false

/-- The operations that take the name of a loan before they know what to append. -/
def takesLoanName : Operation → Bool
  | .borrow .. => true
  | _ => false

/-- **What an operation does** when it is met in the builder `b`. -/
inductive Does (span : Option Span) (b : Builder) : Operation → Builder → Prop where
  /-- It makes entries in the tables, or nothing at all. -/
  | enters {op : Operation} {b' : Builder} (h : ReflTransGen Builder.Entry b b') :
      Does span b op b'
  /-- It opens a block. -/
  | opens {name : String} (hnew : b.block? name = none) :
      Does span b (.openBlock name) { b with blocks := b.blocks ++ [⟨name, [], none⟩] }
  /-- It appends the statement that it derives. -/
  | appends {op : Operation} {block : String} {s : Statement} (hop : op.appendsTo? = some block)
      (hopen : b.IsOpen block) (hs : op.Derives span b s) (hloan : s.loan = none) :
      Does span b op (b.updateBlock block (·.push s))
  /-- It takes the name of a loan, and appends the statement that issues the loan. -/
  | lends {block : String} {dest place : Place} {mutable : Bool} {s : Statement}
      (hopen : b.IsOpen block) (hs : (borrow block dest place mutable).Derives span b s) :
      Does span b (.borrow block dest place mutable)
        (Builder.updateBlock { b with loanCount := b.loanCount + 1 } block (·.push s))
  /-- It ends a block with the terminator that it derives. -/
  | ends {op : Operation} {block : String} {t : Terminator} (hop : op.ends? = some block)
      (hopen : b.IsOpen block) (ht : op.Derives span b t.toStatement) :
      Does span b op (b.updateBlock block (·.close t))

/-- **What is left of an operation** that is refused in the builder `b`. -/
inductive Leaves (b : Builder) : Operation → Builder → Prop where
  | nothing (op : Operation) : Leaves b op b
  | regions {op : Operation} {b' : Builder} (hop : op.takesRegions = true) (h : b.Adopts b') :
      Leaves b op b'
  | loanName {op : Operation} (hop : op.takesLoanName = true) :
      Leaves b op { b with loanCount := b.loanCount + 1 }

namespace Leaves

variable {op : Operation} {b b' : Builder}

theorem of_eq (h : b = b') : op.Leaves b b' := h ▸ nothing op

/-- Only tables are touched. -/
theorem entries (h : op.Leaves b b') : ReflTransGen Builder.Entry b b' := by
  cases h with
  | nothing => exact .refl
  | regions _ h => exact h.entries
  | loanName => exact .single ⟨.loanName, rfl⟩

end Leaves

end Operation

namespace Request

open Builder

variable {α : Type} {q : Request} {b : Builder}

/-- **What comes of a request** in the builder `b`, whether it is met or refused. -/
structure Effect (q : Request) (b : Builder) : Prop where
  met : ∀ b', Gives q.step b () b' → q.operation.Does q.span b b'
  refused : ∀ e b', Fails q.step b e b' → q.operation.Leaves b b'

namespace Effect

theorem of_step {step : BuildM α} (hstep : q.step = do let _ ← step)
    (hmet : ∀ a b', Gives step b a b' → q.operation.Does q.span b b')
    (hrefused : ∀ e b', Fails step b e b' → q.operation.Leaves b b') : q.Effect b where
  met := by
    intro b' h
    rw [hstep] at h
    obtain ⟨a, h⟩ := gives_ignored.mp h
    exact hmet a b' h
  refused := by
    intro e b' h
    rw [hstep] at h
    exact hrefused e b' (fails_ignored.mp h)

theorem of_entries {step : BuildM α} {blame : BuildError → Prop} {post : α → Builder → Prop}
    (hstep : q.step = do let _ ← step) (h : Meets Entry b step blame post)
    (hrefused : ∀ e b', Fails step b e b' → q.operation.Leaves b b') : q.Effect b :=
  of_step hstep (fun _ _ hgives => .enters (h.changes_of_gives hgives)) hrefused

/-- A question changes nothing. -/
theorem of_question {ask : Builder → Except BuildFault α}
    (hstep : q.step = do let _ ← derive q.span ask) : q.Effect b := by
  have hask : Meets Entry b (derive q.span ask) (fun e => e.span = q.span) fun _ _ => True :=
    meets_derive fun _ _ => trivial
  exact of_entries hstep hask fun _ _ h => .of_eq (blame_of_fails_derive h).2

theorem of_append {block : String} {ask : Builder → Except BuildFault Statement}
    (hstep : q.step = do let _ ← append block q.span ask)
    (hop : q.operation.appendsTo? = some block) (hkind : q.operation.kind? ≠ some "borrow")
    (h : ∀ s b', Gives (append block q.span ask) b s b' → q.operation.Derives q.span b s) :
    q.Effect b := by
  apply of_step hstep
  · intro s b' hgives
    have hs := h s b' hgives
    obtain ⟨_, hopen, rfl⟩ := gives_append.mp hgives
    exact .appends hop hopen hs (hs.loan_eq_none hkind)
  · intro e b' hfails
    exact .of_eq (blame_of_fails_append hfails).2

theorem of_terminate {block : String} {ask : Builder → Except BuildFault Terminator}
    (hstep : q.step = do let _ ← terminate block q.span ask)
    (hop : q.operation.ends? = some block)
    (h : ∀ t b', Gives (terminate block q.span ask) b t b' →
      q.operation.Derives q.span b t.toStatement) : q.Effect b := by
  apply of_step hstep
  · intro t b' hgives
    have ht := h t b' hgives
    obtain ⟨_, hopen, rfl⟩ := gives_terminate.mp hgives
    exact .ends hop hopen ht
  · intro e b' hfails
    exact .of_eq (blame_of_fails_terminate hfails).2

end Effect

/-- **The effect of every request.** -/
theorem effect (q : Request) (b : Builder) : q.Effect b := by
  obtain ⟨op, span⟩ := q
  cases op with
  | declareRegion name universal =>
    exact .of_entries rfl (meets_declareRegion name universal span) fun _ _ h =>
      .of_eq (eq_of_fails_declareRegion h)
  | findRegion name => exact .of_question rfl
  | declare name ty drops param =>
    exact .of_entries rfl (meets_declare name ty drops param span) fun _ _ h =>
      .regions rfl (adopts_of_fails_declare h)
  | findVariable name => exact .of_question rfl
  | bound sub sup =>
    exact .of_entries bind_pure_unit.symm (meets_bound sub sup span) fun _ _ h =>
      .regions rfl (adopts_of_fails_bound h)
  | typeOf p => exact .of_question rfl
  | takeLoanName =>
    -- there is always another name
    exact .of_entries rfl meets_nextLoanName fun e _ h =>
      (meets_nextLoanName.error e (congrArg Prod.fst h)).elim
  | openBlock name =>
    apply Effect.of_step bind_pure_unit.symm
    · intro _ b' h
      obtain ⟨hnew, rfl⟩ := gives_openBlock.mp h
      exact .opens hnew
    · intro e b' h
      exact .of_eq (eq_of_fails_openBlock h)
  | borrow block dest place mutable =>
    apply Effect.of_step rfl
    · intro _ b' h
      obtain ⟨target, referent, s, htarget, rfl, hs, hopen, rfl⟩ := gives_borrow.mp h
      exact .lends hopen (.borrow htarget hs)
    · intro e b' h
      rcases (blame_of_fails_borrow h).2 with rfl | rfl
      · exact .nothing _
      · exact .loanName rfl
  | assign block dest src => exact .of_append rfl rfl (by simp [Operation.kind?]) fun _ _ => .assign
  | call block dest func operands bounds =>
    exact .of_append rfl rfl (by simp [Operation.kind?]) fun _ _ => .call
  | use block operands => exact .of_append rfl rfl (by simp [Operation.kind?]) fun _ _ => .use
  | drop block var => exact .of_append rfl rfl (by simp [Operation.kind?]) fun _ _ => .drop
  | storageDead block var =>
    exact .of_append rfl rfl (by simp [Operation.kind?]) fun _ _ => .storageDead
  | outlives block sub sup =>
    exact .of_append rfl rfl (by simp [Operation.kind?]) fun _ _ => .outlives
  | nop block => exact .of_append rfl rfl (by simp [Operation.kind?]) fun _ _ => .nop
  | goto block target => exact .of_terminate rfl rfl fun _ _ => .goto
  | branch block targets cond => exact .of_terminate rfl rfl fun _ _ => .branch
  | ret block => exact .of_terminate rfl rfl fun _ _ => .ret
  | unreachable block => exact .of_terminate rfl rfl fun _ _ => .unreachable
  | finish =>
    exact .of_entries bind_pure_unit.symm (meets_pure trivial : Meets Entry b (pure ()) (fun _ => True)
      fun _ _ => True) fun _ _ h => absurd h not_fails_pure

/-- **One step of a run**: refused or not, a request does one of these things. -/
theorem does_step (q : Request) (b : Builder) :
    q.operation.Does q.span b (q.step.perform b).2 := by
  rcases gives_or_fails q.step b with ⟨_, hgives⟩ | ⟨e, hfails⟩
  · exact (q.effect b).met _ hgives
  · exact .enters ((q.effect b).refused e _ hfails).entries

end Request

end BorrowFlow
