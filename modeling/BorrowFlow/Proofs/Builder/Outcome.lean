import BorrowFlow.Proofs.Builder.Step
import BorrowFlow.Proofs.Except

/-! # Steps that succeed

    `BuildM.Gives` says that a step succeeds, with which answer, and what it leaves
    behind.  Each way of putting steps together has its equivalence here, and so has
    each operation of a builder: it succeeds under these conditions and does just
    this.

    Most operations ask all they have to know before they change anything, so that a step
    that fails (`BuildM.Fails`) leaves the builder as it was.  A declaration, a bound and a
    borrow are the exceptions.
-/

namespace BorrowFlow

namespace BuildM

variable {α β : Type} {b b' : Builder}

/-- **The step succeeds** from `b` on with the answer `a` and leaves `b'` behind. -/
def Gives (step : BuildM α) (b : Builder) (a : α) (b' : Builder) : Prop :=
  step.perform b = (.ok a, b')

/-! ## Steps put together -/

@[simp] theorem gives_pure {a a' : α} : Gives (pure a) b a' b' ↔ a = a' ∧ b = b' := by
  show (Except.ok a, b) = (Except.ok a', b') ↔ _
  simp

@[simp] theorem gives_throw {e : BuildError} {a : α} : ¬ Gives (throw e) b a b' := by
  show ¬ (Except.error e, b) = (Except.ok a, b')
  simp

/-- **Two steps in a row** succeed if both do. -/
@[simp] theorem gives_bind {x : BuildM α} {f : α → BuildM β} {c : β} :
    Gives (x >>= f) b c b' ↔ ∃ a m, Gives x b a m ∧ Gives (f a) m c b' := by
  rw [Gives, perform_bind]
  rcases hx : x.perform b with ⟨e | a, m⟩
  · simp [Gives, hx]
  · simp only [Gives, hx, Prod.mk.injEq, Except.ok.injEq]
    constructor
    · intro h
      exact ⟨a, m, ⟨rfl, rfl⟩, h⟩
    · rintro ⟨_, _, ⟨rfl, rfl⟩, h⟩
      exact h

@[simp] theorem gives_map {x : BuildM α} {f : α → β} {c : β} :
    Gives (f <$> x) b c b' ↔ ∃ a, Gives x b a b' ∧ f a = c := by
  rw [map_eq_pure_bind, gives_bind]
  simp only [gives_pure]
  constructor
  · rintro ⟨a, _, hx, rfl, rfl⟩
    exact ⟨a, hx, rfl⟩
  · rintro ⟨a, hx, rfl⟩
    exact ⟨a, b', hx, rfl, rfl⟩

theorem gives_get_bind {f : Builder → BuildM α} {a : α} :
    Gives (get >>= f) b a b' ↔ Gives (f b) b a b' := Iff.rfl

@[simp] theorem gives_set {c : Builder} {u : Unit} : Gives (set c) b u b' ↔ c = b' := by
  show (Except.ok PUnit.unit, c) = (Except.ok u, b') ↔ _
  simp

@[simp] theorem gives_modify {f : Builder → Builder} {u : Unit} :
    Gives (modify f) b u b' ↔ f b = b' := by
  show (Except.ok PUnit.unit, f b) = (Except.ok u, b') ↔ _
  simp

/-- A question is answered, and nothing changes. -/
@[simp] theorem gives_derive {span : Option Span} {ask : Builder → Except BuildFault α} {a : α} :
    Gives (derive span ask) b a b' ↔ ask b = .ok a ∧ b = b' := by
  rw [derive, gives_get_bind]
  cases hask : ask b <;> simp

/-! ## Loops -/

theorem gives_forM_nil {f : α → BuildM Unit} {u : Unit} : Gives ([].forM f) b u b' ↔ b = b' := by
  show Gives (pure ()) b u b' ↔ _
  simp

theorem gives_forM_cons {f : α → BuildM Unit} {a : α} {l : List α} {u : Unit} :
    Gives ((a :: l).forM f) b u b' ↔ ∃ m, Gives (f a) b () m ∧ Gives (l.forM f) m u b' := by
  show Gives (f a >>= fun _ => l.forM f) b u b' ↔ _
  rw [gives_bind]
  exact ⟨fun ⟨_, m, ha, hl⟩ => ⟨m, ha, hl⟩, fun ⟨m, ha, hl⟩ => ⟨(), m, ha, hl⟩⟩

/-- **A loop of questions** is answered if each of them is. -/
theorem gives_mapM_derive {f : α → BuildM β} {Known : α → Prop} {answer : α → β}
    (h : ∀ a x b', Gives (f a) b x b' ↔ Known a ∧ x = answer a ∧ b' = b) {l : List α}
    {xs : List β} :
    Gives (l.mapM f) b xs b' ↔ (∀ a ∈ l, Known a) ∧ xs = l.map answer ∧ b' = b := by
  induction l generalizing xs with
  | nil => simp [eq_comm]
  | cons a l ih =>
    rw [List.mapM_cons]
    simp only [gives_bind, gives_pure, h, List.forall_mem_cons, List.map_cons]
    constructor
    · rintro ⟨_, _, ⟨ha, rfl, rfl⟩, _, _, hloop, rfl, rfl⟩
      obtain ⟨hl, rfl, rfl⟩ := ih.mp hloop
      exact ⟨⟨ha, hl⟩, rfl, rfl⟩
    · rintro ⟨⟨ha, hl⟩, rfl, rfl⟩
      exact ⟨_, _, ⟨ha, rfl, rfl⟩, _, _, ih.mpr ⟨hl, rfl, rfl⟩, rfl, rfl⟩

/-! ## Steps that fail -/

/-- The step fails from `b` on with the error `e` and leaves `b'` behind. -/
def Fails (step : BuildM α) (b : Builder) (e : BuildError) (b' : Builder) : Prop :=
  step.perform b = (.error e, b')

/-- A step succeeds or fails. -/
theorem gives_or_fails (step : BuildM α) (b : Builder) :
    (∃ a, Gives step b a (step.perform b).2) ∨ ∃ e, Fails step b e (step.perform b).2 := by
  rcases hrun : step.perform b with ⟨e | a, b'⟩
  · exact Or.inr ⟨e, hrun⟩
  · exact Or.inl ⟨a, hrun⟩

variable {e : BuildError}

@[simp] theorem not_fails_pure {a : α} : ¬ Fails (pure a) b e b' := by
  show ¬ (Except.ok a, b) = (Except.error e, b')
  simp

@[simp] theorem fails_throw {e' : BuildError} :
    Fails (throw e : BuildM α) b e' b' ↔ e = e' ∧ b = b' := by
  show (Except.error e, b) = (Except.error e', b') ↔ _
  simp

@[simp] theorem not_fails_modify {f : Builder → Builder} : ¬ Fails (modify f) b e b' := by
  show ¬ (Except.ok PUnit.unit, f b) = (Except.error e, b')
  simp

/-- Two steps in a row fail if the first does, or the second after it. -/
theorem fails_bind {x : BuildM α} {f : α → BuildM β} :
    Fails (x >>= f) b e b' ↔ Fails x b e b' ∨ ∃ a m, Gives x b a m ∧ Fails (f a) m e b' := by
  rw [Fails, perform_bind, Fails]
  rcases hx : x.perform b with ⟨e' | a, m⟩
  · simp [Gives, hx]
  · simp only [Gives, hx, Prod.mk.injEq, Except.ok.injEq, reduceCtorEq, false_and, false_or]
    constructor
    · intro h
      exact ⟨a, m, ⟨rfl, rfl⟩, h⟩
    · rintro ⟨_, _, ⟨rfl, rfl⟩, h⟩
      exact h

theorem fails_get_bind {f : Builder → BuildM α} :
    Fails (get >>= f) b e b' ↔ Fails (f b) b e b' := Iff.rfl

theorem not_fails_set {c : Builder} : ¬ Fails (set c) b e b' := by
  show ¬ (Except.ok PUnit.unit, c) = (Except.error e, b')
  simp

/-- A question that has no answer changes nothing. -/
theorem blame_of_fails_derive {span : Option Span} {ask : Builder → Except BuildFault α}
    (h : Fails (derive span ask) b e b') : e.span = span ∧ b = b' := by
  rw [derive, fails_get_bind] at h
  cases hask : ask b with
  | ok a => simp [hask] at h
  | error fault =>
    rw [hask] at h
    obtain ⟨rfl, rfl⟩ := fails_throw.mp h
    exact ⟨rfl, rfl⟩

/-! ## Steps whose answer is not asked for -/

theorem gives_ignored {step : BuildM α} {u : Unit} :
    Gives (do let _ ← step) b u b' ↔ ∃ a, Gives step b a b' := by
  rw [gives_bind]
  constructor
  · intro h
    obtain ⟨a, _, hstep, hlast⟩ := h
    obtain ⟨_, rfl⟩ := gives_pure.mp hlast
    exact ⟨a, hstep⟩
  · intro h
    obtain ⟨a, hstep⟩ := h
    exact ⟨a, b', hstep, gives_pure.mpr ⟨rfl, rfl⟩⟩

theorem fails_ignored {step : BuildM α} :
    Fails (do let _ ← step) b e b' ↔ Fails step b e b' := by
  rw [fails_bind]
  constructor
  · intro h
    rcases h with h | ⟨_, _, _, h⟩
    · exact h
    · exact absurd h not_fails_pure
  · exact Or.inl

/-! ## What is said of a step in general -/

theorem Meets.changes_of_gives {C : Builder → Builder → Prop} {step : BuildM α}
    {blame : BuildError → Prop} {post : α → Builder → Prop} {a : α} (h : Meets C b step blame post)
    (hgives : Gives step b a b') : Relation.ReflTransGen C b b' := by
  have hchanges := h.changes
  rw [hgives] at hchanges
  exact hchanges

theorem Meets.changes_of_fails {C : Builder → Builder → Prop} {step : BuildM α}
    {blame : BuildError → Prop} {post : α → Builder → Prop} (h : Meets C b step blame post)
    (hfails : Fails step b e b') : Relation.ReflTransGen C b b' := by
  have hchanges := h.changes
  rw [hfails] at hchanges
  exact hchanges

end BuildM

namespace Builder

open BuildM

variable {b b' : Builder}

/-! ## Declarations -/

theorem gives_declareRegion {name : String} {universal : Bool} {span : Option Span} {r : Region} :
    Gives (declareRegion name universal span) b r b' ↔
      (b.region? name = some r ∧ r.universal = universal ∧ b = b') ∨
        (b.region? name = none ∧ r = ⟨name, universal⟩ ∧
          b' = { b with regions := b.regions.insert name ⟨name, universal⟩ }) := by
  rw [declareRegion, gives_get_bind]
  cases hr : b.region? name with
  | none => simp [eq_comm, and_comm]
  | some known =>
    simp only [Option.some.injEq, reduceCtorEq, false_and, or_false]
    by_cases huniversal : known.universal = universal
    · simp only [huniversal, if_true, gives_pure]
      constructor
      · rintro ⟨rfl, rfl⟩
        exact ⟨rfl, huniversal, rfl⟩
      · rintro ⟨rfl, _, rfl⟩
        exact ⟨rfl, rfl⟩
    · simp only [huniversal, if_false, gives_throw, false_iff]
      rintro ⟨rfl, h, _⟩
      exact huniversal h

theorem gives_adopt {span : Option Span} {r : Region} {u : Unit} :
    Gives (adopt span r) b u b' ↔ (b.Declares r ∧ b = b') ∨
      (b.region? r.name = none ∧ b' = { b with regions := b.regions.insert r.name r }) := by
  rw [adopt, gives_get_bind, Declares]
  cases hr : b.region? r.name with
  | none => simp [eq_comm]
  | some known =>
    simp only [Option.some.injEq, reduceCtorEq, false_and, or_false]
    by_cases hknown : known = r <;> simp [hknown]

/-- **A variable is declared** if it is new and drops regions of its type only. -/
theorem gives_declare {name : String} {ty : Ty} {drops : Option (List Region)} {param : Bool}
    {span : Option Span} {v : Variable} :
    Gives (declare name ty drops param span) b v b' ↔
      b.locals.contains name = false ∧ (∀ r ∈ drops.getD [], r ∈ ty.regions) ∧
        v = ⟨name, ty, drops, param⟩ ∧ ∃ m, Gives (ty.regions.forM (adopt span)) b () m ∧
          b' = { m with locals := m.locals.insert name v } := by
  rw [declare, gives_get_bind]
  cases hname : b.locals.contains name with
  | true => simp
  | false =>
    cases hfind : (drops.getD []).find? (· ∉ ty.regions) with
    | some r =>
      have hmem : r ∈ drops.getD [] := List.mem_of_find?_eq_some hfind
      have hr : r ∉ ty.regions := by simpa using List.find?_some hfind
      simp only [Bool.false_eq_true, if_false, gives_bind, gives_throw, and_false, exists_false,
        false_iff]
      exact fun h => hr (h.2.1 r hmem)
    | none =>
      have hdrops : ∀ r ∈ drops.getD [], r ∈ ty.regions := by simpa using hfind
      simp only [Bool.false_eq_true, if_false, gives_bind, gives_modify, gives_pure]
      constructor
      · rintro ⟨_, m, hadopt, _, _, rfl, rfl, rfl⟩
        exact ⟨trivial, hdrops, rfl, m, hadopt, rfl⟩
      · rintro ⟨_, _, rfl, m, hadopt, rfl⟩
        exact ⟨(), m, hadopt, (), _, rfl, rfl, rfl⟩

theorem eq_of_fails_declareRegion {name : String} {universal : Bool} {span : Option Span}
    {e : BuildError} (h : Fails (declareRegion name universal span) b e b') : b = b' := by
  rw [declareRegion, fails_get_bind] at h
  cases hr : b.region? name with
  | some known =>
    simp only [hr] at h
    split at h
    · exact absurd h not_fails_pure
    · exact (fails_throw.mp h).2
  | none =>
    simp only [hr] at h
    rcases fails_bind.mp h with h | ⟨_, _, _, h⟩
    · exact absurd h not_fails_set
    · exact absurd h not_fails_pure

/-- **A declaration that fails** may have taken in regions of the type. -/
theorem adopts_of_fails_declare {name : String} {ty : Ty} {drops : Option (List Region)}
    {param : Bool} {span : Option Span} {e : BuildError}
    (h : Fails (declare name ty drops param span) b e b') : b.Adopts b' := by
  rw [declare, fails_get_bind] at h
  by_cases hname : b.locals.contains name = true
  · simp only [if_pos hname] at h
    rcases fails_bind.mp h with h | ⟨_, _, h, _⟩
    · exact (fails_throw.mp h).2 ▸ .refl
    · exact absurd h gives_throw
  · simp only [if_neg hname] at h
    -- either a region clashes, or all were taken in and the declared drops are none of them
    have hall := meets_adoptAll (b := b) span ty.regions
    rcases fails_bind.mp h with h | ⟨_, m, hm, h⟩
    · exact hall.changes_of_fails h
    · cases hdrops : (drops.getD []).find? (· ∉ ty.regions) with
      | some r =>
        simp only [hdrops] at h
        exact (fails_throw.mp h).2 ▸ hall.changes_of_gives hm
      | none =>
        simp only [hdrops] at h
        rcases fails_bind.mp h with h | ⟨_, _, _, h⟩
        · exact absurd h not_fails_modify
        · exact absurd h not_fails_pure

/-- **A bound that fails** may have taken in its first region. -/
theorem adopts_of_fails_bound {sub sup : Region} {span : Option Span} {e : BuildError}
    (h : Fails (bound sub sup span) b e b') : b.Adopts b' := by
  rw [bound, fails_bind] at h
  rcases h with h | ⟨_, m, hm, h⟩
  · exact (meets_adopt span sub).changes_of_fails h
  · have hsub : b.Adopts m := (meets_adopt span sub).changes_of_gives hm
    rcases fails_bind.mp h with h | ⟨_, _, _, h⟩
    · exact Relation.ReflTransGen.trans hsub ((meets_adopt span sup).changes_of_fails h)
    · exact absurd h not_fails_modify

theorem gives_openBlock {name : String} {span : Option Span} {u : Unit} :
    Gives (openBlock name span) b u b' ↔
      b.block? name = none ∧ b' = { b with blocks := b.blocks ++ [⟨name, [], none⟩] } := by
  rw [openBlock, gives_get_bind]
  cases hname : b.block? name <;> simp [eq_comm]

theorem eq_of_fails_openBlock {name : String} {span : Option Span} {e : BuildError}
    (h : Fails (openBlock name span) b e b') : b = b' := by
  rw [openBlock, fails_get_bind] at h
  by_cases hname : (b.block? name).isSome = true
  · simp only [if_pos hname] at h
    rcases fails_bind.mp h with h | ⟨_, _, h, _⟩
    · exact (fails_throw.mp h).2
    · exact absurd h gives_throw
  · simp only [if_neg hname] at h
    exact absurd h not_fails_modify

theorem gives_nextLoanName {name : String} :
    Gives nextLoanName b name b' ↔
      name = loanName b.loanCount ∧ b' = { b with loanCount := b.loanCount + 1 } := by
  rw [nextLoanName, gives_get_bind]
  simp [eq_comm, loanName, and_comm]

/-! ## Statements and terminators -/

/-- A block of the name has been opened and is not ended yet. -/
def IsOpen (b : Builder) (block : String) : Prop :=
  ∃ blk, b.block? block = some blk ∧ blk.terminator = none

theorem gives_push {block : String} {span : Option Span} {s : Statement} {u : Unit} :
    Gives (push block span s) b u b' ↔
      b.IsOpen block ∧ b' = b.updateBlock block (·.push s) := by
  rw [push, gives_get_bind, IsOpen]
  cases hblk : b.block? block with
  | none => simp
  | some blk =>
    cases hopen : blk.terminator with
    | some t => simp [hopen]
    | none => simp [hopen, eq_comm, OpenBlock.push]

/-- **A statement is appended** as it was derived. -/
theorem gives_append {block : String} {span : Option Span}
    {derive : Builder → Except BuildFault Statement} {s : Statement} :
    Gives (append block span derive) b s b' ↔
      derive b = .ok s ∧ b.IsOpen block ∧ b' = b.updateBlock block (·.push s) := by
  rw [append]
  simp only [gives_bind, gives_derive, gives_push, gives_pure]
  constructor
  · rintro ⟨_, _, ⟨hs, rfl⟩, _, _, ⟨hopen, rfl⟩, rfl, rfl⟩
    exact ⟨hs, hopen, rfl⟩
  · rintro ⟨hs, hopen, rfl⟩
    exact ⟨s, b, ⟨hs, rfl⟩, (), _, ⟨hopen, rfl⟩, rfl, rfl⟩

/-- **Appending changes nothing if it fails**: what to append and where to is asked
    before. -/
theorem blame_of_fails_append {block : String} {span : Option Span}
    {derive : Builder → Except BuildFault Statement} {e : BuildError}
    (h : Fails (append block span derive) b e b') : e.span = span ∧ b = b' := by
  rw [append, fails_bind] at h
  rcases h with h | ⟨s, m, hs, h⟩
  · exact blame_of_fails_derive h
  · obtain ⟨_, rfl⟩ := gives_derive.mp hs
    rw [fails_bind] at h
    rcases h with h | ⟨_, _, _, h⟩
    · rw [push, fails_get_bind] at h
      cases hblk : b.block? block with
      | none =>
        rw [hblk] at h
        obtain ⟨rfl, rfl⟩ := fails_throw.mp h
        exact ⟨rfl, rfl⟩
      | some blk =>
        cases hopen : blk.terminator with
        | none => simp [hblk, hopen] at h
        | some t =>
          simp [hblk, hopen] at h
          obtain ⟨rfl, rfl⟩ := h
          exact ⟨rfl, rfl⟩
    · exact absurd h not_fails_pure

/-- **A block is ended** as it was derived. -/
theorem gives_terminate {block : String} {span : Option Span}
    {derive : Builder → Except BuildFault Terminator} {t : Terminator} :
    Gives (terminate block span derive) b t b' ↔
      derive b = .ok t ∧ b.IsOpen block ∧ b' = b.updateBlock block (·.close t) := by
  rw [terminate, gives_bind]
  constructor
  · rintro ⟨t', _, hask, h⟩
    obtain ⟨ht, rfl⟩ := gives_derive.mp hask
    rw [gives_get_bind] at h
    cases hblk : b.block? block with
    | none => simp [hblk] at h
    | some blk =>
      cases hopen : blk.terminator with
      | some last => simp [hblk, hopen] at h
      | none =>
        simp only [hblk, hopen, Option.isSome_none, Bool.false_eq_true, if_false, gives_bind,
          gives_modify, gives_pure] at h
        obtain ⟨_, _, rfl, rfl, rfl⟩ := h
        exact ⟨ht, ⟨blk, hblk, hopen⟩, rfl⟩
  · rintro ⟨ht, ⟨blk, hblk, hopen⟩, rfl⟩
    refine ⟨t, b, gives_derive.mpr ⟨ht, rfl⟩, ?_⟩
    rw [gives_get_bind]
    simp [hblk, hopen, OpenBlock.close]

/-- Ending a block changes nothing if it fails. -/
theorem blame_of_fails_terminate {block : String} {span : Option Span}
    {derive : Builder → Except BuildFault Terminator} {e : BuildError}
    (h : Fails (terminate block span derive) b e b') : e.span = span ∧ b = b' := by
  rw [terminate, fails_bind] at h
  rcases h with h | ⟨t, m, ht, h⟩
  · exact blame_of_fails_derive h
  · obtain ⟨_, rfl⟩ := gives_derive.mp ht
    rw [fails_get_bind] at h
    cases hblk : b.block? block with
    | none =>
      rw [hblk] at h
      obtain ⟨rfl, rfl⟩ := fails_throw.mp h
      exact ⟨rfl, rfl⟩
    | some blk =>
      cases hopen : blk.terminator with
      | none =>
        simp only [hblk, hopen, Option.isSome_none, Bool.false_eq_true, if_false] at h
        rcases fails_bind.mp h with h | ⟨_, _, _, h⟩
        · exact absurd h not_fails_modify
        · exact absurd h not_fails_pure
      | some t =>
        simp [hblk, hopen] at h
        obtain ⟨rfl, rfl⟩ := h
        exact ⟨rfl, rfl⟩

/-! ## Borrows -/

/-- The loan that a borrow would issue next. -/
def nextLoan (b : Builder) (block : String) (place : Place) (mutable : Bool) : Loan :=
  ⟨loanName b.loanCount, b.nextPoint block, place, if mutable then .mutable else .shared⟩

section Borrow

variable {block : String} {dest place : Place} {mutable : Bool} {span : Option Span}

/-- Loan names that were taken change nothing about the types of places. -/
theorem reborrowEdges_loanCount (n : Nat) (target : Region) (bases : List Place) :
    reborrowEdges { b with loanCount := n } target bases = b.reborrowEdges target bases := by
  induction bases with
  | nil => rfl
  | cons base rest ih =>
    rw [reborrowEdges, reborrowEdges, ih]
    rfl

theorem borrowStatement_loanCount (n : Nat) (loan : Loan) (target : Region) (referent : Ty) :
    borrowStatement { b with loanCount := n } loan dest target referent span =
      b.borrowStatement loan dest target referent span := by
  rw [borrowStatement, borrowStatement, reborrowEdges_loanCount]
  rfl

/-- **A borrow is met** if its destination is a fitting reference and its statement can be
    derived; then the statement is appended. -/
theorem gives_borrow {loan : Loan} :
    Gives (borrow block dest place mutable span) b loan b' ↔
      ∃ target referent s, b.borrowTarget dest mutable = .ok (target, referent) ∧
        loan = b.nextLoan block place mutable ∧
        b.borrowStatement loan dest target referent span = .ok s ∧ b.IsOpen block ∧
        b' = updateBlock { b with loanCount := b.loanCount + 1 } block (·.push s) := by
  rw [borrow]
  constructor
  · intro h
    obtain ⟨⟨target, referent⟩, _, hasked, hborrow⟩ := gives_bind.mp h
    obtain ⟨htarget, rfl⟩ := gives_derive.mp hasked
    obtain ⟨name, _, hname, hborrow⟩ := gives_bind.mp hborrow
    obtain ⟨rfl, rfl⟩ := gives_nextLoanName.mp hname
    obtain ⟨s, _, happend, hlast⟩ := gives_bind.mp (gives_get_bind.mp hborrow)
    obtain ⟨hs, hopen, rfl⟩ := gives_append.mp happend
    obtain ⟨rfl, rfl⟩ := gives_pure.mp hlast
    rw [borrowStatement_loanCount] at hs
    exact ⟨target, referent, s, htarget, rfl, hs, hopen, rfl⟩
  · intro h
    obtain ⟨target, referent, s, htarget, rfl, hs, hopen, rfl⟩ := h
    refine gives_bind.mpr ⟨(target, referent), b, gives_derive.mpr ⟨htarget, rfl⟩, ?_⟩
    refine gives_bind.mpr ⟨_, _, gives_nextLoanName.mpr ⟨rfl, rfl⟩, gives_get_bind.mpr ?_⟩
    refine gives_bind.mpr ⟨s, _, gives_append.mpr ⟨?_, hopen, rfl⟩, gives_pure.mpr ⟨rfl, rfl⟩⟩
    rw [borrowStatement_loanCount]
    exact hs

/-- A borrow that fails may have taken a loan name, and changes nothing else. -/
theorem blame_of_fails_borrow {e : BuildError}
    (h : Fails (borrow block dest place mutable span) b e b') :
    e.span = span ∧ (b = b' ∨ { b with loanCount := b.loanCount + 1 } = b') := by
  rw [borrow, fails_bind] at h
  rcases h with h | ⟨⟨target, referent⟩, _, htarget, h⟩
  · obtain ⟨hspan, hsame⟩ := blame_of_fails_derive h
    exact ⟨hspan, Or.inl hsame⟩
  · obtain ⟨_, rfl⟩ := gives_derive.mp htarget
    rcases fails_bind.mp h with h | ⟨name, b₁, hname, h⟩
    · exact (meets_nextLoanName.error e (congrArg Prod.fst h)).elim
    · obtain ⟨_, rfl⟩ := gives_nextLoanName.mp hname
      rw [fails_get_bind, fails_bind] at h
      rcases h with h | ⟨_, _, _, h⟩
      · obtain ⟨hspan, hcounted⟩ := blame_of_fails_append h
        exact ⟨hspan, Or.inr hcounted⟩
      · exact absurd h not_fails_pure

end Borrow

end Builder

end BorrowFlow
