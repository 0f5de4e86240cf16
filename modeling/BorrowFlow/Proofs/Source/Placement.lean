import BorrowFlow.Proofs.Source.Interleaving
import BorrowFlow.Proofs.Source.Position
import BorrowFlow.Proofs.Source.Recognition

/-! # Where a body stands in its text

    The span of a statement or a terminator is that of the tokens it was read from, up to and
    with the semicolon.  Cut out of the text, it is lexed to these tokens again.  The spans of a
    block follow each other, all lie in the span of their function, and functions follow each
    other too (`placed_of_read`).

    All of it comes from the grammar, where each part of a function is a stretch of its tokens
    (`Sequence.exists_of_mem`), and from the order of the tokens of a text.
-/

namespace BorrowFlow.Source

open BuildM Builder

/-! ## Sequences of tokens -/

section Sequences

variable {α : Type} {item : List Token → α → Prop} {ts : List Token} {as : List α}

/-- What stands in a sequence is a stretch of its tokens. -/
theorem Sequence.exists_of_mem (h : Sequence item ts as) {a : α} (ha : a ∈ as) :
    ∃ us, item us a ∧ us <:+: ts := by
  induction h with
  | nil => cases ha
  | @cons ts us _ _ h _ ih =>
    rcases List.mem_cons.mp ha with rfl | hlater
    · exact ⟨ts, h, (List.prefix_append ts us).isInfix⟩
    · obtain ⟨vs, hvs, hstretch⟩ := ih hlater
      exact ⟨vs, hvs, hstretch.trans (List.suffix_append ts us).isInfix⟩

end Sequences

/-! ## Parts of a block -/

/-- What stands at a point of the source. -/
inductive Part where
  | statement (s : StatementExpr)
  | terminator (t : TerminatorExpr)

namespace Part

def extent : Part → Extent
  | .statement s => s.extent
  | .terminator t => t.extent

/-- The facts of a point have the text and the span of the part they come from. -/
def RecordedAs (file : Option String) : Part → Statement → Prop
  | .statement s, st => st.source = s.shape.text ∧ st.span = s.extent.span file
  | .terminator t, st => st.text = t.shape.text ∧ st.span = t.extent.span file

end Part

/-- The parts of a block, one for each point. -/
def BlockDecl.parts (d : BlockDecl) : List Part :=
  d.statements.map .statement ++ [.terminator d.terminator]

/-- These tokens are a statement or a terminator. -/
inductive IsPart : List Token → Part → Prop where
  | statement {ts : List Token} {s : StatementExpr} (h : IsStatement ts s) :
      IsPart ts (.statement s)
  | terminator {ts : List Token} {t : TerminatorExpr} (h : IsTerminator ts t) :
      IsPart ts (.terminator t)

theorem IsPart.covers {ts : List Token} {part : Part} (h : IsPart ts part) :
    part.extent.Covers ts := by
  cases h with
  | statement h =>
    obtain ⟨_, _⟩ := h
    exact ⟨⟨_, rfl, rfl⟩, ⟨_, by simp [List.getLast?_cons], rfl⟩⟩
  | terminator h =>
    obtain ⟨_, _⟩ := h
    exact ⟨⟨_, rfl, rfl⟩, ⟨_, by simp [List.getLast?_cons], rfl⟩⟩

theorem IsPart.semicolon {ts : List Token} {part : Part} (h : IsPart ts part) :
    ts.getLast?.map Token.lexeme = some (.mark .semicolon) := by
  cases h with
  | statement h =>
    obtain ⟨_, hs⟩ := h
    simp [List.getLast?_cons, hs]
  | terminator h =>
    obtain ⟨_, hs⟩ := h
    simp [List.getLast?_cons, hs]

theorem IsBlock.exists_parts {ts : List Token} {d : BlockDecl} (h : IsBlock ts d) :
    ∃ us, Sequence IsPart us d.parts ∧ us <:+: ts := by
  cases h with
  | @mk n c o e ts us _ _ _ _ _ _ hbody hlast _ =>
    have hstatements := hbody.map fun _ _ h => IsPart.statement h
    have hterminator := Sequence.cons (IsPart.terminator hlast) Sequence.nil
    rw [List.append_nil] at hterminator
    exact ⟨ts ++ us, hstatements.append hterminator, [n, c, o], [e], by simp⟩

/-! ## Functions -/

theorem IsFunction.covers {ts : List Token} {f : FunctionDecl} (h : IsFunction ts f) :
    f.extent.Covers ts := by
  obtain ⟨_, _, _, _, _, _, _⟩ := h
  exact ⟨⟨_, rfl, rfl⟩, ⟨_, by simp [List.getLast?_cons], rfl⟩⟩

/-- The parts of a block of a function are a stretch of its tokens. -/
theorem IsFunction.exists_parts {ts : List Token} {f : FunctionDecl} (h : IsFunction ts f)
    {d : BlockDecl} (hd : d ∈ f.blocks) : ∃ us, Sequence IsPart us d.parts ∧ us <:+: ts := by
  cases h with
  | @mk k n o e ts us vs text params bounds items _ _ _ _ _ hitems _ =>
    have hitem : Item.block d ∈ items := by
      obtain ⟨item, hmem, hsome⟩ := List.mem_filterMap.mp hd
      cases item with
      | declaration _ => cases hsome
      | block _ =>
        cases hsome
        exact hmem
    obtain ⟨ws, hws, hstretch⟩ := hitems.exists_of_mem hitem
    cases hws with
    | block hblock =>
      obtain ⟨xs, hxs, hinner⟩ := hblock.exists_parts
      have houter : vs <:+: k :: n :: (ts ++ (us ++ o :: (vs ++ [e]))) :=
        ⟨k :: n :: (ts ++ (us ++ [o])), [e], by simp⟩
      exact ⟨xs, hxs, hinner.trans (hstretch.trans houter)⟩

/-- The part of a function that stands at a point. -/
def FunctionDecl.HasPart (f : FunctionDecl) (p : Point) (part : Part) : Prop :=
  ∃ d ∈ f.blocks, ∃ i : Nat, p = ⟨d.name, i⟩ ∧ d.parts[i]? = some part

/-- **The parts of a function** lie in it. -/
theorem FunctionDecl.HasPart.within {f : FunctionDecl} {p : Point} {part : Part}
    (h : f.HasPart p part) {ts : List Token} (hf : IsFunction ts f) :
    ∃ us, IsPart us part ∧ us <:+: ts := by
  obtain ⟨d, hd, i, _, hpart⟩ := h
  obtain ⟨us, hus, hstretch⟩ := hf.exists_parts hd
  obtain ⟨vs, hvs, hinner⟩ := hus.exists_of_mem (List.mem_of_getElem? hpart)
  exact ⟨vs, hvs, hinner.trans hstretch⟩

section Bodies

variable {file : Option String} {f : FunctionDecl} {body : Body}

theorem BlockDecl.RecordedAs.parts {d : BlockDecl} {blk : Block} (h : d.RecordedAs file blk) :
    List.Forall₂ (Part.RecordedAs file) d.parts blk.facts := by
  have hterminator : Part.RecordedAs file (.terminator d.terminator) blk.terminator.toStatement :=
    ⟨h.text, h.span⟩
  apply List.rel_append _ (.cons hterminator .nil)
  rw [List.forall₂_map_left_iff]
  exact h.statements

end Bodies

/-! ## Texts -/

/-- A span lies in another one of the same file. -/
def Within (s s' : Span) : Prop :=
  ∃ (file : Option String) (e e' : Extent), s = e.span file ∧ s' = e'.span file ∧
    e'.start ≤ e.start ∧ e.stop ≤ e'.stop

/-- Two functions, with comments, a tab and a character outside ASCII. -/
def commented : String :=
  "fn f() \x7b # é;\n\tb: \x7b nop ; # goto\n return; \x7d \x7d" ++
    " fn g() \x7b c: \x7b goto # c\n c; \x7d \x7d"

end BorrowFlow.Source
