import BorrowFlow.Proofs.Source.Completeness
import BorrowFlow.Proofs.Source.Proper
import Mathlib.Data.List.Forall2

/-! # Written places, operands and lists

    What the renderers write is what the grammar reads: a list with commas, a list in
    parentheses, and above all a place.  A place is written from the inside out, with
    parentheses where a field or an index follows a dereference; this is just what the
    grammar asks for (`spelled_renderPath`).
-/

namespace BorrowFlow.Source

/-! ## Lists -/

section Lists

variable {α β : Type} {render : α → String} {item : List Token → β → Prop} {R : α → β → Prop}

/-- **Written items with commas between them** are a list of items. -/
theorem spelled_separated {l : List α} (hne : l ≠ [])
    (h : ∀ a ∈ l, Spelled (render a).toList fun ts => ∃ b, item ts b ∧ R a b) :
    Spelled (", ".intercalate (l.map render)).toList fun ts =>
      ∃ bs, Separated item ts bs ∧ List.Forall₂ R l bs := by
  rw [String.toList_intercalate]
  induction l with
  | nil => exact absurd rfl hne
  | cons a l ih =>
    rw [List.forall_mem_cons] at h
    cases l with
    | nil =>
      have hone : ", ".toList.intercalate [(render a).toList] = (render a).toList := by
        simp [List.intercalate]
      rw [List.map_singleton, List.map_singleton, hone]
      refine h.1.mono ?_
      rintro ts ⟨b, hb, hR⟩
      exact ⟨[b], .one hb, .cons hR .nil⟩
    | cons a' l =>
      have hrest := ih (List.cons_ne_nil a' l) h.2
      simp only [List.map_cons, List.intercalate_cons_cons, List.append_assoc] at hrest ⊢
      refine (h.1.seq (sharp_mark .comma _) (hrest.blank.mark .comma)).mono ?_
      rintro _ ⟨us, _, rfl, ⟨b, hb, hR⟩, c, vs, rfl, hc, bs, hbs, hRs⟩
      exact ⟨b :: bs, .more hb hc hbs, .cons hR hRs⟩

/-- **Written items in parentheses.** -/
theorem spelled_parenthesised {l : List α}
    (h : ∀ a ∈ l, Spelled (render a).toList fun ts => ∃ b, item ts b ∧ R a b) :
    Spelled ("(" ++ ", ".intercalate (l.map render) ++ ")").toList fun ts =>
      ∃ bs, Parenthesised item ts bs ∧ List.Forall₂ R l bs := by
  simp only [String.toList_append, List.append_assoc]
  by_cases hne : l = []
  · subst hne
    show Spelled (Mark.parenOpen.text.toList ++ (Mark.parenClose.text.toList ++ [])) _
    refine ((spelled_nil.mark .parenClose).mark .parenOpen).mono ?_
    rintro _ ⟨o, _, rfl, ho, c, _, rfl, hc, rfl⟩
    exact ⟨[], .none ho hc, .nil⟩
  · have hlist := spelled_separated hne h
    show Spelled (Mark.parenOpen.text.toList ++
      ((", ".intercalate (l.map render)).toList ++ (Mark.parenClose.text.toList ++ []))) _
    refine ((hlist.seq (sharp_mark _ _) (spelled_nil.mark .parenClose)).mark .parenOpen).mono ?_
    rintro _ ⟨o, _, rfl, ho, ts, _, rfl, ⟨bs, hbs, hR⟩, c, _, rfl, hc, rfl⟩
    exact ⟨bs, .some ho hbs hc, hR⟩

theorem sharp_sequence (l : List α) {cs : List Char} (h : Sharp cs) :
    Sharp ((String.join (l.map fun a => " " ++ render a)).toList ++ cs) := by
  rw [String.toList_join]
  cases l with
  | nil => exact h
  | cons a l =>
    rw [List.map_cons, List.flatMap_cons, String.toList_append]
    exact sharp_blank _

/-- **Written items one after the other**, each after a blank. -/
theorem spelled_sequence {l : List α}
    (h : ∀ a ∈ l, Spelled (render a).toList fun ts => ∃ b, item ts b ∧ R a b) :
    Spelled (String.join (l.map fun a => " " ++ render a)).toList fun ts =>
      ∃ bs, Sequence item ts bs ∧ List.Forall₂ R l bs := by
  induction l with
  | nil =>
    refine spelled_nil.mono ?_
    rintro _ rfl
    exact ⟨[], .nil, .nil⟩
  | cons a l ih =>
    rw [List.forall_mem_cons] at h
    have htail := h.1.seq (sharp_sequence l sharp_nil) (by simpa using ih h.2)
    rw [List.append_nil] at htail
    rw [String.toList_join, List.map_cons, List.flatMap_cons, String.toList_append,
      List.append_assoc, ← String.toList_join]
    refine htail.blank.mono ?_
    rintro _ ⟨us, vs, rfl, ⟨b, hb, hR⟩, bs, hbs, hRs⟩
    exact ⟨b :: bs, .cons hb hbs, .cons hR hRs⟩

end Lists

/-! ## Places and operands -/

/-- A number is written in digits that give it back. -/
theorem isNumber_repr (n : Nat) : IsNumber n.repr ∧ numberValue n.repr = n := by
  have hdigits : n.repr.toList = Nat.toDigits 10 n := Nat.toList_repr
  constructor
  · obtain ⟨c, rest, hcons⟩ := List.exists_cons_of_ne_nil (Nat.toDigits_ne_nil (n := n) (b := 10))
    have hall : ∀ d ∈ c :: rest, d.isDigit = true := fun d hd =>
      Nat.isDigit_of_mem_toDigits (by decide) (by decide) (hcons ▸ hd)
    rw [List.forall_mem_cons] at hall
    exact ⟨c, rest, hdigits.trans hcons, hall.1, hall.2⟩
  · rw [numberValue, hdigits]
    exact Nat.ofDigitChars_ten_toDigits

theorem spelled_index {l : Lexeme} (hl : l.Proper) :
    Spelled ("[" ++ l.text ++ "]").toList fun ts => ∃ o i c, ts = [o, i, c] ∧
      o.lexeme = .mark .bracketOpen ∧ i.lexeme = l ∧ c.lexeme = .mark .bracketClose := by
  simp only [String.toList_append, List.append_assoc]
  show Spelled (Mark.bracketOpen.text.toList ++ (l.text.toList ++
    (Mark.bracketClose.text.toList ++ []))) _
  refine (((spelled_nil.mark .bracketClose).word hl (sharp_mark _ _)).mark .bracketOpen).mono ?_
  rintro _ ⟨o, _, rfl, ho, i, _, rfl, hi, c, _, rfl, hc, rfl⟩
  exact ⟨o, i, c, rfl, ho, hi, hc⟩

/-- **A written field or index** is one. -/
theorem spelled_suffix {step : Projection} (h : step.Proper) (hstep : step ≠ .deref) :
    Spelled step.suffix.toList (IsSuffix · step) := by
  cases step with
  | deref => exact absurd rfl hstep
  | field name =>
    rw [Projection.suffix, String.toList_append]
    refine ((spelled_lexeme (l := .name name) h).mark .dot).mono ?_
    rintro _ ⟨d, _, rfl, hd, n, rfl, hn⟩
    exact .field hd hn
  | constIndex value =>
    obtain ⟨n, rfl⟩ := Int.eq_ofNat_of_zero_le h
    obtain ⟨hnumber, hvalue⟩ := isNumber_repr n
    refine (spelled_index (l := .number n.repr) hnumber).mono ?_
    rintro _ ⟨o, i, c, rfl, ho, hi, hc⟩
    have hsuffix := IsSuffix.constIndex ho hi hc
    rw [hvalue] at hsuffix
    exact hsuffix
  | varIndex name =>
    obtain ⟨var, rfl, hvar⟩ := h
    have hne : var.isEmpty = false := by
      obtain ⟨⟨c, rest, hcons, _⟩, _⟩ := hvar
      rw [Bool.eq_false_iff, ne_eq, String.isEmpty_iff, ← String.toList_eq_nil_iff, hcons]
      exact List.cons_ne_nil c rest
    rw [Projection.suffix, hne, if_neg Bool.false_ne_true]
    refine (spelled_index (l := .name var) hvar).mono ?_
    rintro _ ⟨o, i, c, rfl, ho, hi, hc⟩
    exact .varIndex ho hi hc

theorem sharp_suffix (step : Projection) : Sharp step.suffix.toList := by
  cases step with
  | deref => exact sharp_nil
  | field name =>
    rw [Projection.suffix, String.toList_append]
    exact sharp_mark .dot _
  | constIndex value =>
    rw [Projection.suffix, String.toList_append, String.toList_append, List.append_assoc]
    exact sharp_mark .bracketOpen _
  | varIndex name =>
    cases name with
    | none => exact sharp_mark .bracketOpen _
    | some var =>
      rw [Projection.suffix, String.toList_append, String.toList_append, List.append_assoc]
      exact sharp_mark .bracketOpen _

/-- **The rest of a path** goes on from what is written so far.  It stands on its own
    unless a dereference came last. -/
theorem spelled_renderPath {path : List Projection} (hpath : ∀ step ∈ path, step.Proper)
    {text : String} {afterDeref : Bool} {p : Place}
    (h : Spelled text.toList (IsPlace (!afterDeref) · p)) :
    Spelled (Place.renderPath text afterDeref path).toList fun ts =>
      ∃ tight, IsPlace tight ts { p with path := p.path ++ path } := by
  induction path generalizing text afterDeref p with
  | nil =>
    rw [List.append_nil]
    exact h.mono fun _ hts => ⟨_, hts⟩
  | cons step path ih =>
    rw [List.forall_mem_cons] at hpath
    have hpathEq : p.path ++ step :: path = (p.project step).path ++ path := by
      simp [Place.project]
    by_cases hderef : step = .deref
    · subst hderef
      rw [hpathEq]
      refine ih hpath.2 (p := p.project .deref) ?_
      rw [String.toList_append]
      refine (h.mark .star).mono ?_
      rintro _ ⟨s, us, rfl, hs, hus⟩
      exact .deref hs hus
    -- a field or an index binds tighter than the dereference before it, hence the parentheses
    · have htight : Spelled (if afterDeref then "(" ++ text ++ ")" else text).toList
          (IsPlace true · p) := by
        cases afterDeref with
        | false => exact h
        | true =>
          simp only [if_true, String.toList_append, List.append_assoc]
          show Spelled (Mark.parenOpen.text.toList ++ (text.toList ++
            (Mark.parenClose.text.toList ++ []))) _
          refine ((h.seq (sharp_mark _ _) (spelled_nil.mark .parenClose)).mark .parenOpen).mono ?_
          rintro _ ⟨o, _, rfl, ho, us, _, rfl, hus, c, _, rfl, hc, rfl⟩
          exact .parens ho hus hc
      have hsuffix := htight.seq (sharp_suffix step) (spelled_suffix hpath.1 hderef)
      rw [← String.toList_append] at hsuffix
      rw [hpathEq, Place.renderPath]
      · refine ih hpath.2 (p := p.project step) (hsuffix.mono ?_)
        rintro _ ⟨us, vs, rfl, hus, hvs⟩
        exact .suffix hus hvs
      · exact hderef

/-- **A written place** is that place. -/
theorem spelled_place {p : Place} (h : p.Proper) :
    Spelled p.render.toList fun ts => ∃ tight, IsPlace tight ts p := by
  have hbase : Spelled p.base.toList (IsPlace (!false) · (.ofLocal p.base)) := by
    refine (spelled_lexeme (l := .name p.base) h.base).mono ?_
    rintro _ ⟨n, rfl, hn⟩
    exact .name hn
  exact spelled_renderPath h.path hbase

/-- **A written operand** is that operand. -/
theorem spelled_operand {op : Operand} (h : op.Proper) :
    Spelled op.render.toList (IsOperand · op) := by
  cases op with
  | const =>
    refine (spelled_lexeme (l := .keyword .const) trivial).mono ?_
    rintro _ ⟨k, rfl, hk⟩
    exact .const hk
  | copy p =>
    rw [Operand.render, String.toList_append]
    refine ((spelled_place (h p rfl)).blank.word (l := .keyword .copy) trivial
      (sharp_blank _)).mono ?_
    rintro _ ⟨k, us, rfl, hk, tight, hus⟩
    exact .copy hk hus
  | move p =>
    rw [Operand.render, String.toList_append]
    refine ((spelled_place (h p rfl)).blank.word (l := .keyword .move) trivial
      (sharp_blank _)).mono ?_
    rintro _ ⟨k, us, rfl, hk, tight, hus⟩
    exact .move hk hus

end BorrowFlow.Source
