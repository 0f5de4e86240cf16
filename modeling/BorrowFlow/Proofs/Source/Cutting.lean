import BorrowFlow.Proofs.Source.Spelling

/-! # How a text is cut

    What it means to cut a text into tokens, without a lexer.  A text is cut into pieces from
    left to right, each the longest that can stand there: a lexeme, a blank or a comment
    (`Cut`).  Lexemes are the tokens of the text; it ends where no piece can stand.

    Every text is cut in exactly one way, and the lexer finds it (`cut_iff_lex`).
-/

namespace BorrowFlow.Source

/-! ## Pieces -/

/-- A piece of text: a lexeme, or a blank or a comment, which are none. -/
inductive IsPiece : List Char → Option Lexeme → Prop where
  | blank {c : Char} (h : isSpace c = true) : IsPiece [c] none
  | comment {cs : List Char} (h : '\n' ∉ cs) : IsPiece ('#' :: cs) none
  | lexeme {l : Lexeme} (h : l.Proper) : IsPiece l.text.toList (some l)

/-- **The piece at the front of a text**: no piece that could stand there is longer. -/
structure Foremost (cs piece : List Char) (l : Option Lexeme) (rest : List Char) : Prop where
  split : cs = piece ++ rest
  isPiece : IsPiece piece l
  longest : ∀ other l', IsPiece other l' → other <+: cs → other.length ≤ piece.length

/-- The position after some characters. -/
def Pos.past (p : Pos) (cs : List Char) : Pos := cs.foldl Pos.advance p

/-- **A text is cut** into these tokens, from a position on, and they end in this way. -/
inductive Cut : Pos → List Char → List Token → Ending → Prop where
  | finished {pos : Pos} : Cut pos [] [] .finished
  | stray {pos : Pos} {c : Char} {rest : List Char}
      (h : ∀ piece l, IsPiece piece l → ¬ piece <+: c :: rest) :
      Cut pos (c :: rest) [] (.stray c pos)
  | gap {pos : Pos} {cs piece rest : List Char} {ts : List Token} {ending : Ending}
      (h : Foremost cs piece none rest) (hrest : Cut (pos.past piece) rest ts ending) :
      Cut pos cs ts ending
  | token {pos : Pos} {cs piece rest : List Char} {l : Lexeme} {ts : List Token} {ending : Ending}
      (h : Foremost cs piece (some l) rest) (hrest : Cut (pos.past piece) rest ts ending) :
      Cut pos cs (⟨l, ⟨pos, pos.past piece⟩⟩ :: ts) ending

/-! ## Lexemes at the front -/

/-- No lexeme is found where a blank or a comment stands. -/
theorem scan_of_gap {piece : List Char} (h : IsPiece piece none) (rest : List Char) :
    scan (piece ++ rest) = none := by
  cases h with
  | blank hspace =>
    simp only [isSpace, Bool.or_eq_true, decide_eq_true_eq] at hspace
    rcases hspace with (((rfl | rfl) | rfl) | rfl) | rfl <;> rfl
  | comment _ => rfl

/-- A lexeme of its own text is found again. -/
theorem scan_text_self {l : Lexeme} (h : l.Proper) : scan l.text.toList = some (l, []) := by
  have hclear : Clear l.text.toList [] := fun _ _ _ hd => by cases hd
  have hscan := scan_text h hclear
  rwa [List.append_nil] at hscan

theorem IsPiece.ne_nil {piece : List Char} {l : Option Lexeme} (h : IsPiece piece l) :
    piece ≠ [] := by
  cases h with
  | blank => exact List.cons_ne_nil _ _
  | comment => exact List.cons_ne_nil _ _
  | lexeme hl =>
    intro hnil
    have hscan := scan_text_self hl
    rw [hnil] at hscan
    cases hscan

/-- A text is a piece in one way only. -/
theorem IsPiece.unique {piece : List Char} {l l' : Option Lexeme} (h : IsPiece piece l)
    (h' : IsPiece piece l') : l = l' := by
  -- the lexer tells the pieces apart: it finds the lexemes, and nothing in the others
  have hgap : IsPiece piece none → scan piece = none := by
    intro h
    have hscan := scan_of_gap h []
    rwa [List.append_nil] at hscan
  have hlexeme : ∀ {l}, IsPiece piece (some l) → scan piece = some (l, []) := by
    intro l h
    cases h with
    | lexeme hl => exact scan_text_self hl
  cases l with
  | none =>
    cases l' with
    | none => rfl
    | some l' =>
      have hscan := hgap h
      rw [hlexeme h'] at hscan
      cases hscan
  | some l =>
    have hscan := hlexeme h
    cases l' with
    | none =>
      rw [hgap h'] at hscan
      cases hscan
    | some l' =>
      rw [hlexeme h'] at hscan
      cases hscan
      rfl

/-- What stands at the front and consists of some kind of characters, goes no further than
    these characters do. -/
theorem length_le_takeWhile {p : Char → Bool} {piece cs : List Char} (h : piece <+: cs)
    (hall : ∀ x ∈ piece, p x = true) : piece.length ≤ (cs.takeWhile p).length := by
  obtain ⟨rest, rfl⟩ := h
  rw [List.takeWhile_append_of_pos hall, List.length_append]
  exact Nat.le_add_right _ _

theorem text_ofWord (w : String) : (Lexeme.ofWord w).text = w := by
  rw [Lexeme.ofWord]
  split
  · next k hk =>
    have hword := List.find?_some hk
    rw [decide_eq_true_eq] at hword
    exact hword
  · rfl

/-- **The lexer finds the longest lexeme** at the front. -/
theorem exists_scan_of_text {l : Lexeme} (h : l.Proper) {cs : List Char}
    (hcs : l.text.toList <+: cs) :
    ∃ found rest, scan cs = some (found, rest) ∧
      l.text.toList.length ≤ found.text.toList.length := by
  -- a word may go on, and so turn from a keyword into a name, but it gets no shorter
  have word : ∀ {w : List Char}, IsWord w → w <+: cs →
      ∃ found rest, scan cs = some (found, rest) ∧ w.length ≤ found.text.toList.length := by
    rintro _ ⟨c, tail, rfl, hstart, htail⟩ ⟨more, rfl⟩
    refine ⟨_, _, by rw [List.cons_append, scan, if_pos hstart], ?_⟩
    rw [text_ofWord, String.toList_ofList]
    exact Nat.succ_le_succ (length_le_takeWhile (List.prefix_append _ _) htail)
  cases l with
  | name s => exact word h.1 hcs
  | keyword k => exact word (isWord_keyword k) hcs
  | region s =>
    obtain ⟨_, hs, c, tail, rfl, hstart, htail⟩ := h
    rw [Lexeme.text, hs] at hcs ⊢
    obtain ⟨more, rfl⟩ := hcs
    have hscan : scan ('\'' :: c :: tail ++ more) = scanRegion (c :: (tail ++ more)) := rfl
    refine ⟨_, _, by rw [hscan, scanRegion, if_pos hstart], ?_⟩
    rw [Lexeme.text, String.toList_ofList]
    exact Nat.succ_le_succ (Nat.succ_le_succ
      (length_le_takeWhile (List.prefix_append _ _) htail))
  | number s =>
    obtain ⟨c, tail, hs, hc, htail⟩ := h
    rw [Lexeme.text, hs] at hcs ⊢
    obtain ⟨more, rfl⟩ := hcs
    refine ⟨_, _, by rw [List.cons_append, scan, if_neg (isNameStart_of_isDigit hc), if_pos hc], ?_⟩
    rw [Lexeme.text, String.toList_ofList]
    exact Nat.succ_le_succ (length_le_takeWhile (List.prefix_append _ _) htail)
  | mark m =>
    obtain ⟨more, rfl⟩ := hcs
    exact ⟨_, _, scan_mark m more, Nat.le_refl _⟩

/-- What the lexer finds at the front, stands there. -/
theorem eq_append_of_scan {cs rest : List Char} {l : Lexeme} (h : scan cs = some (l, rest)) :
    cs = l.text.toList ++ rest := by
  cases cs with
  | nil => cases h
  | cons c cs =>
    rw [scan] at h
    -- words, numbers, regions, the arrow, and the marks of one character
    split at h
    · cases h
      rw [text_ofWord, String.toList_ofList, List.cons_append, List.takeWhile_append_dropWhile]
    split at h
    · cases h
      rw [Lexeme.text, String.toList_ofList, List.cons_append, List.takeWhile_append_dropWhile]
    split at h
    · next hquote =>
      subst hquote
      cases cs with
      | nil => cases h
      | cons c cs =>
        rw [scanRegion] at h
        split at h
        · cases h
          rw [Lexeme.text, String.toList_ofList, List.cons_append, List.cons_append,
            List.takeWhile_append_dropWhile]
        · cases h
    split at h
    · next hdash =>
      subst hdash
      cases cs with
      | nil => cases h
      | cons c cs =>
        rw [scanArrow] at h
        split at h
        · next hhead =>
          cases h
          subst hhead
          rfl
        · cases h
    · obtain ⟨m, hm, hl⟩ := Option.map_eq_some_iff.mp h
      cases hl
      have htext := List.find?_some hm
      rw [decide_eq_true_eq] at htext
      rw [Lexeme.text, htext, String.toList_singleton]
      rfl

theorem foremost_of_scan {cs rest : List Char} {l : Lexeme} (h : scan cs = some (l, rest)) :
    Foremost cs l.text.toList (some l) rest where
  split := eq_append_of_scan h
  isPiece := .lexeme (proper_of_scan h)
  longest := by
    intro other l' hother hcs
    cases hother with
    | lexeme hl =>
      obtain ⟨found, rest', hscan, hlength⟩ := exists_scan_of_text hl hcs
      rw [h] at hscan
      cases hscan
      exact hlength
    | blank hspace =>
      obtain ⟨more, rfl⟩ := hcs
      rw [scan_of_gap (.blank hspace)] at h
      cases h
    | comment hline =>
      obtain ⟨more, rfl⟩ := hcs
      rw [scan_of_gap (.comment hline)] at h
      cases h

/-- The front of a text is told by the text. -/
theorem Foremost.unique {cs piece piece' rest rest' : List Char} {l l' : Option Lexeme}
    (h : Foremost cs piece l rest) (h' : Foremost cs piece' l' rest') :
    piece = piece' ∧ l = l' ∧ rest = rest' := by
  have hlength : piece.length = piece'.length :=
    Nat.le_antisymm (h'.longest _ _ h.isPiece ⟨rest, h.split.symm⟩)
      (h.longest _ _ h'.isPiece ⟨rest', h'.split.symm⟩)
  obtain ⟨rfl, rfl⟩ := List.append_inj (h.split.symm.trans h'.split) hlength
  exact ⟨rfl, h.isPiece.unique h'.isPiece, rfl⟩

theorem Foremost.not_nil {piece rest : List Char} {l : Option Lexeme}
    (h : Foremost [] piece l rest) : False := by
  have hnil := h.split.symm
  rw [List.append_eq_nil_iff] at hnil
  exact h.isPiece.ne_nil hnil.1

/-- **A text is cut in one way only.** -/
theorem Cut.unique {pos : Pos} {cs : List Char} {ts ts' : List Token} {ending ending' : Ending}
    (h : Cut pos cs ts ending) (h' : Cut pos cs ts' ending') : ts = ts' ∧ ending = ending' := by
  induction h generalizing ts' with
  | finished =>
    cases h' with
    | finished => exact ⟨rfl, rfl⟩
    | gap h _ => exact h.not_nil.elim
    | token h _ => exact h.not_nil.elim
  | stray hnone =>
    cases h' with
    | stray _ => exact ⟨rfl, rfl⟩
    | gap h _ => exact absurd ⟨_, h.split.symm⟩ (hnone _ _ h.isPiece)
    | token h _ => exact absurd ⟨_, h.split.symm⟩ (hnone _ _ h.isPiece)
  | gap h _ ih =>
    cases h' with
    | finished => exact h.not_nil.elim
    | stray hnone => exact absurd ⟨_, h.split.symm⟩ (hnone _ _ h.isPiece)
    | gap h' hrest =>
      obtain ⟨rfl, _, rfl⟩ := h.unique h'
      exact ih hrest
    | token h' _ => cases (h.unique h').2.1
  | token h _ ih =>
    cases h' with
    | finished => exact h.not_nil.elim
    | stray hnone => exact absurd ⟨_, h.split.symm⟩ (hnone _ _ h.isPiece)
    | gap h' _ => cases (h.unique h').2.1
    | token h' hrest =>
      obtain ⟨rfl, hl, rfl⟩ := h.unique h'
      cases hl
      obtain ⟨rfl, rfl⟩ := ih hrest
      exact ⟨rfl, rfl⟩

/-! ## Blanks and comments at the front -/

theorem foremost_blank {c : Char} (h : isSpace c = true) (cs : List Char) :
    Foremost (c :: cs) [c] none cs where
  split := rfl
  isPiece := .blank h
  longest := by
    intro other l' hother hcs
    cases hother with
    | blank _ => exact Nat.le_refl _
    | comment _ =>
      rw [List.cons_prefix_cons] at hcs
      obtain ⟨rfl, _⟩ := hcs
      cases h
    | lexeme hl =>
      have hnone : scan (c :: cs) = none := scan_of_gap (.blank h) cs
      obtain ⟨_, _, hscan, _⟩ := exists_scan_of_text hl hcs
      rw [hnone] at hscan
      cases hscan

/-- The line that a comment stands on goes up to the next line feed. -/
def inLine (c : Char) : Bool := c ≠ '\n'

theorem foremost_comment (cs : List Char) :
    Foremost ('#' :: cs) ('#' :: cs.takeWhile inLine) none (cs.dropWhile inLine) := by
  have hline : '\n' ∉ cs.takeWhile inLine := by
    intro hmem
    have hin := List.mem_takeWhile_imp hmem
    simp [inLine] at hin
  refine ⟨by rw [List.cons_append, List.takeWhile_append_dropWhile], .comment hline, ?_⟩
  intro other l' hother hcs
  cases hother with
  | blank hspace =>
    rw [List.cons_prefix_cons] at hcs
    obtain ⟨rfl, _⟩ := hcs
    cases hspace
  | @comment body hbody =>
    rw [List.cons_prefix_cons] at hcs
    have hall : ∀ x ∈ body, inLine x = true := by
      intro x hx
      rw [inLine, decide_eq_true_eq]
      rintro rfl
      exact hbody hx
    exact Nat.succ_le_succ (length_le_takeWhile hcs.2 hall)
  | lexeme hl =>
    obtain ⟨_, _, hscan, _⟩ := exists_scan_of_text hl hcs
    cases hscan

/-- Inside a comment, the lexer skips to the end of the line. -/
theorem skip_comment (cs : List Char) (pos : Pos) :
    skip true cs pos = skip false (cs.dropWhile inLine) (pos.past (cs.takeWhile inLine)) := by
  induction cs generalizing pos with
  | nil => rfl
  | cons c cs ih =>
    by_cases hc : c = '\n'
    · subst hc
      rfl
    · have hin : inLine c = true := decide_eq_true hc
      rw [List.dropWhile_cons_of_pos hin, List.takeWhile_cons_of_pos hin, skip, if_pos rfl,
        decide_eq_true hc, ih]
      rfl

/-- **What the lexer skips** are blanks and comments. -/
theorem cut_of_skip (cs : List Char) (pos : Pos) {ts : List Token} {ending : Ending}
    (h : Cut (skip false cs pos).2 (skip false cs pos).1 ts ending) : Cut pos cs ts ending := by
  -- the induction is on the text that is left
  induction hn : cs.length using Nat.strongRecOn generalizing cs pos with
  | ind n ih =>
    cases cs with
    | nil => exact h
    | cons c cs =>
      subst hn
      rw [skip, if_neg (by simp)] at h
      split at h
      · next hspace =>
        exact .gap (foremost_blank hspace cs) (ih _ (by simp) cs _ h rfl)
      split at h
      · next hcomment =>
        subst hcomment
        rw [skip_comment] at h
        refine .gap (foremost_comment cs) (ih _ ?_ _ _ h rfl)
        exact Nat.lt_succ_of_le (length_dropWhile_le inLine cs)
      · exact h

/-- Where the lexer stops to skip, there is no blank and no comment. -/
theorem not_gap_of_skip {cs rest : List Char} {comment : Bool} {pos start : Pos} {c : Char}
    (h : skip comment cs pos = (c :: rest, start)) {piece : List Char}
    (hpiece : IsPiece piece none) : ¬ piece <+: c :: rest := by
  induction cs generalizing comment pos with
  | nil => cases h
  | cons d cs ih =>
    rw [skip] at h
    split at h
    · exact ih h
    split at h
    · exact ih h
    split at h
    · exact ih h
    · next hspace hcomment =>
      cases h
      cases hpiece with
      | blank hblank =>
        rw [List.cons_prefix_cons]
        rintro ⟨rfl, _⟩
        exact hspace hblank
      | comment _ =>
        rw [List.cons_prefix_cons]
        rintro ⟨rfl, _⟩
        exact hcomment rfl

/-! ## Whole texts -/

theorem past_of_inLine {cs : List Char} (h : ∀ c ∈ cs, c ≠ '\n') (pos : Pos) :
    pos.past cs = ⟨pos.line, pos.column + cs.length⟩ := by
  induction cs generalizing pos with
  | nil => rfl
  | cons c cs ih =>
    rw [List.forall_mem_cons] at h
    show (pos.advance c).past cs = _
    rw [ih h.2, Pos.advance, if_neg h.1, List.length_cons]
    simp only [Pos.mk.injEq, true_and]
    omega

/-- No lexeme holds a line feed. -/
theorem ne_lineFeed_of_proper {l : Lexeme} (h : l.Proper) : ∀ c ∈ l.text.toList, c ≠ '\n' := by
  have word : ∀ {c : Char}, isNameChar c = true → c ≠ '\n' := by
    rintro _ hc rfl
    revert hc
    decide
  cases l with
  | name s => exact fun c hc => word (h.1.forall_isNameChar c hc)
  | keyword k => exact fun c hc => word ((isWord_keyword k).forall_isNameChar c hc)
  | region s =>
    obtain ⟨w, hs, hw⟩ := h
    rw [Lexeme.text, hs]
    exact List.forall_mem_cons.mpr ⟨by decide, fun c hc => word (hw.forall_isNameChar c hc)⟩
  | number s =>
    obtain ⟨c, tail, hs, hc, htail⟩ := h
    rw [Lexeme.text, hs]
    exact List.forall_mem_cons.mpr ⟨word (isNameChar_of_isDigit hc),
      fun x hx => word (isNameChar_of_isDigit (htail x hx))⟩
  | mark m =>
    have hall : (m.text.toList.all fun c => decide (c ≠ '\n')) = true := by
      cases m <;> rfl
    exact fun c hc => of_decide_eq_true (List.all_eq_true.mp hall c hc)

theorem past_text {l : Lexeme} (h : l.Proper) (pos : Pos) :
    pos.past l.text.toList = pos.after l := by
  rw [past_of_inLine (ne_lineFeed_of_proper h), Pos.after, String.length_toList]

/-- **The lexer cuts** a text. -/
theorem cut_lexFrom (cs : List Char) (pos : Pos) :
    Cut pos cs (lexFrom cs pos).1 (lexFrom cs pos).2 := by
  -- the induction is on the text that is left
  induction hn : cs.length using Nat.strongRecOn generalizing cs pos with
  | ind n ih =>
    refine cut_of_skip cs pos ?_
    have hshorter := length_skip_le false cs pos
    rw [lexFrom_eq, front]
    cases hskip : skip false cs pos with
    | mk left start =>
      rw [hskip] at hshorter
      cases left with
      | nil => exact .finished
      | cons c rest =>
        cases hscan : scan (c :: rest) with
        | none =>
          -- the lexer finds no lexeme, and has skipped everything else
          simp only [hscan]
          refine .stray fun piece l hpiece hfront => ?_
          cases l with
          | none => exact not_gap_of_skip hskip hpiece hfront
          | some l =>
            cases hpiece with
            | lexeme hl =>
              obtain ⟨_, _, hfound, _⟩ := exists_scan_of_text hl hfront
              rw [hscan] at hfound
              cases hfound
        | some found =>
          obtain ⟨l, after⟩ := found
          simp only [hscan]
          have hfront := foremost_of_scan hscan
          have hpos := past_text (proper_of_scan hscan) start
          rw [← hpos]
          refine .token hfront (ih _ ?_ _ _ rfl)
          have hlength := length_lt_of_scan hscan
          simp only at hshorter
          omega

/-- **The tokens of a text** are those that it is cut into. -/
theorem cut_iff_lex {text : String} {ts : List Token} {ending : Ending} :
    Cut .first text.toList ts ending ↔ lex text = (ts, ending) := by
  have hlex : Cut .first text.toList (lex text).1 (lex text).2 := cut_lexFrom _ _
  constructor
  · intro h
    obtain ⟨hts, hending⟩ := hlex.unique h
    exact Prod.ext hts hending
  · intro h
    rw [h] at hlex
    exact hlex

end BorrowFlow.Source
