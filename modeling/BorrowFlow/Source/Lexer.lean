import BorrowFlow.Source.Token

/-! # Lexing

  A text is cut into tokens from left to right, each as long as it can be.
  Blanks and comments, which run from `#` to the end of the line, only separate
  tokens.  Lexing stops at the first character that begins no token.

  - `scan`: the token at the front of a text.
  - `lex`: all tokens of a text, and how they end.
-/

namespace BorrowFlow.Source

/-- Blank, tab, form feed, carriage return and line feed. -/
def isSpace (c : Char) : Bool :=
  c = ' ' || c = '\t' || c = '\x0c' || c = '\r' || c = '\n'

/-- May a name begin with this character?  ASCII letters and the underscore. -/
def isNameStart (c : Char) : Bool := c.isAlpha || c = '_'

/-- May a name go on with this character? -/
def isNameChar (c : Char) : Bool := isNameStart c || c.isDigit

/-- How the tokens of a text end. -/
inductive Ending where
  /-- At the end of the text. -/
  | finished
  /-- At a character that begins no token. -/
  | stray (c : Char) (pos : Pos)
  deriving DecidableEq, Inhabited

/-- Skip blanks and comments.  `comment` says whether we are inside one. -/
def skip (comment : Bool) : List Char → Pos → List Char × Pos
  | [], pos => ([], pos)
  | c :: cs, pos =>
    if comment then skip (c ≠ '\n') cs (pos.advance c)
    else if isSpace c then skip false cs (pos.advance c)
    else if c = '#' then skip true cs (pos.advance c)
    else (c :: cs, pos)

/-- A region after its apostrophe. -/
def scanRegion : List Char → Option (Lexeme × List Char)
  | [] => none
  | c :: cs =>
    if isNameStart c then
      some (.region (String.ofList ('\'' :: c :: cs.takeWhile isNameChar)),
        cs.dropWhile isNameChar)
    else none

/-- An arrow after its dash. -/
def scanArrow : List Char → Option (Lexeme × List Char)
  | [] => none
  | c :: cs => if c = '>' then some (.mark .arrow, cs) else none

/-- The lexeme at the front of a text that does not begin with a blank or a
    comment, and what follows it. -/
def scan : List Char → Option (Lexeme × List Char)
  | [] => none
  | c :: cs =>
    if isNameStart c then
      some (.ofWord (String.ofList (c :: cs.takeWhile isNameChar)), cs.dropWhile isNameChar)
    else if c.isDigit then
      some (.number (String.ofList (c :: cs.takeWhile Char.isDigit)), cs.dropWhile Char.isDigit)
    else if c = '\'' then scanRegion cs
    else if c = '-' then scanArrow cs
    else (Mark.ofChar? c).map fun m => (.mark m, cs)

/-! ## Progress -/

theorem length_dropWhile_le {α : Type} (p : α → Bool) (l : List α) :
    (l.dropWhile p).length ≤ l.length :=
  (List.dropWhile_sublist p).length_le

theorem length_skip_le (comment : Bool) (cs : List Char) (pos : Pos) :
    (skip comment cs pos).1.length ≤ cs.length := by
  induction cs generalizing comment pos with
  | nil => simp [skip]
  | cons c cs ih =>
    have later : ∀ comment pos, (skip comment cs pos).1.length ≤ cs.length + 1 :=
      fun comment pos => Nat.le_succ_of_le (ih comment pos)
    rw [skip]
    split
    · exact later _ _
    split
    · exact later _ _
    split
    · exact later _ _
    · simp

theorem length_le_of_scanRegion {cs rest : List Char} {lexeme : Lexeme}
    (h : scanRegion cs = some (lexeme, rest)) : rest.length ≤ cs.length := by
  cases cs with
  | nil => simp [scanRegion] at h
  | cons c cs =>
    have names := length_dropWhile_le isNameChar cs
    simp only [scanRegion] at h
    split at h
    · simp only [Option.some.injEq, Prod.mk.injEq] at h
      rw [← h.2, List.length_cons]
      omega
    · simp at h

theorem length_le_of_scanArrow {cs rest : List Char} {lexeme : Lexeme}
    (h : scanArrow cs = some (lexeme, rest)) : rest.length ≤ cs.length := by
  cases cs with
  | nil => simp [scanArrow] at h
  | cons c cs =>
    simp only [scanArrow] at h
    split at h
    · simp only [Option.some.injEq, Prod.mk.injEq] at h
      rw [← h.2, List.length_cons]
      omega
    · simp at h

/-- **A token takes at least one character.** -/
theorem length_lt_of_scan {cs rest : List Char} {lexeme : Lexeme}
    (h : scan cs = some (lexeme, rest)) : rest.length < cs.length := by
  cases cs with
  | nil => simp [scan] at h
  | cons c cs =>
    have names := length_dropWhile_le isNameChar cs
    have digits := length_dropWhile_le Char.isDigit cs
    simp only [scan] at h
    rw [List.length_cons]
    split at h
    · simp only [Option.some.injEq, Prod.mk.injEq] at h
      rw [← h.2]
      omega
    split at h
    · simp only [Option.some.injEq, Prod.mk.injEq] at h
      rw [← h.2]
      omega
    split at h
    · exact Nat.lt_succ_of_le (length_le_of_scanRegion h)
    split at h
    · exact Nat.lt_succ_of_le (length_le_of_scanArrow h)
    · simp only [Option.map_eq_some_iff, Prod.mk.injEq] at h
      obtain ⟨_, _, _, rfl⟩ := h
      exact Nat.lt_succ_self _

/-! ## All tokens -/

/-- The position after a lexeme, which holds no line feed. -/
def Pos.after (p : Pos) (lexeme : Lexeme) : Pos := ⟨p.line, p.column + lexeme.text.length⟩

/-- What stands at the front of a text: nothing, a stray character, or a token
    and the text after it. -/
inductive Front where
  | empty
  | stray (c : Char) (pos : Pos)
  | token (t : Token) (rest : List Char)

/-- Skip to the next token and read it. -/
def front (cs : List Char) (pos : Pos) : Front :=
  match skip false cs pos with
  | ([], _) => .empty
  | (c :: cs, start) =>
    match scan (c :: cs) with
    | none => .stray c start
    | some (lexeme, rest) => .token ⟨lexeme, ⟨start, start.after lexeme⟩⟩ rest

theorem length_lt_of_front {cs rest : List Char} {pos : Pos} {t : Token}
    (h : front cs pos = .token t rest) : rest.length < cs.length := by
  have hskip := length_skip_le false cs pos
  revert h
  rw [front]
  split
  · simp
  next heq =>
    rw [heq] at hskip
    split
    · simp
    next hscan =>
      intro h
      simp only [Front.token.injEq] at h
      rw [← h.2]
      exact Nat.lt_of_lt_of_le (length_lt_of_scan hscan) hskip

/-- The tokens of a text from a position on, and how they end. -/
def lexFrom (cs : List Char) (pos : Pos) : List Token × Ending :=
  match _h : front cs pos with
  | .empty => ([], .finished)
  | .stray c start => ([], .stray c start)
  | .token t rest =>
    let (tokens, ending) := lexFrom rest t.extent.stop
    (t :: tokens, ending)
termination_by cs.length
decreasing_by exact length_lt_of_front _h

/-- The tokens of a text, and how they end. -/
def lex (text : String) : List Token × Ending := lexFrom text.toList .first

end BorrowFlow.Source
