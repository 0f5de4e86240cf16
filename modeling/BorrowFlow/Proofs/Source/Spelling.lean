import BorrowFlow.Source.Lexer
import Mathlib.Data.List.TakeWhile

/-! # Texts and their tokens

    A text that is put together from pieces is cut where the pieces meet, unless a word
    runs on from one piece into the next.  `Spelled` says what tokens a piece gives
    wherever it stands; there is one rule for each kind of lexeme and one for putting
    pieces together (`Spelled.append`).

    The other way round, whatever the lexer finds is a proper lexeme
    (`proper_of_mem_lex`): its own text gives it back (`scan_text`).
-/

namespace BorrowFlow.Source

/-! ## Proper lexemes -/

/-- A word: a letter or an underscore, then letters, digits and underscores. -/
def IsWord (cs : List Char) : Prop :=
  ∃ c rest, cs = c :: rest ∧ isNameStart c = true ∧ ∀ x ∈ rest, isNameChar x = true

/-- A name is a word, and no keyword. -/
def IsName (s : String) : Prop := IsWord s.toList ∧ Keyword.ofWord? s = none

/-- A region is a word after an apostrophe. -/
def IsRegion (s : String) : Prop := ∃ w, s.toList = '\'' :: w ∧ IsWord w

/-- A number is one digit or more. -/
def IsNumber (s : String) : Prop :=
  ∃ c rest, s.toList = c :: rest ∧ c.isDigit = true ∧ ∀ x ∈ rest, x.isDigit = true

/-- **A proper lexeme** is one that a text can hold. -/
def Lexeme.Proper : Lexeme → Prop
  | .name s => IsName s
  | .region s => IsRegion s
  | .number s => IsNumber s
  | .keyword _ => True
  | .mark _ => True

theorem isNameChar_of_isNameStart {c : Char} (h : isNameStart c = true) : isNameChar c = true := by
  simp [isNameChar, h]

theorem isNameChar_of_isDigit {c : Char} (h : c.isDigit = true) : isNameChar c = true := by
  simp [isNameChar, h]

/-- No name begins with a digit. -/
theorem isNameStart_of_isDigit {c : Char} (h : c.isDigit = true) : ¬ isNameStart c = true := by
  have hdigit : 48 ≤ c.val.toNat ∧ c.val.toNat ≤ 57 := by
    simpa [Char.isDigit, UInt32.le_iff_toNat_le] using h
  intro hstart
  rw [isNameStart, Bool.or_eq_true, decide_eq_true_eq] at hstart
  rcases hstart with hletter | rfl
  · -- the letters come after the digits
    have hcode : (decide (65 ≤ c.val ∧ c.val ≤ 90) ||
        (decide (97 ≤ c.val) && decide (c.val ≤ 122))) = true := hletter
    simp only [Bool.or_eq_true, Bool.and_eq_true, decide_eq_true_eq,
      UInt32.le_iff_toNat_le] at hcode
    rcases hcode with hupper | hlower
    · have hge : 65 ≤ c.val.toNat := hupper.1
      omega
    · have hge : 97 ≤ c.val.toNat := hlower.1
      omega
  · exact absurd hdigit.2 (by decide)

/-- All characters of a word can stand in one. -/
theorem IsWord.forall_isNameChar {cs : List Char} (h : IsWord cs) :
    ∀ x ∈ cs, isNameChar x = true := by
  obtain ⟨c, rest, rfl, hstart, hrest⟩ := h
  exact List.forall_mem_cons.mpr ⟨isNameChar_of_isNameStart hstart, hrest⟩

/-! ## Where a lexeme ends -/

/-- **No word runs on** from one text into the next. -/
def Clear (cs rest : List Char) : Prop :=
  ∀ c, cs.getLast? = some c → ∀ d, rest.head? = some d →
    ¬ (isNameChar c = true ∧ isNameChar d = true)

/-- A text of word characters ends where no word runs on. -/
theorem Clear.stops {c : Char} {cs rest : List Char} (h : Clear (c :: cs) rest)
    (hword : ∀ x ∈ c :: cs, isNameChar x = true) :
    ∀ d, rest.head? = some d → isNameChar d = false := by
  intro d hd
  obtain ⟨last, hlast⟩ : ∃ last, (c :: cs).getLast? = some last :=
    ⟨_, List.getLast?_eq_some_getLast (List.cons_ne_nil c cs)⟩
  have hchar := hword last (List.mem_of_getLast? hlast)
  simpa [hchar] using h last hlast d hd

/-- What comes before a stop is taken whole. -/
theorem span_of_stops {p : Char → Bool} {cs rest : List Char} (hcs : ∀ x ∈ cs, p x = true)
    (hrest : ∀ d, rest.head? = some d → p d = false) :
    (cs ++ rest).takeWhile p = cs ∧ (cs ++ rest).dropWhile p = rest := by
  have htake : rest.takeWhile p = [] := by
    cases rest with
    | nil => rfl
    | cons d rest => simp [hrest d rfl]
  have hdrop : rest.dropWhile p = rest := by
    cases rest with
    | nil => rfl
    | cons d rest => simp [hrest d rfl]
  rw [List.takeWhile_append_of_pos hcs, List.dropWhile_append_of_pos hcs, htake, hdrop]
  simp

theorem scan_word {cs rest : List Char} (hword : IsWord cs) (hclear : Clear cs rest) :
    scan (cs ++ rest) = some (.ofWord (String.ofList cs), rest) := by
  have hall := hword.forall_isNameChar
  obtain ⟨c, tail, rfl, hstart, htail⟩ := hword
  obtain ⟨htake, hdrop⟩ := span_of_stops htail (hclear.stops hall)
  rw [List.cons_append, scan, if_pos hstart, htake, hdrop]

theorem isWord_keyword (k : Keyword) : IsWord k.word.toList := by
  cases k <;> exact ⟨_, _, rfl, rfl, List.all_eq_true.mp rfl⟩

theorem ofWord_keyword (k : Keyword) : Lexeme.ofWord k.word = .keyword k := by
  cases k <;> decide

theorem scan_number {s : String} {rest : List Char} (h : IsNumber s)
    (hclear : Clear s.toList rest) : scan (s.toList ++ rest) = some (.number s, rest) := by
  obtain ⟨c, tail, hs, hc, htail⟩ := h
  have hall : ∀ x ∈ c :: tail, isNameChar x = true :=
    List.forall_mem_cons.mpr
      ⟨isNameChar_of_isDigit hc, fun x hx => isNameChar_of_isDigit (htail x hx)⟩
  rw [hs] at hclear ⊢
  -- a letter after the digits would be read as a token of its own, but is ruled out as well
  have hstop : ∀ d, rest.head? = some d → d.isDigit = false := by
    intro d hd
    have hnot := hclear.stops hall d hd
    rw [isNameChar, Bool.or_eq_false_iff] at hnot
    exact hnot.2
  obtain ⟨htake, hdrop⟩ := span_of_stops htail hstop
  have hstart := isNameStart_of_isDigit hc
  rw [List.cons_append, scan, if_neg hstart, if_pos hc, htake, hdrop, ← hs, String.ofList_toList]

theorem scan_region {s : String} {rest : List Char} (h : IsRegion s)
    (hclear : Clear s.toList rest) : scan (s.toList ++ rest) = some (.region s, rest) := by
  obtain ⟨w, hs, hword⟩ := h
  have hall := hword.forall_isNameChar
  obtain ⟨c, tail, rfl, hstart, htail⟩ := hword
  rw [hs] at hclear ⊢
  -- the tick before the word does not change its last character
  have hclear' : Clear (c :: tail) rest := fun d hd => hclear d (by simpa using hd)
  obtain ⟨htake, hdrop⟩ := span_of_stops htail (hclear'.stops hall)
  show scanRegion (c :: tail ++ rest) = _
  rw [List.cons_append, scanRegion, if_pos hstart, htake, hdrop, ← hs, String.ofList_toList]

theorem scan_mark (m : Mark) (rest : List Char) :
    scan (m.text.toList ++ rest) = some (.mark m, rest) := by
  cases m <;> rfl

/-- **A proper lexeme is read off its own text**, where no word runs on. -/
theorem scan_text {l : Lexeme} (h : l.Proper) {rest : List Char}
    (hclear : Clear l.text.toList rest) : scan (l.text.toList ++ rest) = some (l, rest) := by
  cases l with
  | name s =>
    have hscan : scan (s.toList ++ rest) = some (.ofWord (String.ofList s.toList), rest) :=
      scan_word h.1 hclear
    rw [String.ofList_toList, Lexeme.ofWord, h.2] at hscan
    exact hscan
  | region s => exact scan_region h hclear
  | number s => exact scan_number h hclear
  | keyword k =>
    have hscan : scan (k.word.toList ++ rest) =
        some (.ofWord (String.ofList k.word.toList), rest) :=
      scan_word (isWord_keyword k) hclear
    rw [String.ofList_toList, ofWord_keyword] at hscan
    exact hscan
  | mark m => exact scan_mark m rest

/-! ## What the lexer finds -/

theorem proper_of_scanRegion {cs rest : List Char} {l : Lexeme}
    (h : scanRegion cs = some (l, rest)) : l.Proper := by
  cases cs with
  | nil => cases h
  | cons c cs =>
    rw [scanRegion] at h
    split at h
    · next hstart =>
      cases h
      refine ⟨c :: cs.takeWhile isNameChar, String.toList_ofList, c, _, rfl, hstart, ?_⟩
      exact fun x hx => List.mem_takeWhile_imp hx
    · cases h

/-- **The lexer finds proper lexemes only.** -/
theorem proper_of_scan {cs rest : List Char} {l : Lexeme} (h : scan cs = some (l, rest)) :
    l.Proper := by
  cases cs with
  | nil => cases h
  | cons c cs =>
    rw [scan] at h
    split at h
    · next hstart =>
      cases h
      rw [Lexeme.ofWord]
      split
      · trivial
      · next hnone =>
        refine ⟨⟨c, cs.takeWhile isNameChar, String.toList_ofList, hstart, ?_⟩, hnone⟩
        exact fun x hx => List.mem_takeWhile_imp hx
    split at h
    · next hdigit =>
      cases h
      refine ⟨c, cs.takeWhile Char.isDigit, String.toList_ofList, hdigit, ?_⟩
      exact fun x hx => List.mem_takeWhile_imp hx
    split at h
    · exact proper_of_scanRegion h
    split at h
    · cases cs with
      | nil => cases h
      | cons d cs =>
        rw [scanArrow] at h
        split at h
        · cases h
          trivial
        · cases h
    · obtain ⟨m, _, hm⟩ := Option.map_eq_some_iff.mp h
      cases hm
      trivial

theorem proper_of_front {cs rest : List Char} {pos : Pos} {t : Token}
    (h : front cs pos = .token t rest) : t.lexeme.Proper := by
  rw [front] at h
  split at h
  · cases h
  · split at h
    · cases h
    · next hscan =>
      cases h
      exact proper_of_scan hscan

theorem proper_of_mem_lexFrom (cs : List Char) (pos : Pos) :
    ∀ t ∈ (lexFrom cs pos).1, t.lexeme.Proper := by
  -- the induction is on the text that is left
  induction hn : cs.length using Nat.strongRecOn generalizing cs pos with
  | ind n ih =>
    rw [lexFrom]
    split
    · simp
    · simp
    · next t rest hfront =>
      have hrest := ih _ (hn ▸ length_lt_of_front hfront) rest t.extent.stop rfl
      exact List.forall_mem_cons.mpr ⟨proper_of_front hfront, hrest⟩

/-- **All tokens of a text are proper.** -/
theorem proper_of_mem_lex {text : String} {t : Token} (h : t ∈ (lex text).1) : t.lexeme.Proper :=
  proper_of_mem_lexFrom text.toList .first t h

/-! ## Pieces of text -/

/-- **What a piece of text gives.**  Wherever it stands, as long as no word runs on from
    it, it is cut into tokens as `P` says, and what follows is cut as if it stood alone. -/
def Spelled (cs : List Char) (P : List Token → Prop) : Prop :=
  ∀ rest pos, Clear cs rest → ∃ ts pos', P ts ∧
    lexFrom (cs ++ rest) pos = (ts ++ (lexFrom rest pos').1, (lexFrom rest pos').2)

theorem Spelled.mono {cs : List Char} {P Q : List Token → Prop} (h : Spelled cs P)
    (hPQ : ∀ ts, P ts → Q ts) : Spelled cs Q := by
  intro rest pos hclear
  obtain ⟨ts, pos', hts, hlex⟩ := h rest pos hclear
  exact ⟨ts, pos', hPQ ts hts, hlex⟩

theorem spelled_nil : Spelled [] (· = []) := fun _ pos _ => ⟨[], pos, rfl, rfl⟩

/-- The tokens of a text, from what stands at its front. -/
theorem lexFrom_eq (cs : List Char) (pos : Pos) : lexFrom cs pos = match front cs pos with
    | .empty => ([], .finished)
    | .stray c start => ([], .stray c start)
    | .token t rest => (t :: (lexFrom rest t.extent.stop).1, (lexFrom rest t.extent.stop).2) := by
  rw [lexFrom]
  split
  · next h => rw [h]
  · next h => rw [h]
  · next h => rw [h]

theorem lexFrom_nil (pos : Pos) : lexFrom [] pos = ([], .finished) := by
  rw [lexFrom_eq]
  rfl

/-- A blank only separates. -/
theorem spelled_blank : Spelled [' '] (· = []) := by
  intro rest pos _
  refine ⟨[], pos.advance ' ', rfl, ?_⟩
  have hfront : front (' ' :: rest) pos = front rest (pos.advance ' ') := by
    rw [front, front]
    rfl
  show lexFrom (' ' :: rest) pos = lexFrom rest (pos.advance ' ')
  rw [lexFrom_eq, hfront, ← lexFrom_eq]

theorem skip_of_isNameChar {c : Char} (h : isNameChar c = true) (cs : List Char) (pos : Pos) :
    skip false (c :: cs) pos = (c :: cs, pos) := by
  have hspace : isSpace c = false := by
    by_contra hspace
    simp only [Bool.not_eq_false, isSpace, Bool.or_eq_true, decide_eq_true_eq] at hspace
    rcases hspace with (((rfl | rfl) | rfl) | rfl) | rfl <;> revert h <;> decide
  have hcomment : c ≠ '#' := by
    rintro rfl
    revert h
    decide
  simp [skip, hspace, hcomment]

/-- A proper lexeme begins with neither a blank nor a comment. -/
theorem skip_text {l : Lexeme} (h : l.Proper) (rest : List Char) (pos : Pos) :
    skip false (l.text.toList ++ rest) pos = (l.text.toList ++ rest, pos) := by
  have word : ∀ {cs : List Char}, IsWord cs → skip false (cs ++ rest) pos = (cs ++ rest, pos) := by
    rintro _ ⟨c, tail, rfl, hstart, _⟩
    exact skip_of_isNameChar (isNameChar_of_isNameStart hstart) _ pos
  cases l with
  | name s => exact word h.1
  | region s =>
    obtain ⟨w, hs, _⟩ := h
    rw [Lexeme.text, hs]
    rfl
  | number s =>
    obtain ⟨c, tail, hs, hc, _⟩ := h
    rw [Lexeme.text, hs]
    exact skip_of_isNameChar (isNameChar_of_isDigit hc) _ pos
  | keyword k => exact word (isWord_keyword k)
  | mark m => cases m <;> rfl

/-- **A proper lexeme** gives a token of itself. -/
theorem spelled_lexeme {l : Lexeme} (h : l.Proper) :
    Spelled l.text.toList fun ts => ∃ t, ts = [t] ∧ t.lexeme = l := by
  intro rest pos hclear
  have hscan := scan_text h hclear
  refine ⟨[⟨l, ⟨pos, pos.after l⟩⟩], pos.after l, ⟨_, rfl, rfl⟩, ?_⟩
  have hfront : front (l.text.toList ++ rest) pos = .token ⟨l, ⟨pos, pos.after l⟩⟩ rest := by
    rw [front, skip_text h]
    cases htext : l.text.toList ++ rest with
    | nil =>
      rw [htext] at hscan
      cases hscan
    | cons c cs =>
      rw [htext] at hscan
      simp only [hscan]
  rw [lexFrom_eq, hfront]
  rfl

/-- **Pieces put together.** -/
theorem Spelled.append {cs cs' : List Char} {P Q : List Token → Prop} (h : Spelled cs P)
    (h' : Spelled cs' Q) (hclear : Clear cs cs') :
    Spelled (cs ++ cs') fun ts => ∃ us vs, ts = us ++ vs ∧ P us ∧ Q vs := by
  intro rest pos hrest
  have hfirst : Clear cs (cs' ++ rest) := by
    intro c hc d hd
    cases cs' with
    | nil =>
      rw [List.append_nil] at hrest
      exact hrest c hc d hd
    | cons x cs' => exact hclear c hc d hd
  have hsecond : Clear cs' rest := by
    intro c hc d hd
    refine hrest c ?_ d hd
    rw [List.getLast?_append, hc]
    rfl
  obtain ⟨us, mid, hus, hlex⟩ := h (cs' ++ rest) pos hfirst
  obtain ⟨vs, last, hvs, hlex'⟩ := h' rest mid hsecond
  refine ⟨us ++ vs, last, ⟨us, vs, rfl, hus, hvs⟩, ?_⟩
  rw [List.append_assoc, hlex, hlex', List.append_assoc]

/-! ## Pieces one after the other -/

/-- A piece that does not begin inside a word, so that nothing runs on into it. -/
def Sharp (cs : List Char) : Prop := ∀ d, cs.head? = some d → isNameChar d = false

theorem Sharp.clear {cs : List Char} (h : Sharp cs) (before : List Char) : Clear before cs := by
  intro c _ d hd
  simp [h d hd]

theorem sharp_nil : Sharp [] := nofun

theorem sharp_blank (cs : List Char) : Sharp (' ' :: cs) := by
  rintro _ ⟨⟩
  decide

/-- No mark holds a character of a word. -/
theorem isNameChar_of_mem_mark {m : Mark} {c : Char} (h : c ∈ m.text.toList) :
    isNameChar c = false := by
  have hall : (m.text.toList.all fun c => !isNameChar c) = true := by
    cases m <;> rfl
  simpa using List.all_eq_true.mp hall c h

theorem sharp_mark (m : Mark) (cs : List Char) : Sharp (m.text.toList ++ cs) := by
  cases m <;> · rintro _ ⟨⟩; decide

section Sequence

variable {cs cs' : List Char} {P Q : List Token → Prop}

/-- A piece after a blank. -/
theorem Spelled.blank (h : Spelled cs P) : Spelled (' ' :: cs) P := by
  have hclear : Clear [' '] cs := by
    rintro _ ⟨⟩ d _
    simp [isNameChar, isNameStart]
  refine (spelled_blank.append h hclear).mono ?_
  rintro _ ⟨_, vs, rfl, rfl, hvs⟩
  exact hvs

/-- A piece after a word or a mark that does not run on into it. -/
theorem Spelled.after {l : Lexeme} (hl : l.Proper) (hclear : Clear l.text.toList cs)
    (h : Spelled cs P) :
    Spelled (l.text.toList ++ cs) fun ts => ∃ t us, ts = t :: us ∧ t.lexeme = l ∧ P us := by
  refine ((spelled_lexeme hl).append h hclear).mono ?_
  rintro _ ⟨_, us, rfl, ⟨t, rfl, ht⟩, hus⟩
  exact ⟨t, us, rfl, ht, hus⟩

/-- **A mark, then a piece.** -/
theorem Spelled.mark (m : Mark) (h : Spelled cs P) :
    Spelled (m.text.toList ++ cs) fun ts => ∃ t us, ts = t :: us ∧ t.lexeme = .mark m ∧ P us := by
  have hclear : Clear m.text.toList cs := by
    intro c hc _ _
    simp [isNameChar_of_mem_mark (List.mem_of_getLast? hc)]
  exact Spelled.after (l := .mark m) trivial hclear h

/-- **A word, then a piece** that is sharp. -/
theorem Spelled.word {l : Lexeme} (hl : l.Proper) (hsharp : Sharp cs) (h : Spelled cs P) :
    Spelled (l.text.toList ++ cs) fun ts => ∃ t us, ts = t :: us ∧ t.lexeme = l ∧ P us :=
  h.after hl (hsharp.clear _)

/-- **A piece, then a sharp one.** -/
theorem Spelled.seq (h : Spelled cs P) (hsharp : Sharp cs') (h' : Spelled cs' Q) :
    Spelled (cs ++ cs') fun ts => ∃ us vs, ts = us ++ vs ∧ P us ∧ Q vs :=
  h.append h' (hsharp.clear _)

end Sequence

/-- The tokens of a whole text. -/
theorem Spelled.lex_eq {text : String} {P : List Token → Prop} (h : Spelled text.toList P) :
    ∃ ts, P ts ∧ lex text = (ts, .finished) := by
  obtain ⟨ts, pos, hts, hlex⟩ := h [] .first (fun _ _ _ hd => by cases hd)
  rw [List.append_nil, lexFrom_nil, List.append_nil] at hlex
  exact ⟨ts, hts, hlex⟩

end BorrowFlow.Source
