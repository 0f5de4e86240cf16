import BorrowFlow.Proofs.Source.Cutting
import BorrowFlow.Proofs.Source.Lookahead

/-! # Which texts are programs

    The parser accepts a text if and only if its tokens are a program, and otherwise it
    reports the first place where they stop being the beginning of one
    (`parse_iff_program`).  Both the lexer and the grammar are told without the parser here:
    by the way a text is cut (`Cut`) and by the sentences of the grammar (`IsProgram`).
-/

namespace BorrowFlow.Source

/-- These tokens are a program. -/
def Derivable (ts : List Token) : Prop := ∃ program, IsProgram ts program

/-- **These tokens are the beginning of a program.** -/
def Viable (ts : List Token) : Prop := ∃ us, Derivable (ts ++ us)

/-- **The first token** that no program goes on with. -/
def BreaksAt (ts : List Token) (t : Token) : Prop :=
  ∃ before after, ts = before ++ t :: after ∧ Viable before ∧ ¬ Viable (before ++ [t])

theorem Derivable.viable {ts : List Token} (h : Derivable ts) : Viable ts :=
  ⟨[], by rwa [List.append_nil]⟩

theorem Viable.of_append {ts us : List Token} (h : Viable (ts ++ us)) : Viable ts := by
  obtain ⟨vs, hvs⟩ := h
  rw [List.append_assoc] at hvs
  exact ⟨us ++ vs, hvs⟩

theorem BreaksAt.not_viable {ts : List Token} {t : Token} (h : BreaksAt ts t) : ¬ Viable ts := by
  obtain ⟨before, after, rfl, _, hnot⟩ := h
  intro hviable
  rw [List.append_cons] at hviable
  exact hnot hviable.of_append

/-- What comes before the first token that breaks off is no longer than what is viable. -/
theorem length_le_of_breaksAt {before after before' after' : List Token} {t t' : Token}
    (hsplit : before ++ t :: after = before' ++ t' :: after')
    (hnot : ¬ Viable (before ++ [t])) (hviable : Viable before') :
    before'.length ≤ before.length := by
  by_contra hlonger
  have hfront : before ++ [t] <+: before' ++ t' :: after' := by
    rw [← hsplit, List.append_cons before t after]
    exact List.prefix_append _ _
  have hlength : (before ++ [t]).length ≤ before'.length := by
    rw [List.length_append, List.length_singleton]
    omega
  obtain ⟨more, rfl⟩ :=
    List.prefix_of_prefix_length_le hfront (List.prefix_append _ _) hlength
  exact hnot hviable.of_append

/-- Only one token is the first. -/
theorem BreaksAt.unique {ts : List Token} {t t' : Token} (h : BreaksAt ts t)
    (h' : BreaksAt ts t') : t = t' := by
  obtain ⟨before, after, rfl, hviable, hnot⟩ := h
  obtain ⟨before', after', hsplit, hviable', hnot'⟩ := h'
  have hlength : before.length = before'.length :=
    Nat.le_antisymm (length_le_of_breaksAt hsplit.symm hnot' hviable)
      (length_le_of_breaksAt hsplit hnot hviable')
  obtain ⟨_, htail⟩ := List.append_inj hsplit hlength
  exact (List.cons.inj htail).1

/-! ## Runs of the parser -/

theorem functions_of_isProgram {ts : List Token} {program : List FunctionDecl}
    (h : IsProgram ts program) {limit : Nat} (hlimit : ts.length < limit) :
    functions limit limit ts = .ok (program, []) := by
  have hread := reads_functions h hlimit hlimit [] rfl
  rwa [List.append_nil] at hread

/-- **A run that succeeds** has read a program. -/
theorem isProgram_of_functions {ts rest : List Token} {program : List FunctionDecl}
    (h : functions (ts.length + 1) (ts.length + 1) ts = .ok (program, rest)) :
    IsProgram ts program := by
  have hexplains := (parses_functions (ts.length + 1) (ts.length + 1)).run ts
  rw [h] at hexplains
  obtain ⟨us, hsplit, found, hfound⟩ := hexplains
  rw [eq_nil_of_functions h, List.append_nil] at hsplit
  subst hsplit
  rw [functions_of_isProgram hfound (Nat.lt_succ_self _)] at h
  cases h
  exact hfound

/-- **A run that fails** has read the beginning of a program. -/
theorem exists_viable_of_functions {limit : Nat} {ts rest : List Token}
    (h : functions limit limit ts = .error rest) :
    ∃ before, ts = before ++ rest ∧ Viable before := by
  have hexplains := (parses_functions limit limit).run ts
  rw [h] at hexplains
  obtain ⟨before, hsplit, more, _, program, hprogram⟩ := hexplains
  exact ⟨before, hsplit, more, program, hprogram⟩

/-- **A token that stops a run** is one that no program goes on with.  On a program that did, a
    run with larger bounds would fail at the same token. -/
theorem breaksAt_of_functions {ts rest : List Token} {t : Token}
    (h : functions (ts.length + 1) (ts.length + 1) ts = .error (t :: rest)) : BreaksAt ts t := by
  obtain ⟨before, hsplit, hviable⟩ := exists_viable_of_functions h
  refine ⟨before, rest, hsplit, hviable, ?_⟩
  rintro ⟨us, program, hprogram⟩
  rw [List.append_assoc] at hprogram
  have hlength : before.length < ts.length + 1 := by
    rw [hsplit, List.length_append]
    omega
  -- bounds that are large enough for the program
  let limit := ts.length + 1 + (before ++ t :: us).length
  have hlimit : ts.length + 1 ≤ limit := Nat.le_add_right _ _
  have htracks := tracks_functions (Nat.le_refl _) hlimit (Nat.le_refl _) hlimit
  rcases htracks.agree before t rest us hlength with hread | ⟨c, _, hsame⟩
  · -- the run has not read `t`, since it is left over
    rw [← hsplit, h] at hread
    exact absurd hread (Nat.not_succ_le_self _)
  · have hfails : functions limit limit (before ++ t :: us) = .error (c ++ t :: us) :=
      hsame.of_error (by rw [← hsplit]; exact h)
    have hends : functions limit limit (before ++ t :: us) = .ok (program, []) :=
      functions_of_isProgram hprogram (Nat.lt_add_of_pos_left (Nat.succ_pos _))
    rw [hends] at hfails
    cases hfails

/-- **How a run ends.** -/
theorem functions_outcome (ts : List Token) :
    (∃ t rest, functions (ts.length + 1) (ts.length + 1) ts = .error (t :: rest) ∧
      BreaksAt ts t) ∨
    (functions (ts.length + 1) (ts.length + 1) ts = .error [] ∧ Viable ts ∧ ¬ Derivable ts) ∨
    ∃ program, functions (ts.length + 1) (ts.length + 1) ts = .ok (program, []) ∧
      IsProgram ts program := by
  cases hrun : functions (ts.length + 1) (ts.length + 1) ts with
  | error rest =>
    cases rest with
    | cons t rest => exact .inl ⟨t, rest, rfl, breaksAt_of_functions hrun⟩
    | nil =>
      obtain ⟨before, hsplit, hviable⟩ := exists_viable_of_functions hrun
      rw [List.append_nil] at hsplit
      subst hsplit
      refine .inr (.inl ⟨rfl, hviable, ?_⟩)
      rintro ⟨program, hprogram⟩
      rw [functions_of_isProgram hprogram (Nat.lt_succ_self _)] at hrun
      cases hrun
  | ok r =>
    obtain ⟨program, rest⟩ := r
    obtain rfl := eq_nil_of_functions hrun
    exact .inr (.inr ⟨program, rfl, isProgram_of_functions hrun⟩)

/-! ## Whole texts -/

/-- **How the tokens of a text are parsed.** -/
theorem parseTokens_outcome (ts : List Token) (ending : Ending) :
    (∃ t, parseTokens ts ending = .error (.unexpected t) ∧ BreaksAt ts t) ∨
    (∃ c pos, ending = .stray c pos ∧ parseTokens ts ending = .error (.stray c pos) ∧ Viable ts) ∨
    (∃ before last, ending = .finished ∧ ts = before ++ [last] ∧
      parseTokens ts ending = .error (.unfinished last.extent.start) ∧ Viable ts ∧
      ¬ Derivable ts) ∨
    ∃ program, ending = .finished ∧ parseTokens ts ending = .ok program ∧
      IsProgram ts program := by
  rcases functions_outcome ts with
    ⟨t, rest, hrun, hbreaks⟩ | ⟨hrun, hviable, hnot⟩ | ⟨program, hrun, hprogram⟩
  · exact .inl ⟨t, by simp only [parseTokens, StateT.run, hrun], hbreaks⟩
  · cases ending with
    | stray c pos =>
      exact .inr (.inl ⟨c, pos, rfl, by simp only [parseTokens, StateT.run, hrun], hviable⟩)
    | finished =>
      rcases List.eq_nil_or_concat ts with rfl | ⟨before, last, hts⟩
      · -- no tokens at all are a program
        exact absurd ⟨[], .nil⟩ hnot
      · rw [List.concat_eq_append] at hts
        have hlast : ts.getLast? = some last := by rw [hts, List.getLast?_concat]
        refine .inr (.inr (.inl ⟨before, last, rfl, hts, ?_, hviable, hnot⟩))
        simp only [parseTokens, StateT.run, hrun, hlast, Option.map_some, Option.getD_some]
  · cases ending with
    | stray c pos =>
      -- a whole program may stand before the stray character
      exact .inr (.inl ⟨c, pos, rfl, by simp only [parseTokens, StateT.run, hrun],
        Derivable.viable ⟨program, hprogram⟩⟩)
    | finished =>
      exact .inr (.inr (.inr
        ⟨program, rfl, by simp only [parseTokens, StateT.run, hrun], hprogram⟩))

theorem isProgram_unique {ts : List Token} {program program' : List FunctionDecl}
    (h : IsProgram ts program) (h' : IsProgram ts program') : program = program' := by
  have hrun := functions_of_isProgram h (Nat.lt_succ_self _)
  rw [functions_of_isProgram h' (Nat.lt_succ_self _)] at hrun
  cases hrun
  rfl

section Outcomes

variable {ts : List Token} {ending : Ending}

theorem parseTokens_ok_iff {program : List FunctionDecl} :
    parseTokens ts ending = .ok program ↔ ending = .finished ∧ IsProgram ts program := by
  rcases parseTokens_outcome ts ending with ⟨t, hparse, hbreaks⟩ | ⟨c, pos, rfl, hparse, _⟩ |
    ⟨_, _, _, _, hparse, _, hnot⟩ | ⟨found, hending, hparse, hfound⟩
  · rw [hparse]
    exact ⟨nofun, fun h => absurd (Derivable.viable ⟨_, h.2⟩) hbreaks.not_viable⟩
  · rw [hparse]
    exact ⟨nofun, fun h => nomatch h.1⟩
  · rw [hparse]
    exact ⟨nofun, fun h => absurd ⟨_, h.2⟩ hnot⟩
  · rw [hparse, Except.ok.injEq]
    exact ⟨fun h => ⟨hending, h ▸ hfound⟩, fun h => isProgram_unique hfound h.2⟩

theorem parseTokens_unexpected_iff {t : Token} :
    parseTokens ts ending = .error (.unexpected t) ↔ BreaksAt ts t := by
  rcases parseTokens_outcome ts ending with ⟨found, hparse, hbreaks⟩ | ⟨_, _, _, hparse, hviable⟩ |
    ⟨_, _, _, _, hparse, hviable, _⟩ | ⟨program, _, hparse, hprogram⟩
  · rw [hparse, Except.error.injEq, SyntaxFault.unexpected.injEq]
    exact ⟨fun h => h ▸ hbreaks, hbreaks.unique⟩
  · rw [hparse]
    exact ⟨nofun, fun h => absurd hviable h.not_viable⟩
  · rw [hparse]
    exact ⟨nofun, fun h => absurd hviable h.not_viable⟩
  · rw [hparse]
    exact ⟨nofun, fun h => absurd (Derivable.viable ⟨program, hprogram⟩) h.not_viable⟩

theorem parseTokens_unfinished_iff {pos : Pos} :
    parseTokens ts ending = .error (.unfinished pos) ↔
      ∃ before last, ending = .finished ∧ ts = before ++ [last] ∧ pos = last.extent.start ∧
        Viable ts ∧ ¬ Derivable ts := by
  rcases parseTokens_outcome ts ending with ⟨_, hparse, hbreaks⟩ | ⟨_, _, rfl, hparse, _⟩ |
    ⟨before, last, hending, rfl, hparse, hviable, hnot⟩ | ⟨program, _, hparse, hprogram⟩
  · rw [hparse]
    refine ⟨nofun, ?_⟩
    rintro ⟨_, _, _, _, _, hviable, _⟩
    exact absurd hviable hbreaks.not_viable
  · rw [hparse]
    refine ⟨nofun, ?_⟩
    rintro ⟨_, _, hending, _⟩
    cases hending
  · rw [hparse, Except.error.injEq, SyntaxFault.unfinished.injEq]
    constructor
    · rintro rfl
      exact ⟨before, last, hending, rfl, rfl, hviable, hnot⟩
    · rintro ⟨before', last', _, hsplit, rfl, _⟩
      obtain ⟨_, hlast⟩ := List.append_inj' hsplit rfl
      cases hlast
      rfl
  · rw [hparse]
    refine ⟨nofun, ?_⟩
    rintro ⟨_, _, _, _, _, _, hnot⟩
    exact absurd ⟨program, hprogram⟩ hnot

theorem parseTokens_stray_iff {c : Char} {pos : Pos} :
    parseTokens ts ending = .error (.stray c pos) ↔ ending = .stray c pos ∧ Viable ts := by
  rcases parseTokens_outcome ts ending with ⟨_, hparse, hbreaks⟩ | ⟨_, _, rfl, hparse, hviable⟩ |
    ⟨_, _, rfl, _, hparse, _⟩ | ⟨_, rfl, hparse, _⟩
  · rw [hparse]
    exact ⟨nofun, fun h => absurd h.2 hbreaks.not_viable⟩
  · rw [hparse, Except.error.injEq, SyntaxFault.stray.injEq, Ending.stray.injEq]
    exact (and_iff_left hviable).symm
  · rw [hparse]
    exact ⟨nofun, fun h => nomatch h.1⟩
  · rw [hparse]
    exact ⟨nofun, fun h => nomatch h.1⟩

end Outcomes

/-- **The parser accepts programs and nothing else**, and reports the first fault.  A text is cut
    in one way into tokens `ts`, up to its end or to a stray character.

    * It is parsed if it has no stray character and `ts` is a program by the grammar.
    * A token is reported if it is the first one with which the tokens up to it are no longer
      the beginning of a program.
    * The end of the text is reported, with the place of its last token, if all tokens are the
      beginning of a program and there is no stray character, but they are no program.
    * A stray character is reported if the tokens before it are the beginning of a program. -/
theorem parse_iff_program (text : String) :
    ∃ ts ending,
      (∀ ts' ending', Cut .first text.toList ts' ending' ↔ ts' = ts ∧ ending' = ending) ∧
      (∀ program, parseText text = .ok program ↔ ending = .finished ∧ IsProgram ts program) ∧
      (∀ t, parseText text = .error (.unexpected t) ↔
        ∃ before after, ts = before ++ t :: after ∧ Viable before ∧ ¬ Viable (before ++ [t])) ∧
      (∀ pos, parseText text = .error (.unfinished pos) ↔
        ∃ before last, ending = .finished ∧ ts = before ++ [last] ∧ pos = last.extent.start ∧
          Viable ts ∧ ¬ Derivable ts) ∧
      ∀ c pos, parseText text = .error (.stray c pos) ↔ ending = .stray c pos ∧ Viable ts := by
  refine ⟨(lex text).1, (lex text).2, fun ts ending => ?_, fun _ => parseTokens_ok_iff,
    fun _ => parseTokens_unexpected_iff, fun _ => parseTokens_unfinished_iff,
    fun _ _ => parseTokens_stray_iff⟩
  rw [cut_iff_lex, Prod.ext_iff, eq_comm, @eq_comm _ (lex text).2]

end BorrowFlow.Source
