import BorrowFlow.Proofs.Source.Placement
import BorrowFlow.Source.LongNumber

/-! # Where a text cannot be read any further

    A number that is too long stops a replay before the statement that it stands in, so it
    is noticed exactly if the steps before it succeed (`stuckIn_eq_some_iff`).  All steps
    together are the replay of the function (`elaborateFunction_eq_steps`).

    Numbers stand in statements and terminators only, and each of these is a step.  So a text
    that can be read, and does not stop, has no number that is too long (`digits_le_of_read`).
-/

namespace BorrowFlow.Source

open BuildM

variable {file : Option String} {long : List LongNumber} {n limit : Nat}

/-! ## Steps -/

theorem elaborateBlock_eq_steps (d : BlockDecl) :
    elaborateBlock file d = forM (d.steps file) Step.act := by
  rw [BlockDecl.steps, List.forM_append, List.forM_cons, List.forM_map, List.forM_cons,
    List.forM_nil]
  simp [elaborateBlock]

/-- **The steps of a function** are its replay. -/
theorem elaborateFunction_eq_steps (f : FunctionDecl) :
    elaborateFunction file f = forM (f.steps file) Step.act := by
  have hblocks : ∀ blocks : List BlockDecl, blocks.forM (elaborateBlock file) =
      forM (blocks.flatMap (BlockDecl.steps file)) Step.act := by
    intro blocks
    induction blocks with
    | nil => rfl
    | cons d blocks ih =>
      rw [List.flatMap_cons, List.forM_append, ← elaborateBlock_eq_steps, ← ih]
      rfl
  rw [FunctionDecl.steps, List.forM_cons, ← hblocks]
  rfl

theorem gives_steps_cons {s : Step} {steps : List Step} {b b' : Builder} {u : Unit} :
    Gives (forM (s :: steps) Step.act) b u b' ↔
      ∃ m, Gives s.act b () m ∧ Gives (forM steps Step.act) m u b' := gives_forM_cons

/-- **Some steps stop at a number** if it is the first that cannot be read, and all steps
    before it succeed. -/
theorem stuckIn_eq_some_iff {steps : List Step} {b : Builder} :
    stuckIn long steps b = some n ↔ ∃ done s rest b', steps = done ++ s :: rest ∧
      (∀ s' ∈ done, s'.stuck? long = none) ∧ Gives (forM done Step.act) b () b' ∧
      s.stuck? long = some n := by
  constructor
  · intro h
    induction steps generalizing b with
    | nil => cases h
    | cons s steps ih =>
      rw [stuckIn] at h
      split at h
      · next m hm =>
        cases h
        exact ⟨[], s, steps, b, rfl, by simp, gives_forM_nil.mpr rfl, hm⟩
      · next hnone =>
        split at h
        · next b₁ hact =>
          obtain ⟨done, s', rest, b', rfl, hdone, hgives, hs'⟩ := ih h
          exact ⟨s :: done, s', rest, b', rfl, List.forall_mem_cons.mpr ⟨hnone, hdone⟩,
            gives_steps_cons.mpr ⟨b₁, hact, hgives⟩, hs'⟩
        · cases h
  · rintro ⟨done, s, rest, b', rfl, hdone, hgives, hs⟩
    induction done generalizing b with
    | nil => rw [List.nil_append, stuckIn, hs]
    | cons s' done ih =>
      obtain ⟨hnone, hdone⟩ := List.forall_mem_cons.mp hdone
      obtain ⟨b₁, hact, hgives⟩ := gives_steps_cons.mp hgives
      rw [List.cons_append, stuckIn, hnone]
      simp only [show s'.act.perform b = (.ok (), b₁) from hact]
      exact ih hdone hgives

/-- In a replay that succeeds, every number that is too long is noticed. -/
theorem stuck?_eq_none_of_gives {steps : List Step} {b b' : Builder} {u : Unit}
    (hgives : Gives (forM steps Step.act) b u b') (h : stuckIn long steps b = none) :
    ∀ s ∈ steps, s.stuck? long = none := by
  induction steps generalizing b with
  | nil => simp
  | cons s steps ih =>
    obtain ⟨b₁, hact, hgives⟩ := gives_steps_cons.mp hgives
    rw [stuckIn] at h
    split at h
    · cases h
    · next hnone =>
      simp only [show s.act.perform b = (.ok (), b₁) from hact] at h
      exact List.forall_mem_cons.mpr ⟨hnone, ih hgives h⟩

/-! ## Functions -/

theorem bodiesAfter_cons_eq_ok {earlier found : List Body} {f : FunctionDecl}
    {fs : List FunctionDecl} :
    bodiesAfter file earlier (f :: fs) = .ok found ↔
      ∃ mid, bodiesAfter file earlier [f] = .ok mid ∧ bodiesAfter file mid fs = .ok found := by
  simp only [bodiesAfter, bind_eq_ok]
  constructor
  · rintro ⟨body, hbody, h⟩
    split at h
    · cases h
    · next hnew => exact ⟨_, ⟨body, hbody, by rw [hnew]⟩, h⟩
  · rintro ⟨mid, ⟨body, hbody, hmid⟩, h⟩
    split at hmid
    · cases hmid
    · next hnew =>
      cases hmid
      exact ⟨body, hbody, by rw [hnew]; exact h⟩

theorem body_of_bodiesAfter {earlier found : List Body} {f : FunctionDecl}
    (h : bodiesAfter file earlier [f] = .ok found) : ∃ body, f.body file = .ok body := by
  obtain ⟨body, hbody, _⟩ := bind_eq_ok.mp h
  exact ⟨body, hbody⟩

/-- **Functions that have bodies** and do not stop can read all their numbers. -/
theorem stuck?_eq_none_of_bodies {fs : List FunctionDecl} {earlier found : List Body}
    (hfound : bodiesAfter file earlier fs = .ok found)
    (h : stuckAfter file long earlier fs = none) :
    ∀ f ∈ fs, ∀ s ∈ f.steps file, s.stuck? long = none := by
  induction fs generalizing earlier with
  | nil => simp
  | cons f fs ih =>
    obtain ⟨mid, hmid, hrest⟩ := bodiesAfter_cons_eq_ok.mp hfound
    rw [stuckAfter] at h
    split at h
    · cases h
    · next hnone =>
      rw [hmid] at h
      obtain ⟨body, hbody⟩ := body_of_bodiesAfter hmid
      obtain ⟨b, hgives, _⟩ := body_eq_ok.mp hbody
      rw [elaborateFunction_eq_steps] at hgives
      exact List.forall_mem_cons.mpr ⟨stuck?_eq_none_of_gives hgives hnone, ih hrest h⟩

/-! ## The numbers of a text -/

theorem mem_longNumbers {tokens : List Token} {x : LongNumber} :
    x ∈ longNumbers limit tokens ↔ ∃ t ∈ tokens, ∃ digits, t.lexeme = .number digits ∧
      limit < digits.length ∧ x = ⟨t.extent.start, digits.length⟩ := by
  rw [longNumbers, List.mem_filterMap]
  refine exists_congr fun t => and_congr_right fun _ => ?_
  rw [Token.longNumber?]
  split
  · next digits hdigits =>
    simp only [hdigits, Lexeme.number.injEq, exists_eq_left']
    split
    · next hlimit => simp [hlimit, eq_comm]
    · next hlimit => simp [hlimit]
  · next hno =>
    refine iff_of_false nofun ?_
    rintro ⟨digits, hdigits, _⟩
    exact hno digits hdigits

theorem exists_number_of_stuck? {s : Step} (h : s.stuck? long = some n) :
    ∃ x ∈ long, x.digits = n := by
  obtain ⟨e, _, h⟩ := Option.bind_eq_some_iff.mp h
  obtain ⟨x, hx, hn⟩ := Option.map_eq_some_iff.mp h
  exact ⟨x, List.mem_of_find?_eq_some hx, hn⟩

theorem exists_number_of_stuckAfter {fs : List FunctionDecl} {earlier : List Body}
    (h : stuckAfter file long earlier fs = some n) : ∃ x ∈ long, x.digits = n := by
  induction fs generalizing earlier with
  | nil => cases h
  | cons f fs ih =>
    rw [stuckAfter] at h
    split at h
    · next m hm =>
      cases h
      obtain ⟨_, s, _, _, _, _, _, hs⟩ := stuckIn_eq_some_iff.mp hm
      exact exists_number_of_stuck? hs
    · split at h
      · exact ih h
      · cases h

/-- A text stops at one of its numbers, and only if it is too long. -/
theorem exists_number_of_longNumber? {text : String} (h : longNumber? limit text file = some n) :
    limit < n ∧ ∃ t ∈ (lex text).1, ∃ digits, t.lexeme = .number digits ∧ digits.length = n := by
  rw [longNumber?] at h
  split at h
  · cases h
  · split at h
    · obtain ⟨x, hx, rfl⟩ := exists_number_of_stuckAfter h
      obtain ⟨t, ht, digits, hdigits, hlimit, rfl⟩ := mem_longNumbers.mp hx
      exact ⟨hlimit, t, ht, digits, hdigits, rfl⟩
    · cases h

/-! ## Where numbers stand -/

/-- There is no number among these tokens. -/
def Numberless (ts : List Token) : Prop := ∀ t ∈ ts, ∀ digits, t.lexeme ≠ .number digits

@[simp] theorem numberless_nil : Numberless [] := nofun

@[simp] theorem numberless_cons {t : Token} {ts : List Token} :
    Numberless (t :: ts) ↔ (∀ digits, t.lexeme ≠ .number digits) ∧ Numberless ts :=
  List.forall_mem_cons

@[simp] theorem numberless_append {ts us : List Token} :
    Numberless (ts ++ us) ↔ Numberless ts ∧ Numberless us := List.forall_mem_append

section Lists

variable {α : Type} {item : List Token → α → Prop} {ts : List Token} {as : List α}

theorem Separated.numberless (hitem : ∀ us a, item us a → Numberless us)
    (h : Separated item ts as) : Numberless ts := by
  induction h with
  | one h => exact hitem _ _ h
  | more h hc _ ih => simp [hitem _ _ h, hc, ih]

theorem Parenthesised.numberless (hitem : ∀ us a, item us a → Numberless us)
    (h : Parenthesised item ts as) : Numberless ts := by
  cases h with
  | none ho hc => simp [ho, hc]
  | some ho hs hc => simp [ho, hs.numberless hitem, hc]

/-- Each token of a sequence belongs to one of its items. -/
theorem Sequence.exists_of_mem_tokens (h : Sequence item ts as) {t : Token} (ht : t ∈ ts) :
    ∃ a ∈ as, ∃ us, item us a ∧ us <:+: ts ∧ t ∈ us := by
  induction h with
  | nil => cases ht
  | @cons ts us a as h _ ih =>
    rcases List.mem_append.mp ht with ht | ht
    · exact ⟨a, List.mem_cons_self, ts, h, (List.prefix_append ts us).isInfix, ht⟩
    · obtain ⟨a', ha', vs, hvs, hstretch, ht⟩ := ih ht
      exact ⟨a', List.mem_cons_of_mem _ ha', vs, hvs,
        hstretch.trans (List.suffix_append ts us).isInfix, ht⟩

end Lists

theorem IsType.numberless {argument : Bool} {ts : List Token} {ty : TypeExpr}
    (h : IsType argument ts ty) : Numberless ts := by
  induction h with
  | region hr => simp [hr]
  | ref ha hr _ ih => simp [ha, hr, ih]
  | refMut ha hr hm _ ih => simp [ha, hr, hm, ih]
  | name hn => simp [hn]
  | apply hn hl _ hargs hg ih => simp [hn, hl, hargs.numberless ih, hg]

theorem AreBounds.numberless {ts : List Token} {bounds : List BoundExpr} (h : AreBounds ts bounds) :
    Numberless ts := by
  cases h with
  | none => exact numberless_nil
  | some hk hs =>
    have hbounds := hs.numberless fun us e h => by
      obtain ⟨hr, hc, hs⟩ := h
      simp [hr, hc, hs]
    simp [hk, hbounds]

theorem IsParam.numberless {ts : List Token} {p : ParamDecl} (h : IsParam ts p) :
    Numberless ts := by
  obtain ⟨hn, hc, ht⟩ := h
  simp [hn, hc, ht.numberless]

theorem IsDeclaration.numberless {ts : List Token} {d : LetDecl} (h : IsDeclaration ts d) :
    Numberless ts := by
  cases h with
  | @mk k n c s ts us _ _ _ hk hn hc ht hd hs =>
    have hdrops : Numberless us := by
      cases hd with
      | none => exact numberless_nil
      | some hd =>
        obtain ⟨hk, hnames⟩ := hd
        have hregions := hnames.numberless fun us r h => by
          obtain ⟨hr⟩ := h
          simp [hr]
        exact numberless_cons.mpr ⟨by simp [hk], hregions⟩
    simp [hk, hn, hc, ht.numberless, hdrops, hs]

/-- **A number of a block** stands in one of its statements or in its terminator. -/
theorem IsBlock.exists_part_of_number {ts : List Token} {d : BlockDecl} (h : IsBlock ts d)
    {t : Token} (ht : t ∈ ts) {digits : String} (hdigits : t.lexeme = .number digits) :
    ∃ part ∈ d.parts, ∃ us, IsPart us part ∧ us <:+: ts ∧ t ∈ us := by
  cases h with
  | @mk n c o e ts us _ _ _ hn hc ho hbody hlast he =>
    have hstatements := hbody.map fun _ _ h => IsPart.statement h
    have hterminator := Sequence.cons (IsPart.terminator hlast) Sequence.nil
    rw [List.append_nil] at hterminator
    -- every other token of a block is fixed by the grammar
    have hmem : t ∈ ts ++ us := by
      simp only [List.mem_cons, List.mem_append, List.not_mem_nil, or_false] at ht ⊢
      rcases ht with rfl | rfl | rfl | ht | ht | rfl
      · simp [hn] at hdigits
      · simp [hc] at hdigits
      · simp [ho] at hdigits
      · exact .inl ht
      · exact .inr ht
      · simp [he] at hdigits
    obtain ⟨part, hpart, vs, hvs, hstretch, ht⟩ :=
      (hstatements.append hterminator).exists_of_mem_tokens hmem
    exact ⟨part, hpart, vs, hvs, hstretch.trans ⟨[n, c, o], [e], by simp⟩, ht⟩

/-- **A number of a function** stands in one of its blocks. -/
theorem IsFunction.exists_part_of_number {ts : List Token} {f : FunctionDecl} (h : IsFunction ts f)
    {t : Token} (ht : t ∈ ts) {digits : String} (hdigits : t.lexeme = .number digits) :
    ∃ d ∈ f.blocks, ∃ part ∈ d.parts, ∃ us, IsPart us part ∧ us <:+: ts ∧ t ∈ us := by
  cases h with
  | @mk k n o e ts us vs _ _ _ items hk hn hparams hbounds ho hitems he =>
    -- what stands before the blocks are names, regions and types
    have hmem : t ∈ vs := by
      simp only [List.mem_cons, List.mem_append, List.not_mem_nil, or_false] at ht
      rcases ht with rfl | rfl | ht | ht | rfl | ht | rfl
      · simp [hk] at hdigits
      · simp [hn] at hdigits
      · exact absurd hdigits (hparams.numberless (fun _ _ h => h.numberless) t ht digits)
      · exact absurd hdigits (hbounds.numberless t ht digits)
      · simp [ho] at hdigits
      · exact ht
      · simp [he] at hdigits
    obtain ⟨item, hitem, ws, hws, hstretch, ht⟩ := hitems.exists_of_mem_tokens hmem
    cases hws with
    | declaration hd => exact absurd hdigits (hd.numberless t ht digits)
    | @block d hblock =>
      obtain ⟨part, hpart, xs, hxs, hinner, ht⟩ := hblock.exists_part_of_number ht hdigits
      have houter : vs <:+: k :: n :: (ts ++ (us ++ o :: (vs ++ [e]))) :=
        ⟨k :: n :: (ts ++ (us ++ [o])), [e], by simp⟩
      exact ⟨d, List.mem_filterMap.mpr ⟨_, hitem, rfl⟩, part, hpart, xs, hxs,
        hinner.trans (hstretch.trans houter), ht⟩

/-! ## Texts that can be read -/

theorem Pos.before_iff {p q : Pos} : p.before q = true ↔ p < q := by
  show _ ↔ p.line < q.line ∨ p.line = q.line ∧ p.column < q.column
  simp [Pos.before]

theorem Extent.holds_of_covers {e : Extent} {ts : List Token} (he : e.Covers ts) (hts : Ordered ts)
    {t : Token} (ht : t ∈ ts) : e.holds t.extent.start = true := by
  obtain ⟨hstart, hstop⟩ := he.encloses hts ht
  have hbefore : ¬ t.extent.start.before e.start = true := by
    rw [Pos.before_iff]
    exact not_lt_of_ge hstart
  have hwithin : t.extent.start.before e.stop = true :=
    Pos.before_iff.mpr ((hts.forward t ht).trans_le hstop)
  simp [Extent.holds, hbefore, hwithin]

/-- Each part of a function is one of its steps. -/
theorem exists_step_of_part {f : FunctionDecl} {d : BlockDecl} (hd : d ∈ f.blocks) {part : Part}
    (hpart : part ∈ d.parts) : ∃ s ∈ f.steps file, s.numbers = some part.extent := by
  have hstep : ∃ s ∈ d.steps file, s.numbers = some part.extent := by
    rcases List.mem_append.mp hpart with hpart | hpart
    · obtain ⟨s, hs, rfl⟩ := List.mem_map.mp hpart
      refine ⟨{ numbers := some s.extent, act := elaborateStatement file d.name s }, ?_, rfl⟩
      exact List.mem_append_left _ (List.mem_cons_of_mem _ (List.mem_map_of_mem hs))
    · rw [List.mem_singleton.mp hpart]
      exact ⟨_, List.mem_append_right _ (List.mem_singleton_self _), rfl⟩
  obtain ⟨s, hs, hnumbers⟩ := hstep
  exact ⟨s, List.mem_cons_of_mem _ (List.mem_flatMap.mpr ⟨d, hd, hs⟩), hnumbers⟩

/-- **A text that can be read and does not stop** has no number that is too long. -/
theorem digits_le_of_read {text : String} {found : List Body} (h : read text file = .ok found)
    (hnone : longNumber? limit text file = none) :
    ∀ t ∈ (lex text).1, ∀ digits, t.lexeme = .number digits → digits.length ≤ limit := by
  intro t ht digits hdigits
  obtain ⟨program, hparse, hbodies⟩ := read_eq_ok.mp h
  have hprogram : IsProgram (lex text).1 program := (parseTokens_ok_iff.mp hparse).2
  by_contra hlong
  have hmem : ⟨t.extent.start, digits.length⟩ ∈ longNumbers limit (lex text).1 :=
    mem_longNumbers.mpr ⟨t, ht, digits, hdigits, Nat.lt_of_not_le hlong, rfl⟩
  -- the replay of the program did not stop, so each of its steps could read its numbers
  have hstuck : stuckAfter file (longNumbers limit (lex text).1) [] program = none := by
    rw [longNumber?] at hnone
    simp only [hparse] at hnone
    split at hnone
    · next hnil =>
      rw [hnil] at hmem
      cases hmem
    · exact hnone
  obtain ⟨f, hf, us, hus, hstretch, htus⟩ := hprogram.exists_of_mem_tokens ht
  obtain ⟨d, hd, part, hpart, vs, hvs, hinner, htvs⟩ := hus.exists_part_of_number htus hdigits
  obtain ⟨s, hs, hnumbers⟩ : ∃ s ∈ f.steps file, s.numbers = some part.extent :=
    exists_step_of_part hd hpart
  have hreads := stuck?_eq_none_of_bodies hbodies hstuck f hf s hs
  have hordered := (ordered_lex text).of_stretch (hinner.trans hstretch)
  rw [Step.stuck?, hnumbers, Option.bind_some, Option.map_eq_none_iff, List.find?_eq_none] at hreads
  exact hreads _ hmem (Extent.holds_of_covers hvs.covers hordered htvs)

end BorrowFlow.Source
