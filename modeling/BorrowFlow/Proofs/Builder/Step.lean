import BorrowFlow.Proofs.Builder.Change

/-! # Steps of a builder

    `BuildM.Meets` says what a step does from a builder on: which changes it makes,
    what holds if it succeeds, and whom it blames if it does not.  There is one rule
    for each way of putting steps together, so that no later proof runs a step by
    hand.
-/

namespace BorrowFlow

open Relation (ReflTransGen)

namespace BuildM

variable {α β : Type} {C : Builder → Builder → Prop} {b : Builder} {blame : BuildError → Prop}

/-- **What a step does from `b` on.**  However it ends, it makes changes of the kind
    `C`; it succeeds as `post` says, or fails as `blame` says. -/
structure Meets (C : Builder → Builder → Prop) (b : Builder) (step : BuildM α)
    (blame : BuildError → Prop) (post : α → Builder → Prop) : Prop where
  changes : ReflTransGen C b (step.perform b).2
  ok : ∀ a, (step.perform b).1 = .ok a → post a (step.perform b).2
  error : ∀ e, (step.perform b).1 = .error e → blame e

/-! ## One step -/

theorem perform_bind (x : BuildM α) (f : α → BuildM β) (b : Builder) :
    (x >>= f).perform b = match x.perform b with
      | (.ok a, b') => (f a).perform b'
      | (.error e, b') => (.error e, b') := by
  simp only [perform, bind, ExceptT.bind, ExceptT.mk, ExceptT.bindCont, StateT.bind, ExceptT.run,
    StateT.run, Id.run]
  rcases x b with ⟨_ | _, b'⟩ <;> rfl

theorem meets_of_ok {step : BuildM α} {a : α} {b' : Builder} {post : α → Builder → Prop}
    (h : step.perform b = (.ok a, b')) (hchanges : ReflTransGen C b b') (hpost : post a b') :
    Meets C b step blame post := by
  refine ⟨?_, ?_, ?_⟩ <;> rw [h]
  · exact hchanges
  · intro a' ha'
    cases ha'
    exact hpost
  · intro e he
    cases he

theorem meets_of_error {step : BuildM α} {e : BuildError} {b' : Builder}
    {post : α → Builder → Prop} (h : step.perform b = (.error e, b'))
    (hchanges : ReflTransGen C b b') (hblame : blame e) : Meets C b step blame post := by
  refine ⟨?_, ?_, ?_⟩ <;> rw [h]
  · exact hchanges
  · intro a ha
    cases ha
  · intro e' he'
    cases he'
    exact hblame

theorem meets_pure {a : α} {post : α → Builder → Prop} (h : post a b) :
    Meets C b (pure a) blame post :=
  meets_of_ok rfl .refl h

theorem meets_throw {e : BuildError} {post : α → Builder → Prop} (h : blame e) :
    Meets C b (throw e) blame post :=
  meets_of_error rfl .refl h

/-- A look at the builder changes nothing. -/
theorem meets_get_bind {f : Builder → BuildM α} {post : α → Builder → Prop}
    (h : Meets C b (f b) blame post) : Meets C b (get >>= f) blame post :=
  ⟨h.changes, h.ok, h.error⟩

theorem meets_set {b' : Builder} (hchange : ReflTransGen C b b') {post : Unit → Builder → Prop}
    (h : post () b') : Meets C b (set b') blame post :=
  meets_of_ok rfl hchange h

theorem meets_modify {f : Builder → Builder} (hchange : ReflTransGen C b (f b))
    {post : Unit → Builder → Prop} (h : post () (f b)) : Meets C b (modify f) blame post :=
  meets_of_ok rfl hchange h

/-- A question to the builder changes nothing; if it fails, the span is to blame. -/
theorem meets_derive {span : Option Span} {ask : Builder → Except BuildFault α}
    {post : α → Builder → Prop} (h : ∀ a, ask b = .ok a → post a b) :
    Meets C b (derive span ask) (fun e => e.span = span) post := by
  rw [derive]
  apply meets_get_bind
  cases hask : ask b with
  | ok a => exact meets_pure (h a hask)
  | error fault => exact meets_throw rfl

/-! ## Steps put together -/

theorem Meets.mono {blame' : BuildError → Prop} {step : BuildM α} {post post' : α → Builder → Prop}
    (h : Meets C b step blame post) (hblame : ∀ e, blame e → blame' e)
    (hpost : ∀ a b', ReflTransGen C b b' → post a b' → post' a b') :
    Meets C b step blame' post' where
  changes := h.changes
  ok := fun a ha => hpost a _ h.changes (h.ok a ha)
  error := fun e he => hblame e (h.error e he)

/-- What a step says about its success may be extended by what its changes keep. -/
theorem Meets.imp {step : BuildM α} {post post' : α → Builder → Prop}
    (h : Meets C b step blame post) (hpost : ∀ a b', ReflTransGen C b b' → post a b' → post' a b') :
    Meets C b step blame post' :=
  h.mono (fun _ => id) hpost

/-- **Two steps in a row.**  The second may rely on the changes of the first. -/
theorem Meets.bind {x : BuildM α} {f : α → BuildM β} {middle : α → Builder → Prop}
    {post : β → Builder → Prop} (hx : Meets C b x blame middle)
    (hf : ∀ a b', ReflTransGen C b b' → middle a b' → Meets C b' (f a) blame post) :
    Meets C b (x >>= f) blame post := by
  obtain ⟨hchanges, hok, herror⟩ := hx
  rcases hrun : x.perform b with ⟨e | a, b'⟩
  · have hbind : (x >>= f).perform b = (.error e, b') := by rw [perform_bind, hrun]
    rw [hrun] at hchanges herror
    exact meets_of_error hbind hchanges (herror e rfl)
  · have hbind : (x >>= f).perform b = (f a).perform b' := by rw [perform_bind, hrun]
    rw [hrun] at hchanges hok
    obtain ⟨hchanges', hok', herror'⟩ := hf a b' hchanges (hok a rfl)
    refine ⟨?_, ?_, ?_⟩ <;> rw [hbind]
    · exact hchanges.trans hchanges'
    · exact hok'
    · exact herror'

/-- After a failure nothing else happens. -/
theorem meets_throw_bind {e : BuildError} {f : α → BuildM β} {post : β → Builder → Prop}
    (h : blame e) : Meets C b (throw e >>= f) blame post := by
  have hthrow : Meets C b (throw e : BuildM α) blame fun _ _ => False := meets_throw h
  exact hthrow.bind fun _ _ _ => False.elim

/-- **A step for each item.**  `I done b` says what holds after the items `done`. -/
theorem meets_forM {f : α → BuildM Unit} {l : List α} (I : List α → Builder → Prop)
    (hstart : I [] b) (hstep : ∀ done x rest, l = done ++ x :: rest → ∀ b',
      ReflTransGen C b b' → I done b' → Meets C b' (f x) blame fun _ => I (done ++ [x])) :
    Meets C b (l.forM f) blame fun _ => I l := by
  suffices hrun : ∀ rest done b', l = done ++ rest → ReflTransGen C b b' → I done b' →
      Meets C b' (rest.forM f) blame fun _ => I l from hrun l [] b rfl .refl hstart
  intro rest
  induction rest with
  | nil =>
    intro done b' hl _ hdone
    rw [List.append_nil] at hl
    exact meets_pure (hl ▸ hdone)
  | cons x rest ih =>
    intro done b' hl hchanges hdone
    refine (hstep done x rest hl b' hchanges hdone).bind fun _ b'' hchanges' hdone' => ?_
    exact ih (done ++ [x]) b'' (by rw [hl, List.append_assoc]; rfl) (hchanges.trans hchanges') hdone'

/-- **An answer for each item**, where what is said of an answer stays true. -/
theorem meets_mapM {f : α → BuildM β} {l : List α} {Q : β → Builder → Prop}
    (hkeep : ∀ a b b', ReflTransGen C b b' → Q a b → Q a b')
    (hstep : ∀ x ∈ l, ∀ b', ReflTransGen C b b' → Meets C b' (f x) blame Q) :
    Meets C b (l.mapM f) blame fun answers b' => ∀ a ∈ answers, Q a b' := by
  induction l generalizing b with
  | nil =>
    rw [List.mapM_nil]
    exact meets_pure (by simp)
  | cons x l ih =>
    rw [List.mapM_cons]
    refine (hstep x List.mem_cons_self b .refl).bind fun a b' hchanges ha => ?_
    refine (ih fun y hy b'' h => hstep y (List.mem_cons_of_mem _ hy) b'' (hchanges.trans h)).bind
      fun answers b'' hchanges' hanswers => ?_
    exact meets_pure (List.forall_mem_cons.mpr ⟨hkeep a b' b'' hchanges' ha, hanswers⟩)

/-- Filling in is a change that keeps the outline. -/
theorem Meets.lift {step : BuildM α} {post : α → Builder → Prop}
    (h : Meets Builder.Fill b step blame post) :
    Meets Builder.Change b step blame fun a b' => b'.outline = b.outline ∧ post a b' where
  changes := Builder.changes_of_fills h.changes
  ok := fun a ha => ⟨Builder.outline_of_fills h.changes, h.ok a ha⟩
  error := h.error

/-- A region that is taken in is an entry. -/
theorem Meets.entries {step : BuildM α} {post : α → Builder → Prop}
    (h : Meets Builder.TakesIn b step blame post) : Meets Builder.Entry b step blame post where
  changes := Builder.Adopts.entries h.changes
  ok := h.ok
  error := h.error

/-- An entry fills something in. -/
theorem Meets.fills {step : BuildM α} {post : α → Builder → Prop}
    (h : Meets Builder.Entry b step blame post) : Meets Builder.Fill b step blame post where
  changes := Builder.fills_of_entries h.changes
  ok := h.ok
  error := h.error

end BuildM

namespace Builder

open BuildM

variable {b : Builder}

/-! ## Declarations -/

theorem meets_declareRegion (name : String) (universal : Bool) (span : Option Span) :
    Meets Entry b (declareRegion name universal span) (fun e => e.span = span) fun _ _ => True := by
  rw [declareRegion]
  apply meets_get_bind
  cases hr : b.region? name with
  | some r =>
    dsimp only
    split
    · exact meets_pure trivial
    · exact meets_throw rfl
  | none =>
    let r : Region := ⟨name, universal⟩
    have hset : Meets Entry b (set { b with regions := b.regions.insert r.name r })
        (fun e => e.span = span) fun _ _ => True := meets_set (.single ⟨.region hr, rfl⟩) trivial
    exact hset.bind fun _ _ _ _ => meets_pure trivial

theorem meets_adopt (span : Option Span) (r : Region) :
    Meets TakesIn b (adopt span r) (fun e => e.span = span) fun _ b' => b'.Declares r := by
  rw [adopt]
  apply meets_get_bind
  cases hr : b.region? r.name with
  | some known =>
    dsimp only
    split
    · next hknown => exact meets_pure (hknown ▸ hr)
    · exact meets_throw rfl
  | none => exact meets_set (.single (.region hr)) (by simp [Declares, region?])

theorem meets_adoptAll (span : Option Span) (rs : List Region) :
    Meets TakesIn b (rs.forM (adopt span)) (fun e => e.span = span) fun _ b' =>
      ∀ r ∈ rs, b'.Declares r := by
  refine meets_forM (fun done b' => ∀ r ∈ done, b'.Declares r) (by simp) ?_
  intro done r rest _ b' _ hdone
  refine (meets_adopt span r).imp ?_
  intro _ b'' hadopts hr s hs
  rcases List.mem_append.mp hs with hs | hs
  · exact (keeps_of_fills (fills_of_entries (Adopts.entries hadopts))).declares s (hdone s hs)
  · exact List.mem_singleton.mp hs ▸ hr

/-- A declaration takes in the regions of the type, then the variable. -/
theorem meets_declare (name : String) (ty : Ty) (drops : Option (List Region)) (param : Bool)
    (span : Option Span) :
    Meets Entry b (declare name ty drops param span) (fun e => e.span = span) fun _ _ => True := by
  rw [declare]
  apply meets_get_bind
  by_cases hname : b.locals.contains name = true
  · simp only [if_pos hname]
    exact meets_throw_bind rfl
  · simp only [if_neg hname]
    refine ((meets_adoptAll span ty.regions).imp fun _ b' hadopts hregions =>
      And.intro (Adopts.onlyRegions hadopts) hregions).entries.bind ?_
    rintro _ b' _ ⟨honly, hregions⟩
    cases hfind : (drops.getD []).find? (· ∉ ty.regions) with
    | some r => exact meets_throw rfl
    | none =>
      let v : Variable := ⟨name, ty, drops, param⟩
      have hnew : v.name ∉ b'.locals.names := by
        rw [honly, ← OrderedMap.contains_eq_true_iff]
        exact hname
      have hdrops : ∀ r ∈ v.drops.getD [], r ∈ v.regions := by
        intro r hr
        have hof : r ∈ ty.regions := by simpa using List.find?_eq_none.mp hfind r hr
        exact hof
      have hmodify : Meets Entry b' (modify fun b => { b with locals := b.locals.insert name v })
          (fun e => e.span = span) fun _ _ => True :=
        meets_modify (.single ⟨.var hnew hregions hdrops, rfl⟩) trivial
      exact hmodify.bind fun _ _ _ _ => meets_pure trivial

theorem meets_bound (sub sup : Region) (span : Option Span) :
    Meets Entry b (bound sub sup span) (fun e => e.span = span) fun _ _ => True := by
  rw [bound]
  refine (meets_adopt span sub).entries.bind fun _ b₁ _ hsub => ?_
  refine (meets_adopt span sup).entries.bind fun _ b₂ hentries hsup => ?_
  have hkeeps := keeps_of_fills (fills_of_entries hentries)
  refine meets_modify ?_ trivial
  split
  · exact .refl
  · exact .single ⟨.bound (hkeeps.declares sub hsub) hsup, rfl⟩

/-- Opening a block adds it at the end of the outline. -/
theorem meets_openBlock (name : String) (span : Option Span) :
    Meets Change b (openBlock name span) (fun e => e.span = span) fun _ b' =>
      name ∉ b.outline.map Prod.fst ∧ b'.outline = b.outline ++ [(name, none)] := by
  rw [openBlock]
  apply meets_get_bind
  by_cases hname : (b.block? name).isSome = true
  · simp only [if_pos hname]
    exact meets_throw_bind rfl
  · simp only [if_neg hname]
    have hnew : b.block? name = none := by simpa using hname
    refine meets_modify (.single (.block hnew)) ⟨?_, by simp [outline]⟩
    rw [block?, List.find?_eq_none] at hnew
    simpa [outline] using hnew

theorem meets_nextLoanName :
    Meets Entry b nextLoanName (fun _ => False) fun name b' =>
      name = loanName b.loanCount ∧ b' = { b with loanCount := b.loanCount + 1 } := by
  rw [nextLoanName]
  apply meets_get_bind
  have hset : Meets Entry b (set { b with loanCount := b.loanCount + 1 }) (fun _ => False)
      fun _ b' => b' = { b with loanCount := b.loanCount + 1 } :=
    meets_set (.single ⟨.loanName, rfl⟩) rfl
  exact hset.bind fun _ _ _ hb' => meets_pure ⟨rfl, hb'⟩

end Builder

end BorrowFlow
