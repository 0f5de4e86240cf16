import BorrowFlow.Proofs.Builder.Request
import BorrowFlow.Proofs.Place
import BorrowFlow.Proofs.Ty

/-! # Statements and terminators of a builder

    What the derived facts of a statement mention is known to the builder: variables
    because each of them is looked up, regions because they come from the types of
    variables.  Hence appending a statement and ending a block keep a builder sound.
-/

namespace BorrowFlow

open Relation (ReflTransGen)

/-! ## Variables -/

/-- The facts mention variables of `vars` only. -/
structure Facts.Within (vars : List String) (f : Facts) : Prop where
  reads : ∀ x ∈ f.reads, x ∈ vars
  accesses : ∀ a ∈ f.accesses, a.place.base ∈ vars

theorem Facts.within_nil (vars : List String) : Facts.Within vars {} :=
  ⟨fun _ h => absurd h List.not_mem_nil, fun _ h => absurd h List.not_mem_nil⟩

theorem Facts.Within.append {vars : List String} {f g : Facts} (hf : f.Within vars)
    (hg : g.Within vars) : (f ++ g).Within vars where
  reads := fun x hx => (List.mem_append.mp hx).elim (hf.reads x) (hg.reads x)
  accesses := fun a ha => (List.mem_append.mp ha).elim (hf.accesses a) (hg.accesses a)

/-- All that a statement mentions is known if each part of it is. -/
theorem Statement.forall_mentions {s : Statement} {vars : List String}
    (hreads : ∀ x ∈ s.reads, x ∈ vars) (hdrops : ∀ x ∈ s.drops, x ∈ vars)
    (hwrite : ∀ x, s.write = some x → x ∈ vars) (haccesses : ∀ a ∈ s.accesses, a.place.base ∈ vars)
    (hassigned : ∀ p, s.assigned = some p → p.base ∈ vars) : ∀ x ∈ s.mentions, x ∈ vars := by
  intro x hx
  simp only [mentions, List.mem_append, SortedSet.mem_toList, Option.mem_toList, List.mem_map] at hx
  rcases hx with (((hx | hx) | hx) | ⟨a, ha, rfl⟩) | ⟨p, hp, rfl⟩
  · exact hreads x hx
  · exact hdrops x hx
  · exact hwrite x hx
  · exact haccesses a ha
  · exact hassigned p hp

namespace Builder

open BuildM Ty

variable {b : Builder}

theorem variableNamed_eq_ok {name : String} {v : Variable} :
    b.variableNamed name = .ok v ↔ b.locals.get? name = some v := by
  rw [variableNamed]
  cases b.locals.get? name <;> simp

theorem mem_names_of_variableNamed {name : String} {v : Variable}
    (h : b.variableNamed name = .ok v) : name ∈ b.locals.names :=
  List.mem_map.mpr ⟨_, OrderedMap.get?_eq_some_iff.mp (variableNamed_eq_ok.mp h), rfl⟩

/-- What it takes to find a place is known. -/
theorem within_of_lvalueFacts {p : Place} {f : Facts} (h : b.lvalueFacts p = .ok f) :
    p.base ∈ b.locals.names ∧ f.Within b.locals.names := by
  simp only [lvalueFacts, bind_eq_ok, forM_eq_ok, pure_eq_ok, map_eq_ok] at h
  obtain ⟨v, hv, _, hindices, rfl⟩ := h
  have hbase := mem_names_of_variableNamed hv
  have hindex : ∀ x ∈ p.indexVars, x ∈ b.locals.names := by
    intro x hx
    obtain ⟨w, hw, _⟩ := hindices x hx
    exact mem_names_of_variableNamed hw
  have hderef : ∀ q ∈ p.derefBases, q.base ∈ b.locals.names := fun q hq =>
    Place.base_of_mem_derefBases hq ▸ hbase
  refine ⟨hbase, ?_, ?_⟩
  · intro x hx
    rcases List.mem_append.mp hx with hx | hx
    · obtain ⟨q, hq, rfl⟩ := List.mem_map.mp hx
      exact hderef q hq
    · exact hindex x hx
  · intro a ha
    rcases List.mem_append.mp ha with ha | ha
    · obtain ⟨q, hq, rfl⟩ := List.mem_map.mp ha
      exact hderef q hq
    · obtain ⟨x, hx, rfl⟩ := List.mem_map.mp ha
      exact hindex x hx

theorem within_of_operandFacts {op : Operand} {f : Facts} (h : b.operandFacts op = .ok f) :
    f.Within b.locals.names := by
  cases op with
  | const =>
    cases h
    exact Facts.within_nil _
  | copy p | move p =>
    simp only [operandFacts, bind_eq_ok, pure_eq_ok] at h
    obtain ⟨g, hg, rfl⟩ := h
    obtain ⟨hbase, hwithin⟩ := within_of_lvalueFacts hg
    exact hwithin.append ⟨by simpa using hbase, by simpa using hbase⟩

theorem within_of_operandsFacts {ops : List Operand} {f : Facts}
    (h : b.operandsFacts ops = .ok f) : f.Within b.locals.names := by
  induction ops generalizing f with
  | nil =>
    cases h
    exact Facts.within_nil _
  | cons op ops ih =>
    simp only [operandsFacts, bind_eq_ok, pure_eq_ok] at h
    obtain ⟨g, hg, g', hg', rfl⟩ := h
    exact (within_of_operandFacts hg).append (ih hg')

theorem within_of_destFacts {dest : Place} {f : Facts} (h : b.destFacts dest = .ok f) :
    dest.base ∈ b.locals.names ∧ f.Within b.locals.names := by
  simp only [destFacts, bind_eq_ok, pure_eq_ok] at h
  obtain ⟨g, hg, rfl⟩ := h
  obtain ⟨hbase, hwithin⟩ := within_of_lvalueFacts hg
  exact ⟨hbase, hwithin.append ⟨by simp, by simpa using hbase⟩⟩

/-! ## Regions -/

/-- Following a path leads to a part of the type. -/
theorem mentions_of_follow {t u : Ty} {path : List Projection} (h : follow t path = some u)
    {r : Region} (hr : u.Mentions r) : t.Mentions r := by
  fun_induction follow t path with
  | case1 t =>
    cases h
    exact hr
  | case2 s m referent rest ih => exact .inner s m (ih h)
  | case3 => cases h

/-- The regions in the type of a place are known. -/
theorem Sound.declares_of_placeType (hb : b.Sound) {p : Place} {t : Ty}
    (h : b.placeType p = .ok (some t)) : ∀ r ∈ t.regions, b.Declares r := by
  intro r hr
  obtain ⟨v, hv, hfollow⟩ := map_eq_ok.mp h
  have hmem : v ∈ b.locals.values :=
    List.mem_map.mpr ⟨_, OrderedMap.get?_eq_some_iff.mp (variableNamed_eq_ok.mp hv), rfl⟩
  have hregions : r ∈ v.regions :=
    mem_regions_iff.mpr (mentions_of_follow hfollow (mem_regions_iff.mp hr))
  exact hb.localRegions v hmem r (List.mem_append_left _ hregions)

theorem edgesIn_of_relate {src dst : Ty} {edges : List RegionEdge}
    (h : relate src dst = .ok edges) (hsrc : ∀ r ∈ src.regions, b.Declares r)
    (hdst : ∀ r ∈ dst.regions, b.Declares r) : EdgesIn b.Declares edges := by
  rw [relate] at h
  split at h
  · next hok =>
    cases h
    exact edgesIn_relate hok hsrc hdst
  · cases h

theorem Sound.edgesIn_of_reborrowEdges (hb : b.Sound) {target : Region}
    (htarget : b.Declares target) {bases : List Place} {edges : List RegionEdge}
    (h : b.reborrowEdges target bases = .ok edges) : EdgesIn b.Declares edges := by
  induction bases generalizing edges with
  | nil =>
    cases h
    exact edgesIn_nil
  | cons base rest ih =>
    simp only [reborrowEdges, bind_eq_ok] at h
    obtain ⟨ty, hty, edges', hedges', h⟩ := h
    split at h
    · next r _ _ =>
      cases h
      have hr : b.Declares r :=
        hb.declares_of_placeType hty r (mem_regions_iff.mpr (mentions_ref.mpr (Or.inl rfl)))
      exact List.forall_mem_cons.mpr ⟨⟨hr, htarget⟩, ih hedges'⟩
    · cases h
      exact ih hedges'

theorem Sound.edgesIn_of_borrowEdges (hb : b.Sound) {place : Place} {referent : Ty}
    {mutable : Bool} (hreferent : ∀ r ∈ referent.regions, b.Declares r) {edges : List RegionEdge}
    (h : b.borrowEdges place referent mutable = .ok edges) : EdgesIn b.Declares edges := by
  simp only [borrowEdges, bind_eq_ok] at h
  obtain ⟨ty, hty, h⟩ := h
  cases ty with
  | none =>
    cases h
    exact edgesIn_nil
  | some borrowed =>
    have hborrowed := hb.declares_of_placeType hty
    obtain ⟨forward, hforward, h⟩ := bind_eq_ok.mp h
    have hin := edgesIn_of_relate hforward hborrowed hreferent
    split at h
    · obtain ⟨backward, hbackward, h⟩ := bind_eq_ok.mp h
      cases h
      exact edgesIn_append hin (edgesIn_of_relate hbackward hreferent hborrowed)
    · cases h
      exact hin

theorem Sound.edgesIn_of_assignEdges (hb : b.Sound) {dest : Place} {src : Operand}
    {edges : List RegionEdge} (h : b.assignEdges dest src = .ok edges) :
    EdgesIn b.Declares edges := by
  rw [assignEdges] at h
  split at h
  · cases h
    exact edgesIn_nil
  · simp only [bind_eq_ok] at h
    obtain ⟨srcTy, hsrcTy, destTy, hdestTy, h⟩ := h
    split at h
    · exact edgesIn_of_relate h (hb.declares_of_placeType hsrcTy) (hb.declares_of_placeType hdestTy)
    · cases h
      exact edgesIn_nil

/-- The obligations of edges between known regions are in order. -/
theorem obligationsAt_inOrder {p : Point} {edges : List RegionEdge}
    (h : EdgesIn b.Declares edges) : ∀ o ∈ obligationsAt p edges,
      o.point = some p ∧ o.sub ∈ b.regions.values ∧ o.sup ∈ b.regions.values := by
  intro o ho
  rw [obligationsAt, List.mem_eraseDups, List.mem_map] at ho
  obtain ⟨e, he, rfl⟩ := ho
  exact ⟨rfl, (h e he).1.mem_values, (h e he).2.mem_values⟩

/-! ## Statements -/

/-- What a statement mentions that drops nothing, from the facts of its parts. -/
theorem mentions_of_facts {vars : List String} {s : Statement} {facts : Facts}
    (hfacts : facts.Within vars) (hreads : s.reads = .ofList facts.reads) (hdrops : s.drops = ∅)
    (haccesses : s.accesses = facts.accesses) (hwrite : ∀ x, s.write = some x → x ∈ vars)
    (hassigned : ∀ p, s.assigned = some p → p.base ∈ vars) : ∀ x ∈ s.mentions, x ∈ vars := by
  refine Statement.forall_mentions ?_ ?_ hwrite ?_ hassigned
  · intro x hx
    rw [hreads, SortedSet.mem_ofList] at hx
    exact hfacts.reads x hx
  · simp [hdrops]
  · rw [haccesses]
    exact hfacts.accesses

/-- What a statement mentions that stores into a place. -/
theorem mentions_of_store {vars : List String} {s : Statement} {facts : Facts} {dest : Place}
    (hfacts : facts.Within vars) (hdest : dest.base ∈ vars) (hreads : s.reads = .ofList facts.reads)
    (hdrops : s.drops = ∅) (haccesses : s.accesses = facts.accesses)
    (hwrite : s.write = wholeLocal? dest) (hassigned : s.assigned = some dest) :
    ∀ x ∈ s.mentions, x ∈ vars := by
  refine mentions_of_facts hfacts hreads hdrops haccesses ?_ ?_
  · intro x hx
    rw [hwrite, wholeLocal?] at hx
    split at hx
    · cases hx
      exact hdest
    · cases hx
  · intro p hp
    rw [hassigned] at hp
    cases hp
    exact hdest

/-- What a statement mentions that only reads. -/
theorem mentions_of_reads {vars : List String} {s : Statement} {facts : Facts}
    (hfacts : facts.Within vars) (hreads : s.reads = .ofList facts.reads) (hdrops : s.drops = ∅)
    (haccesses : s.accesses = facts.accesses) (hwrite : s.write = none)
    (hassigned : s.assigned = none) : ∀ x ∈ s.mentions, x ∈ vars :=
  mentions_of_facts hfacts hreads hdrops haccesses (by simp [hwrite]) (by simp [hassigned])

/-- The regions of the reference that a borrow is assigned into are known. -/
theorem Sound.declares_of_borrowTarget (hb : b.Sound) {dest : Place} {mutable : Bool}
    {target : Region} {referent : Ty} (h : b.borrowTarget dest mutable = .ok (target, referent)) :
    b.Declares target ∧ ∀ r ∈ referent.regions, b.Declares r := by
  simp only [borrowTarget, bind_eq_ok] at h
  obtain ⟨ty, hty, h⟩ := h
  split at h
  · split at h
    · cases h
    · cases h
      have hknown := hb.declares_of_placeType hty
      simp only [mem_regions_iff, mentions_ref] at hknown ⊢
      exact ⟨hknown _ (Or.inl rfl), fun r hr => hknown r (Or.inr hr)⟩
  · cases h

end Builder

namespace Operation

open BuildM Builder Ty

variable {op : Operation} {span : Option Span} {b : Builder} {s : Statement} {block : String}

/-- **A derived statement is in order** where it is going to stand, if the regions that were only
    looked up by name are those of the table. -/
theorem Derives.inOrder (h : op.Derives span b s) (hb : b.Sound)
    (hop : op.appendsTo? = some block) (hregions : ∀ r ∈ op.namedRegions, b.Declares r) :
    s.InOrder b.locals.names b.regions.values (b.nextPoint block) := by
  cases h with
  | borrow htarget h =>
    cases hop
    obtain ⟨htarget, hreferent⟩ := hb.declares_of_borrowTarget htarget
    simp only [borrowStatement, bind_eq_ok, pure_eq_ok] at h
    obtain ⟨through, hthrough, between, hbetween, found, hfound, stored, hstored, rfl⟩ := h
    obtain ⟨hbase, hfound⟩ := within_of_lvalueFacts hfound
    obtain ⟨hdest, hstored⟩ := within_of_destFacts hstored
    refine ⟨?_, ?_, ?_⟩
    · refine mentions_of_store ((hfound.append ?_).append hstored) hdest rfl rfl rfl rfl rfl
      exact ⟨by simp, by simpa using hbase⟩
    · apply obligationsAt_inOrder
      exact edgesIn_append (hb.edgesIn_of_reborrowEdges htarget hthrough)
        (hb.edgesIn_of_borrowEdges hreferent hbetween)
    · intro issue hissue
      cases hissue
      refine ⟨rfl, hbase, fun r hr => ?_⟩
      rw [List.mem_singleton.mp hr]
      exact htarget.mem_values
  | assign h =>
    cases hop
    have hs := (gives_append.mp h).1
    simp only [bind_eq_ok, pure_eq_ok] at hs
    obtain ⟨used, hused, edges, hedges, stored, hstored, rfl⟩ := hs
    obtain ⟨hdest, hwithin⟩ := within_of_destFacts hstored
    refine ⟨?_, obligationsAt_inOrder (hb.edgesIn_of_assignEdges hedges), by simp⟩
    exact mentions_of_store ((within_of_operandFacts hused).append hwithin) hdest rfl rfl rfl rfl rfl
  | call h =>
    cases hop
    have hs := (gives_append.mp h).1
    simp only [bind_eq_ok, pure_eq_ok] at hs
    obtain ⟨used, hused, stored, hstored, _, _, rfl⟩ := hs
    obtain ⟨hdest, hwithin⟩ := within_of_destFacts hstored
    refine ⟨?_, obligationsAt_inOrder fun edge hedge => ?_, by simp⟩
    · exact mentions_of_store ((within_of_operandsFacts hused).append hwithin) hdest
        rfl rfl rfl rfl rfl
    · exact ⟨hregions _ (List.mem_flatMap.mpr ⟨edge, hedge, by simp⟩),
        hregions _ (List.mem_flatMap.mpr ⟨edge, hedge, by simp⟩)⟩
  | use h =>
    have hs := (gives_append.mp h).1
    simp only [bind_eq_ok, pure_eq_ok] at hs
    obtain ⟨facts, hfacts, rfl⟩ := hs
    refine ⟨?_, by simp, by simp⟩
    exact mentions_of_reads (within_of_operandsFacts hfacts) rfl rfl rfl rfl rfl
  | drop h =>
    have hs := (gives_append.mp h).1
    simp only [bind_eq_ok, pure_eq_ok] at hs
    obtain ⟨v, hv, rfl⟩ := hs
    have hvar := mem_names_of_variableNamed hv
    refine ⟨?_, by simp, by simp⟩
    apply Statement.forall_mentions
    · simp
    · simpa using hvar
    · simp
    · -- only a destructor touches the variable
      intro a ha
      dsimp only at ha
      split at ha
      · rw [List.mem_singleton.mp ha]
        exact hvar
      · cases ha
    · simp
  | storageDead h =>
    have hs := (gives_append.mp h).1
    simp only [bind_eq_ok, pure_eq_ok] at hs
    obtain ⟨v, hv, rfl⟩ := hs
    have hvar := mem_names_of_variableNamed hv
    refine ⟨?_, by simp, by simp⟩
    apply Statement.forall_mentions
    · simp
    · simp
    · simpa using hvar
    · simpa [Place.ofLocal] using hvar
    · simpa [Place.ofLocal] using hvar
  | outlives h =>
    cases hop
    have hs := (gives_append.mp h).1
    simp only [bind_eq_ok, pure_eq_ok] at hs
    obtain ⟨_, _, _, _, rfl⟩ := hs
    refine ⟨?_, obligationsAt_inOrder fun edge hedge => ?_, by simp⟩
    · exact Statement.forall_mentions (by simp) (by simp) (by simp) (by simp) (by simp)
    · rw [List.mem_singleton.mp hedge]
      exact ⟨hregions _ (by simp [namedRegions]), hregions _ (by simp [namedRegions])⟩
  | nop h =>
    cases (gives_append.mp h).1
    refine ⟨?_, by simp, by simp⟩
    exact Statement.forall_mentions (by simp) (by simp) (by simp) (by simp) (by simp)
  | _ => cases hop

/-- **A derived terminator** mentions known variables and brings in nothing else. -/
theorem Derives.ends {t : Terminator} (h : op.Derives span b t.toStatement)
    (hop : op.ends? = some block) : Ends b.locals.names t := by
  -- all but a branch have no facts
  have plain : ∀ {s : Statement}, s.reads = .ofList [] → s.drops = ∅ → s.accesses = [] →
      s.write = none → s.assigned = none → ∀ x ∈ s.mentions, x ∈ b.locals.names :=
    mentions_of_reads (Facts.within_nil _)
  generalize hs : t.toStatement = s at h
  suffices hfacts : (∀ x ∈ s.mentions, x ∈ b.locals.names) ∧ s.obligations = [] ∧ s.loan = none by
    subst hs
    exact ⟨hfacts.1, hfacts.2.1, hfacts.2.2⟩
  cases h with
  | goto h =>
    cases (gives_terminate.mp h).1
    exact ⟨plain rfl rfl rfl rfl rfl, rfl, rfl⟩
  | branch h =>
    have ht := (gives_terminate.mp h).1
    simp only [bind_eq_ok, pure_eq_ok] at ht
    obtain ⟨facts, hfacts, rfl⟩ := ht
    exact ⟨mentions_of_reads (within_of_operandsFacts hfacts) rfl rfl rfl rfl rfl, rfl, rfl⟩
  | ret h =>
    cases (gives_terminate.mp h).1
    exact ⟨plain rfl rfl rfl rfl rfl, rfl, rfl⟩
  | unreachable h =>
    cases (gives_terminate.mp h).1
    exact ⟨plain rfl rfl rfl rfl rfl, rfl, rfl⟩
  | _ => cases hop

end Operation

namespace Builder

open BuildM

variable {b b' : Builder}

/-! ## Filling in blocks -/

/-- The name that a sound builder hands out next is new. -/
theorem Sound.loanName_not_mem (hb : b.Sound) : loanName b.loanCount ∉ b.loanNames := by
  intro hmem
  obtain ⟨k, hk, hname⟩ := hb.loansNumbered _ hmem
  have heq := loanName_injective hname
  omega

/-- A statement without a loan may be appended where it was derived. -/
theorem Sound.fill_of_derives (hb : b.Sound) {op : Operation} {span : Option Span} {s : Statement}
    {block : String} (hop : op.appendsTo? = some block) (hopen : b.IsOpen block)
    (hs : op.Derives span b s) (hloan : s.loan = none)
    (hregions : ∀ r ∈ op.namedRegions, b.Declares r) : Fill b (b.updateBlock block (·.push s)) := by
  obtain ⟨blk, hblk, hnone⟩ := hopen
  have horder := hs.inOrder hb hop hregions
  rw [nextPoint, hblk] at horder
  refine .statement hblk hnone horder fun n hn => ?_
  rw [Statement.loanNames, hloan] at hn
  cases hn

/-- A statement with a loan may be appended once the name of the loan is taken. -/
theorem Sound.fills_of_lends (hb : b.Sound) {span : Option Span} {s : Statement} {block : String}
    {dest place : Place} {mutable : Bool} (hopen : b.IsOpen block)
    (hs : (Operation.borrow block dest place mutable).Derives span b s) :
    ReflTransGen Fill b
      (Builder.updateBlock { b with loanCount := b.loanCount + 1 } block (·.push s)) := by
  obtain ⟨blk, hblk, hnone⟩ := hopen
  obtain ⟨issue, hissue, hloan, _⟩ := hs.exists_issue
  have horder := hs.inOrder hb rfl fun _ hr => absurd hr List.not_mem_nil
  rw [nextPoint, hblk] at horder
  have htaken : Fill b { b with loanCount := b.loanCount + 1 } := .loanName
  refine .tail (.single htaken) (.statement hblk hnone horder fun n hn => ?_)
  obtain rfl : n = loanName b.loanCount := by
    simpa [Statement.loanNames, hissue, hloan, nextLoan] using hn
  exact ⟨hb.loanName_not_mem, b.loanCount, Nat.lt_succ_self _, rfl⟩

/-- **What a request does keeps a builder sound**, if the regions that it only looked up by name
    are those of the table. -/
theorem Sound.changes_of_does (hb : b.Sound) {op : Operation} {span : Option Span}
    (h : op.Does span b b') (hregions : ∀ r ∈ op.namedRegions, b.Declares r) :
    ReflTransGen Change b b' := by
  cases h with
  | enters h => exact changes_of_fills (fills_of_entries h)
  | opens hnew => exact .single (.block hnew)
  | appends hop hopen hs hloan =>
    exact .single (.fill (hb.fill_of_derives hop hopen hs hloan hregions))
  | lends hopen hs => exact changes_of_fills (hb.fills_of_lends hopen hs)
  | ends hop hopen ht =>
    obtain ⟨blk, hblk, hnone⟩ := hopen
    exact .single (.terminator hblk hnone (ht.ends hop))

/-! ## Steps -/

/-- **Appending fills something in**, where each statement that can be appended is derived by the
    operation. -/
theorem meets_append (hb : b.Sound) {op : Operation} {block : String} {span : Option Span}
    {ask : Builder → Except BuildFault Statement} (hop : op.appendsTo? = some block)
    (hkind : op.kind? ≠ some "borrow") (hregions : ∀ r ∈ op.namedRegions, b.Declares r)
    (h : ∀ s b', Gives (append block span ask) b s b' → op.Derives span b s) :
    Meets Fill b (append block span ask) (fun e => e.span = span) fun _ _ => True := by
  rcases gives_or_fails (append block span ask) b with ⟨s, hgives⟩ | ⟨e, hfails⟩
  · have hs := h s _ hgives
    obtain ⟨_, hopen, hpushed⟩ := gives_append.mp hgives
    rw [hpushed] at hgives
    exact meets_of_ok hgives
      (.single (hb.fill_of_derives hop hopen hs (hs.loan_eq_none hkind) hregions)) trivial
  · obtain ⟨hspan, hsame⟩ := blame_of_fails_append hfails
    exact meets_of_error hfails (hsame ▸ .refl) hspan

theorem meets_borrow (hb : b.Sound) (block : String) (dest place : Place) (mutable : Bool)
    (span : Option Span) :
    Meets Fill b (borrow block dest place mutable span) (fun e => e.span = span)
      fun _ _ => True := by
  rcases gives_or_fails (borrow block dest place mutable span) b with ⟨loan, hgives⟩ | ⟨e, hfails⟩
  · obtain ⟨target, referent, s, htarget, rfl, hs, hopen, hpushed⟩ := gives_borrow.mp hgives
    rw [hpushed] at hgives
    exact meets_of_ok hgives (hb.fills_of_lends hopen (.borrow htarget hs)) trivial
  · obtain ⟨hspan, hsame | hcounted⟩ := blame_of_fails_borrow hfails
    · exact meets_of_error hfails (hsame ▸ .refl) hspan
    · exact meets_of_error hfails (hcounted ▸ .single .loanName) hspan

theorem meets_assign (hb : b.Sound) (block : String) (dest : Place) (src : Operand)
    (span : Option Span) :
    Meets Fill b (assign block dest src span) (fun e => e.span = span) fun _ _ => True :=
  meets_append hb rfl (by simp [Operation.kind?]) (by simp [Operation.namedRegions])
    fun _ _ => Operation.Derives.assign

theorem meets_call (hb : b.Sound) {bounds : List RegionEdge}
    (hbounds : ∀ e ∈ bounds, b.Declares e.1 ∧ b.Declares e.2) (block : String) (dest : Place)
    (func : String) (operands : List Operand) (span : Option Span) :
    Meets Fill b (call block dest func operands bounds span) (fun e => e.span = span)
      fun _ _ => True := by
  refine meets_append hb rfl (by simp [Operation.kind?]) ?_ fun _ _ => Operation.Derives.call
  intro r hr
  obtain ⟨e, he, hside⟩ := List.mem_flatMap.mp hr
  have hside : r = e.1 ∨ r = e.2 := by simpa using hside
  rcases hside with rfl | rfl
  · exact (hbounds e he).1
  · exact (hbounds e he).2

theorem meets_use (hb : b.Sound) (block : String) (operands : List Operand) (span : Option Span) :
    Meets Fill b (use block operands span) (fun e => e.span = span) fun _ _ => True :=
  meets_append hb rfl (by simp [Operation.kind?]) (by simp [Operation.namedRegions])
    fun _ _ => Operation.Derives.use

theorem meets_drop (hb : b.Sound) (block var : String) (span : Option Span) :
    Meets Fill b (drop block var span) (fun e => e.span = span) fun _ _ => True :=
  meets_append hb rfl (by simp [Operation.kind?]) (by simp [Operation.namedRegions])
    fun _ _ => Operation.Derives.drop

theorem meets_storageDead (hb : b.Sound) (block var : String) (span : Option Span) :
    Meets Fill b (storageDead block var span) (fun e => e.span = span) fun _ _ => True :=
  meets_append hb rfl (by simp [Operation.kind?]) (by simp [Operation.namedRegions])
    fun _ _ => Operation.Derives.storageDead

theorem meets_outlives (hb : b.Sound) {sub sup : Region} (hsub : b.Declares sub)
    (hsup : b.Declares sup) (block : String) (span : Option Span) :
    Meets Fill b (outlives block sub sup span) (fun e => e.span = span) fun _ _ => True :=
  meets_append hb rfl (by simp [Operation.kind?]) (by simp [Operation.namedRegions, hsub, hsup])
    fun _ _ => Operation.Derives.outlives

theorem meets_nop (hb : b.Sound) (block : String) (span : Option Span) :
    Meets Fill b (nop block span) (fun e => e.span = span) fun _ _ => True :=
  meets_append hb rfl (by simp [Operation.kind?]) (by simp [Operation.namedRegions])
    fun _ _ => Operation.Derives.nop

/-! ## Terminators -/

/-- A block of the outline has got its terminator, which stands at the span. -/
def Closes (block : String) (span : Option Span) (b : Builder) (t : Terminator) (b' : Builder) :
    Prop :=
  t.span = span.getD {} ∧
    b'.outline = b.outline.map fun e => if e.1 = block then (e.1, some t) else e

theorem outline_close (b : Builder) (block : String) (t : Terminator) :
    (b.updateBlock block (·.close t)).outline =
      b.outline.map fun e => if e.1 = block then (e.1, some t) else e := by
  simp only [outline, updateBlock, List.map_map]
  refine List.map_congr_left fun blk _ => ?_
  simp only [Function.comp]
  split <;> rfl

/-- **Ending a block** with any terminator that an operation derives. -/
theorem meets_terminate {op : Operation} {block : String} {span : Option Span}
    {ask : Builder → Except BuildFault Terminator} (hop : op.ends? = some block)
    (h : ∀ t b', Gives (terminate block span ask) b t b' → op.Derives span b t.toStatement) :
    Meets Change b (terminate block span ask) (fun e => e.span = span) (Closes block span b) := by
  rcases gives_or_fails (terminate block span ask) b with ⟨t, hgives⟩ | ⟨e, hfails⟩
  · have ht := h t _ hgives
    obtain ⟨_, ⟨blk, hblk, hnone⟩, hclosed⟩ := gives_terminate.mp hgives
    rw [hclosed] at hgives
    exact meets_of_ok hgives (.single (.terminator hblk hnone (ht.ends hop)))
      ⟨ht.heading.2.1, outline_close b block t⟩
  · obtain ⟨hspan, hsame⟩ := blame_of_fails_terminate hfails
    exact meets_of_error hfails (hsame ▸ .refl) hspan

theorem meets_goto (block target : String) (span : Option Span) :
    Meets Change b (goto block target span) (fun e => e.span = span) (Closes block span b) :=
  meets_terminate rfl fun _ _ => Operation.Derives.goto

theorem meets_branch (block : String) (targets : List String) (cond : Option Operand)
    (span : Option Span) :
    Meets Change b (branch block targets cond span) (fun e => e.span = span)
      (Closes block span b) :=
  meets_terminate rfl fun _ _ => Operation.Derives.branch

theorem meets_ret (block : String) (span : Option Span) :
    Meets Change b (ret block span) (fun e => e.span = span) (Closes block span b) :=
  meets_terminate rfl fun _ _ => Operation.Derives.ret

theorem meets_unreachable (block : String) (span : Option Span) :
    Meets Change b (unreachable block span) (fun e => e.span = span) (Closes block span b) :=
  meets_terminate rfl fun _ _ => Operation.Derives.unreachable

end Builder

end BorrowFlow
