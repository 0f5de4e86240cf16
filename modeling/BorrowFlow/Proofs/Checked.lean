import BorrowFlow.Proofs.Except
import BorrowFlow.Proofs.WellFormed

/-! # What the check of a draft accepts

    Each part of the check is an equivalence: it succeeds exactly if what it looks
    at is in order, and then its answer is what was handed in.  Hence a body that
    comes out of the check is well-formed (`Draft.wellFormed_of_check`).
-/

namespace BorrowFlow

/-! ## Names of loans -/

/-- The names are new and all different. -/
def Fresh (issued names : List String) : Prop := names.Nodup ∧ ∀ n ∈ names, n ∉ issued

theorem fresh_nil (issued : List String) : Fresh issued [] := ⟨List.nodup_nil, by simp⟩

/-- Names issued one after the other are fresh if the later ones are fresh among
    the earlier ones too. -/
theorem fresh_append {issued xs ys : List String} :
    Fresh issued (xs ++ ys) ↔ Fresh issued xs ∧ Fresh (issued ++ xs) ys := by
  simp only [Fresh, List.nodup_append, List.mem_append, not_or]
  constructor
  · rintro ⟨⟨hxs, hys, hdisjoint⟩, hnew⟩
    exact ⟨⟨hxs, fun n hn => hnew n (Or.inl hn)⟩, hys,
      fun n hn => ⟨hnew n (Or.inr hn), fun hx => hdisjoint n hx n hn rfl⟩⟩
  · rintro ⟨⟨hxs, hnew⟩, hys, hnew'⟩
    refine ⟨⟨hxs, hys, fun x hx y hy hxy => (hnew' y hy).2 (hxy ▸ hx)⟩, ?_⟩
    rintro n (hn | hn)
    · exact hnew n hn
    · exact (hnew' n hn).1

/-! ## Facts in a row -/

/-- The facts at the indices from `i` on of a block are in order. -/
def InOrderFrom (vars : List String) (regions : List Region) (block : String) (i : Nat)
    (ss : List Statement) : Prop :=
  ∀ (j : Nat) (s : Statement), ss[j]? = some s → s.InOrder vars regions ⟨block, ((i + j : Nat) : Int)⟩

theorem inOrderFrom_cons {vars : List String} {regions : List Region} {block : String} {i : Nat}
    {s : Statement} {ss : List Statement} :
    InOrderFrom vars regions block i (s :: ss) ↔
      s.InOrder vars regions ⟨block, i⟩ ∧ InOrderFrom vars regions block (i + 1) ss := by
  constructor
  · intro h
    refine ⟨h 0 s rfl, fun j s' hs' => ?_⟩
    have hlater := h (j + 1) s' hs'
    rwa [← Nat.add_assoc, Nat.add_right_comm] at hlater
  · rintro ⟨hfirst, hrest⟩ j s' hs'
    cases j with
    | zero =>
      obtain rfl : s = s' := Option.some.inj hs'
      exact hfirst
    | succ j =>
      have hlater := hrest j s' hs'
      rwa [Nat.add_right_comm, Nat.add_assoc] at hlater

theorem inOrderFrom_append {vars : List String} {regions : List Region} {block : String} {i : Nat}
    {ss ts : List Statement} :
    InOrderFrom vars regions block i (ss ++ ts) ↔
      InOrderFrom vars regions block i ss ∧ InOrderFrom vars regions block (i + ss.length) ts := by
  induction ss generalizing i with
  | nil => simp [InOrderFrom]
  | cons s ss ih =>
    rw [List.cons_append, inOrderFrom_cons, inOrderFrom_cons, ih, and_assoc, List.length_cons,
      Nat.add_right_comm, Nat.add_assoc]

namespace Draft

variable {d : Draft}

/-- The regions of the draft are listed under their own names. -/
def KeyedRegions (d : Draft) : Prop := ∀ e ∈ d.regions.entries, e.2.name = e.1

/-! ## Parts of the check -/

theorem require_eq_ok {ok : Bool} {fault : DraftFault} {u : Unit} :
    require ok fault = .ok u ↔ ok = true := by
  cases ok <;> simp [require]

theorem declares_iff (hkeys : d.KeyedRegions) {r : Region} :
    d.declares r = true ↔ r ∈ d.regions.values := by
  rw [declares, decide_eq_true_eq, OrderedMap.get?_eq_some_iff, OrderedMap.values, List.mem_map]
  constructor
  · intro h
    exact ⟨_, h, rfl⟩
  · rintro ⟨⟨key, r⟩, h, rfl⟩
    have hkey : r.name = key := hkeys _ h
    rw [hkey]
    exact h

theorem checkObligation_eq_ok (hkeys : d.KeyedRegions) {o : Obligation} :
    d.checkObligation o = .ok () ↔ o.sub ∈ d.regions.values ∧ o.sup ∈ d.regions.values := by
  simp only [checkObligation, bind_eq_ok, require_eq_ok, declares_iff hkeys, exists_const]

theorem checkVariable_eq_ok (hkeys : d.KeyedRegions) {v : Variable} :
    d.checkVariable v = .ok () ↔ ∀ r ∈ v.regions ++ v.drops.getD [], r ∈ d.regions.values := by
  simp only [checkVariable, forM_eq_ok, require_eq_ok, declares_iff hkeys]

theorem checkLoan_eq_ok (hkeys : d.KeyedRegions) {p : Point} {issued : List String}
    {issue : LoanIssue} :
    d.checkLoan p issued issue = .ok () ↔ issue.loan.point = p ∧ issue.loan.name ∉ issued ∧
      issue.loan.place.base ∈ d.locals.names ∧ ∀ r ∈ issue.regions, r ∈ d.regions.values := by
  simp only [checkLoan, bind_eq_ok, require_eq_ok, forM_eq_ok, declares_iff hkeys,
    decide_eq_true_eq, OrderedMap.contains_eq_true_iff, exists_const, Bool.not_eq_true',
    List.contains_eq_mem, decide_eq_false_iff_not]

/-- **A point passes** if its facts are in order and its loan, if any, is new. -/
theorem checkStatement_eq_ok (hkeys : d.KeyedRegions) {p : Point} {issued issued' : List String}
    {s : Statement} :
    d.checkStatement p issued s = .ok issued' ↔
      s.InOrder d.locals.names d.regions.values p ∧ Fresh issued s.loanNames ∧
        issued' = issued ++ s.loanNames := by
  simp only [checkStatement, bind_eq_ok, forM_eq_ok, require_eq_ok, checkObligation_eq_ok hkeys,
    decide_eq_true_eq, OrderedMap.contains_eq_true_iff, exists_const]
  cases hloan : s.loan with
  | none =>
    have hnames : s.loanNames = [] := by simp [Statement.loanNames, hloan]
    rw [hnames, List.append_nil, pure_eq_ok]
    constructor
    · rintro ⟨hmentions, hobligations, rfl⟩
      exact ⟨⟨hmentions, hobligations, by simp [hloan]⟩, fresh_nil _, rfl⟩
    · rintro ⟨h, _, rfl⟩
      exact ⟨h.mentions, h.obligations, rfl⟩
  | some issue =>
    have hnames : s.loanNames = [issue.loan.name] := by simp [Statement.loanNames, hloan]
    have hfresh : Fresh issued [issue.loan.name] ↔ issue.loan.name ∉ issued := by simp [Fresh]
    rw [hnames, hfresh]
    simp only [bind_eq_ok, checkLoan_eq_ok hkeys, pure_eq_ok, exists_const]
    constructor
    · rintro ⟨hmentions, hobligations, ⟨hpoint, hnew, hbase, hregions⟩, rfl⟩
      refine ⟨⟨hmentions, hobligations, ?_⟩, hnew, rfl⟩
      intro issue' hissue'
      obtain rfl : issue = issue' := Option.some.inj (hloan.symm.trans hissue')
      exact ⟨hpoint, hbase, hregions⟩
    · rintro ⟨h, hnew, rfl⟩
      obtain ⟨hpoint, hbase, hregions⟩ := h.loan issue hloan
      exact ⟨h.mentions, h.obligations, ⟨hpoint, hnew, hbase, hregions⟩, rfl⟩

theorem checkStatements_eq_ok (hkeys : d.KeyedRegions) {block : String} {i : Nat}
    {issued issued' : List String} {slots : List Slot} {ss : List Statement} :
    d.checkStatements block i issued slots = .ok (ss, issued') ↔
      slots = ss.map .plain ∧ InOrderFrom d.locals.names d.regions.values block i ss ∧
        Fresh issued (ss.flatMap Statement.loanNames) ∧
        issued' = issued ++ ss.flatMap Statement.loanNames := by
  -- along the slots both the index and the names issued so far move on
  induction slots generalizing i issued ss issued' with
  | nil =>
    simp only [checkStatements, Except.ok.injEq, Prod.mk.injEq]
    constructor
    · rintro ⟨rfl, rfl⟩
      exact ⟨rfl, by simp [InOrderFrom], fresh_nil _, by simp⟩
    · rintro ⟨hss, _, _, rfl⟩
      obtain rfl : ss = [] := List.map_eq_nil_iff.mp hss.symm
      exact ⟨rfl, by simp⟩
  | cons slot slots ih =>
    cases slot with
    | jump t =>
      simp only [checkStatements, reduceCtorEq, false_iff]
      rintro ⟨hss, _⟩
      cases ss with
      | nil => cases hss
      | cons s ss => cases hss
    | plain s =>
      simp only [checkStatements, bind_eq_ok, checkStatement_eq_ok hkeys, pure_eq_ok]
      constructor
      · rintro ⟨_, ⟨hs, hfresh, rfl⟩, ⟨ss', _⟩, hrest, heq⟩
        cases heq
        obtain ⟨rfl, hss', hfresh', rfl⟩ := ih.mp hrest
        refine ⟨rfl, inOrderFrom_cons.mpr ⟨hs, hss'⟩, ?_, ?_⟩
        · rw [List.flatMap_cons, fresh_append]
          exact ⟨hfresh, hfresh'⟩
        · rw [List.flatMap_cons, List.append_assoc]
      · rintro ⟨hss, horder, hfresh, rfl⟩
        cases ss with
        | nil => cases hss
        | cons s' ss =>
          rw [List.map_cons, List.cons.injEq, Slot.plain.injEq] at hss
          obtain ⟨rfl, rfl⟩ := hss
          rw [inOrderFrom_cons] at horder
          rw [List.flatMap_cons, fresh_append] at hfresh
          refine ⟨_, ⟨horder.1, hfresh.1, rfl⟩, (ss, _), ih.mpr ⟨rfl, horder.2, hfresh.2, rfl⟩, ?_⟩
          rw [List.flatMap_cons, List.append_assoc]

/-- A block as it was handed in. -/
def ofBlock (blk : Block) : DraftBlock :=
  ⟨blk.name, blk.statements.map .plain, .jump blk.terminator⟩

/-- Handing a block in loses nothing of it. -/
theorem ofBlock_injective : Function.Injective ofBlock := by
  intro blk blk' h
  injection h with hname hstatements hterminator
  have hplain : Function.Injective Slot.plain := fun _ _ => Slot.plain.inj
  have hsame : blk.statements = blk'.statements := List.map_injective_iff.mpr hplain hstatements
  cases blk
  cases blk'
  cases hname
  cases hterminator
  cases hsame
  rfl

/-- What the check requires of a block, apart from its loans being new. -/
structure BlockInOrder (d : Draft) (blk : Block) : Prop where
  targets : ∀ t ∈ blk.terminator.targets, t ∈ d.blocks.names
  facts : InOrderFrom d.locals.names d.regions.values blk.name 0 blk.facts

theorem checkBlock_eq_ok (hkeys : d.KeyedRegions) {issued issued' : List String} {key : String}
    {handed : DraftBlock} {blk : Block} :
    d.checkBlock issued key handed = .ok (blk, issued') ↔
      (key, handed) = (blk.name, ofBlock blk) ∧ d.BlockInOrder blk ∧
        Fresh issued blk.loanNames ∧ issued' = issued ++ blk.loanNames := by
  obtain ⟨name, slots, last⟩ := handed
  simp only [checkBlock, bind_eq_ok, require_eq_ok, decide_eq_true_eq, exists_const]
  cases last with
  | plain s => simp [ofBlock]
  | jump t =>
    simp only [bind_eq_ok, forM_eq_ok, require_eq_ok, OrderedMap.contains_eq_true_iff,
      checkStatement_eq_ok hkeys, pure_eq_ok, exists_const]
    constructor
    · rintro ⟨rfl, htargets, ⟨ss, _⟩, hss, _, ⟨ht, hfresh, rfl⟩, heq⟩
      obtain ⟨rfl, horder, hfresh', rfl⟩ := (checkStatements_eq_ok hkeys).mp hss
      cases heq
      refine ⟨rfl, ⟨htargets, ?_⟩, ?_, ?_⟩
      · rw [Block.facts, inOrderFrom_append, inOrderFrom_cons, Nat.zero_add]
        exact ⟨horder, ht, by simp [InOrderFrom]⟩
      · rw [Block.loanNames_eq, fresh_append]
        exact ⟨hfresh', hfresh⟩
      · rw [Block.loanNames_eq, List.append_assoc]
    · rintro ⟨heq, ⟨htargets, hfacts⟩, hfresh, rfl⟩
      obtain ⟨rfl, rfl, rfl, rfl⟩ : key = blk.name ∧ name = blk.name ∧
          slots = blk.statements.map .plain ∧ t = blk.terminator := by
        simpa [ofBlock] using heq
      rw [Block.facts, inOrderFrom_append, inOrderFrom_cons, Nat.zero_add] at hfacts
      rw [Block.loanNames_eq, fresh_append] at hfresh
      refine ⟨rfl, htargets, (blk.statements, _),
        (checkStatements_eq_ok hkeys).mpr ⟨rfl, hfacts.1, hfresh.1, rfl⟩,
        _, ⟨hfacts.2.1, hfresh.2, rfl⟩, ?_⟩
      rw [Block.loanNames_eq, List.append_assoc]

theorem checkBlocks_eq_ok (hkeys : d.KeyedRegions) {issued : List String}
    {entries : List (String × DraftBlock)} {blocks : List Block} :
    d.checkBlocks issued entries = .ok blocks ↔
      entries = blocks.map (fun blk => (blk.name, ofBlock blk)) ∧
        (∀ blk ∈ blocks, d.BlockInOrder blk) ∧ Fresh issued (blocks.flatMap Block.loanNames) := by
  induction entries generalizing issued blocks with
  | nil =>
    simp only [checkBlocks, Except.ok.injEq]
    constructor
    · rintro rfl
      exact ⟨rfl, by simp, fresh_nil _⟩
    · rintro ⟨hblocks, _⟩
      exact (List.map_eq_nil_iff.mp hblocks.symm).symm
  | cons entry entries ih =>
    obtain ⟨key, handed⟩ := entry
    simp only [checkBlocks, bind_eq_ok, pure_eq_ok]
    constructor
    · rintro ⟨⟨blk, _⟩, hblk, blocks', hrest, rfl⟩
      obtain ⟨hentry, horder, hfresh, rfl⟩ := (checkBlock_eq_ok hkeys).mp hblk
      obtain ⟨rfl, horder', hfresh'⟩ := ih.mp hrest
      refine ⟨by rw [hentry, List.map_cons], List.forall_mem_cons.mpr ⟨horder, horder'⟩, ?_⟩
      rw [List.flatMap_cons, fresh_append]
      exact ⟨hfresh, hfresh'⟩
    · rintro ⟨hentries, horder, hfresh⟩
      cases blocks with
      | nil => cases hentries
      | cons blk blocks =>
        rw [List.map_cons, List.cons.injEq] at hentries
        rw [List.flatMap_cons, fresh_append] at hfresh
        rw [List.forall_mem_cons] at horder
        exact ⟨(blk, _), (checkBlock_eq_ok hkeys).mpr ⟨hentries.1, horder.1, hfresh.1, rfl⟩,
          blocks, ih.mpr ⟨hentries.2, horder.2, hfresh.2⟩, rfl⟩

/-! ## The whole check -/

/-- The body with the given blocks and everything else as in the draft. -/
def withBlocks (d : Draft) (blocks : List Block) : Body where
  name := d.name
  locals := d.listed
  regions := d.regions.values
  blocks := blocks
  entry := d.entry
  bounds := d.bounds
  span := d.span

/-- What the check requires of a draft with these blocks. -/
structure Accepts (d : Draft) (blocks : List Block) : Prop where
  entry : d.entry ∈ d.blocks.names
  keys : d.KeyedRegions
  localRegions : ∀ v ∈ d.locals.values, ∀ r ∈ v.regions ++ v.drops.getD [], r ∈ d.regions.values
  bounds : ∀ o ∈ d.bounds, o.sub ∈ d.regions.values ∧ o.sup ∈ d.regions.values
  entries : d.blocks.entries = blocks.map fun blk => (blk.name, ofBlock blk)
  inOrder : ∀ blk ∈ blocks, d.BlockInOrder blk
  loanNames : (blocks.flatMap Block.loanNames).Nodup

/-- **The check accepts exactly the drafts that are in order**, and changes nothing. -/
theorem check_eq_ok {b : Body} :
    d.check = .ok b ↔ ∃ blocks, d.Accepts blocks ∧ b = d.withBlocks blocks := by
  simp only [check, bind_eq_ok, require_eq_ok, forM_eq_ok, OrderedMap.contains_eq_true_iff,
    exists_const, pure_eq_ok, decide_eq_true_eq]
  constructor
  · rintro ⟨hentry, hkeys, hlocals, hbounds, blocks, hblocks, rfl⟩
    obtain ⟨hentries, horder, hfresh⟩ := (checkBlocks_eq_ok hkeys).mp hblocks
    refine ⟨blocks, ⟨hentry, hkeys, ?_, ?_, hentries, horder, hfresh.1⟩, rfl⟩
    · exact fun v hv => (checkVariable_eq_ok hkeys).mp (hlocals v hv)
    · exact fun o ho => (checkObligation_eq_ok hkeys).mp (hbounds o ho)
  · rintro ⟨blocks, h, rfl⟩
    refine ⟨h.entry, h.keys, ?_, ?_, blocks, ?_, rfl⟩
    · exact fun v hv => (checkVariable_eq_ok h.keys).mpr (h.localRegions v hv)
    · exact fun o ho => (checkObligation_eq_ok h.keys).mpr (h.bounds o ho)
    · exact (checkBlocks_eq_ok h.keys).mpr ⟨h.entries, h.inOrder, h.loanNames, by simp⟩

theorem map_name_listed (d : Draft) : d.listed.map Variable.name = d.locals.names := by
  simp [listed, OrderedMap.names]

/-- A body that comes out of the check is well-formed. -/
theorem wellFormed_of_check {b : Body} (h : d.check = .ok b) : b.WellFormed := by
  obtain ⟨blocks, hd, rfl⟩ := check_eq_ok.mp h
  have hnames : blocks.map Block.name = d.blocks.names := by
    rw [OrderedMap.names, hd.entries, List.map_map]
    rfl
  refine
    { blockNames := ?_, entry := ?_, targets := ?_, regionNames := ?_, localNames := ?_,
      localRegions := ?_, bounds := hd.bounds, facts := ?_, loanNames := hd.loanNames }
  · show (blocks.map Block.name).Nodup
    rw [hnames]
    exact d.blocks.distinct
  · show d.entry ∈ blocks.map Block.name
    rw [hnames]
    exact hd.entry
  · intro blk hblk t ht
    show t ∈ blocks.map Block.name
    rw [hnames]
    exact (hd.inOrder blk hblk).targets t ht
  · show (d.regions.values.map Region.name).Nodup
    have hkeys : d.regions.values.map Region.name = d.regions.entries.map Prod.fst := by
      rw [OrderedMap.values, List.map_map]
      exact List.map_congr_left hd.keys
    rw [hkeys]
    exact d.regions.distinct
  · show (d.listed.map Variable.name).Nodup
    rw [map_name_listed]
    exact d.locals.distinct
  · intro v hv
    obtain ⟨e, he, rfl⟩ := List.mem_map.mp hv
    exact hd.localRegions e.2 (List.mem_map_of_mem he)
  · intro blk hblk i s hs
    have horder := (hd.inOrder blk hblk).facts i s hs
    rw [Nat.zero_add] at horder
    show s.InOrder (d.listed.map Variable.name) d.regions.values _
    rw [map_name_listed]
    exact horder

end Draft

end BorrowFlow
