import BorrowFlow.Builder.Statement
import BorrowFlow.Proofs.WellFormed
import Mathlib.Logic.Relation

/-! # What a step does to a builder

    However a step ends, it takes a builder to another by small changes.  Most of
    them fill in what is there (`Builder.Fill`), be it an entry of a table
    (`Builder.Entry`) or a statement; the others open and close blocks
    (`Builder.Change`).  What they keep is said once here, and holds along every run:

    * `Sound`: what has been collected would pass the check of a draft.
    * Regions and variables that are known stay known (`Keeps`).
    * Filling in touches neither the names of the blocks nor how they end (`outline`).

    Where only regions come in (`Builder.TakesIn`), everything but their table stays as it
    is (`Builder.Adopts`).
-/

namespace BorrowFlow

open Relation (ReflTransGen)

theorem Statement.InOrder.mono {vars vars' : List String} {regions regions' : List Region}
    {p : Point} {s : Statement} (h : s.InOrder vars regions p) (hvars : vars ⊆ vars')
    (hregions : regions ⊆ regions') : s.InOrder vars' regions' p where
  mentions := fun x hx => hvars (h.mentions x hx)
  obligations := fun o ho =>
    ⟨(h.obligations o ho).1, hregions (h.obligations o ho).2.1, hregions (h.obligations o ho).2.2⟩
  loan := fun issue hissue => ⟨(h.loan issue hissue).1, hvars (h.loan issue hissue).2.1,
    fun r hr => hregions ((h.loan issue hissue).2.2 r hr)⟩

namespace OpenBlock

/-- Append a statement. -/
def push (blk : OpenBlock) (s : Statement) : OpenBlock :=
  { blk with statements := blk.statements ++ [s] }

/-- End the block. -/
def close (blk : OpenBlock) (t : Terminator) : OpenBlock := { blk with terminator := some t }

/-- The names of the loans issued in a block so far. -/
def loanNames (blk : OpenBlock) : List String := blk.statements.flatMap Statement.loanNames

theorem loanNames_push (blk : OpenBlock) (s : Statement) :
    (blk.push s).loanNames = blk.loanNames ++ s.loanNames := by
  simp [loanNames, push]

/-- Past the old statements there is the new one only. -/
theorem getElem?_push {blk : OpenBlock} {s s' : Statement} {i : Nat}
    (h : (blk.push s).statements[i]? = some s') :
    blk.statements[i]? = some s' ∨ (i = blk.statements.length ∧ s' = s) := by
  by_cases hi : i < blk.statements.length
  · left
    rwa [push, List.getElem?_append_left hi] at h
  · right
    rw [push, List.getElem?_append_right (Nat.le_of_not_lt hi), List.getElem?_singleton] at h
    split at h
    · next hlast =>
      cases h
      exact ⟨by omega, rfl⟩
    · cases h

end OpenBlock

namespace Builder

/-! ## Sound builders -/

/-- The name of the loan with a number. -/
def loanName (k : Nat) : String := "L" ++ toString k

theorem loanName_injective {j k : Nat} (h : loanName j = loanName k) : j = k := by
  have hdigits : Nat.toDigits 10 j = Nat.toDigits 10 k := by
    have hlist := congrArg String.toList h
    simpa [loanName, Nat.toString_eq_repr] using hlist
  rw [← Nat.ofDigitChars_ten_toDigits (n := j), hdigits, Nat.ofDigitChars_ten_toDigits]

/-- The table has this very region, under its own name. -/
def Declares (b : Builder) (r : Region) : Prop := b.region? r.name = some r

/-- The names of the loans issued so far. -/
def loanNames (b : Builder) : List String := b.blocks.flatMap OpenBlock.loanNames

/-- A terminator mentions known variables and brings in neither loans nor
    obligations. -/
structure Ends (vars : List String) (t : Terminator) : Prop where
  mentions : ∀ x ∈ t.mentions, x ∈ vars
  obligations : t.obligations = []
  loan : t.loan = none

/-- **A sound builder**: what it has collected so far is in order. -/
structure Sound (b : Builder) : Prop where
  keys : ∀ e ∈ b.regions.entries, e.2.name = e.1
  localRegions : ∀ v ∈ b.locals.values, ∀ r ∈ v.regions ++ v.drops.getD [], b.Declares r
  bounds : ∀ o ∈ b.bounds, b.Declares o.sub ∧ b.Declares o.sup
  blockNames : (b.blocks.map OpenBlock.name).Nodup
  facts : ∀ blk ∈ b.blocks, ∀ (i : Nat) (s : Statement), blk.statements[i]? = some s →
    s.InOrder b.locals.names b.regions.values ⟨blk.name, i⟩
  ends : ∀ blk ∈ b.blocks, ∀ t, blk.terminator = some t → Ends b.locals.names t
  loansDiffer : b.loanNames.Nodup
  loansNumbered : ∀ n ∈ b.loanNames, ∃ k < b.loanCount, n = loanName k

theorem Declares.mem_values {b : Builder} {r : Region} (h : b.Declares r) :
    r ∈ b.regions.values :=
  List.mem_map.mpr ⟨_, OrderedMap.get?_eq_some_iff.mp h, rfl⟩

/-- In a sound builder a region that is found is there under its own name. -/
theorem Sound.declares_of_region? {b : Builder} (h : b.Sound) {name : String} {r : Region}
    (hr : b.region? name = some r) : b.Declares r := by
  have hname : r.name = name := h.keys _ (OrderedMap.get?_eq_some_iff.mp hr)
  rw [Declares, hname]
  exact hr

/-- A builder that has collected nothing is sound. -/
theorem sound_new (name : String) (span : Span) : Sound { name := name, span := span } where
  keys := fun _ he => absurd he List.not_mem_nil
  localRegions := fun _ hv => absurd hv List.not_mem_nil
  bounds := fun _ ho => absurd ho List.not_mem_nil
  blockNames := List.nodup_nil
  facts := fun _ hblk => absurd hblk List.not_mem_nil
  ends := fun _ hblk => absurd hblk List.not_mem_nil
  loansDiffer := List.nodup_nil
  loansNumbered := fun _ hn => absurd hn List.not_mem_nil

/-! ## Changes -/

/-- **Filling in**: a change that opens and closes no block. -/
inductive Fill : Builder → Builder → Prop where
  /-- A new region. -/
  | region {b : Builder} {r : Region} (hnew : b.region? r.name = none) :
      Fill b { b with regions := b.regions.insert r.name r }
  /-- A new variable, whose regions are known and which drops no others. -/
  | var {b : Builder} {v : Variable} (hnew : v.name ∉ b.locals.names)
      (hregions : ∀ r ∈ v.regions, b.Declares r) (hdrops : ∀ r ∈ v.drops.getD [], r ∈ v.regions) :
      Fill b { b with locals := b.locals.insert v.name v }
  /-- A bound between known regions. -/
  | bound {b : Builder} {o : Obligation} (hsub : b.Declares o.sub) (hsup : b.Declares o.sup) :
      Fill b { b with bounds := b.bounds ++ [o] }
  /-- A loan name is taken. -/
  | loanName {b : Builder} : Fill b { b with loanCount := b.loanCount + 1 }
  /-- A statement in order, appended to an open block.  If it issues a loan, then
      under a name that was taken and not used yet. -/
  | statement {b : Builder} {name : String} {blk : OpenBlock} {s : Statement}
      (hblk : b.block? name = some blk) (hopen : blk.terminator = none)
      (hs : s.InOrder b.locals.names b.regions.values blk.nextPoint)
      (hloan : ∀ n ∈ s.loanNames, n ∉ b.loanNames ∧ ∃ k < b.loanCount, n = Builder.loanName k) :
      Fill b (b.updateBlock name (·.push s))

/-- **One change** of a builder. -/
inductive Change : Builder → Builder → Prop where
  | fill {b b' : Builder} (h : Fill b b') : Change b b'
  /-- A new block. -/
  | block {b : Builder} {name : String} (hnew : b.block? name = none) :
      Change b { b with blocks := b.blocks ++ [⟨name, [], none⟩] }
  /-- A terminator for an open block. -/
  | terminator {b : Builder} {name : String} {blk : OpenBlock} {t : Terminator}
      (hblk : b.block? name = some blk) (hopen : blk.terminator = none)
      (ht : Ends b.locals.names t) : Change b (b.updateBlock name (·.close t))

/-- **An entry** in one of the tables: something is filled in, and the blocks are left alone. -/
def Entry (b b' : Builder) : Prop := Fill b b' ∧ b'.blocks = b.blocks

/-- A new region is taken in, under its own name. -/
inductive TakesIn : Builder → Builder → Prop where
  | region {b : Builder} {r : Region} (hnew : b.region? r.name = none) :
      TakesIn b { b with regions := b.regions.insert r.name r }

theorem TakesIn.entry {b b' : Builder} (h : TakesIn b b') : Entry b b' := by
  cases h with
  | region hnew => exact ⟨.region hnew, rfl⟩

/-- What is known stays known. -/
structure Keeps (b b' : Builder) : Prop where
  name : b'.name = b.name
  span : b'.span = b.span
  declares : ∀ r, b.Declares r → b'.Declares r
  locals : b.locals.names ⊆ b'.locals.names

theorem Keeps.of_tables {b b' : Builder} (hname : b'.name = b.name) (hspan : b'.span = b.span)
    (hregions : b'.regions = b.regions) (hlocals : b'.locals = b.locals) : b.Keeps b' where
  name := hname
  span := hspan
  declares := fun r hr => by rw [Declares, region?, hregions]; exact hr
  locals := by rw [hlocals]; exact List.Subset.refl _

theorem Fill.keeps {b b' : Builder} (h : Fill b b') : b.Keeps b' := by
  cases h with
  | @region r hnew =>
    refine ⟨rfl, rfl, fun r' hr' => ?_, List.Subset.refl _⟩
    have hne : r'.name ≠ r.name := by
      intro hname
      rw [Declares, hname, hnew] at hr'
      cases hr'
    rw [Declares, region?, OrderedMap.get?_insert, if_neg hne]
    exact hr'
  | @var v hnew =>
    refine ⟨rfl, rfl, fun r hr => hr, fun x hx => ?_⟩
    rw [OrderedMap.names, OrderedMap.entries_insert_of_not_mem v hnew, List.map_append]
    exact List.mem_append_left _ hx
  | bound => exact .of_tables rfl rfl rfl rfl
  | loanName => exact .of_tables rfl rfl rfl rfl
  | statement => exact .of_tables rfl rfl rfl rfl

/-- What is found under a name stays there. -/
theorem Fill.finds {b b' : Builder} (h : Fill b b') :
    (∀ name r, b.region? name = some r → b'.region? name = some r) ∧
      ∀ name v, b.locals.get? name = some v → b'.locals.get? name = some v := by
  cases h with
  | region hnew => exact ⟨fun _ _ => OrderedMap.get?_insert_of_new hnew, fun _ _ => id⟩
  | var hnew =>
    have hnone := OrderedMap.get?_eq_none_iff.mpr hnew
    exact ⟨fun _ _ => id, fun _ _ => OrderedMap.get?_insert_of_new hnone⟩
  | bound => exact ⟨fun _ _ => id, fun _ _ => id⟩
  | loanName => exact ⟨fun _ _ => id, fun _ _ => id⟩
  | statement => exact ⟨fun _ _ => id, fun _ _ => id⟩

theorem Change.keeps {b b' : Builder} (h : Change b b') : b.Keeps b' := by
  cases h with
  | fill h => exact h.keeps
  | block => exact .of_tables rfl rfl rfl rfl
  | terminator => exact .of_tables rfl rfl rfl rfl

/-! ## Soundness is kept -/

theorem Sound.mem_values_iff {b : Builder} (h : b.Sound) {r : Region} :
    r ∈ b.regions.values ↔ b.Declares r := by
  constructor
  · intro hr
    obtain ⟨⟨key, r⟩, he, rfl⟩ := List.mem_map.mp hr
    exact h.declares_of_region? (OrderedMap.get?_eq_some_iff.mpr he)
  · exact Declares.mem_values

/-- In a sound builder what is in order stays in order. -/
theorem Sound.inOrder_mono {b b' : Builder} (h : b.Sound) (hkeeps : b.Keeps b') {p : Point}
    {s : Statement} (hs : s.InOrder b.locals.names b.regions.values p) :
    s.InOrder b'.locals.names b'.regions.values p := by
  refine hs.mono hkeeps.locals fun r hr => ?_
  exact (hkeeps.declares r (h.mem_values_iff.mp hr)).mem_values

/-- A builder stays sound if its tables do and its blocks are untouched. -/
theorem Sound.of_tables {b b' : Builder} (h : b.Sound) (hkeeps : b.Keeps b')
    (hkeys : ∀ e ∈ b'.regions.entries, e.2.name = e.1)
    (hlocals : ∀ v ∈ b'.locals.values, v ∈ b.locals.values ∨
      ∀ r ∈ v.regions ++ v.drops.getD [], b'.Declares r)
    (hbounds : ∀ o ∈ b'.bounds, o ∈ b.bounds ∨ (b'.Declares o.sub ∧ b'.Declares o.sup))
    (hblocks : b'.blocks = b.blocks) (hcount : b.loanCount ≤ b'.loanCount) : b'.Sound where
  keys := hkeys
  localRegions := by
    intro v hv r hr
    rcases hlocals v hv with hold | hnew
    · exact hkeeps.declares r (h.localRegions v hold r hr)
    · exact hnew r hr
  bounds := by
    intro o ho
    rcases hbounds o ho with hold | hnew
    · have hb := h.bounds o hold
      exact ⟨hkeeps.declares _ hb.1, hkeeps.declares _ hb.2⟩
    · exact hnew
  blockNames := by rw [hblocks]; exact h.blockNames
  facts := by
    intro blk hblk i s hs
    rw [hblocks] at hblk
    exact h.inOrder_mono hkeeps (h.facts blk hblk i s hs)
  ends := by
    intro blk hblk t ht
    rw [hblocks] at hblk
    have hends := h.ends blk hblk t ht
    exact ⟨fun x hx => hkeeps.locals (hends.mentions x hx), hends.obligations, hends.loan⟩
  loansDiffer := by rw [loanNames, hblocks]; exact h.loansDiffer
  loansNumbered := by
    intro n hn
    rw [loanNames, hblocks] at hn
    obtain ⟨k, hk, hname⟩ := h.loansNumbered n hn
    exact ⟨k, by omega, hname⟩

theorem Sound.block?_eq_some_iff {b : Builder} (h : b.Sound) {name : String} {blk : OpenBlock} :
    b.block? name = some blk ↔ blk ∈ b.blocks ∧ blk.name = name :=
  find?_name_eq_some_iff h.blockNames

/-- Changing the block of a name changes one block in its place. -/
theorem exists_split {b : Builder} (hnames : (b.blocks.map OpenBlock.name).Nodup) {name : String}
    {blk : OpenBlock} (hblk : b.block? name = some blk) (f : OpenBlock → OpenBlock) :
    ∃ before after, b.blocks = before ++ blk :: after ∧
      (b.updateBlock name f).blocks = before ++ f blk :: after := by
  obtain ⟨hmem, rfl⟩ := (find?_name_eq_some_iff hnames).mp hblk
  obtain ⟨before, after, hblocks⟩ := List.append_of_mem hmem
  refine ⟨before, after, hblocks, ?_⟩
  rw [hblocks, List.map_append, List.map_cons, List.nodup_append, List.nodup_cons] at hnames
  -- the names differ, so every other block is left alone
  have hbefore : ∀ other ∈ before, other.name ≠ blk.name := fun other hother =>
    hnames.2.2 _ (List.mem_map_of_mem hother) _ List.mem_cons_self
  have hafter : ∀ other ∈ after, other.name ≠ blk.name := fun other hother hname =>
    hnames.2.1.1 (hname ▸ List.mem_map_of_mem hother)
  have hid : ∀ l : List OpenBlock, (∀ other ∈ l, other.name ≠ blk.name) →
      l.map (fun other => if other.name = blk.name then f other else other) = l := by
    intro l hl
    exact (List.map_congr_left fun other hother => if_neg (hl other hother)).trans (List.map_id' l)
  simp only [updateBlock, hblocks, List.map_append, List.map_cons, hid before hbefore,
    hid after hafter, if_pos]

section UpdateBlock

variable {b : Builder} {name : String} {blk : OpenBlock} {f : OpenBlock → OpenBlock}

theorem mem_updateBlock (hnames : (b.blocks.map OpenBlock.name).Nodup)
    (hblk : b.block? name = some blk) {other : OpenBlock}
    (h : other ∈ (b.updateBlock name f).blocks) : other ∈ b.blocks ∨ other = f blk := by
  obtain ⟨before, after, hold, hblocks⟩ := exists_split hnames hblk f
  rw [hblocks] at h
  rw [hold]
  simp only [List.mem_append, List.mem_cons] at h ⊢
  tauto

theorem blockNames_updateBlock (hnames : (b.blocks.map OpenBlock.name).Nodup)
    (hblk : b.block? name = some blk) (hname : (f blk).name = blk.name) :
    (b.updateBlock name f).blocks.map OpenBlock.name = b.blocks.map OpenBlock.name := by
  obtain ⟨before, after, hold, hblocks⟩ := exists_split hnames hblk f
  simp only [hold, hblocks, List.map_append, List.map_cons, hname]

/-- The new names may come before those of later blocks, which matters to no check. -/
theorem perm_loanNames_updateBlock (hnames : (b.blocks.map OpenBlock.name).Nodup)
    (hblk : b.block? name = some blk) {names : List String}
    (hloans : (f blk).loanNames = blk.loanNames ++ names) :
    (b.updateBlock name f).loanNames.Perm (b.loanNames ++ names) := by
  obtain ⟨before, after, hold, hblocks⟩ := exists_split hnames hblk f
  simp only [loanNames, hold, hblocks, List.flatMap_append, List.flatMap_cons, hloans,
    List.append_assoc]
  exact .append_left _ (.append_left _ List.perm_append_comm)

/-- Loans that are issued in addition leave all names different and numbered, if they have names
    of their own. -/
theorem loanNames_updateBlock (hnames : (b.blocks.map OpenBlock.name).Nodup)
    (hblk : b.block? name = some blk) {names : List String}
    (hloans : (f blk).loanNames = blk.loanNames ++ names) (hdiffer : names.Nodup)
    (hnew : ∀ n ∈ names, n ∉ b.loanNames ∧ ∃ k < b.loanCount, n = loanName k)
    (hold : b.loanNames.Nodup ∧ ∀ n ∈ b.loanNames, ∃ k < b.loanCount, n = loanName k) :
    (b.updateBlock name f).loanNames.Nodup ∧
      ∀ n ∈ (b.updateBlock name f).loanNames, ∃ k < b.loanCount, n = loanName k := by
  have hperm := perm_loanNames_updateBlock hnames hblk hloans
  constructor
  · rw [hperm.nodup_iff, List.nodup_append]
    exact ⟨hold.1, hdiffer, fun m hm n hn hmn => (hnew n hn).1 (hmn ▸ hm)⟩
  · intro n hn
    rcases List.mem_append.mp (hperm.mem_iff.mp hn) with hn | hn
    · exact hold.2 n hn
    · exact (hnew n hn).2

end UpdateBlock

/-- A builder stays sound if one block changes in order, and the loans that it
    issues in addition have names of their own. -/
theorem Sound.updateBlock {b : Builder} (h : b.Sound) {name : String} {blk : OpenBlock}
    (hblk : b.block? name = some blk) {f : OpenBlock → OpenBlock} {names : List String}
    (hname : (f blk).name = blk.name)
    (hfacts : ∀ (i : Nat) (s : Statement), (f blk).statements[i]? = some s →
      s.InOrder b.locals.names b.regions.values ⟨blk.name, i⟩)
    (hends : ∀ t, (f blk).terminator = some t → Ends b.locals.names t)
    (hloans : (f blk).loanNames = blk.loanNames ++ names) (hdiffer : names.Nodup)
    (hnew : ∀ n ∈ names, n ∉ b.loanNames ∧ ∃ k < b.loanCount, n = loanName k) :
    (b.updateBlock name f).Sound := by
  obtain ⟨hloansDiffer, hloansNumbered⟩ := loanNames_updateBlock h.blockNames hblk hloans hdiffer
    hnew ⟨h.loansDiffer, h.loansNumbered⟩
  exact
    { keys := h.keys
      localRegions := h.localRegions
      bounds := h.bounds
      blockNames := by
        rw [blockNames_updateBlock h.blockNames hblk hname]
        exact h.blockNames
      facts := by
        intro other hother i s hs
        rcases mem_updateBlock h.blockNames hblk hother with hmem | rfl
        · exact h.facts other hmem i s hs
        · rw [hname]
          exact hfacts i s hs
      ends := by
        intro other hother t ht
        rcases mem_updateBlock h.blockNames hblk hother with hmem | rfl
        · exact h.ends other hmem t ht
        · exact hends t ht
      loansDiffer := hloansDiffer
      loansNumbered := hloansNumbered }

theorem nodup_loanNames (s : Statement) : s.loanNames.Nodup := by
  rw [Statement.loanNames]
  cases s.loan <;> simp

/-- A statement in order may be appended. -/
theorem Sound.push {b : Builder} (h : b.Sound) {name : String} {blk : OpenBlock} {s : Statement}
    (hblk : b.block? name = some blk)
    (hs : s.InOrder b.locals.names b.regions.values blk.nextPoint)
    (hloan : ∀ n ∈ s.loanNames, n ∉ b.loanNames ∧ ∃ k < b.loanCount, n = loanName k) :
    (b.updateBlock name (·.push s)).Sound := by
  have hmem := (h.block?_eq_some_iff.mp hblk).1
  refine h.updateBlock hblk rfl ?_ (h.ends blk hmem) (blk.loanNames_push s) (nodup_loanNames s) hloan
  intro i s' hs'
  rcases OpenBlock.getElem?_push hs' with hold | ⟨rfl, rfl⟩
  · exact h.facts blk hmem i s' hold
  · exact hs

/-- **Filling in keeps a builder sound.** -/
theorem Fill.sound {b b' : Builder} (hfill : Fill b b') (h : b.Sound) : b'.Sound := by
  have hkeeps := hfill.keeps
  cases hfill with
  | @region r hnew =>
    refine h.of_tables hkeeps ?_ (fun _ => Or.inl) (fun _ => Or.inl) rfl (Nat.le_refl _)
    intro e he
    rw [OrderedMap.entries_insert_of_not_mem r (OrderedMap.get?_eq_none_iff.mp hnew),
      List.mem_append, List.mem_singleton] at he
    rcases he with he | rfl
    · exact h.keys e he
    · rfl
  | @var v hnew hregions hdrops =>
    have hknown : ∀ r ∈ v.regions ++ v.drops.getD [], b.Declares r :=
      List.forall_mem_append.mpr ⟨hregions, fun r hr => hregions r (hdrops r hr)⟩
    refine h.of_tables hkeeps h.keys ?_ (fun _ => Or.inl) rfl (Nat.le_refl _)
    intro w hw
    rw [OrderedMap.values, OrderedMap.entries_insert_of_not_mem v hnew, List.map_append,
      List.mem_append] at hw
    rcases hw with hw | hw
    · exact Or.inl hw
    · exact Or.inr (List.mem_singleton.mp hw ▸ hknown)
  | @bound o hsub hsup =>
    refine h.of_tables hkeeps h.keys (fun _ => Or.inl) ?_ rfl (Nat.le_refl _)
    intro o' ho'
    rcases List.mem_append.mp ho' with hold | hlast
    · exact Or.inl hold
    · obtain rfl : o' = o := List.mem_singleton.mp hlast
      exact Or.inr ⟨hsub, hsup⟩
  | loanName =>
    exact h.of_tables hkeeps h.keys (fun _ => Or.inl) (fun _ => Or.inl) rfl (Nat.le_succ _)
  | statement hblk _ hs hloan => exact h.push hblk hs hloan

/-- A new block may be added. -/
theorem Sound.openBlock {b : Builder} (h : b.Sound) {name : String} (hnew : b.block? name = none) :
    Sound { b with blocks := b.blocks ++ [⟨name, [], none⟩] } := by
  have hnames : name ∉ b.blocks.map OpenBlock.name := by
    intro hname
    obtain ⟨blk, hblk, rfl⟩ := List.mem_map.mp hname
    rw [h.block?_eq_some_iff.mpr ⟨hblk, rfl⟩] at hnew
    cases hnew
  have hmem : ∀ blk ∈ b.blocks ++ [(⟨name, [], none⟩ : OpenBlock)],
      blk ∈ b.blocks ∨ blk = ⟨name, [], none⟩ := by
    simp
  have hloans : loanNames { b with blocks := b.blocks ++ [⟨name, [], none⟩] } = b.loanNames := by
    simp [loanNames, OpenBlock.loanNames]
  exact
    { keys := h.keys
      localRegions := h.localRegions
      bounds := h.bounds
      blockNames := by
        rw [List.map_append, List.nodup_append]
        refine ⟨h.blockNames, List.nodup_singleton _, fun m hm n hn hmn => hnames ?_⟩
        obtain rfl : n = name := List.mem_singleton.mp hn
        rwa [hmn] at hm
      facts := by
        intro blk hblk i s hs
        rcases hmem blk hblk with hblk | rfl
        · exact h.facts blk hblk i s hs
        · cases hs
      ends := by
        intro blk hblk t ht
        rcases hmem blk hblk with hblk | rfl
        · exact h.ends blk hblk t ht
        · cases ht
      loansDiffer := by rw [hloans]; exact h.loansDiffer
      loansNumbered := by rw [hloans]; exact h.loansNumbered }

/-- **Every change keeps a builder sound.** -/
theorem Change.sound {b b' : Builder} (hchange : Change b b') (h : b.Sound) : b'.Sound := by
  cases hchange with
  | fill hfill => exact hfill.sound h
  | block hnew => exact h.openBlock hnew
  | @terminator name blk t hblk _ ht =>
    have hmem := (h.block?_eq_some_iff.mp hblk).1
    refine h.updateBlock hblk rfl (h.facts blk hmem) ?_ (List.append_nil _).symm List.nodup_nil
      (fun _ hn => absurd hn List.not_mem_nil)
    intro t' ht'
    cases ht'
    exact ht

/-! ## Outlines -/

/-- The blocks by name, with how each ends so far. -/
def outline (b : Builder) : List (String × Option Terminator) :=
  b.blocks.map fun blk => (blk.name, blk.terminator)

theorem outline_updateBlock (b : Builder) (name : String) {f : OpenBlock → OpenBlock}
    (hf : ∀ blk, (f blk).name = blk.name ∧ (f blk).terminator = blk.terminator) :
    (b.updateBlock name f).outline = b.outline := by
  simp only [outline, updateBlock, List.map_map]
  refine List.map_congr_left fun blk _ => ?_
  simp only [Function.comp]
  split
  · rw [(hf blk).1, (hf blk).2]
  · rfl

theorem Fill.outline_eq {b b' : Builder} (h : Fill b b') : b'.outline = b.outline := by
  cases h with
  | region => rfl
  | var => rfl
  | bound => rfl
  | loanName => rfl
  | statement => exact outline_updateBlock _ _ fun _ => ⟨rfl, rfl⟩

/-! ## Runs -/

section Runs

variable {b b' : Builder}

theorem Keeps.refl (b : Builder) : b.Keeps b := ⟨rfl, rfl, fun _ => id, List.Subset.refl _⟩

theorem Keeps.trans {c : Builder} (h : b.Keeps b') (h' : b'.Keeps c) : b.Keeps c where
  name := h'.name.trans h.name
  span := h'.span.trans h.span
  declares := fun r hr => h'.declares r (h.declares r hr)
  locals := List.Subset.trans h.locals h'.locals

theorem changes_of_fills (h : ReflTransGen Fill b b') : ReflTransGen Change b b' :=
  ReflTransGen.mono (fun _ _ => .fill) _ _ h

theorem fills_of_entries (h : ReflTransGen Entry b b') : ReflTransGen Fill b b' :=
  ReflTransGen.mono (fun _ _ => And.left) _ _ h

theorem blocks_of_entries (h : ReflTransGen Entry b b') : b'.blocks = b.blocks := by
  induction h with
  | refl => rfl
  | tail _ hlast ih => exact hlast.2.trans ih

/-- Names of loans that were taken stay taken. -/
theorem loanCount_of_fills (h : ReflTransGen Fill b b') : b.loanCount ≤ b'.loanCount := by
  induction h with
  | refl => exact Nat.le_refl _
  | tail _ hlast ih =>
    refine Nat.le_trans ih ?_
    cases hlast <;> simp [Builder.updateBlock]

theorem finds_of_fills (h : ReflTransGen Fill b b') :
    (∀ name r, b.region? name = some r → b'.region? name = some r) ∧
      ∀ name v, b.locals.get? name = some v → b'.locals.get? name = some v := by
  induction h with
  | refl => exact ⟨fun _ _ => id, fun _ _ => id⟩
  | tail _ hlast ih =>
    exact ⟨fun name r hr => hlast.finds.1 name r (ih.1 name r hr),
      fun name v hv => hlast.finds.2 name v (ih.2 name v hv)⟩

/-- **Regions were taken in**, and nothing else has changed. -/
def Adopts (b b' : Builder) : Prop := ReflTransGen TakesIn b b'

/-- Nothing but the table of regions has changed. -/
def OnlyRegions (b b' : Builder) : Prop := b' = { b with regions := b'.regions }

theorem OnlyRegions.trans {c : Builder} (h : b.OnlyRegions b') (h' : b'.OnlyRegions c) :
    b.OnlyRegions c := by
  rw [OnlyRegions, h', h]

theorem Adopts.entries (h : b.Adopts b') : ReflTransGen Entry b b' :=
  ReflTransGen.mono (fun _ _ => TakesIn.entry) _ _ h

theorem Adopts.onlyRegions (h : b.Adopts b') : b.OnlyRegions b' := by
  induction h with
  | refl => rfl
  | tail _ hlast ih =>
    cases hlast
    exact ih.trans rfl

/-- New regions come behind those of the table. -/
theorem Adopts.regions_prefix (h : b.Adopts b') : b.regions.entries <+: b'.regions.entries := by
  induction h with
  | refl => exact List.prefix_rfl
  | tail _ hlast ih =>
    refine ih.trans ?_
    cases hlast with
    | @region r hnew =>
      rw [OrderedMap.entries_insert_of_not_mem r (OrderedMap.get?_eq_none_iff.mp hnew)]
      exact List.prefix_append _ _

theorem keeps_of_changes (h : ReflTransGen Change b b') : b.Keeps b' := by
  induction h with
  | refl => exact .refl b
  | tail _ hlast ih => exact ih.trans hlast.keeps

theorem sound_of_changes (h : ReflTransGen Change b b') (hb : b.Sound) : b'.Sound := by
  induction h with
  | refl => exact hb
  | tail _ hlast ih => exact hlast.sound ih

theorem keeps_of_fills (h : ReflTransGen Fill b b') : b.Keeps b' :=
  keeps_of_changes (changes_of_fills h)

theorem sound_of_fills (h : ReflTransGen Fill b b') (hb : b.Sound) : b'.Sound :=
  sound_of_changes (changes_of_fills h) hb

theorem outline_of_fills (h : ReflTransGen Fill b b') : b'.outline = b.outline := by
  induction h with
  | refl => rfl
  | tail _ hlast ih => exact hlast.outline_eq.trans ih

end Runs

end Builder

end BorrowFlow
