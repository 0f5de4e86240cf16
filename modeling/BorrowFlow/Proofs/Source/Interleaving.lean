import BorrowFlow.Proofs.Source.RegionTable

/-! # Declarations between blocks

    A function may declare its variables before, between and after its blocks.  Elaboration
    takes the declarations first and the blocks then, so all that counts is what the listing
    of the function has: the sequence of declarations and the sequence of blocks.

    Two functions with one listing need not restate each other, since either may give a bound
    twice.  But the listing, parsed again, gives a function that restates both
    (`parseText_listing`), and what is restated has a body if the restatement has one
    (`body_of_restated`).  Hence the body depends on the listing only (`body_of_listing`).
-/

namespace BorrowFlow.Source

open BuildM Builder

variable {file : Option String} (file' : Option String) {b c : Builder}

/-! ## From a restatement back -/

theorem replays_restatedStatement (h : b.Alike c) (block : String) {s s' : StatementExpr}
    (hs : s'.shape.RestatedAs s.shape) :
    Replays Eq b c (elaborateStatement file block s) (elaborateStatement file' block s') := by
  obtain ⟨shape, _⟩ := s
  obtain ⟨shape', _⟩ := s'
  cases hs with
  | same => exact replays_elaborateStatement file' h block (.same _)
  | call hbounds =>
    exact replays_elaborateCall file' h block _ _ _ (distinctNames_of_restated hbounds).symm
  | outlives hnames => exact replays_elaborateStatement file' h block (.outlives hnames.symm)

theorem replays_restatedBlock (h : b.Alike c) {blk blk' : BlockDecl} (hblk : blk'.RestatedAs blk) :
    Replays Eq b c (elaborateBlock file blk) (elaborateBlock file' blk') := by
  unfold elaborateBlock
  rw [hblk.name]
  refine (replays_openBlock h _).bind fun _ _ _ _ _ h₁ => ?_
  refine (replays_forM (fun _ _ _ _ hs h => replays_restatedStatement file' h _ hs)
    hblk.statements.flip h₁).bind fun _ _ _ _ _ h₂ => ?_
  exact replays_elaborateTerminator file' h₂ _ hblk.terminator.symm

/-- **What is restated has the body of the restatement**, but for its spans. -/
theorem body_of_restated {f f' : FunctionDecl} (h : f'.RestatedAs f) {body : Body}
    (hbody : f.body file = .ok body) :
    ∃ body', f'.body file' = .ok body' ∧ body'.unplaced = body.unplaced := by
  have hparams : List.Forall₂ ParamDecl.RestatedAs f.params f'.params :=
    h.params.flip.imp fun _ _ hp => ⟨hp.1.symm, hp.2.symm⟩
  have hlets : List.Forall₂ LetDecl.RestatedAs f.declarations f'.declarations :=
    h.declarations.flip.imp fun _ _ hd => ⟨hd.name.symm, hd.ty.symm, hd.drops.symm⟩
  refine body_of_replays file' h.name.symm hparams (distinctNames_of_restated h.bounds).symm hlets
    (fun halike => ?_) hbody
  exact replays_forM (fun _ _ _ _ hblk h => replays_restatedBlock file' h hblk) h.blocks.flip halike

/-- **The body of a function depends on its listing only**, but for its spans. -/
theorem body_of_listing {f f' : FunctionDecl} (hf : f.Proper) (hf' : f'.Proper)
    (h : f'.listing = f.listing) {body : Body} (hbody : f.body file = .ok body) :
    ∃ body', f'.body file' = .ok body' ∧ body'.unplaced = body.unplaced := by
  obtain ⟨g, hparse, hrestated⟩ := parseText_listing hf
  obtain ⟨g', hparse', hrestated'⟩ := parseText_listing hf'
  -- one listing is parsed in one way
  rw [h, hparse] at hparse'
  cases hparse'
  obtain ⟨middle, hmiddle, hsame⟩ := body_of_restatedAs file hrestated hbody
  obtain ⟨body', hbody', hsame'⟩ := body_of_restated file' hrestated' hmiddle
  exact ⟨body', hbody', hsame'.trans hsame⟩

/-! ## Texts -/

theorem bodiesAfter_eq_ok {fs : List FunctionDecl} {earlier found : List Body}
    (hearlier : (earlier.map Body.name).Nodup) :
    bodiesAfter file earlier fs = .ok found ↔ ∃ new : List Body,
      List.Forall₂ (fun f body => f.body file = .ok body) fs new ∧ found = earlier ++ new ∧
        (found.map Body.name).Nodup := by
  induction fs generalizing earlier with
  | nil =>
    unfold bodiesAfter
    constructor
    · intro h
      cases h
      exact ⟨[], .nil, (List.append_nil _).symm, hearlier⟩
    · rintro ⟨new, hnew, rfl, _⟩
      cases hnew
      rw [List.append_nil]
  | cons f fs ih =>
    unfold bodiesAfter
    rw [bind_eq_ok]
    have hnodup : ∀ body : Body, ((earlier ++ [body]).map Body.name).Nodup ↔
        body.name ∉ earlier.map Body.name := by
      intro body
      rw [List.map_append, List.nodup_append_comm]
      simp [hearlier]
    have hfind : ∀ body : Body, earlier.find? (fun b => b.name = body.name) = none ↔
        body.name ∉ earlier.map Body.name := by
      intro body
      simp
    constructor
    · rintro ⟨body, hbody, h⟩
      split at h
      · cases h
      · next hnone =>
        obtain ⟨new, hnew, rfl, hnames⟩ :=
          (ih ((hnodup body).mpr ((hfind body).mp hnone))).mp h
        exact ⟨body :: new, .cons hbody hnew, List.append_assoc _ _ _, hnames⟩
    · rintro ⟨_, hall, rfl, hnames⟩
      obtain ⟨body, new, hbody, hnew, rfl⟩ := List.forall₂_cons_left_iff.mp hall
      have hfront : ((earlier ++ [body]).map Body.name).Nodup := by
        rw [List.append_cons, List.map_append] at hnames
        exact hnames.of_append_left
      refine ⟨body, hbody, ?_⟩
      simp only [(hfind body).mpr ((hnodup body).mp hfront)]
      exact (ih hfront).mpr ⟨new, hnew, List.append_cons _ _ _, hnames⟩

/-- **A program has its bodies** if each function has one and no name repeats. -/
theorem bodies_eq_ok {program : List FunctionDecl} {found : List Body} :
    bodies file program = .ok found ↔
      List.Forall₂ (fun f body => f.body file = .ok body) program found ∧
        (found.map Body.name).Nodup := by
  unfold bodies
  rw [bodiesAfter_eq_ok (by simp)]
  simp

theorem bodies_of_listings {program program' : List FunctionDecl}
    (hproper : ∀ f ∈ program, f.Proper) (hproper' : ∀ f ∈ program', f.Proper)
    (h : program'.map FunctionDecl.listing = program.map FunctionDecl.listing) {found : List Body}
    (hfound : bodies file program = .ok found) :
    ∃ found', bodies file' program' = .ok found' ∧
      found'.map Body.unplaced = found.map Body.unplaced := by
  obtain ⟨hbodies, hnames⟩ := bodies_eq_ok.mp hfound
  suffices hsuffices : ∃ found', List.Forall₂ (fun f body => f.body file' = .ok body) program' found' ∧
      found'.map Body.unplaced = found.map Body.unplaced by
    obtain ⟨found', hbodies', hsame⟩ := hsuffices
    refine ⟨found', bodies_eq_ok.mpr ⟨hbodies', ?_⟩, hsame⟩
    -- a body without spans keeps its name
    have hsameNames := congrArg (List.map Body.name) hsame
    rw [List.map_map, List.map_map] at hsameNames
    exact hsameNames ▸ hnames
  clear hfound hnames
  induction hbodies generalizing program' with
  | nil =>
    rw [List.map_nil, List.map_eq_nil_iff] at h
    rw [h]
    exact ⟨[], .nil, rfl⟩
  | @cons f body program found hbody _ ih =>
    obtain ⟨f', program', rfl, hlisting, hrest⟩ := List.map_eq_cons_iff.mp h
    rw [List.forall_mem_cons] at hproper hproper'
    obtain ⟨body', hbody', hsame⟩ := body_of_listing file' hproper.1 hproper'.1 hlisting hbody
    obtain ⟨found', hfound', hsames⟩ := ih hproper.2 hproper'.2 hrest
    exact ⟨body' :: found', .cons hbody' hfound', by rw [List.map_cons, List.map_cons, hsame, hsames]⟩

/-- **What becomes of the regions and the layout of a text.**  Each body has the regions of its
    function, and any text whose functions have the same parameters, bounds, declarations and
    blocks, however the declarations stand between the blocks, has the same bodies but for
    their spans. -/
theorem read_regions_and_layout {text : String} {found : List Body}
    (h : read text file = .ok found) :
    ∃ program, parseText text = .ok program ∧
      List.Forall₂ FunctionDecl.RegionsOf program found ∧
      ∀ (text' : String) (file' : Option String) (program' : List FunctionDecl),
        parseText text' = .ok program' →
        program'.map FunctionDecl.listing = program.map FunctionDecl.listing →
        ∃ found', read text' file' = .ok found' ∧
          found'.map Body.unplaced = found.map Body.unplaced := by
  obtain ⟨program, hparse, hbodies⟩ := read_eq_ok.mp h
  refine ⟨program, hparse, ?_, ?_⟩
  · exact (bodies_eq_ok.mp hbodies).1.imp fun _ _ => regionsOf_body
  · intro text' file' program' hparse' hlistings
    obtain ⟨found', hbodies', hsame⟩ := bodies_of_listings file' (proper_of_parseText hparse)
      (proper_of_parseText hparse') hlistings hbodies
    exact ⟨found', read_eq_ok.mpr ⟨program', hparse', hbodies'⟩, hsame⟩

/-- Declarations before and between the blocks. -/
def scattered : String :=
  "fn f(p: &'a P<'b>) where 'c: 'a \x7b let x: Q<'d, 'static>; s: \x7b goto t; \x7d" ++
    " let y: &'a mut R<'d>; t: \x7b return; \x7d \x7d"

/-- The same declarations behind the same blocks. -/
def gathered : String :=
  "fn f(p: &'a P<'b>) where 'c: 'a \x7b s: \x7b goto t; \x7d t: \x7b return; \x7d" ++
    " let x: Q<'d, 'static>; let y: &'a mut R<'d>; \x7d"

/-- What both of them say. -/
def scatteredListing : Listing where
  name := "f"
  params := [("p", "&'a P<'b>")]
  bounds := ["'c: 'a"]
  lets := [("x", "Q<'d, 'static>", none), ("y", "&'a mut R<'d>", none)]
  blocks := [("s", [], "goto t"), ("t", [], "return")]

theorem scattered_regions_and_layout : ∃ body body',
    read scattered none = .ok [body] ∧
    body.regions.map Region.name = ["'a", "'b", "'c", "'d", "'static"] ∧
    (∀ r ∈ body.regions, r.universal = true ↔
      r.name = Region.static.name ∨ r.name ∈ ["'a", "'b", "'c", "'a"]) ∧
    read gathered none = .ok [body'] ∧ body'.unplaced = body.unplaced := by
  have hread : (read scattered none).toOption.map List.length = some 1 := by decide +kernel
  have hprogram : (parseText scattered).toOption.map (fun program => program.map fun f =>
      (f.listing, f.signatureRegions, f.declaredRegions)) = some [(scatteredListing,
        ["'a", "'b", "'c", "'a"], ["'d", "'static", "'a", "'d"])] := by decide +kernel
  have hgathered : (parseText gathered).toOption.map (fun program =>
      program.map FunctionDecl.listing) = some [scatteredListing] := by decide +kernel
  obtain ⟨found, hfound, hlength⟩ := Option.map_eq_some_iff.mp hread
  obtain ⟨body, rfl⟩ := List.length_eq_one_iff.mp hlength
  have hscattered := toOption_eq_some.mp hfound
  obtain ⟨program, hparse, hbodies, hlayout⟩ := read_regions_and_layout hscattered
  -- the only function has the listing and the regions that were found
  rw [toOption_eq_some.mpr hparse] at hprogram
  obtain ⟨f, _, hf, hnil, rfl⟩ := List.forall₂_cons_right_iff.mp hbodies
  cases hnil
  obtain ⟨hlisting, hregions⟩ := Prod.mk.inj (List.cons.inj (Option.some.inj hprogram)).1
  obtain ⟨hsignature, hdeclared⟩ := Prod.mk.inj hregions
  have hnames := hf.names
  have huniversal := hf.universal_iff
  rw [hsignature, hdeclared] at hnames
  rw [hsignature] at huniversal
  -- the other text is parsed to a function of the same listing
  obtain ⟨program', hparse', hlisting'⟩ := Option.map_eq_some_iff.mp hgathered
  obtain ⟨found', hread', hsame⟩ := hlayout gathered none program'
    (toOption_eq_some.mp hparse') (by rw [hlisting', List.map_singleton, hlisting])
  obtain ⟨body', rfl, hbody'⟩ := List.map_eq_singleton_iff.mp hsame
  exact ⟨body, body', hscattered, hnames, huniversal, hread', hbody'⟩

end BorrowFlow.Source
