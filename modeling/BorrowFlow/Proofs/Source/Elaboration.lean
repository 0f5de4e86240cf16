import BorrowFlow.Proofs.Builder.Outcome
import BorrowFlow.Proofs.Source
import BorrowFlow.Proofs.Source.Listing

/-! # What elaboration finds and declares

    The steps that resolve names, said as equivalences: a region that is new is noted, a
    known one stays as it is, and the answer is what the table has in the end.  So a
    bound that is given again changes nothing, and the bounds of a signature, each once,
    lead to the same builder (`signed_eraseDups`).

    Types and drops are resolved to what is written the same (`resolveType_spec`,
    `declared_of_elaborateLet`).
-/

namespace BorrowFlow

namespace Builder

open BuildM

variable {b b' : Builder}

/-! ## Regions by their names -/

/-- The region of a name, where it is known. -/
def regionOf (b : Builder) (name : String) : Region := (b.region? name).getD default

/-- The regions of two names. -/
def edgeOf (b : Builder) (names : String × String) : RegionEdge :=
  (b.regionOf names.1, b.regionOf names.2)

/-- The name is known, and `'static` as a universal region. -/
def Admits (b : Builder) (name : String) : Prop :=
  ∃ r, b.region? name = some r ∧ (name = Region.static.name → r.universal = true)

theorem Admits.isSome {name : String} (h : b.Admits name) : (b.region? name).isSome = true := by
  obtain ⟨r, hr, _⟩ := h
  rw [hr]
  rfl

theorem admits_congr {name : String} (h : b'.region? name = b.region? name) :
    b'.Admits name ↔ b.Admits name := by
  rw [Admits, Admits, h]

theorem regionOf_congr {name : String} (h : b'.region? name = b.region? name) :
    b'.regionOf name = b.regionOf name := by
  rw [regionOf, regionOf, h]

theorem edgeOf_congr {names : String × String} (hsub : b'.region? names.1 = b.region? names.1)
    (hsup : b'.region? names.2 = b.region? names.2) : b'.edgeOf names = b.edgeOf names := by
  rw [edgeOf, edgeOf, regionOf_congr hsub, regionOf_congr hsup]

/-- Note the name of a region, unless it is known. -/
def noted (universal : Bool) (b : Builder) (name : String) : Builder :=
  if (b.region? name).isSome then b
  else { b with regions := b.regions.insert name ⟨name, universal⟩ }

theorem noted_of_isSome {universal : Bool} {name : String} (h : (b.region? name).isSome = true) :
    b.noted universal name = b := if_pos h

theorem isSome_region?_noted (universal : Bool) (b : Builder) (name : String) :
    ((b.noted universal name).region? name).isSome = true := by
  unfold noted
  split
  · assumption
  · simp [region?]

/-- Noting keeps what is known. -/
theorem region?_noted_of_isSome {universal : Bool} {name n : String}
    (h : (b.region? n).isSome = true) : (b.noted universal name).region? n = b.region? n := by
  unfold noted
  split
  · rfl
  · next hnew =>
    have hne : n ≠ name := fun heq => hnew (heq ▸ h)
    simp [region?, hne]

/-- Note both names of a bound of a signature. -/
def notedBoth (b : Builder) (names : String × String) : Builder :=
  (b.noted true names.1).noted true names.2

theorem onlyRegions_noted (universal : Bool) (b : Builder) (name : String) :
    b.OnlyRegions (b.noted universal name) := by
  unfold noted
  split <;> rfl

theorem onlyRegions_foldl_notedBoth (b : Builder) (l : List (String × String)) :
    b.OnlyRegions (l.foldl notedBoth b) := by
  induction l generalizing b with
  | nil => rfl
  | cons names l ih =>
    have hstep : b.OnlyRegions (b.notedBoth names) :=
      (onlyRegions_noted true b names.1).trans (onlyRegions_noted true _ names.2)
    exact hstep.trans (ih _)

/-- Both names of a bound are known. -/
def KnowsBoth (b : Builder) (names : String × String) : Prop :=
  (b.region? names.1).isSome = true ∧ (b.region? names.2).isSome = true

theorem knowsBoth_notedBoth (b : Builder) (names : String × String) :
    (b.notedBoth names).KnowsBoth names := by
  refine ⟨?_, isSome_region?_noted _ _ _⟩
  rw [notedBoth, region?_noted_of_isSome (isSome_region?_noted _ _ _)]
  exact isSome_region?_noted _ _ _

theorem region?_notedBoth_of_isSome {names : String × String} {n : String}
    (h : (b.region? n).isSome = true) : (b.notedBoth names).region? n = b.region? n := by
  have hfirst : (b.noted true names.1).region? n = b.region? n := region?_noted_of_isSome h
  rw [notedBoth, region?_noted_of_isSome (by rw [hfirst]; exact h), hfirst]

theorem KnowsBoth.notedBoth {names names' : String × String} (h : b.KnowsBoth names) :
    (b.notedBoth names').KnowsBoth names := by
  unfold KnowsBoth
  rw [region?_notedBoth_of_isSome h.1, region?_notedBoth_of_isSome h.2]
  exact h

theorem KnowsBoth.notedBoth_eq {names : String × String} (h : b.KnowsBoth names) :
    b.notedBoth names = b := by
  rw [Builder.notedBoth, noted_of_isSome h.1, noted_of_isSome h.2]

/-- **Names that are noted again** change nothing. -/
theorem foldl_notedBoth_eraseDups (b : Builder) (l : List (String × String)) :
    l.eraseDups.foldl notedBoth b = l.foldl notedBoth b :=
  foldl_eraseDups knowsBoth_notedBoth (fun _ _ _ h => h.notedBoth) (fun _ _ h => h.notedBoth_eq) b l

theorem region?_foldl_notedBoth (l : List (String × String)) {n : String}
    (h : (b.region? n).isSome = true) : (l.foldl notedBoth b).region? n = b.region? n := by
  induction l generalizing b with
  | nil => rfl
  | cons names l ih =>
    have hstep : (b.notedBoth names).region? n = b.region? n := region?_notedBoth_of_isSome h
    rw [List.foldl_cons, ih (by rw [hstep]; exact h), hstep]

theorem Sound.name_regionOf (hb : b.Sound) {name : String} (h : (b.region? name).isSome = true) :
    (b.regionOf name).name = name := by
  obtain ⟨r, hr⟩ := Option.isSome_iff_exists.mp h
  rw [regionOf, hr]
  exact hb.keys _ (OrderedMap.get?_eq_some_iff.mp hr)

theorem Sound.declares_regionOf (hb : b.Sound) {name : String}
    (h : (b.region? name).isSome = true) : b.Declares (b.regionOf name) := by
  obtain ⟨r, hr⟩ := Option.isSome_iff_exists.mp h
  rw [regionOf, hr]
  exact hb.declares_of_region? hr

/-! ## Bounds -/

theorem gives_adopt_of_declares {span : Option Span} {r : Region} {u : Unit} (h : b.Declares r) :
    Gives (adopt span r) b u b' ↔ b = b' := by
  rw [gives_adopt]
  constructor
  · rintro (⟨_, rfl⟩ | ⟨hnone, _⟩)
    · rfl
    · exact absurd (hnone.symm.trans h) (by simp)
  · rintro rfl
    exact Or.inl ⟨h, rfl⟩

/-- An edge as a bound of the signature. -/
def boundOf (e : RegionEdge) : Obligation := ⟨e.1, e.2, none⟩

/-- A bound between declared regions is added, unless it was before. -/
theorem gives_bound_of_declares {e : RegionEdge} {span : Option Span} {u : Unit}
    {earlier : List Obligation} (hsub : b.Declares e.1) (hsup : b.Declares e.2)
    (hearlier : b.bounds = earlier.eraseDups) :
    Gives (bound e.1 e.2 span) b u b' ↔
      b' = { b with bounds := (earlier ++ [boundOf e]).eraseDups } := by
  have hadds : (if boundOf e ∈ b.bounds then b else { b with bounds := b.bounds ++ [boundOf e] }) =
      { b with bounds := (earlier ++ [boundOf e]).eraseDups } := by
    rw [eraseDups_concat, ← hearlier]
    simp only [hearlier, List.mem_eraseDups]
    split
    · rw [← hearlier]
    · rfl
  unfold bound
  simp only [gives_bind, gives_modify]
  constructor
  · rintro ⟨_, _, hadopt, _, _, hadopt', rfl⟩
    obtain rfl := (gives_adopt_of_declares hsub).mp hadopt
    obtain rfl := (gives_adopt_of_declares hsup).mp hadopt'
    exact hadds
  · rintro rfl
    exact ⟨(), b, (gives_adopt_of_declares hsub).mpr rfl, (), b,
      (gives_adopt_of_declares hsup).mpr rfl, hadds⟩

/-- **Bounds between declared regions** are added one by one, each once. -/
theorem gives_bounds {span : Option Span} {edges : List RegionEdge} {earlier : List Obligation}
    {u : Unit} (hdeclared : ∀ e ∈ edges, b.Declares e.1 ∧ b.Declares e.2)
    (hearlier : b.bounds = earlier.eraseDups) :
    Gives (edges.forM fun e => bound e.1 e.2 span) b u b' ↔
      b' = { b with bounds := (earlier ++ edges.map boundOf).eraseDups } := by
  induction edges generalizing b earlier with
  | nil =>
    rw [gives_forM_nil, List.map_nil, List.append_nil, ← hearlier]
    exact eq_comm
  | cons e edges ih =>
    obtain ⟨⟨hsub, hsup⟩, hrest⟩ := List.forall_mem_cons.mp hdeclared
    -- the rest of the run starts with one bound more
    have hnext := ih (b := { b with bounds := (earlier ++ [boundOf e]).eraseDups }) hrest rfl
    rw [List.append_assoc, List.singleton_append] at hnext
    rw [gives_forM_cons, List.map_cons, ← hnext]
    simp only [gives_bound_of_declares hsub hsup hearlier, exists_eq_left]

/-- The builder after a signature with bounds of these names. -/
def signed (b : Builder) (l : List (String × String)) : Builder :=
  { l.foldl notedBoth b with
    bounds := (l.map fun names => boundOf ((l.foldl notedBoth b).edgeOf names)).eraseDups }

theorem signed_eq (b : Builder) (l : List (String × String)) :
    b.signed l = { b with regions := (b.signed l).regions, bounds := (b.signed l).bounds } :=
  congrArg (fun m : Builder => { m with bounds := (b.signed l).bounds })
    (onlyRegions_foldl_notedBoth b l)

/-- **Bounds that are given again** change nothing. -/
theorem signed_eraseDups (b : Builder) (l : List (String × String)) :
    b.signed l.eraseDups = b.signed l := by
  rw [signed, signed, foldl_notedBoth_eraseDups, eraseDups_map_eraseDups]

/-! ## Variables -/

/-- A new variable has been declared, and perhaps regions. -/
def Declared (b : Builder) (v : Variable) (b' : Builder) : Prop :=
  v.name ∉ b.locals.names ∧
    b' = { b with regions := b'.regions, locals := b.locals.insert v.name v }

theorem OnlyRegions.declared {m : Builder} {v : Variable} (h : b.OnlyRegions m)
    (hv : m.Declared v b') : b.Declared v b' := by
  obtain ⟨hnew, heq⟩ := hv
  rw [h] at hnew
  refine ⟨hnew, ?_⟩
  rw [heq, h]

theorem declared_of_declare {name : String} {ty : Ty} {drops : Option (List Region)}
    {param : Bool} {span : Option Span} {v : Variable}
    (h : Gives (declare name ty drops param span) b v b') :
    b.Declared ⟨name, ty, drops, param⟩ b' := by
  obtain ⟨hcontains, _, rfl, m, hadopt, rfl⟩ := gives_declare.mp h
  have honly := Adopts.onlyRegions ((meets_adoptAll span _).changes_of_gives hadopt)
  refine ⟨?_, ?_⟩
  · intro hmem
    rw [OrderedMap.contains_eq_true_iff.mpr hmem] at hcontains
    cases hcontains
  · rw [honly]

end Builder

namespace Source

open BuildM Builder

variable {file : Option String} {b b' : Builder}

/-- A known region is found; `'static` has to be universal. -/
theorem gives_resolveRegion_of_some {universal : Bool} {r : RegionName} {found known : Region}
    (hr : b.region? r.name = some found) :
    Gives (resolveRegion file universal r) b known b' ↔
      (r.name = Region.static.name → found.universal = true) ∧ found = known ∧ b = b' := by
  unfold resolveRegion
  by_cases hstatic : r.name = Region.static.name
  · rw [if_pos hstatic, gives_declareRegion, hr]
    simp only [hstatic, Option.some.injEq, reduceCtorEq, false_and, or_false, forall_const]
    constructor
    · rintro ⟨rfl, huniversal, rfl⟩
      exact ⟨huniversal, rfl, rfl⟩
    · rintro ⟨huniversal, rfl, rfl⟩
      exact ⟨rfl, huniversal, rfl⟩
  · rw [if_neg hstatic, gives_get_bind, hr]
    simp [hstatic]

/-- A new region is declared; `'static` is universal wherever it comes first. -/
theorem gives_resolveRegion_of_none {universal : Bool} {r : RegionName} {known : Region}
    (hr : b.region? r.name = none) :
    Gives (resolveRegion file universal r) b known b' ↔
      known = ⟨r.name, universal || r.name = Region.static.name⟩ ∧
        b' = { b with regions := b.regions.insert r.name known } := by
  have hdeclare : ∀ (u : Bool) (span : Option Span),
      Gives (declareRegion r.name u span) b known b' ↔
        known = ⟨r.name, u⟩ ∧ b' = { b with regions := b.regions.insert r.name known } := by
    intro u span
    rw [gives_declareRegion, hr]
    simp only [reduceCtorEq, false_and, false_or, true_and]
    constructor
    · rintro ⟨rfl, rfl⟩
      exact ⟨rfl, rfl⟩
    · rintro ⟨rfl, rfl⟩
      exact ⟨rfl, rfl⟩
  unfold resolveRegion
  by_cases hstatic : r.name = Region.static.name
  · rw [if_pos hstatic, hdeclare]
    simp [hstatic]
  · rw [if_neg hstatic, gives_get_bind, hr, hdeclare]
    simp [hstatic]

/-- **A region is resolved** to what the table has, after its name has been noted. -/
theorem gives_resolveRegion {universal : Bool} {r : RegionName} {known : Region} :
    Gives (resolveRegion file universal r) b known b' ↔
      b' = b.noted (universal || r.name = Region.static.name) r.name ∧ b'.Admits r.name ∧
        known = b'.regionOf r.name := by
  cases hr : b.region? r.name with
  | some found =>
    rw [gives_resolveRegion_of_some hr, noted_of_isSome (by rw [hr]; rfl)]
    constructor
    · rintro ⟨huniversal, rfl, rfl⟩
      exact ⟨rfl, ⟨found, hr, huniversal⟩, by rw [regionOf, hr]; rfl⟩
    · rintro ⟨rfl, ⟨r', hr', huniversal⟩, rfl⟩
      cases hr.symm.trans hr'
      exact ⟨huniversal, by rw [regionOf, hr]; rfl, rfl⟩
  | none =>
    rw [gives_resolveRegion_of_none hr, noted, hr, if_neg (by simp)]
    have hfound : ∀ r' : Region,
        ({ b with regions := b.regions.insert r.name r' } : Builder).region? r.name = some r' := by
      intro r'
      simp [region?]
    constructor
    · rintro ⟨rfl, rfl⟩
      refine ⟨rfl, ⟨_, hfound _, ?_⟩, by rw [regionOf, hfound]; rfl⟩
      intro hstatic
      simp [hstatic]
    · rintro ⟨rfl, _, rfl⟩
      rw [regionOf, hfound]
      exact ⟨rfl, rfl⟩

/-- **A bound of the signature** is resolved after both names have been noted. -/
theorem gives_signatureBound {e : BoundExpr} {edge : RegionEdge} :
    Gives (signatureBound file e) b edge b' ↔
      b' = b.notedBoth e.names ∧ b'.Admits e.names.1 ∧ b'.Admits e.names.2 ∧
        edge = b'.edgeOf e.names := by
  unfold signatureBound
  simp only [gives_bind, gives_resolveRegion, gives_pure, Bool.true_or]
  -- the second name leaves the first one as it is
  have hsub : (b.notedBoth e.names).region? e.names.1 =
      (b.noted true e.names.1).region? e.names.1 :=
    region?_noted_of_isSome (isSome_region?_noted _ _ _)
  constructor
  · rintro ⟨_, _, ⟨rfl, hadmits, rfl⟩, _, _, ⟨rfl, hadmits', rfl⟩, rfl, rfl⟩
    refine ⟨rfl, (admits_congr hsub).mpr hadmits, hadmits', ?_⟩
    exact Prod.ext (regionOf_congr hsub).symm rfl
  · rintro ⟨rfl, hadmits, hadmits', rfl⟩
    refine ⟨_, _, ⟨rfl, (admits_congr hsub).mp hadmits, rfl⟩, _, _, ⟨rfl, hadmits', rfl⟩, ?_, rfl⟩
    exact Prod.ext (regionOf_congr hsub).symm rfl

/-- **The bounds of a signature** are resolved after all their names have been noted. -/
theorem gives_signatureBounds {bounds : List BoundExpr} {edges : List RegionEdge} :
    Gives (bounds.mapM (signatureBound file)) b edges b' ↔
      b' = (bounds.map BoundExpr.names).foldl notedBoth b ∧
        (∀ names ∈ bounds.map BoundExpr.names, b'.Admits names.1 ∧ b'.Admits names.2) ∧
        edges = (bounds.map BoundExpr.names).map b'.edgeOf := by
  induction bounds generalizing b edges with
  | nil => simp [eq_comm, and_comm]
  | cons e bounds ih =>
    rw [List.mapM_cons]
    simp only [gives_bind, gives_signatureBound, gives_pure, List.map_cons, List.foldl_cons,
      List.forall_mem_cons]
    have hknows := knowsBoth_notedBoth b e.names
    -- later bounds leave these names as they are
    have hsub := region?_foldl_notedBoth (bounds.map BoundExpr.names) hknows.1
    have hsup := region?_foldl_notedBoth (bounds.map BoundExpr.names) hknows.2
    constructor
    · rintro ⟨_, _, ⟨rfl, hadmits, hadmits', rfl⟩, _, _, hloop, rfl, rfl⟩
      obtain ⟨rfl, hrest, rfl⟩ := ih.mp hloop
      refine ⟨rfl, ⟨⟨(admits_congr hsub).mpr hadmits, (admits_congr hsup).mpr hadmits'⟩, hrest⟩, ?_⟩
      rw [edgeOf_congr hsub hsup]
    · rintro ⟨rfl, ⟨⟨hadmits, hadmits'⟩, hrest⟩, rfl⟩
      refine ⟨_, _, ⟨rfl, (admits_congr hsub).mp hadmits, (admits_congr hsup).mp hadmits', rfl⟩,
        _, _, ih.mpr ⟨rfl, hrest, rfl⟩, ?_, rfl⟩
      rw [edgeOf_congr hsub hsup]

theorem gives_knownRegion {r : RegionName} {known : Region} :
    Gives (knownRegion file r) b known b' ↔
      (b.region? r.name).isSome = true ∧ known = b.regionOf r.name ∧ b' = b := by
  rw [knownRegion, gives_derive, regionNamed, regionOf]
  cases b.region? r.name <;> simp [eq_comm]

/-- **A bound inside the body** names known regions. -/
theorem gives_knownBound {e : BoundExpr} {edge : RegionEdge} :
    Gives (knownBound file e) b edge b' ↔
      b.KnowsBoth e.names ∧ edge = b.edgeOf e.names ∧ b' = b := by
  unfold knownBound
  simp only [gives_bind, gives_pure, gives_knownRegion]
  constructor
  · rintro ⟨_, _, ⟨hsub, rfl, rfl⟩, _, _, ⟨hsup, rfl, rfl⟩, rfl, rfl⟩
    exact ⟨⟨hsub, hsup⟩, rfl, rfl⟩
  · rintro ⟨⟨hsub, hsup⟩, rfl, rfl⟩
    exact ⟨_, _, ⟨hsub, rfl, rfl⟩, _, _, ⟨hsup, rfl, rfl⟩, rfl, rfl⟩

theorem sound_of_signatureBounds (hb : b.Sound) {bounds : List BoundExpr}
    {edges : List RegionEdge} (h : Gives (bounds.mapM (signatureBound file)) b edges b') :
    b'.Sound := by
  have hmeets : Meets Fill b (bounds.mapM (signatureBound file)) BuildError.Located
      fun edges _ => ∀ e ∈ edges, True :=
    meets_mapM (fun _ _ _ _ _ => trivial) fun e _ _ _ => meets_signatureBound file e
  exact sound_of_fills (hmeets.changes_of_gives h) hb

/-- The step that takes in the bounds of a signature. -/
def addBounds (file : Option String) (span : Option Span) (bounds : List BoundExpr) :
    BuildM Unit := do
  let edges ← bounds.mapM (signatureBound file)
  edges.forM fun e => Builder.bound e.1 e.2 span

theorem sound_of_addBounds (hb : b.Sound) {e : Extent} {bounds : List BoundExpr} {u : Unit}
    (h : Gives (addBounds file (some (e.span file)) bounds) b u b') : b'.Sound := by
  obtain ⟨edges, m, hedges, hadds⟩ := gives_bind.mp h
  have hmeets : Meets Fill m (edges.forM fun edge =>
      Builder.bound edge.1 edge.2 (some (e.span file))) BuildError.Located fun _ _ => True :=
    meets_forM (fun _ _ => True) trivial fun _ edge _ _ _ _ _ =>
      (meets_bound edge.1 edge.2 _).fills.located
  exact sound_of_fills (hmeets.changes_of_gives hadds) (sound_of_signatureBounds hb hedges)

/-- **A signature**: its bounds are resolved together, then added one by one. -/
theorem gives_addBounds (hb : b.Sound) (hnone : b.bounds = []) {bounds : List BoundExpr}
    {span : Option Span} {u : Unit} :
    Gives (addBounds file span bounds) b u b' ↔
      (∀ names ∈ bounds.map BoundExpr.names,
        (b.signed (bounds.map BoundExpr.names)).Admits names.1 ∧
          (b.signed (bounds.map BoundExpr.names)).Admits names.2) ∧
      b' = b.signed (bounds.map BoundExpr.names) := by
  -- once the names are known, the bounds find their regions declared
  have hadds : ∀ edges m, Gives (bounds.mapM (signatureBound file)) b edges m →
      (Gives (edges.forM fun e => Builder.bound e.1 e.2 span) m u b' ↔
        b' = b.signed (bounds.map BoundExpr.names)) := by
    intro edges m hedges
    have hm := sound_of_signatureBounds hb hedges
    obtain ⟨rfl, hadmits, rfl⟩ := gives_signatureBounds.mp hedges
    have hempty : ((bounds.map BoundExpr.names).foldl notedBoth b).bounds =
        ([] : List _).eraseDups := by
      rw [onlyRegions_foldl_notedBoth b (bounds.map BoundExpr.names)]
      exact hnone
    rw [gives_bounds _ hempty, List.nil_append, List.map_map]
    · rfl
    · intro e he
      obtain ⟨names, hnames, rfl⟩ := List.mem_map.mp he
      obtain ⟨hsub, hsup⟩ := hadmits names hnames
      exact ⟨hm.declares_regionOf hsub.isSome, hm.declares_regionOf hsup.isSome⟩
  rw [addBounds, gives_bind]
  constructor
  · rintro ⟨edges, m, hedges, hloop⟩
    refine ⟨?_, (hadds edges m hedges).mp hloop⟩
    obtain ⟨rfl, hadmits, _⟩ := gives_signatureBounds.mp hedges
    exact hadmits
  · rintro ⟨hadmits, hsigned⟩
    have hedges : Gives (bounds.mapM (signatureBound file)) b _ _ :=
      gives_signatureBounds.mpr ⟨rfl, hadmits, rfl⟩
    exact ⟨_, _, hedges, (hadds _ _ hedges).mpr hsigned⟩

/-! ## Types -/

theorem onlyRegions_resolveRegion {universal : Bool} {r : RegionName} {known : Region}
    (h : Gives (resolveRegion file universal r) b known b') : b.OnlyRegions b' := by
  obtain ⟨rfl, _⟩ := gives_resolveRegion.mp h
  exact onlyRegions_noted _ _ _

theorem name_resolveRegion (hb : b.Sound) {universal : Bool} {r : RegionName} {known : Region}
    (h : Gives (resolveRegion file universal r) b known b') : known.name = r.name := by
  have hb' : b'.Sound :=
    sound_of_fills ((meets_resolveRegion file universal r).changes_of_gives h) hb
  obtain ⟨_, hadmits, rfl⟩ := gives_resolveRegion.mp h
  exact hb'.name_regionOf hadmits.isSome

theorem render_namedType (name : String) (args : List Ty) :
    (namedType name args).render = (Ty.adt name args).render := by
  unfold namedType
  cases args with
  | nil => split <;> simp only [Ty.render]
  | cons t ts => rfl

mutual

/-- **A type is resolved** to one that is written the same, and only regions are noted. -/
theorem resolveType_spec {b b' : Builder} (hb : b.Sound) {universal : Bool} {t : TypeExpr} {ty : Ty}
    (h : Gives (resolveType file universal t) b ty b') :
    b.OnlyRegions b' ∧ ty.render = t.render := by
  match t with
  | .region r =>
    rw [resolveType] at h
    obtain ⟨known, m, hr, hpure⟩ := gives_bind.mp h
    obtain ⟨rfl, rfl⟩ := gives_pure.mp hpure
    refine ⟨onlyRegions_resolveRegion hr, ?_⟩
    rw [Ty.render, TypeExpr.render, name_resolveRegion hb hr]
  | .ref r mutable referent =>
    rw [resolveType] at h
    obtain ⟨known, m, hr, h⟩ := gives_bind.mp h
    obtain ⟨ty', m', ht, hpure⟩ := gives_bind.mp h
    obtain ⟨rfl, rfl⟩ := gives_pure.mp hpure
    have hm : m.Sound :=
      sound_of_fills ((meets_resolveRegion file universal r).changes_of_gives hr) hb
    obtain ⟨honly, hrender⟩ := resolveType_spec hm ht
    refine ⟨(onlyRegions_resolveRegion hr).trans honly, ?_⟩
    rw [Ty.render, TypeExpr.render, name_resolveRegion hb hr, hrender]
  | .named name args =>
    rw [resolveType] at h
    obtain ⟨tys, m, hargs, hpure⟩ := gives_bind.mp h
    obtain ⟨rfl, rfl⟩ := gives_pure.mp hpure
    obtain ⟨honly, hrender⟩ := resolveTypes_spec hb hargs
    refine ⟨honly, ?_⟩
    rw [render_namedType]
    cases args with
    | nil =>
      cases tys with
      | nil => rw [Ty.render, TypeExpr.render]
      | cons => cases hrender
    | cons a as =>
      cases tys with
      | nil => cases hrender
      | cons => rw [Ty.render, TypeExpr.render, hrender]

theorem resolveTypes_spec {b b' : Builder} (hb : b.Sound) {universal : Bool} {ts : List TypeExpr}
    {tys : List Ty} (h : Gives (resolveTypes file universal ts) b tys b') :
    b.OnlyRegions b' ∧ Ty.renderAll tys = TypeExpr.renderAll ts := by
  match ts with
  | [] =>
    rw [resolveTypes] at h
    obtain ⟨rfl, rfl⟩ := gives_pure.mp h
    exact ⟨rfl, rfl⟩
  | t :: ts =>
    rw [resolveTypes] at h
    obtain ⟨ty, m, ht, h⟩ := gives_bind.mp h
    obtain ⟨tys', m', hts, hpure⟩ := gives_bind.mp h
    obtain ⟨rfl, rfl⟩ := gives_pure.mp hpure
    have hm : m.Sound :=
      sound_of_fills ((meets_resolveType file universal t).changes_of_gives ht) hb
    obtain ⟨honly, hrender⟩ := resolveType_spec hb ht
    obtain ⟨honly', hrender'⟩ := resolveTypes_spec hm hts
    refine ⟨honly.trans honly', ?_⟩
    rw [Ty.renderAll, TypeExpr.renderAll, hrender, hrender']

end

/-! ## Declarations -/

/-- **A parameter** becomes a variable whose type is written the same. -/
theorem declared_of_elaborateParam (hb : b.Sound) {p : ParamDecl} {u : Unit}
    (h : Gives (elaborateParam file p) b u b') :
    ∃ ty : Ty, ty.render = p.ty.render ∧ b.Declared ⟨p.name, ty, none, true⟩ b' := by
  unfold elaborateParam at h
  obtain ⟨ty, m, hty, h⟩ := gives_bind.mp h
  obtain ⟨v, m', hdeclare, hpure⟩ := gives_bind.mp h
  obtain ⟨_, rfl⟩ := gives_pure.mp hpure
  obtain ⟨honly, hrender⟩ := resolveType_spec hb hty
  exact ⟨ty, hrender, honly.declared (declared_of_declare hdeclare)⟩

/-- **A declaration** becomes a variable whose type and drops are written the same. -/
theorem declared_of_elaborateLet (hb : b.Sound) {d : LetDecl} {u : Unit}
    (h : Gives (elaborateLet file d) b u b') :
    ∃ (ty : Ty) (drops : Option (List Region)), ty.render = d.ty.render ∧
      (drops.map fun rs => rs.map Region.name) = (d.drops.map fun rs => rs.map RegionName.name) ∧
      b.Declared ⟨d.name, ty, drops, false⟩ b' := by
  unfold elaborateLet at h
  obtain ⟨ty, m, hty, h⟩ := gives_bind.mp h
  have hm : m.Sound :=
    sound_of_fills ((meets_resolveType file false d.ty).changes_of_gives hty) hb
  obtain ⟨honly, hrender⟩ := resolveType_spec hb hty
  have hdeclared : ∀ drops : Option (List Region),
      Gives (do let _ ← Builder.declare d.name ty drops false (some (d.extent.span file))) m u b' →
        b.Declared ⟨d.name, ty, drops, false⟩ b' := by
    intro drops h
    obtain ⟨v, m', hdeclare, hpure⟩ := gives_bind.mp h
    obtain ⟨_, rfl⟩ := gives_pure.mp hpure
    exact honly.declared (declared_of_declare hdeclare)
  cases hdrops : d.drops with
  | none =>
    rw [hdrops] at h
    exact ⟨ty, none, hrender, rfl, hdeclared none h⟩
  | some names =>
    rw [hdrops] at h
    obtain ⟨drops, m', hnames, h⟩ := gives_bind.mp h
    obtain ⟨known, hknown, rfl⟩ := gives_map.mp hnames
    obtain ⟨hsome, rfl, rfl⟩ := (gives_mapM_derive fun _ _ _ => gives_knownRegion).mp hknown
    refine ⟨ty, _, hrender, ?_, hdeclared _ h⟩
    rw [Option.map_some, Option.map_some, List.map_map]
    exact congrArg some (List.map_congr_left fun r hr => hm.name_regionOf (hsome r hr))

theorem sound_of_elaborateParam (hb : b.Sound) {p : ParamDecl} {u : Unit}
    (h : Gives (elaborateParam file p) b u b') : b'.Sound :=
  sound_of_fills ((meets_elaborateParam file p).changes_of_gives h) hb

theorem sound_of_elaborateLet (hb : b.Sound) {d : LetDecl} {u : Unit}
    (h : Gives (elaborateLet file d) b u b') : b'.Sound :=
  sound_of_fills ((meets_elaborateLet file hb d).changes_of_gives h) hb

/-- Parameters come with no bounds. -/
theorem elaborateParams_spec (hb : b.Sound) {ps : List ParamDecl} {u : Unit}
    (h : Gives (ps.forM (elaborateParam file)) b u b') : b'.Sound ∧ b'.bounds = b.bounds := by
  induction ps generalizing b with
  | nil =>
    obtain rfl := gives_forM_nil.mp h
    exact ⟨hb, rfl⟩
  | cons p ps ih =>
    obtain ⟨m, hp, hps⟩ := gives_forM_cons.mp h
    obtain ⟨_, _, _, heq⟩ := declared_of_elaborateParam hb hp
    obtain ⟨hb', hbounds⟩ := ih (sound_of_elaborateParam hb hp) hps
    exact ⟨hb', by rw [hbounds, heq]⟩

/-! ## Functions -/

/-- **A function is gone through** in four parts. -/
theorem gives_elaborateFunction {f : FunctionDecl} {u : Unit} :
    Gives (elaborateFunction file f) b u b' ↔
      ∃ b₁ b₂ b₃, Gives (f.params.forM (elaborateParam file)) b () b₁ ∧
        Gives (addBounds file (some (f.boundsExtent.span file)) f.bounds) b₁ () b₂ ∧
        Gives (f.declarations.forM (elaborateLet file)) b₂ () b₃ ∧
        Gives (f.blocks.forM (elaborateBlock file)) b₃ u b' := by
  unfold elaborateFunction elaborateHeader addBounds
  simp only [gives_bind]
  constructor
  · rintro ⟨_, b₃, ⟨_, b₁, hparams, edges, m, hedges, _, b₂, hadds, hlets⟩, hblocks⟩
    exact ⟨b₁, b₂, b₃, hparams, ⟨edges, m, hedges, hadds⟩, hlets, hblocks⟩
  · rintro ⟨b₁, b₂, b₃, hparams, ⟨edges, m, hedges, hadds⟩, hlets, hblocks⟩
    exact ⟨(), b₃, ⟨(), b₁, hparams, edges, m, hedges, (), b₂, hadds, hlets⟩, hblocks⟩

theorem sound_of_elaborateFunction {f : FunctionDecl} {u : Unit}
    (h : Gives (elaborateFunction file f) (f.start file) u b) : b.Sound := by
  have hnew : (f.start file).Sound := sound_new _ _
  have hmeets := meets_elaborateFunction file hnew (fun _ h => absurd h List.not_mem_nil) f
  exact sound_of_changes (hmeets.changes_of_gives h) hnew

/-- **A function has a body** if it can be gone through and finished. -/
theorem body_eq_ok {f : FunctionDecl} {body : Body} :
    f.body file = .ok body ↔
      ∃ b, Gives (elaborateFunction file f) (f.start file) () b ∧ b.finish = .ok body := by
  unfold FunctionDecl.body Gives
  rcases (elaborateFunction file f).perform (f.start file) with ⟨e | ⟨⟩, b⟩
  · simp
  · simp only [Prod.mk.injEq, true_and, exists_eq_left']
    cases b.finish with
    | ok body' => simp
    | error fault => cases fault <;> simp

end Source

end BorrowFlow
