import BorrowFlow.Proofs.Source.RoundTrip

/-! # The table of regions

    Regions come into being where they are first written: in a parameter, in a bound of the
    signature or in a declared type, and nowhere else.  Each step of elaboration notes the
    regions of its piece of the text in the order in which they stand there (`noteRegion`), and
    a variable finds the regions of its type noted already.

    So the table of a body lists what is written in its function, each region once and in order
    of its first occurrence (`regionsOf_body`).  What comes first in the signature is universal,
    and `'static` is anywhere.
-/

namespace BorrowFlow.Source

open BuildM Builder

/-! ## Written regions -/

namespace TypeExpr

mutual

/-- The regions of a type, as they are written. -/
def regionNames : TypeExpr → List String
  | .region r => [r.name]
  | .ref r _ referent => r.name :: referent.regionNames
  | .named _ args => regionNamesAll args

/-- The regions of types in a row. -/
def regionNamesAll : List TypeExpr → List String
  | [] => []
  | t :: ts => t.regionNames ++ regionNamesAll ts

end

end TypeExpr

namespace FunctionDecl

/-- The regions that are written in the parameter types and then in the bounds. -/
def signatureRegions (f : FunctionDecl) : List String :=
  (f.params.flatMap fun p => p.ty.regionNames) ++ f.bounds.flatMap fun e => [e.sub.name, e.sup.name]

/-- The regions that are written in the types of declarations. -/
def declaredRegions (f : FunctionDecl) : List String :=
  f.declarations.flatMap fun d => d.ty.regionNames

/-- **The regions of a body are those of its function**: each that is written there, once, in
    order of first occurrence, and universal if it belongs to the signature. -/
structure RegionsOf (f : FunctionDecl) (body : Body) : Prop where
  names : body.regions.map Region.name = (f.signatureRegions ++ f.declaredRegions).eraseDups
  universal_iff : ∀ r ∈ body.regions,
    r.universal = true ↔ r.name = Region.static.name ∨ r.name ∈ f.signatureRegions

end FunctionDecl

/-! ## Noting regions -/

/-- Note a region, unless there is one of its name. -/
def noteRegion (universal : Bool) (m : OrderedMap Region) (name : String) : OrderedMap Region :=
  m.insertNew name ⟨name, universal || name = Region.static.name⟩

/-- **Regions are listed in order of their first occurrence**, each as it was noted then. -/
theorem entries_foldl_noteRegion {universal : Bool} {entry : String → Region} {names : List String}
    {earlier : List String} {m : OrderedMap Region}
    (hm : m.entries = earlier.eraseDups.map fun n => (n, entry n))
    (hnew : ∀ n ∈ names, n ∉ earlier → entry n = ⟨n, universal || n = Region.static.name⟩) :
    (names.foldl (noteRegion universal) m).entries =
      (earlier ++ names).eraseDups.map fun n => (n, entry n) := by
  induction names generalizing earlier m with
  | nil => rw [List.foldl_nil, hm, List.append_nil]
  | cons n names ih =>
    have hknown : n ∈ m.names ↔ n ∈ earlier := by
      rw [OrderedMap.names, hm, List.map_map]
      simp [Function.comp_def]
    have hstep : (noteRegion universal m n).entries =
        (earlier ++ [n]).eraseDups.map fun n => (n, entry n) := by
      rw [noteRegion, eraseDups_concat]
      by_cases hn : n ∈ earlier
      · rw [OrderedMap.insertNew_of_mem (hknown.mpr hn), if_pos hn, hm]
      · have hn' := mt hknown.mp hn
        rw [OrderedMap.insertNew_of_not_mem hn', OrderedMap.entries_insert_of_not_mem _ hn', if_neg hn,
          List.map_append, List.map_singleton, hm, hnew n List.mem_cons_self hn]
    rw [List.foldl_cons, ih hstep, List.append_assoc, List.singleton_append]
    intro n' hn' hfresh
    exact hnew n' (List.mem_cons_of_mem n hn') fun hold => hfresh (List.mem_append_left _ hold)

/-- A region as a function with these regions in its signature has it. -/
def regionIn (signature : List String) (name : String) : Region :=
  ⟨name, name ∈ signature ∨ name = Region.static.name⟩

/-- **The table of a function**: first the signature is noted, then the declarations. -/
theorem entries_noteRegions (signature declared : List String) :
    (declared.foldl (noteRegion false) (signature.foldl (noteRegion true) ∅)).entries =
      (signature ++ declared).eraseDups.map fun n => (n, regionIn signature n) := by
  have hsignature : (signature.foldl (noteRegion true) ∅).entries =
      ([] ++ signature).eraseDups.map fun n => (n, regionIn signature n) :=
    entries_foldl_noteRegion rfl fun n hn _ => by simp [regionIn, hn]
  rw [List.nil_append] at hsignature
  exact entries_foldl_noteRegion hsignature fun n _ hn => by simp [regionIn, hn]

theorem regions_noted (universal : Bool) (b : Builder) (name : String) :
    (b.noted universal name).regions = b.regions.insertNew name ⟨name, universal⟩ := by
  unfold noted OrderedMap.insertNew
  split
  · next h => exact (if_pos h).symm
  · next h => exact (if_neg h).symm

/-! ## Steps that note regions -/

variable {file : Option String} {b b' : Builder}

/-- The regions of a type that has been resolved are declared. -/
theorem declares_resolveRegion (hb : b.Sound) {universal : Bool} {r : RegionName} {known : Region}
    (h : Gives (resolveRegion file universal r) b known b') : b'.Declares known := by
  have hb' : b'.Sound :=
    sound_of_fills ((meets_resolveRegion file universal r).changes_of_gives h) hb
  obtain ⟨_, hadmits, rfl⟩ := gives_resolveRegion.mp h
  exact hb'.declares_regionOf hadmits.isSome

theorem regions_resolveRegion {universal : Bool} {r : RegionName} {known : Region}
    (h : Gives (resolveRegion file universal r) b known b') :
    b'.regions = noteRegion universal b.regions r.name := by
  obtain ⟨rfl, _⟩ := gives_resolveRegion.mp h
  exact regions_noted _ _ _

mutual

/-- **A type notes its regions**, and then they are declared. -/
theorem regions_resolveType {b b' : Builder} (hb : b.Sound) {universal : Bool} {t : TypeExpr}
    {ty : Ty} (h : Gives (resolveType file universal t) b ty b') :
    b'.regions = t.regionNames.foldl (noteRegion universal) b.regions ∧
      ∀ r, ty.Mentions r → b'.Declares r := by
  match t with
  | .region r =>
    rw [resolveType] at h
    obtain ⟨known, m, hr, hpure⟩ := gives_bind.mp h
    obtain ⟨rfl, rfl⟩ := gives_pure.mp hpure
    rw [TypeExpr.regionNames]
    refine ⟨regions_resolveRegion hr, fun s hs => ?_⟩
    rw [Ty.mentions_region.mp hs]
    exact declares_resolveRegion hb hr
  | .ref r mutable referent =>
    rw [resolveType] at h
    obtain ⟨known, m, hr, h⟩ := gives_bind.mp h
    obtain ⟨ty', m', ht, hpure⟩ := gives_bind.mp h
    obtain ⟨rfl, rfl⟩ := gives_pure.mp hpure
    have hm : m.Sound :=
      sound_of_fills ((meets_resolveRegion file universal r).changes_of_gives hr) hb
    have hkeeps := keeps_of_fills ((meets_resolveType file universal referent).changes_of_gives ht)
    obtain ⟨hregions, hdeclares⟩ := regions_resolveType hm ht
    rw [TypeExpr.regionNames, List.foldl_cons, ← regions_resolveRegion hr]
    refine ⟨hregions, fun s hs => ?_⟩
    rcases Ty.mentions_ref.mp hs with rfl | hs
    · exact hkeeps.declares _ (declares_resolveRegion hb hr)
    · exact hdeclares s hs
  | .named name args =>
    rw [resolveType] at h
    obtain ⟨tys, m, hargs, hpure⟩ := gives_bind.mp h
    obtain ⟨rfl, rfl⟩ := gives_pure.mp hpure
    obtain ⟨hregions, hdeclares⟩ := regions_resolveTypes hb hargs
    rw [TypeExpr.regionNames]
    refine ⟨hregions, fun s hs => ?_⟩
    -- without arguments the type may be a scalar, which mentions nothing
    rw [namedType] at hs
    split at hs
    · obtain ⟨t, ht, hs⟩ := Ty.mentions_adt.mp hs
      exact hdeclares t ht s hs
    · exact absurd hs Ty.not_mentions_scalar

theorem regions_resolveTypes {b b' : Builder} (hb : b.Sound) {universal : Bool}
    {ts : List TypeExpr} {tys : List Ty} (h : Gives (resolveTypes file universal ts) b tys b') :
    b'.regions = (TypeExpr.regionNamesAll ts).foldl (noteRegion universal) b.regions ∧
      ∀ ty ∈ tys, ∀ r, ty.Mentions r → b'.Declares r := by
  match ts with
  | [] =>
    rw [resolveTypes] at h
    obtain ⟨rfl, rfl⟩ := gives_pure.mp h
    exact ⟨rfl, by simp⟩
  | t :: ts =>
    rw [resolveTypes] at h
    obtain ⟨ty, m, ht, h⟩ := gives_bind.mp h
    obtain ⟨tys', m', hts, hpure⟩ := gives_bind.mp h
    obtain ⟨rfl, rfl⟩ := gives_pure.mp hpure
    have hm : m.Sound :=
      sound_of_fills ((meets_resolveType file universal t).changes_of_gives ht) hb
    have hkeeps := keeps_of_fills ((meets_resolveTypes file universal ts).changes_of_gives hts)
    obtain ⟨hregions, hdeclares⟩ := regions_resolveType hb ht
    obtain ⟨hregions', hdeclares'⟩ := regions_resolveTypes hm hts
    rw [TypeExpr.regionNamesAll, List.foldl_append, ← hregions]
    refine ⟨hregions', List.forall_mem_cons.mpr ⟨fun r hr => ?_, hdeclares'⟩⟩
    exact hkeeps.declares r (hdeclares r hr)

end

/-- Taking in regions that are declared does nothing. -/
theorem eq_of_adoptAll {span : Option Span} {rs : List Region} {u : Unit}
    (hdeclared : ∀ r ∈ rs, b.Declares r) (h : Gives (rs.forM (adopt span)) b u b') : b = b' := by
  induction rs generalizing b with
  | nil => exact gives_forM_nil.mp h
  | cons r rs ih =>
    obtain ⟨hr, hrs⟩ := List.forall_mem_cons.mp hdeclared
    obtain ⟨m, hadopt, hrest⟩ := gives_forM_cons.mp h
    obtain rfl := (gives_adopt_of_declares hr).mp hadopt
    exact ih hrs hrest

/-- **A variable brings in no region** that its type has not brought in before. -/
theorem regions_declare {name : String} {ty : Ty} {drops : Option (List Region)} {param : Bool}
    {span : Option Span} {v : Variable} (hdeclared : ∀ r, ty.Mentions r → b.Declares r)
    (h : Gives (declare name ty drops param span) b v b') : b'.regions = b.regions := by
  obtain ⟨_, _, _, m, hadopt, rfl⟩ := gives_declare.mp h
  rw [← eq_of_adoptAll (fun r hr => hdeclared r (Ty.mem_regions_iff.mp hr)) hadopt]

theorem regions_elaborateParam (hb : b.Sound) {p : ParamDecl} {u : Unit}
    (h : Gives (elaborateParam file p) b u b') :
    b'.regions = p.ty.regionNames.foldl (noteRegion true) b.regions := by
  unfold elaborateParam at h
  obtain ⟨ty, m, hty, h⟩ := gives_bind.mp h
  obtain ⟨v, m', hdeclare, hpure⟩ := gives_bind.mp h
  obtain ⟨_, rfl⟩ := gives_pure.mp hpure
  obtain ⟨hregions, hdeclares⟩ := regions_resolveType hb hty
  rw [regions_declare hdeclares hdeclare, hregions]

/-- The drops of a declaration are looked up, so they note nothing. -/
theorem regions_elaborateLet (hb : b.Sound) {d : LetDecl} {u : Unit}
    (h : Gives (elaborateLet file d) b u b') :
    b'.regions = d.ty.regionNames.foldl (noteRegion false) b.regions := by
  unfold elaborateLet at h
  obtain ⟨ty, m, hty, h⟩ := gives_bind.mp h
  obtain ⟨hregions, hdeclares⟩ := regions_resolveType hb hty
  have hdeclared : ∀ drops : Option (List Region),
      Gives (do let _ ← Builder.declare d.name ty drops false (some (d.extent.span file))) m u b' →
        b'.regions = m.regions := by
    intro drops h
    obtain ⟨v, m', hdeclare, hpure⟩ := gives_bind.mp h
    obtain ⟨_, rfl⟩ := gives_pure.mp hpure
    exact regions_declare hdeclares hdeclare
  rw [← hregions]
  cases hdrops : d.drops with
  | none =>
    rw [hdrops] at h
    exact hdeclared none h
  | some names =>
    rw [hdrops] at h
    obtain ⟨drops, m', hnames, h⟩ := gives_bind.mp h
    obtain ⟨known, hknown, rfl⟩ := gives_map.mp hnames
    obtain ⟨_, rfl, rfl⟩ := (gives_mapM_derive fun _ _ _ => gives_knownRegion).mp hknown
    exact hdeclared _ h

theorem regions_foldl_notedBoth (b : Builder) (bounds : List BoundExpr) :
    ((bounds.map BoundExpr.names).foldl notedBoth b).regions =
      (bounds.flatMap fun e => [e.sub.name, e.sup.name]).foldl (noteRegion true) b.regions := by
  induction bounds generalizing b with
  | nil => rfl
  | cons e bounds ih =>
    rw [List.map_cons, List.foldl_cons, ih, List.flatMap_cons, List.foldl_append, notedBoth,
      regions_noted, regions_noted]
    rfl

theorem regions_addBounds (hb : b.Sound) (hnone : b.bounds = []) {span : Option Span}
    {bounds : List BoundExpr} {u : Unit} (h : Gives (addBounds file span bounds) b u b') :
    b'.regions =
      (bounds.flatMap fun e => [e.sub.name, e.sup.name]).foldl (noteRegion true) b.regions := by
  obtain ⟨_, rfl⟩ := (gives_addBounds hb hnone).mp h
  exact regions_foldl_notedBoth b bounds

/-! ## Functions -/

/-- **A loop notes what its rounds note.** -/
theorem regions_forM {α : Type} {step : α → BuildM Unit} {universal : Bool}
    {names : α → List String}
    (hstep : ∀ a b b', b.Sound → Gives (step a) b () b' →
      b'.Sound ∧ b'.regions = (names a).foldl (noteRegion universal) b.regions)
    {as : List α} {u : Unit} (hb : b.Sound) (h : Gives (as.forM step) b u b') :
    b'.Sound ∧ b'.regions = (as.flatMap names).foldl (noteRegion universal) b.regions := by
  induction as generalizing b with
  | nil =>
    obtain rfl := gives_forM_nil.mp h
    exact ⟨hb, rfl⟩
  | cons a as ih =>
    obtain ⟨m, ha, has⟩ := gives_forM_cons.mp h
    obtain ⟨hm, hregions⟩ := hstep a b m hb ha
    obtain ⟨hb', hregions'⟩ := ih hm has
    exact ⟨hb', by rw [hregions', hregions, List.flatMap_cons, List.foldl_append]⟩

/-- **The table of a function's builder.** -/
theorem regions_elaborateFunction {f : FunctionDecl} {u : Unit}
    (h : Gives (elaborateFunction file f) (f.start file) u b) :
    b.regions = f.declaredRegions.foldl (noteRegion false)
      (f.signatureRegions.foldl (noteRegion true) ∅) := by
  obtain ⟨b₁, b₂, b₃, hparams, hbounds, hlets, hblocks⟩ := gives_elaborateFunction.mp h
  have hnew : (f.start file).Sound := sound_new _ _
  have hnone : b₁.bounds = [] := (elaborateParams_spec hnew hparams).2
  obtain ⟨hb₁, hregions₁⟩ := regions_forM
    (fun _ _ _ hb h => ⟨sound_of_elaborateParam hb h, regions_elaborateParam hb h⟩) hnew hparams
  have hregions₂ := regions_addBounds hb₁ hnone hbounds
  obtain ⟨hb₃, hregions₃⟩ := regions_forM
    (fun _ _ _ hb h => ⟨sound_of_elaborateLet hb h, regions_elaborateLet hb h⟩)
    (sound_of_addBounds hb₁ hbounds) hlets
  -- blocks find their regions and bring in none
  obtain ⟨_, _, heq⟩ := gives_elaborateBlocks hb₃ hblocks
  have hregions : b.regions = b₃.regions := by rw [heq]
  rw [hregions, hregions₃, hregions₂, hregions₁, ← List.foldl_append]
  rfl

/-- **The regions of a body are those written in its function.** -/
theorem regionsOf_body {f : FunctionDecl} {body : Body} (h : f.body file = .ok body) :
    f.RegionsOf body := by
  obtain ⟨b, hrun, hfinish⟩ := body_eq_ok.mp h
  obtain ⟨blocks, _, _, _, rfl⟩ := (sound_of_elaborateFunction hrun).finish_iff.mp hfinish
  have hregions : (b.bodyOf blocks).regions =
      (f.signatureRegions ++ f.declaredRegions).eraseDups.map (regionIn f.signatureRegions) := by
    show b.regions.values = _
    rw [OrderedMap.values, regions_elaborateFunction hrun, entries_noteRegions, List.map_map]
    rfl
  constructor
  · rw [hregions, List.map_map]
    exact List.map_id _
  · intro r hr
    rw [hregions] at hr
    obtain ⟨name, _, rfl⟩ := List.mem_map.mp hr
    simp [regionIn, or_comm]

end BorrowFlow.Source
