import BorrowFlow.Proofs.Builder.Alike
import BorrowFlow.Proofs.Source.Elaboration

/-! # Functions that say the same have the same body

    What elaboration does with a function it also does with one that says the same
    (`FunctionDecl.RestatedAs`): extents become spans and nothing else, and bounds that are
    given again change nothing.  So the bodies agree but for their spans
    (`body_of_restatedAs`).
-/

namespace BorrowFlow

namespace Builder

open BuildM

/-! ## Noting regions -/

theorem unplaced_noted (universal : Bool) (b : Builder) (name : String) :
    (b.noted universal name).unplaced = b.unplaced.noted universal name := by
  unfold noted
  have hregion : b.unplaced.region? name = b.region? name := rfl
  rw [hregion]
  split <;> rfl

theorem unplaced_foldl_notedBoth (b : Builder) (l : List (String × String)) :
    (l.foldl notedBoth b).unplaced = l.foldl notedBoth b.unplaced := by
  induction l generalizing b with
  | nil => rfl
  | cons names l ih => rw [List.foldl_cons, List.foldl_cons, ih, notedBoth, unplaced_noted,
      unplaced_noted, notedBoth]

theorem unplaced_signed (b : Builder) (l : List (String × String)) :
    (b.signed l).unplaced = b.unplaced.signed l := by
  unfold signed
  rw [← unplaced_foldl_notedBoth]
  rfl

end Builder

namespace Source

open BuildM Builder

variable {file : Option String} (file' : Option String) {b c : Builder}

/-! ## Names -/

theorem replays_resolveRegion (h : b.Alike c) (universal : Bool) {r r' : RegionName}
    (hname : r'.name = r.name) :
    Replays Eq b c (resolveRegion file universal r) (resolveRegion file' universal r') := by
  intro known b' hgives
  obtain ⟨rfl, hadmits, rfl⟩ := gives_resolveRegion.mp hgives
  -- whether a name is admitted is asked once it is noted, so the two are compared there
  have halike := h.update (·.noted (universal || r.name = Region.static.name) r.name)
    fun b => unplaced_noted _ b _
  have hregion := halike.congr (·.region? r.name) fun _ => rfl
  refine ⟨_, _, gives_resolveRegion.mpr ⟨rfl, ?_, rfl⟩, ?_, ?_⟩
  · rw [hname]
    exact (admits_congr hregion).mpr hadmits
  · rw [hname]
    exact (regionOf_congr hregion).symm
  · rw [hname]
    exact halike

mutual

/-- **A type without extents** says what the type is. -/
theorem replays_resolveType {b c : Builder} (h : b.Alike c) (universal : Bool) {t t' : TypeExpr}
    (heq : t'.unplaced = t.unplaced) :
    Replays Eq b c (resolveType file universal t) (resolveType file' universal t') := by
  match t, t' with
  | .region r, .region r' =>
    simp only [TypeExpr.unplaced, TypeExpr.region.injEq, RegionName.mk.injEq, and_true] at heq
    rw [resolveType, resolveType]
    refine (replays_resolveRegion file' h universal heq).bind fun known _ _ _ hknown h' => ?_
    exact replays_pure h' (by rw [hknown])
  | .ref r mutable referent, .ref r' mutable' referent' =>
    simp only [TypeExpr.unplaced, TypeExpr.ref.injEq, RegionName.mk.injEq, and_true] at heq
    obtain ⟨hname, rfl, hreferent⟩ := heq
    rw [resolveType, resolveType]
    refine (replays_resolveRegion file' h universal hname).bind fun known _ _ _ hknown h₁ => ?_
    refine (replays_resolveType h₁ universal hreferent).bind fun ty _ _ _ hty h₂ => ?_
    exact replays_pure h₂ (by rw [hknown, hty])
  | .named name args, .named name' args' =>
    simp only [TypeExpr.unplaced, TypeExpr.named.injEq] at heq
    obtain ⟨rfl, hargs⟩ := heq
    rw [resolveType, resolveType]
    refine (replays_resolveTypes h universal hargs).bind fun tys _ _ _ htys h' => ?_
    exact replays_pure h' (by rw [htys])
  | .region _, .ref .. | .region _, .named .. | .ref .., .region _ | .ref .., .named ..
  | .named .., .region _ | .named .., .ref .. => simp [TypeExpr.unplaced] at heq

theorem replays_resolveTypes {b c : Builder} (h : b.Alike c) (universal : Bool)
    {ts ts' : List TypeExpr} (heq : TypeExpr.unplacedAll ts' = TypeExpr.unplacedAll ts) :
    Replays Eq b c (resolveTypes file universal ts) (resolveTypes file' universal ts') := by
  match ts, ts' with
  | [], [] =>
    rw [resolveTypes, resolveTypes]
    exact replays_pure h rfl
  | t :: ts, t' :: ts' =>
    simp only [TypeExpr.unplacedAll, List.cons.injEq] at heq
    rw [resolveTypes, resolveTypes]
    refine (replays_resolveType h universal heq.1).bind fun ty _ _ _ hty h₁ => ?_
    refine (replays_resolveTypes h₁ universal heq.2).bind fun tys _ _ _ htys h₂ => ?_
    exact replays_pure h₂ (by rw [hty, htys])
  | [], _ :: _ | _ :: _, [] => simp [TypeExpr.unplacedAll] at heq

end

theorem replays_knownRegion (h : b.Alike c) {r r' : RegionName} (hname : r'.name = r.name) :
    Replays Eq b c (knownRegion file r) (knownRegion file' r') := by
  rw [knownRegion, knownRegion, hname]
  exact replays_derive h fun _ => rfl

/-! ## Declarations -/

theorem replays_elaborateParam (h : b.Alike c) {p p' : ParamDecl} (hp : p.RestatedAs p') :
    Replays Eq b c (elaborateParam file p) (elaborateParam file' p') := by
  obtain ⟨hname, hty⟩ := hp
  unfold elaborateParam
  refine (replays_resolveType file' h true hty).bind fun ty _ _ _ heq h' => ?_
  subst heq
  rw [hname]
  exact (replays_declare h' _ _ _ _).ignored

theorem replays_elaborateLet (h : b.Alike c) {d d' : LetDecl} (hd : d.RestatedAs d') :
    Replays Eq b c (elaborateLet file d) (elaborateLet file' d') := by
  unfold elaborateLet
  refine (replays_resolveType file' h false hd.ty).bind fun ty _ b₁ c₁ heq h₁ => ?_
  subst heq
  -- with drops or without, the variable is declared last
  have hdeclare : ∀ (drops : Option (List Region)) (b₂ c₂ : Builder), b₂.Alike c₂ →
      Replays Eq b₂ c₂
        (do let _ ← Builder.declare d.name ty drops false (some (d.extent.span file)))
        (do let _ ← Builder.declare d'.name ty drops false (some (d'.extent.span file'))) := by
    intro drops b₂ c₂ h₂
    rw [hd.name]
    exact (replays_declare h₂ _ _ _ _).ignored
  have hdrops := hd.drops
  cases hnames : d.drops with
  | none =>
    rw [hnames, Option.map_none, Option.map_eq_none_iff] at hdrops
    rw [hdrops]
    exact hdeclare none b₁ c₁ h₁
  | some names =>
    rw [hnames, Option.map_some, Option.map_eq_some_iff] at hdrops
    obtain ⟨names', hnames', hsame⟩ := hdrops
    rw [hnames']
    have hloop : Replays Eq b₁ c₁ (names.mapM (knownRegion file))
        (names'.mapM (knownRegion file')) :=
      replays_mapM (fun _ _ _ _ hname h => replays_knownRegion file' h hname)
        (forall₂_iff_map_eq.mpr hsame) h₁
    have hsome : Replays Eq b₁ c₁ (some <$> names.mapM (knownRegion file))
        (some <$> names'.mapM (knownRegion file')) := by
      rw [map_eq_pure_bind, map_eq_pure_bind]
      exact hloop.bind fun _ _ _ _ hknown h₂ => replays_pure h₂ (by rw [hknown])
    refine hsome.bind fun drops _ b₂ c₂ heq h₂ => ?_
    subst heq
    exact hdeclare drops b₂ c₂ h₂

/-! ## Statements -/

theorem distinctNames_of_restated {bounds bounds' : List BoundExpr}
    (h : bounds'.map BoundExpr.names = distinctNames bounds) :
    distinctNames bounds' = distinctNames bounds := by
  rw [distinctNames, h, distinctNames, eraseDups_eraseDups]

/-- The obligations of a call depend on its bounds, each once. -/
theorem obligationsAt_distinctNames (p : Point) (bounds : List BoundExpr) :
    obligationsAt p (bounds.map fun e => b.edgeOf e.names) = ((distinctNames bounds).map
      fun names => (⟨(b.edgeOf names).1, (b.edgeOf names).2, some p⟩ : Obligation)).eraseDups := by
  rw [distinctNames, eraseDups_map_eraseDups, obligationsAt, List.map_map, List.map_map]
  rfl

/-- A call does the same with these bounds and with those. -/
def SameBounds (edges edges' : List RegionEdge) : Prop :=
  (∀ e ∈ edges', e ∈ edges) ∧ ∀ p, obligationsAt p edges' = obligationsAt p edges

/-- **The bounds of a call** may be given once or more often. -/
theorem replays_knownBounds (h : b.Alike c) {bounds bounds' : List BoundExpr}
    (hbounds : distinctNames bounds' = distinctNames bounds) :
    Replays SameBounds b c (bounds.mapM (knownBound file)) (bounds'.mapM (knownBound file')) := by
  have hregion : ∀ name, c.region? name = b.region? name := fun name =>
    h.congr (·.region? name) fun _ => rfl
  have hedge : ∀ names, c.edgeOf names = b.edgeOf names := fun names =>
    edgeOf_congr (hregion _) (hregion _)
  -- no bound is new: each one of the second list has the names of one of the first
  have hmem : ∀ e' ∈ bounds', ∃ e ∈ bounds, e.names = e'.names := by
    intro e' he'
    have hnames : e'.names ∈ distinctNames bounds :=
      hbounds ▸ List.mem_eraseDups.mpr (List.mem_map_of_mem he')
    exact List.mem_map.mp (List.mem_eraseDups.mp hnames)
  intro edges b' hgives
  obtain ⟨hknown, rfl, rfl⟩ := (gives_mapM_derive fun _ _ _ => gives_knownBound).mp hgives
  refine ⟨_, c, (gives_mapM_derive fun _ _ _ => gives_knownBound).mpr ⟨?_, rfl, rfl⟩, ⟨?_, ?_⟩, h⟩
  · intro e' he'
    obtain ⟨e, he, hnames⟩ := hmem e' he'
    unfold KnowsBoth
    rw [hregion, hregion, ← hnames]
    exact hknown e he
  · intro edge hedge'
    obtain ⟨e', he', rfl⟩ := List.mem_map.mp hedge'
    obtain ⟨e, he, hnames⟩ := hmem e' he'
    exact List.mem_map.mpr ⟨e, he, by rw [hedge, hnames]⟩
  · intro p
    simp only [hedge, obligationsAt_distinctNames, hbounds]

theorem replays_elaborateCall (h : b.Alike c) (block : String) (dest : Place) (func : String)
    (operands : List Operand) {bounds bounds' : List BoundExpr} {span span' : Option Span}
    (hbounds : distinctNames bounds' = distinctNames bounds) :
    Replays Eq b c
      (do
        let edges ← bounds.mapM (knownBound file)
        let _ ← Builder.call block dest func operands edges span)
      (do
        let edges ← bounds'.mapM (knownBound file')
        let _ ← Builder.call block dest func operands edges span') := by
  refine (replays_knownBounds file' h hbounds).bind fun _ _ _ _ hedges h' => ?_
  exact (replays_call h' block dest func operands hedges.1 hedges.2).ignored

theorem replays_knownBound (h : b.Alike c) {e e' : BoundExpr} (hnames : e'.names = e.names) :
    Replays Eq b c (knownBound file e) (knownBound file' e') := by
  obtain ⟨hsub, hsup⟩ := Prod.ext_iff.mp hnames
  unfold knownBound
  refine (replays_knownRegion file' h hsub).bind fun sub _ _ _ hsub' h₁ => ?_
  refine (replays_knownRegion file' h₁ hsup).bind fun sup _ _ _ hsup' h₂ => ?_
  exact replays_pure h₂ (by rw [hsub', hsup'])

theorem replays_elaborateOutlives (h : b.Alike c) (block : String) {e e' : BoundExpr}
    {span span' : Option Span} (hnames : e'.names = e.names) :
    Replays Eq b c
      (do
        let (sub, sup) ← knownBound file e
        let _ ← Builder.outlives block sub sup span)
      (do
        let (sub, sup) ← knownBound file' e'
        let _ ← Builder.outlives block sub sup span') := by
  refine (replays_knownBound file' h hnames).bind fun edge _ _ _ heq h' => ?_
  subst heq
  exact (replays_outlives h' block edge.1 edge.2).ignored

/-- **A statement** is elaborated again. -/
theorem replays_elaborateStatement (h : b.Alike c) (block : String) {s s' : StatementExpr}
    (hs : s.shape.RestatedAs s'.shape) :
    Replays Eq b c (elaborateStatement file block s) (elaborateStatement file' block s') := by
  unfold elaborateStatement
  generalize s.shape = shape, s'.shape = shape' at hs
  cases hs with
  | same =>
    cases shape with
    | borrow dest mutable place => exact (replays_borrow h _ _ _ _).ignored
    | assign dest src => exact (replays_assign h _ _ _).ignored
    | call dest func operands bounds =>
      exact replays_elaborateCall file' h block dest func operands rfl
    | use operands => exact (replays_use h _ _).ignored
    | drop var => exact (replays_drop h _ _).ignored
    | storageDead var => exact (replays_storageDead h _ _).ignored
    | outlives e => exact replays_elaborateOutlives file' h block rfl
    | nop => exact (replays_nop h _).ignored
  | call hbounds =>
    exact replays_elaborateCall file' h block _ _ _ (distinctNames_of_restated hbounds)
  | outlives hnames => exact replays_elaborateOutlives file' h block hnames

/-- **A terminator** is elaborated again. -/
theorem replays_elaborateTerminator (h : b.Alike c) (block : String) {t t' : TerminatorExpr}
    (ht : t'.shape = t.shape) :
    Replays Eq b c (elaborateTerminator file block t) (elaborateTerminator file' block t') := by
  unfold elaborateTerminator
  rw [ht]
  cases t.shape with
  | goto target => exact (replays_goto h _ _).ignored
  | branch cond targets =>
    by_cases hfew : targets.length < 2
    -- too few targets fault before the block is ended
    · simp only [if_pos hfew]
      exact replays_throw.bind (R := Eq) fun _ _ _ _ _ h' => (replays_branch h' _ _ _).ignored
    · simp only [if_neg hfew]
      exact (replays_branch h _ _ _).ignored
  | ret => exact (replays_ret h _).ignored
  | unreachable => exact (replays_unreachable h _).ignored

/-- **A block** is elaborated again. -/
theorem replays_elaborateBlock (h : b.Alike c) {blk blk' : BlockDecl} (hblk : blk.RestatedAs blk') :
    Replays Eq b c (elaborateBlock file blk) (elaborateBlock file' blk') := by
  unfold elaborateBlock
  rw [hblk.name]
  refine (replays_openBlock h _).bind fun _ _ _ _ _ h₁ => ?_
  refine (replays_forM (fun _ _ _ _ hs h => replays_elaborateStatement file' h _ hs) hblk.statements
    h₁).bind fun _ _ _ _ _ h₂ => ?_
  exact replays_elaborateTerminator file' h₂ _ hblk.terminator

/-! ## Functions -/

/-- **The bounds of a signature** may be given once or more often. -/
theorem replays_addBounds (h : b.Alike c) (hb : b.Sound) (hc : c.Sound) (hnone : b.bounds = [])
    {bounds bounds' : List BoundExpr} {span span' : Option Span}
    (hbounds : distinctNames bounds' = distinctNames bounds) :
    Replays Eq b c (addBounds file span bounds) (addBounds file' span' bounds') := by
  have hnone' : c.bounds = [] := (h.congr Builder.bounds fun _ => rfl).trans hnone
  have hsigned : ∀ m : Builder, m.signed (bounds'.map BoundExpr.names) =
      m.signed (bounds.map BoundExpr.names) := by
    intro m
    rw [← signed_eraseDups, ← distinctNames, hbounds, distinctNames, signed_eraseDups]
  intro u b' hgives
  obtain ⟨hadmits, rfl⟩ := (gives_addBounds hb hnone).mp hgives
  have halike := h.update (·.signed (bounds.map BoundExpr.names)) fun b => unplaced_signed b _
  have hregion : ∀ name, (c.signed (bounds.map BoundExpr.names)).region? name =
      (b.signed (bounds.map BoundExpr.names)).region? name := fun name =>
    halike.congr (·.region? name) fun _ => rfl
  refine ⟨(), _, (gives_addBounds hc hnone').mpr ⟨?_, rfl⟩, rfl, ?_⟩
  · rw [hsigned]
    intro names hnames
    have hmem : names ∈ bounds.map BoundExpr.names := by
      rw [← List.mem_eraseDups, ← distinctNames, ← hbounds]
      exact List.mem_eraseDups.mpr hnames
    obtain ⟨hsub, hsup⟩ := hadmits names hmem
    exact ⟨(admits_congr (hregion _)).mpr hsub, (admits_congr (hregion _)).mpr hsup⟩
  · rw [hsigned]
    exact halike

/-- **Functions that are gone through alike have the same body**, but for its spans. -/
theorem body_of_replays {f f' : FunctionDecl} (hname : f'.name = f.name)
    (hparams : List.Forall₂ ParamDecl.RestatedAs f.params f'.params)
    (hbounds : distinctNames f'.bounds = distinctNames f.bounds)
    (hlets : List.Forall₂ LetDecl.RestatedAs f.declarations f'.declarations)
    (hblocks : ∀ {b c : Builder}, b.Alike c → Replays Eq b c
      (f.blocks.forM (elaborateBlock file)) (f'.blocks.forM (elaborateBlock file')))
    {body : Body} (hbody : f.body file = .ok body) :
    ∃ body', f'.body file' = .ok body' ∧ body'.unplaced = body.unplaced := by
  obtain ⟨b, hrun, hfinish⟩ := body_eq_ok.mp hbody
  obtain ⟨b₁, b₂, b₃, hrun₁, hrun₂, hrun₃, hrun₄⟩ := gives_elaborateFunction.mp hrun
  have hstart : (f.start file).Alike (f'.start file') := by
    simp [Alike, FunctionDecl.start, unplaced, hname]
  have hnew : (f.start file).Sound := sound_new _ _
  have hnew' : (f'.start file').Sound := sound_new _ _
  -- the bounds of the signature are the first ones: parameters add none
  obtain ⟨hb₁, hnone⟩ := elaborateParams_spec hnew hrun₁
  obtain ⟨_, c₁, hrun₁', _, h₁⟩ := replays_forM
    (fun _ _ _ _ hp h => replays_elaborateParam file' h hp) hparams hstart () b₁ hrun₁
  have hc₁ := (elaborateParams_spec hnew' hrun₁').1
  obtain ⟨_, c₂, hrun₂', _, h₂⟩ := replays_addBounds file' h₁ hb₁ hc₁ hnone hbounds () b₂ hrun₂
  obtain ⟨_, c₃, hrun₃', _, h₃⟩ := replays_forM
    (fun _ _ _ _ hd h => replays_elaborateLet file' h hd) hlets h₂ () b₃ hrun₃
  obtain ⟨_, c, hrun₄', _, halike⟩ := hblocks h₃ () b hrun₄
  have hrun' := gives_elaborateFunction.mpr ⟨c₁, c₂, c₃, hrun₁', hrun₂', hrun₃', hrun₄'⟩
  obtain ⟨body', hfinish', hsame⟩ := halike.finish (sound_of_elaborateFunction hrun)
    (sound_of_elaborateFunction hrun') hfinish
  exact ⟨body', body_eq_ok.mpr ⟨c, hrun', hfinish'⟩, hsame⟩

/-- **Functions that say the same have the same body**, but for its spans. -/
theorem body_of_restatedAs {f f' : FunctionDecl} (h : f.RestatedAs f') {body : Body}
    (hbody : f.body file = .ok body) :
    ∃ body', f'.body file' = .ok body' ∧ body'.unplaced = body.unplaced := by
  refine body_of_replays file' h.name h.params (distinctNames_of_restated h.bounds) h.declarations
    (fun halike => ?_) hbody
  exact replays_forM (fun _ _ _ _ hblk h => replays_elaborateBlock file' h hblk) h.blocks halike

end Source

end BorrowFlow
