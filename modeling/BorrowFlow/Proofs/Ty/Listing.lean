import BorrowFlow.Proofs.Lists
import BorrowFlow.Proofs.Ty.Relate
import Mathlib.Logic.Function.Iterate

/-! # Regions in the order they are written

    `Ty.listing` lists the regions of a type as they are written, from left to right, the region
    of a reference before those of its referent, and with repetitions.

    * **The stack**: `Ty.regions` takes types apart on a stack.  One round takes the top away and
      leaves its parts (`Ty.round`), so there is one part less to come to (`Ty.parts_round`), and
      what will be found in the end stays the same (`Ty.regionsFrom_round`).
    * **The listing**: what is found is the listing without repeats
      (`Ty.regions_eq_eraseDups`).
    * **The positions**: the entries of the listing stand at the positions that have a region,
      taken in order (`Ty.map_regionAt_positions`).  Types of one shape have the same positions,
      so their listings correspond entry by entry (`Ty.mem_zip_listing_iff`).

    All of it together is `Ty.regions_in_order`.
-/

namespace BorrowFlow.Ty

/-! ## The listing -/

mutual

/-- **The regions of a type as they are written**, from the left, outer ones first. -/
def listing : Ty → List Region
  | .region r => [r]
  | .scalar _ => []
  | .ref r _ referent => r :: referent.listing
  | .adt _ args => listingAll args

/-- The regions of types that are written one after the other. -/
def listingAll : List Ty → List Region
  | [] => []
  | t :: ts => t.listing ++ listingAll ts

end

theorem listingAll_append (ts us : List Ty) :
    listingAll (ts ++ us) = listingAll ts ++ listingAll us := by
  induction ts with
  | nil => rfl
  | cons t ts ih => rw [List.cons_append, listingAll, listingAll, ih, List.append_assoc]

/-- **The stack is a listing that is still to be noted.** -/
theorem regionsFrom_eq_foldl (seen : List Region) (stack : List Ty) :
    regionsFrom seen stack = (listingAll stack).foldl note seen := by
  fun_induction regionsFrom seen stack with
  | case1 seen => rfl
  | case2 seen r rest ih => rw [ih, listingAll, listing, List.foldl_append]; rfl
  | case3 seen name rest ih => rw [ih, listingAll, listing, List.nil_append]
  | case4 seen r mutable referent rest ih => rw [ih, listingAll, listingAll, listing]; rfl
  | case5 seen name args rest ih => rw [ih, listingAll_append, listingAll, listing]

/-- Noting one region after the other leaves out repeats. -/
theorem foldl_note_eq_eraseDups (l : List Region) : l.foldl note [] = l.eraseDups := by
  -- the last region is noted if it did not occur before, so the induction is from the right
  induction l using List.reverseRecOn with
  | nil => rfl
  | append_singleton l r ih =>
    rw [List.foldl_append, List.foldl_cons, List.foldl_nil, ih, note, List.eraseDups_append]
    by_cases hr : r ∈ l
    · rw [if_pos (List.mem_eraseDups.mpr hr)]
      simp [List.removeAll, hr]
    · rw [if_neg (mt List.mem_eraseDups.mp hr)]
      simp [List.removeAll, hr, List.eraseDups_cons]

/-- **The regions of a type are its listing without repeats.** -/
theorem regions_eq_eraseDups (t : Ty) : t.regions = t.listing.eraseDups := by
  rw [regions, regionsFrom_eq_foldl, foldl_note_eq_eraseDups, listingAll, listingAll,
    List.append_nil]

/-! ## Rounds of the stack -/

/-- **One round**: the top of the stack gives way to its parts, a region is noted. -/
def round : List Region × List Ty → List Region × List Ty
  | (seen, []) => (seen, [])
  | (seen, .region r :: rest) => (note seen r, rest)
  | (seen, .scalar _ :: rest) => (seen, rest)
  | (seen, .ref r _ referent :: rest) => (seen, .region r :: referent :: rest)
  | (seen, .adt _ args :: rest) => (seen, args ++ rest)

mutual

/-- How many parts a type has, itself included. -/
def parts : Ty → Nat
  | .region _ => 1
  | .scalar _ => 1
  | .ref _ _ referent => referent.parts + 2
  | .adt _ args => partsAll args + 1

/-- How many parts several types have. -/
def partsAll : List Ty → Nat
  | [] => 0
  | t :: ts => t.parts + partsAll ts

end

theorem parts_pos (t : Ty) : 0 < t.parts := by
  cases t <;> simp [parts]

theorem partsAll_append (ts us : List Ty) : partsAll (ts ++ us) = partsAll ts + partsAll us := by
  induction ts with
  | nil => rw [List.nil_append, partsAll, Nat.zero_add]
  | cons t ts ih => rw [List.cons_append, partsAll, partsAll, ih, Nat.add_assoc]

theorem partsAll_eq_zero {stack : List Ty} : partsAll stack = 0 ↔ stack = [] := by
  cases stack with
  | nil => simp [partsAll]
  | cons t ts =>
    have hpos := t.parts_pos
    simp only [partsAll, reduceCtorEq, iff_false]
    omega

/-- **Step lemma**: a round leaves one part less to come to. -/
theorem parts_round (s : List Region × List Ty) : partsAll (round s).2 = partsAll s.2 - 1 := by
  obtain ⟨seen, _ | ⟨_ | _ | _ | _, rest⟩⟩ := s
  · rfl
  · simp [round, partsAll, parts]
  · simp [round, partsAll, parts]
  · simp only [round, partsAll, parts]
    omega
  · simp only [round, partsAll, parts, partsAll_append]
    omega

/-- **Step lemma**: a round does not change what will be found in the end. -/
theorem regionsFrom_round (s : List Region × List Ty) :
    regionsFrom (round s).1 (round s).2 = regionsFrom s.1 s.2 := by
  obtain ⟨seen, _ | ⟨_ | _ | _ | _, rest⟩⟩ := s
  · rfl
  all_goals simp only [round, regionsFrom]

/-- **Run lemma**: so it is after any number of rounds. -/
theorem iterate_round (s : List Region × List Ty) (n : Nat) :
    partsAll (round^[n] s).2 = partsAll s.2 - n ∧
      regionsFrom (round^[n] s).1 (round^[n] s).2 = regionsFrom s.1 s.2 := by
  induction n with
  | zero => exact ⟨rfl, rfl⟩
  | succ n ih =>
    rw [Function.iterate_succ_apply', parts_round, regionsFrom_round, ih.1, ih.2]
    exact ⟨by omega, rfl⟩

/-- **The rounds come to an end**: the stack is empty after as many rounds as the type has
    parts, not earlier, and then its regions have been noted. -/
theorem rounds_end (t : Ty) :
    round^[t.parts] ([], [t]) = (t.regions, []) ∧
      ∀ n < t.parts, (round^[n] ([], [t])).2 ≠ [] := by
  have hparts : ∀ n, partsAll (round^[n] ([], [t])).2 = t.parts - n := by
    intro n
    rw [(iterate_round ([], [t]) n).1, partsAll, partsAll, Nat.add_zero]
  constructor
  · have hempty : (round^[t.parts] ([], [t])).2 = [] := by
      rw [← partsAll_eq_zero, hparts, Nat.sub_self]
    have hfound := (iterate_round ([], [t]) t.parts).2
    rw [hempty, regionsFrom] at hfound
    exact Prod.ext hfound hempty
  · intro n hn hempty
    have hleft := hparts n
    rw [partsAll_eq_zero.mpr hempty] at hleft
    omega

/-! ## Positions in order -/

/-- One step down leads to what is written before that of another: the region of a reference
    stands before the referent, and arguments follow one another. -/
inductive Descent.Before : Descent → Descent → Prop where
  | lifetime : Before .lifetime .referent
  | arg {i j : Nat} (h : i < j) : Before (.arg i) (.arg j)

/-- One position comes before another as the type is written. -/
def Position.Before : Position → Position → Prop := List.Lex Descent.Before

mutual

/-- **The positions of a type that have a region**, as they are written. -/
def positions : Ty → List Position
  | .region _ => [[]]
  | .scalar _ => []
  | .ref _ _ referent => [.lifetime] :: referent.positions.map (.referent :: ·)
  | .adt _ args => positionsFrom 0 args

/-- The positions in arguments of which the first has index `i`. -/
def positionsFrom (i : Nat) : List Ty → List Position
  | [] => []
  | t :: ts => t.positions.map (.arg i :: ·) ++ positionsFrom (i + 1) ts

end

mutual

/-- **A region stands at these positions** and at no others. -/
theorem mem_positions_iff (t : Ty) {pos : Position} :
    pos ∈ t.positions ↔ ∃ r, t.regionAt pos = some r := by
  match t with
  | .region r => simp [positions, regionAt_region]
  | .scalar name => simp [positions, regionAt_scalar]
  | .ref r mutable referent =>
    have hinner : ∀ rest, rest ∈ referent.positions ↔ ∃ s, referent.regionAt rest = some s :=
      fun rest => mem_positions_iff referent
    simp only [positions, List.mem_cons, List.mem_map, hinner, regionAt_ref]
    constructor
    · rintro (rfl | ⟨rest, ⟨s, hs⟩, rfl⟩)
      · exact ⟨r, Or.inl ⟨rfl, rfl⟩⟩
      · exact ⟨s, Or.inr ⟨rest, rfl, hs⟩⟩
    · rintro ⟨s, ⟨rfl, rfl⟩ | ⟨rest, rfl, hs⟩⟩
      · exact Or.inl rfl
      · exact Or.inr ⟨rest, ⟨s, hs⟩, rfl⟩
  | .adt name args =>
    rw [positions, mem_positionsFrom_iff args 0]
    simp only [regionAt_adt, Nat.zero_add]
    constructor
    · rintro ⟨k, rest, t, r, rfl, ht, hr⟩
      exact ⟨r, k, rest, t, rfl, ht, hr⟩
    · rintro ⟨r, k, rest, t, rfl, ht, hr⟩
      exact ⟨k, rest, t, r, rfl, ht, hr⟩

theorem mem_positionsFrom_iff (ts : List Ty) (i : Nat) {pos : Position} :
    pos ∈ positionsFrom i ts ↔ ∃ k rest t r, pos = .arg (i + k) :: rest ∧ ts[k]? = some t ∧
      t.regionAt rest = some r := by
  match ts with
  | [] => simp [positionsFrom]
  | t :: ts =>
    rw [positionsFrom, List.mem_append, List.mem_map, mem_positionsFrom_iff ts (i + 1)]
    constructor
    · rintro (⟨rest, hrest, rfl⟩ | ⟨k, rest, t', r, rfl, ht', hr⟩)
      · obtain ⟨r, hr⟩ := (mem_positions_iff t).mp hrest
        exact ⟨0, rest, t, r, rfl, rfl, hr⟩
      · exact ⟨k + 1, rest, t', r, by rw [Nat.add_right_comm, Nat.add_assoc], ht', hr⟩
    · rintro ⟨k, rest, t', r, rfl, ht', hr⟩
      cases k with
      | zero =>
        cases ht'
        exact Or.inl ⟨rest, (mem_positions_iff t).mpr ⟨r, hr⟩, rfl⟩
      | succ k => exact Or.inr ⟨k, rest, t', r, by rw [Nat.add_right_comm, Nat.add_assoc], ht', hr⟩

end

mutual

/-- **The positions are listed in order.** -/
theorem pairwise_positions (t : Ty) : t.positions.Pairwise Position.Before := by
  match t with
  | .region r => exact List.pairwise_singleton _ _
  | .scalar name => exact List.Pairwise.nil
  | .ref r mutable referent =>
    rw [positions, List.pairwise_cons, List.pairwise_map]
    refine ⟨fun pos hpos => ?_, (pairwise_positions referent).imp List.Lex.cons⟩
    obtain ⟨rest, _, rfl⟩ := List.mem_map.mp hpos
    exact List.Lex.rel .lifetime
  | .adt name args => exact pairwise_positionsFrom args 0

theorem pairwise_positionsFrom (ts : List Ty) (i : Nat) :
    (positionsFrom i ts).Pairwise Position.Before := by
  match ts with
  | [] => exact List.Pairwise.nil
  | t :: ts =>
    rw [positionsFrom, List.pairwise_append, List.pairwise_map]
    refine ⟨(pairwise_positions t).imp List.Lex.cons, pairwise_positionsFrom ts (i + 1), ?_⟩
    intro pos hpos pos' hpos'
    obtain ⟨rest, _, rfl⟩ := List.mem_map.mp hpos
    obtain ⟨k, rest', _, _, rfl, _⟩ := (mem_positionsFrom_iff ts (i + 1)).mp hpos'
    exact List.Lex.rel (.arg (by omega))

end

mutual

/-- **The listing gives the regions at the positions**, one by one. -/
theorem map_regionAt_positions (t : Ty) : t.positions.map t.regionAt = t.listing.map some := by
  match t with
  | .region r => rfl
  | .scalar name => rfl
  | .ref r mutable referent =>
    rw [positions, listing, List.map_cons, List.map_cons, List.map_map,
      ← map_regionAt_positions referent]
    rfl
  | .adt name args =>
    rw [positions, listing]
    exact map_positionsFrom args 0 fun k rest => by rw [Nat.zero_add]; rfl

theorem map_positionsFrom (ts : List Ty) (i : Nat) {f : Position → Option Region}
    (hf : ∀ k rest, f (.arg (i + k) :: rest) = ts[k]?.bind fun t => t.regionAt rest) :
    (positionsFrom i ts).map f = (listingAll ts).map some := by
  match ts with
  | [] => rfl
  | t :: ts =>
    have hfirst : f ∘ (.arg i :: ·) = t.regionAt := funext fun rest => hf 0 rest
    have hrest : (positionsFrom (i + 1) ts).map f = (listingAll ts).map some := by
      refine map_positionsFrom ts (i + 1) fun k rest => ?_
      rw [Nat.add_right_comm, Nat.add_assoc]
      exact hf (k + 1) rest
    rw [positionsFrom, listingAll, List.map_append, List.map_append, List.map_map, hfirst,
      map_regionAt_positions t, hrest]

end

mutual

/-- A shape has the positions of its types. -/
theorem positions_erase (t : Ty) : t.erase.positions = t.positions := by
  match t with
  | .region r => rfl
  | .scalar name => rfl
  | .ref r mutable referent => rw [erase, positions, positions, positions_erase referent]
  | .adt name args => rw [erase, positions, positions, positionsFrom_eraseAll args]

theorem positionsFrom_eraseAll (ts : List Ty) {i : Nat} :
    positionsFrom i (eraseAll ts) = positionsFrom i ts := by
  match ts with
  | [] => rfl
  | t :: ts =>
    rw [eraseAll, positionsFrom, positionsFrom, positions_erase t, positionsFrom_eraseAll ts]

end

/-! ## Listings of two types -/

theorem length_positions (t : Ty) : t.positions.length = t.listing.length := by
  have hlength := congrArg List.length t.map_regionAt_positions
  rwa [List.length_map, List.length_map] at hlength

/-- The entries of the listing have the positions in their places. -/
theorem regionAt_of_getElem? {t : Ty} {k : Nat} {pos : Position}
    (hpos : t.positions[k]? = some pos) : t.regionAt pos = t.listing[k]? := by
  have hentry := congrArg (fun l => l[k]?) t.map_regionAt_positions
  simp only [List.getElem?_map, hpos, Option.map_some] at hentry
  cases hk : t.listing[k]? with
  | none =>
    rw [hk] at hentry
    cases hentry
  | some r =>
    rw [hk] at hentry
    exact Option.some.inj hentry

variable {src dst : Ty}

/-- **Types of one shape have the same positions.** -/
theorem positions_eq_of_erase_eq (h : src.erase = dst.erase) : src.positions = dst.positions := by
  rw [← positions_erase src, h, positions_erase]

/-- **Entries correspond by their positions**: two regions are at one place of the listings of
    types of one shape if they are at one position of the types. -/
theorem mem_zip_listing_iff (h : src.erase = dst.erase) {a b : Region} :
    (a, b) ∈ src.listing.zip dst.listing ↔
      ∃ pos, src.regionAt pos = some a ∧ dst.regionAt pos = some b := by
  have hsame := positions_eq_of_erase_eq h
  constructor
  · intro hmem
    obtain ⟨k, hk⟩ := List.mem_iff_getElem?.mp hmem
    obtain ⟨ha, hb⟩ := List.getElem?_zip_eq_some.mp hk
    have hlt : k < src.positions.length := by
      rw [length_positions]
      exact (List.getElem?_eq_some_iff.mp ha).1
    obtain ⟨pos, hpos⟩ : ∃ pos, src.positions[k]? = some pos := ⟨_, List.getElem?_eq_getElem hlt⟩
    have hpos' : dst.positions[k]? = some pos := hsame ▸ hpos
    refine ⟨pos, ?_, ?_⟩
    · rw [regionAt_of_getElem? hpos, ha]
    · rw [regionAt_of_getElem? hpos', hb]
  · intro hpos
    obtain ⟨pos, ha, hb⟩ := hpos
    obtain ⟨k, hk⟩ := List.mem_iff_getElem?.mp ((mem_positions_iff src).mpr ⟨a, ha⟩)
    have hk' : dst.positions[k]? = some pos := hsame ▸ hk
    rw [regionAt_of_getElem? hk] at ha
    rw [regionAt_of_getElem? hk'] at hb
    exact List.mem_of_getElem? (List.getElem?_zip_eq_some.mpr ⟨ha, hb⟩)

/-- **The regions of a type in order.**  Round by round, the stack is empty after as many rounds
    as the type has parts, and not before; then the regions of the type have been noted.  They
    are its listing without repeats: each region once, in the order of first occurrence.  The
    listing itself goes through the positions that have a region, in the order in which the type
    is written, and gives the region at each.  If the type can be related to another, the two
    have the same positions, so the listings are of one length and have in each place the two
    regions of one position.  These pairs are what the edges come from: each of two different
    regions is an edge, and each edge is such a pair, forward or backward. -/
theorem regions_in_order (t : Ty) :
    (round^[t.parts] ([], [t]) = (t.regions, []) ∧
      ∀ n < t.parts, (round^[n] ([], [t])).2 ≠ []) ∧
    (t.regions = t.listing.eraseDups ∧ t.regions.Nodup ∧
      t.regions.Pairwise fun r s => t.listing.idxOf r < t.listing.idxOf s) ∧
    (t.positions.Pairwise Position.Before ∧
      (∀ pos, pos ∈ t.positions ↔ ∃ r, t.regionAt pos = some r) ∧
      t.positions.map t.regionAt = t.listing.map some) ∧
    ∀ dst edges, t.relate dst = .ok edges →
      t.positions = dst.positions ∧ t.listing.length = dst.listing.length ∧
      (∀ (k : Nat) (pos : Position), t.positions[k]? = some pos →
        t.regionAt pos = t.listing[k]? ∧ dst.regionAt pos = dst.listing[k]?) ∧
      (∀ a b, (a, b) ∈ t.listing.zip dst.listing → a = b ∨ (a, b) ∈ edges) ∧
      ∀ a b, (a, b) ∈ edges →
        (a, b) ∈ t.listing.zip dst.listing ∨ (b, a) ∈ t.listing.zip dst.listing := by
  refine ⟨t.rounds_end, ?_, ⟨t.pairwise_positions, fun pos => t.mem_positions_iff,
    t.map_regionAt_positions⟩, ?_⟩
  · rw [regions_eq_eraseDups]
    exact ⟨rfl, nodup_eraseDups _, pairwise_eraseDups _⟩
  · intro dst edges h
    have hshape : t.erase = dst.erase := exists_relate_iff.mp ⟨edges, h⟩
    have hsame := positions_eq_of_erase_eq hshape
    refine ⟨hsame, ?_, ?_, ?_, ?_⟩
    · rw [← length_positions, ← length_positions, hsame]
    · intro k pos hpos
      exact ⟨regionAt_of_getElem? hpos, regionAt_of_getElem? (hsame ▸ hpos)⟩
    · intro a b hmem
      obtain ⟨pos, hpos⟩ := (mem_zip_listing_iff hshape).mp hmem
      exact eq_or_mem_relate h (e := (a, b)) ⟨pos, Or.inl hpos⟩
    · intro a b hmem
      obtain ⟨_, pos, hforward | ⟨_, hb, ha⟩⟩ := (mem_relate_iff h).mp hmem
      · exact Or.inl ((mem_zip_listing_iff hshape).mpr ⟨pos, hforward⟩)
      · exact Or.inr ((mem_zip_listing_iff hshape).mpr ⟨pos, hb, ha⟩)

/-- Without repeats, `'b` and `'d` would stand in one place.  As the types are written, `'b` and
    `'c` do, and these are related. -/
theorem repeated_regions_in_order :
    let pair (r s t : Region) : Ty :=
      .adt "Pair" [.ref r true (.ref s false (.scalar "i32")), .region t]
    let src := pair ⟨"'a", false⟩ ⟨"'b", false⟩ ⟨"'a", false⟩
    let dst := pair ⟨"'c", false⟩ ⟨"'c", false⟩ ⟨"'d", false⟩
    ∃ edges, src.relate dst = .ok edges ∧
      src.regions = [⟨"'a", false⟩, ⟨"'b", false⟩] ∧ dst.regions = [⟨"'c", false⟩, ⟨"'d", false⟩] ∧
      src.parts = 7 ∧ round^[7] ([], [src]) = (src.regions, []) ∧ src.positions = dst.positions ∧
      (⟨"'b", false⟩, ⟨"'c", false⟩) ∈ src.listing.zip dst.listing ∧
      (⟨"'b", false⟩, ⟨"'c", false⟩) ∈ edges := by
  intro pair src dst
  obtain ⟨⟨hend, _⟩, ⟨hregions, _⟩, _, hrelated⟩ := regions_in_order src
  obtain ⟨_, ⟨hregions', _⟩, _⟩ := regions_in_order dst
  obtain ⟨hpositions, _, _, hedges, _⟩ := hrelated dst _ rfl
  have hmem : (⟨"'b", false⟩, ⟨"'c", false⟩) ∈ src.listing.zip dst.listing := by decide
  refine ⟨_, rfl, hregions, hregions', rfl, hend, hpositions, hmem, ?_⟩
  exact (hedges _ _ hmem).resolve_left (by decide)

end BorrowFlow.Ty
