import BorrowFlow.Proofs.Builder.Origin
import BorrowFlow.Sample

/-! # The facts of a statement agree with each other

    A statement carries its facts one beside the other: what it reads and writes, which
    places it accesses, which one it overwrites.  Nothing but the builder ties them together,
    and the analyses each look at their own.  `Statement.Coherent` says how they agree.

    To find a place takes accesses of its own (`Place.lookups`), and these have to be found as
    well.  Nothing new is needed for that: what leads to a place on the way, leads to the
    place (`Place.lookups_subset`).  So facts that are put together from complete ones are
    complete (`Facts.Complete`), and every statement of a built body is coherent
    (`built_facts_coherent`).
-/

namespace BorrowFlow

/-! ## Finding a place -/

namespace Place

/-- What is read just to find a place. -/
def lookups (p : Place) : List Access :=
  p.derefBases.map (⟨·, .read, false⟩) ++ p.indexVars.map fun name => ⟨.ofLocal name, .read, false⟩

/-- **What is read to find a place**: what stands in front of its dereferences, and the
    variables that stand as its indices. -/
theorem mem_lookups_iff {p : Place} {a : Access} : a ∈ p.lookups ↔
    (∃ front back, p.path = front ++ .deref :: back ∧ a = ⟨⟨p.base, front⟩, .read, false⟩) ∨
      ∃ name, .varIndex (some name) ∈ p.path ∧ a = ⟨.ofLocal name, .read, false⟩ := by
  simp only [lookups, List.mem_append, List.mem_map, mem_derefBases_iff, mem_indexVars_iff]
  constructor
  · rintro (⟨_, ⟨front, back, hpath, rfl⟩, rfl⟩ | ⟨name, hname, rfl⟩)
    · exact Or.inl ⟨front, back, hpath, rfl⟩
    · exact Or.inr ⟨name, hname, rfl⟩
  · rintro (⟨front, back, hpath, rfl⟩ | ⟨name, hname, rfl⟩)
    · exact Or.inl ⟨_, ⟨front, back, hpath, rfl⟩, rfl⟩
    · exact Or.inr ⟨name, hname, rfl⟩

theorem lookups_ofLocal (name : String) : (ofLocal name).lookups = [] := rfl

theorem shallow_of_mem_lookups {p : Place} {a : Access} (h : a ∈ p.lookups) :
    a.shallow = false := by
  obtain ⟨_, _, _, rfl⟩ | ⟨_, _, rfl⟩ := mem_lookups_iff.mp h <;> rfl

/-- **What leads to a place on the way, leads to the place.** -/
theorem lookups_subset {p : Place} {a : Access} (h : a ∈ p.lookups) :
    a.place.lookups ⊆ p.lookups := by
  obtain ⟨front, back, hpath, rfl⟩ | ⟨name, _, rfl⟩ := mem_lookups_iff.mp h
  · -- the place on the way has a path that begins the whole one
    intro a' ha'
    rw [mem_lookups_iff, hpath]
    obtain ⟨front', back', rfl, rfl⟩ | ⟨name, hname, rfl⟩ := mem_lookups_iff.mp ha'
    · exact Or.inl ⟨front', back' ++ .deref :: back, by simp, rfl⟩
    · exact Or.inr ⟨name, List.mem_append_left _ hname, rfl⟩
  · rw [lookups_ofLocal]
    exact List.nil_subset _

end Place

/-! ## Complete facts -/

namespace Facts

@[simp] theorem reads_append (f g : Facts) : (f ++ g).reads = f.reads ++ g.reads := rfl

@[simp] theorem accesses_append (f g : Facts) : (f ++ g).accesses = f.accesses ++ g.accesses := rfl

/-- **The facts locate a place**: whatever is read to find it is among them. -/
def Locates (f : Facts) (p : Place) : Prop :=
  ∀ a ∈ p.lookups, a ∈ f.accesses ∧ a.place.base ∈ f.reads

theorem Locates.mono {f g : Facts} {p : Place} (h : f.Locates p) (hreads : f.reads ⊆ g.reads)
    (haccesses : f.accesses ⊆ g.accesses) : g.Locates p :=
  fun a ha => ⟨haccesses (h a ha).1, hreads (h a ha).2⟩

/-- **Complete facts**: every access goes deep, and the place that it goes to is located. -/
structure Complete (f : Facts) : Prop where
  deep : ∀ a ∈ f.accesses, a.shallow = false
  located : ∀ a ∈ f.accesses, f.Locates a.place

theorem complete_nil : Complete {} := ⟨by simp, by simp⟩

theorem Complete.append {f g : Facts} (hf : f.Complete) (hg : g.Complete) :
    (f ++ g).Complete where
  deep := List.forall_mem_append.mpr ⟨hf.deep, hg.deep⟩
  located := by
    refine List.forall_mem_append.mpr ⟨fun a ha => ?_, fun a ha => ?_⟩
    · exact (hf.located a ha).mono (List.subset_append_left _ _) (List.subset_append_left _ _)
    · exact (hg.located a ha).mono (List.subset_append_right _ _) (List.subset_append_right _ _)

/-- What it takes to find a place, and nothing else. -/
def finding (p : Place) : Facts := ⟨p.lookups.map (·.place.base), p.lookups⟩

theorem locates_finding (p : Place) : (finding p).Locates p :=
  fun _ ha => ⟨ha, List.mem_map_of_mem ha⟩

theorem complete_finding (p : Place) : (finding p).Complete where
  deep := fun _ ha => Place.shallow_of_mem_lookups ha
  located := fun _ ha a' ha' => locates_finding p a' (Place.lookups_subset ha ha')

/-- **A place is found and then accessed.** -/
theorem complete_access (p : Place) (reads : List String) (kind : AccessKind) :
    (finding p ++ ⟨reads, [⟨p, kind, false⟩]⟩).Complete where
  deep := by
    refine List.forall_mem_append.mpr ⟨(complete_finding p).deep, ?_⟩
    simp
  located := by
    have hmono : ∀ {q}, (finding p).Locates q →
        (finding p ++ ⟨reads, [⟨p, kind, false⟩]⟩).Locates q := fun h =>
      h.mono (List.subset_append_left _ _) (List.subset_append_left _ _)
    refine List.forall_mem_append.mpr ⟨fun a ha => hmono ((complete_finding p).located a ha), ?_⟩
    simpa using hmono (locates_finding p)

end Facts

namespace Builder

open Facts

variable {b : Builder} {f : Facts}

theorem eq_finding_of_lvalueFacts {p : Place} (h : b.lvalueFacts p = .ok f) : f = finding p := by
  simp only [lvalueFacts, bind_eq_ok, pure_eq_ok] at h
  obtain ⟨_, _, _, _, rfl⟩ := h
  simp [finding, Place.lookups, Function.comp_def, Place.ofLocal]

theorem complete_of_operandFacts {op : Operand} (h : b.operandFacts op = .ok f) : f.Complete := by
  cases op with
  | const =>
    cases h
    exact complete_nil
  | copy p =>
    simp only [operandFacts, bind_eq_ok, pure_eq_ok] at h
    obtain ⟨found, hfound, rfl⟩ := h
    rw [eq_finding_of_lvalueFacts hfound]
    exact complete_access p _ _
  | move p =>
    simp only [operandFacts, bind_eq_ok, pure_eq_ok] at h
    obtain ⟨found, hfound, rfl⟩ := h
    rw [eq_finding_of_lvalueFacts hfound]
    exact complete_access p _ _

theorem complete_of_operandsFacts {ops : List Operand} (h : b.operandsFacts ops = .ok f) :
    f.Complete := by
  induction ops generalizing f with
  | nil =>
    cases h
    exact complete_nil
  | cons op ops ih =>
    simp only [operandsFacts, bind_eq_ok, pure_eq_ok] at h
    obtain ⟨first, hfirst, rest, hrest, rfl⟩ := h
    exact (complete_of_operandFacts hfirst).append (ih hrest)

theorem eq_finding_of_destFacts {dest : Place} (h : b.destFacts dest = .ok f) :
    f = finding dest ++ ⟨[], [⟨dest, .write, true⟩]⟩ := by
  simp only [destFacts, bind_eq_ok, pure_eq_ok] at h
  obtain ⟨found, hfound, rfl⟩ := h
  rw [eq_finding_of_lvalueFacts hfound]

theorem wholeLocal?_eq_some_iff {dest : Place} {v : String} :
    wholeLocal? dest = some v ↔ dest = .ofLocal v := by
  obtain ⟨base, path⟩ := dest
  cases path <;> simp [wholeLocal?, Place.isLocal, Place.ofLocal]

end Builder

/-! ## Coherent statements -/

/-- **The facts of a statement agree.** -/
structure Statement.Coherent (s : Statement) : Prop where
  /-- A variable is written exactly if it is overwritten as a whole. -/
  write_iff : ∀ v, s.write = some v ↔ s.assigned = some (.ofLocal v)
  /-- A place is overwritten exactly if the last access writes to the place itself or ends its
      storage. -/
  assigned_iff : ∀ d, s.assigned = some d ↔ ∃ kind, (kind = .write ∨ kind = .storageDead) ∧
    s.accesses.getLast? = some ⟨d, kind, true⟩
  /-- Every other access goes deep: a shallow one is the last, and overwrites its place. -/
  shallow_last : ∀ front a back, s.accesses = front ++ a :: back → a.shallow = true →
    back = [] ∧ s.assigned = some a.place
  /-- What is dereferenced on the way to an accessed place is read. -/
  dereferenced : ∀ a ∈ s.accesses, ∀ front back, a.place.path = front ++ .deref :: back →
    ⟨⟨a.place.base, front⟩, .read, false⟩ ∈ s.accesses ∧ a.place.base ∈ s.reads
  /-- What stands as an index in an accessed place is read. -/
  indexed : ∀ a ∈ s.accesses, ∀ name, .varIndex (some name) ∈ a.place.path →
    ⟨.ofLocal name, .read, false⟩ ∈ s.accesses ∧ name ∈ s.reads

namespace Statement.Coherent

open Facts

variable {s : Statement} {f : Facts}

/-- A coherent statement is one whose stores and lookups agree. -/
theorem of_locates (hwrite : ∀ v, s.write = some v ↔ s.assigned = some (.ofLocal v))
    (hassigned : ∀ d, s.assigned = some d ↔ ∃ kind, (kind = .write ∨ kind = .storageDead) ∧
      s.accesses.getLast? = some ⟨d, kind, true⟩)
    (hshallow : ∀ front a back, s.accesses = front ++ a :: back → a.shallow = true →
      back = [] ∧ s.assigned = some a.place)
    (hlocated : ∀ a ∈ s.accesses, Locates ⟨s.reads.toList, s.accesses⟩ a.place) : s.Coherent where
  write_iff := hwrite
  assigned_iff := hassigned
  shallow_last := hshallow
  dereferenced := fun a ha front back hpath =>
    hlocated a ha _ (Place.mem_lookups_iff.mpr (Or.inl ⟨front, back, hpath, rfl⟩))
  indexed := fun a ha name hname =>
    hlocated a ha _ (Place.mem_lookups_iff.mpr (Or.inr ⟨name, hname, rfl⟩))

/-- **A statement that stores nothing** is coherent if its facts are complete. -/
theorem of_complete (hf : f.Complete) (hwrite : s.write = none)
    (hassigned : s.assigned = none) (haccesses : s.accesses = f.accesses)
    (hreads : ∀ x ∈ f.reads, x ∈ s.reads) : s.Coherent := by
  refine of_locates (by simp [hwrite, hassigned]) ?_ ?_ ?_
  · intro d
    rw [hassigned, haccesses]
    refine ⟨nofun, ?_⟩
    rintro ⟨kind, _, hlast⟩
    have hdeep := hf.deep _ (List.mem_of_getLast? hlast)
    cases hdeep
  · intro front a back hsplit ha
    rw [haccesses] at hsplit
    have hdeep := hf.deep a (hsplit ▸ by simp)
    rw [ha] at hdeep
    cases hdeep
  · rw [haccesses]
    exact fun a ha => (hf.located a ha).mono hreads (List.Subset.refl _)

/-- **A statement that stores into a place last** is coherent if what it does before is complete
    and finds the place. -/
theorem of_store {dest : Place} {kind : AccessKind} (hf : f.Complete)
    (hdest : f.Locates dest) (hkind : kind = .write ∨ kind = .storageDead)
    (hwrite : s.write = Builder.wholeLocal? dest) (hassigned : s.assigned = some dest)
    (haccesses : s.accesses = f.accesses ++ [⟨dest, kind, true⟩])
    (hreads : ∀ x ∈ f.reads, x ∈ s.reads) : s.Coherent := by
  refine of_locates ?_ ?_ ?_ ?_
  · intro v
    rw [hwrite, hassigned, Builder.wholeLocal?_eq_some_iff, Option.some.injEq]
  · intro d
    rw [hassigned, haccesses, List.getLast?_concat]
    constructor
    · intro hd
      cases hd
      exact ⟨kind, hkind, rfl⟩
    · rintro ⟨_, _, hlast⟩
      cases hlast
      rfl
  · intro front a back hsplit ha
    rw [haccesses] at hsplit
    obtain rfl | ⟨back, last, rfl⟩ := List.eq_nil_or_concat back
    · obtain ⟨_, hlast⟩ := List.append_inj' hsplit rfl
      cases hlast
      exact ⟨rfl, hassigned⟩
    · -- something comes after it, so the access is one of the complete facts
      rw [List.concat_eq_append, ← List.cons_append, ← List.append_assoc] at hsplit
      obtain ⟨hfacts, _⟩ := List.append_inj' hsplit rfl
      have hdeep := hf.deep a (hfacts ▸ by simp)
      rw [ha] at hdeep
      cases hdeep
  · have hmono : ∀ {p}, f.Locates p → Locates ⟨s.reads.toList, s.accesses⟩ p := fun h =>
      h.mono hreads (haccesses ▸ List.subset_append_left _ _)
    rw [haccesses] at hmono ⊢
    refine List.forall_mem_append.mpr ⟨fun a ha => hmono (hf.located a ha), ?_⟩
    simpa using hmono hdest

end Statement.Coherent

open BuildM Builder Facts in
/-- **Whatever a request derives is coherent.** -/
theorem Operation.Derives.coherent {op : Operation} {span : Option Span} {b : Builder}
    {s : Statement} (h : op.Derives span b s) : s.Coherent := by
  -- an assignment first does what it does anyway, then finds its destination
  have stores : ∀ (f : Facts) (dest : Place), f.Complete → (f ++ finding dest).Complete ∧
      (f ++ finding dest).Locates dest := fun _ _ hf =>
    ⟨hf.append (complete_finding _), (locates_finding _).mono (List.subset_append_right _ _)
      (List.subset_append_right _ _)⟩
  cases h with
  | @borrow block dest place mutable target referent s _ h =>
    simp only [borrowStatement, bind_eq_ok, pure_eq_ok] at h
    obtain ⟨_, _, _, _, found, hfound, stored, hstored, rfl⟩ := h
    rw [eq_finding_of_lvalueFacts hfound, eq_finding_of_destFacts hstored]
    obtain ⟨hf, hdest⟩ := stores _ dest (complete_access
      (b.nextLoan block place mutable).place [] (if mutable then .write else .read))
    refine .of_store hf hdest (Or.inl rfl) rfl rfl ?_ ?_
    · cases mutable <;> simp [nextLoan, Loan.isMutable, LoanKind.isMutable]
    · simp
  | assign h =>
    have hs := (gives_append.mp h).1
    simp only [bind_eq_ok, pure_eq_ok] at hs
    obtain ⟨used, hused, _, _, stored, hstored, rfl⟩ := hs
    rw [eq_finding_of_destFacts hstored]
    obtain ⟨hf, hdest⟩ := stores _ _ (complete_of_operandFacts hused)
    refine .of_store hf hdest (Or.inl rfl) rfl rfl ?_ ?_
    · simp
    · simp
  | call h =>
    have hs := (gives_append.mp h).1
    simp only [bind_eq_ok, pure_eq_ok] at hs
    obtain ⟨used, hused, stored, hstored, _, _, rfl⟩ := hs
    rw [eq_finding_of_destFacts hstored]
    obtain ⟨hf, hdest⟩ := stores _ _ (complete_of_operandsFacts hused)
    refine .of_store hf hdest (Or.inl rfl) rfl rfl ?_ ?_
    · simp
    · simp
  | use h =>
    have hs := (gives_append.mp h).1
    simp only [bind_eq_ok, pure_eq_ok] at hs
    obtain ⟨used, hused, rfl⟩ := hs
    exact .of_complete (complete_of_operandsFacts hused) rfl rfl rfl (by simp)
  | @drop block var s b' h =>
    have hs := (gives_append.mp h).1
    simp only [bind_eq_ok, pure_eq_ok] at hs
    obtain ⟨v, _, rfl⟩ := hs
    -- a whole local is found without reading anything
    cases hglue : v.ty.hasDropGlue with
    | true =>
      refine .of_complete (complete_access (.ofLocal var) [] .write) rfl rfl ?_ ?_
      · simp [finding, Place.lookups_ofLocal]
      · simp [finding, Place.lookups_ofLocal]
    | false => exact .of_complete complete_nil rfl rfl (by simp) (by simp)
  | @storageDead block var s b' h =>
    have hs := (gives_append.mp h).1
    simp only [bind_eq_ok, pure_eq_ok] at hs
    obtain ⟨_, _, rfl⟩ := hs
    exact .of_store complete_nil (by simp [Locates, Place.lookups_ofLocal]) (Or.inr rfl)
      rfl rfl rfl (by simp)
  | outlives h =>
    have hs := (gives_append.mp h).1
    simp only [bind_eq_ok, pure_eq_ok] at hs
    obtain ⟨_, _, _, _, rfl⟩ := hs
    exact .of_complete complete_nil rfl rfl rfl (by simp)
  | nop h =>
    cases (gives_append.mp h).1
    exact .of_complete complete_nil rfl rfl rfl (by simp)
  | goto h =>
    cases (gives_terminate.mp h).1
    exact .of_complete complete_nil rfl rfl rfl (by simp)
  | branch h =>
    have ht := (gives_terminate.mp h).1
    simp only [bind_eq_ok, pure_eq_ok] at ht
    obtain ⟨used, hused, rfl⟩ := ht
    exact .of_complete (complete_of_operandsFacts hused) rfl rfl rfl (by simp)
  | ret h =>
    cases (gives_terminate.mp h).1
    exact .of_complete complete_nil rfl rfl rfl (by simp)
  | unreachable h =>
    cases (gives_terminate.mp h).1
    exact .of_complete complete_nil rfl rfl rfl (by simp)

/-- **The facts at every point of a built body agree**, whatever requests it was built by and
    however many of them failed. -/
theorem built_facts_coherent {name : String} {span : Span} {qs : List Request} {body : Body}
    (hbody : (Builder.after { name := name, span := span } qs).finish = .ok body) {p : Point}
    (hp : p ∈ body.points) : (body.facts p).Coherent := by
  obtain ⟨_, _, _, _, hderives⟩ := Builder.exists_origin_of_finish hbody hp
  exact hderives.coherent

/-- `*(*r).rows[i] = move x`, after an assignment to a variable that is not there. -/
def deepStore : List Request :=
  [{ operation := .declare "r" (.ref ⟨"'r", false⟩ true (.adt "Table" [])) none false },
    { operation := .declare "i" Sample.int none false },
    { operation := .declare "x" Sample.int none false },
    { operation := .openBlock "bb0" },
    { operation := .assign "bb0" (.ofLocal "y") .const },
    { operation := .assign "bb0" ⟨"r", [.deref, .field "rows", .varIndex (some "i"), .deref]⟩
        (.move (.ofLocal "x")) },
    { operation := .ret "bb0" }]

/-- The row is read to find the place behind it, and to find the row `r` and `i` are.  Only the
    place itself is accessed shallowly. -/
theorem deepStore_coherent : ∃ body : Body,
    (Builder.after { name := "f" } deepStore).finish = .ok body ∧
    ⟨"bb0", 0⟩ ∈ body.points ∧ (body.facts ⟨"bb0", 0⟩).write = none ∧
    (∀ a ∈ (body.facts ⟨"bb0", 0⟩).accesses, a.shallow = true →
      a.place = ⟨"r", [.deref, .field "rows", .varIndex (some "i"), .deref]⟩) ∧
    ⟨⟨"r", [.deref, .field "rows", .varIndex (some "i")]⟩, .read, false⟩ ∈
      (body.facts ⟨"bb0", 0⟩).accesses ∧
    ⟨.ofLocal "i", .read, false⟩ ∈ (body.facts ⟨"bb0", 0⟩).accesses ∧
    "r" ∈ (body.facts ⟨"bb0", 0⟩).reads ∧ "i" ∈ (body.facts ⟨"bb0", 0⟩).reads := by
  have hrun : ((Builder.after { name := "f" } deepStore).finish.toOption.any fun body => decide (
      ⟨"bb0", 0⟩ ∈ body.points ∧ (body.facts ⟨"bb0", 0⟩).assigned =
        some ⟨"r", [.deref, .field "rows", .varIndex (some "i"), .deref]⟩)) = true := by
    decide +kernel
  simp only [Option.any_eq_true, toOption_eq_some, decide_eq_true_eq] at hrun
  obtain ⟨body, hbody, hp, hassigned⟩ := hrun
  have hfacts := built_facts_coherent hbody hp
  -- the place is accessed, since it is overwritten
  obtain ⟨kind, _, hlast⟩ := (hfacts.assigned_iff _).mp hassigned
  have hmem := List.mem_of_getLast? hlast
  obtain ⟨hrow, hr⟩ := hfacts.dereferenced _ hmem
    [.deref, .field "rows", .varIndex (some "i")] [] rfl
  obtain ⟨hi, hiReads⟩ := hfacts.indexed _ hmem "i" (by simp)
  refine ⟨body, hbody, hp, ?_, ?_, hrow, hi, hr, hiReads⟩
  · cases hwrite : (body.facts ⟨"bb0", 0⟩).write with
    | none => rfl
    | some v =>
      have hlocal := (hfacts.write_iff v).mp hwrite
      rw [hassigned] at hlocal
      simp [Place.ofLocal] at hlocal
  · intro a ha hshallow
    obtain ⟨front, back, hsplit⟩ := List.append_of_mem ha
    obtain ⟨_, hplace⟩ := hfacts.shallow_last front a back hsplit hshallow
    exact Option.some.inj (hplace.symm.trans hassigned)

end BorrowFlow
