import BorrowFlow.CommandLine.Command
import BorrowFlow.Proofs.Except

/-! # What a command line lets through

    Switches are looked at one by one, so what they say is kept in order by each of them:
    a table that is named is one that there is, and a value is empty only where a double dash
    may stand for nothing (`Choices.Fits`).

    An empty name of a table gets as far as the settings (`dumps_of_parse`).  An empty number
    does not, but it is no misuse either (`leavesEmpty_of_parse`): the run breaks off where the
    number is compared.
-/

namespace BorrowFlow.CommandLine

variable {conv : Conventions} {α β : Type}

/-- **A step that goes on with what is in order**, or halts for a reason that the user is told. -/
def Proceeds (P : α → Prop) : Except Halt α → Prop
  | .ok a => P a
  | .error h => h ≠ .emptyNumber

section Proceeds

variable {P : α → Prop} {Q : β → Prop}

theorem Proceeds.bind {x : Except Halt α} {f : α → Except Halt β} (hx : Proceeds P x)
    (hf : ∀ a, P a → Proceeds Q (f a)) : Proceeds Q (x >>= f) := by
  cases x with
  | ok a => exact hf a hx
  | error h => exact hx

theorem proceeds_mapError {x : Except UsageFault α} (h : ∀ a, x = .ok a → P a) :
    Proceeds P (x.mapError .usage) := by
  cases x with
  | ok a => exact h a rfl
  | error f => exact nofun

theorem Proceeds.of_ok {x : Except Halt α} {a : α} (h : Proceeds P x) (ha : x = .ok a) : P a := by
  rw [ha] at h
  exact h

end Proceeds

/-- **What the switches say is in order.** -/
structure Choices.Fits (conv : Conventions) (c : Choices) : Prop where
  known : ∀ kind, .value kind ∈ c.dumps → kind ∈ Analysis.dumpKinds
  dumps : .nothing ∈ c.dumps → conv.dashIsEmpty = true
  deadline : c.deadline = some .nothing → conv.dashIsEmpty = true
  jobs : c.jobs = .nothing → conv.dashIsEmpty = true

theorem Choices.fits_default : Choices.Fits conv {} where
  known := nofun
  dumps := nofun
  deadline := nofun
  jobs := nofun

namespace Taken

variable {t : Taken}

/-- The value of a switch is read, or left empty. -/
theorem eq_of_ofText {fault : UsageFault} {read? : String → Option α} {text : String}
    {g : Given α} (h : Given.ofText conv fault read? text = .ok g) :
    g = .nothing ∧ conv.dashIsEmpty = true ∨ ∃ a, g = .value a ∧ read? text = some a := by
  rw [Given.ofText] at h
  split at h
  · next hempty =>
    cases h
    exact .inl ⟨rfl, hempty.1⟩
  · split at h
    · next a ha =>
      cases h
      exact .inr ⟨a, rfl, ha⟩
    · cases h

theorem dashIsEmpty_of_ofText {fault : UsageFault} {read? : String → Option α} {text : String}
    (h : Given.ofText conv fault read? text = .ok .nothing) : conv.dashIsEmpty = true := by
  rcases eq_of_ofText h with ⟨_, hempty⟩ | ⟨a, ha, _⟩
  · exact hempty
  · cases ha

theorem mem_of_dumpKind? {text kind : String} (h : dumpKind? text = some kind) :
    kind ∈ Analysis.dumpKinds := by
  rw [dumpKind?] at h
  split at h
  · next hmem =>
    cases h
    exact hmem
  · cases h

theorem fits_choose {c c' : Choices} {s : Switch} {value : String} (h : c.Fits conv)
    (hchoose : choose conv c s value = .ok c') : c'.Fits conv := by
  cases s with
  | deadline =>
    obtain ⟨d, hd, hc'⟩ := bind_eq_ok.mp hchoose
    cases hc'
    refine ⟨h.known, h.dumps, fun hnothing => ?_, h.jobs⟩
    cases hnothing
    exact dashIsEmpty_of_ofText hd
  | jobs =>
    obtain ⟨n, hn, hc'⟩ := bind_eq_ok.mp hchoose
    cases hc'
    refine ⟨h.known, h.dumps, h.deadline, fun hnothing => ?_⟩
    change n = .nothing at hnothing
    exact dashIsEmpty_of_ofText (hnothing ▸ hn)
  | dump =>
    obtain ⟨g, hg, hc'⟩ := bind_eq_ok.mp hchoose
    cases hc'
    refine ⟨fun kind hkind => ?_, fun hnothing => ?_, h.deadline, h.jobs⟩
    · rcases List.mem_append.mp hkind with hkind | hkind
      · exact h.known kind hkind
      · obtain rfl := List.mem_singleton.mp hkind
        rcases eq_of_ofText hg with ⟨hempty, _⟩ | ⟨found, hfound, hread⟩
        · cases hempty
        · cases hfound
          exact mem_of_dumpKind? hread
    · rcases List.mem_append.mp hnothing with hnothing | hnothing
      · exact h.dumps hnothing
      · obtain rfl := List.mem_singleton.mp hnothing
        exact dashIsEmpty_of_ofText hg
  | help => cases hchoose
  | impreciseDrops => cases hchoose
  | json => cases hchoose
  | verbose => cases hchoose

theorem proceeds_valued {s : Switch} {value : String} (h : t.choices.Fits conv) :
    Proceeds (fun t' => t'.choices.Fits conv) (t.valued conv s value) := by
  rw [valued]
  refine Proceeds.bind (P := fun c => c.Fits conv) ?_ fun c hc => hc
  exact proceeds_mapError fun c hc => fits_choose h hc

theorem proceeds_flags {flags : List Switch} (h : t.choices.Fits conv) :
    Proceeds (fun t' => t'.choices.Fits conv) (flags.foldlM flag t) := by
  induction flags generalizing t with
  | nil => exact h
  | cons s flags ih =>
    rw [List.foldlM_cons]
    have hflag : Proceeds (fun t' => t'.choices.Fits conv) (t.flag s) := by
      cases s with
      | impreciseDrops => exact ⟨h.known, h.dumps, h.deadline, h.jobs⟩
      | json => exact ⟨h.known, h.dumps, h.deadline, h.jobs⟩
      | verbose => exact ⟨h.known, h.dumps, h.deadline, h.jobs⟩
      | help => exact nofun
      | deadline => exact nofun
      | jobs => exact nofun
      | dump => exact nofun
    exact hflag.bind fun _ ht' => ih ht'

theorem choices_take (t : Taken) (arg : String) : (t.take arg).choices = t.choices := by
  rw [take]
  split <;> rfl

theorem choices_takeMark (t : Taken) (isLast : Bool) :
    (t.takeMark isLast).choices = t.choices := by
  rw [takeMark]
  split <;> rfl

/-- **What is taken is in order.** -/
theorem proceeds_consume {slots : List Slot} (h : t.choices.Fits conv) :
    Proceeds (fun t' => t'.choices.Fits conv) (t.consume conv slots) := by
  -- a switch may take the next argument as well, so the induction is on the number of arguments
  induction hn : slots.length using Nat.strongRecOn generalizing t slots with
  | ind n ih =>
    subst hn
    cases slots with
    | nil => exact h
    | cons slot rest =>
      have hrest : ∀ {u : Taken}, u.choices.Fits conv →
          Proceeds (fun t' => t'.choices.Fits conv) (u.consume conv rest) :=
        fun hu => ih _ (Nat.lt_succ_self _) hu rfl
      cases slot with
      | value arg =>
        refine hrest ?_
        rw [choices_take]
        exact h
      | endMark =>
        refine hrest ?_
        rw [choices_takeMark]
        exact h
      | unknown arg => exact hrest (u := t.interrupt.leave arg) h
      | mention m =>
        rw [consume]
        refine Proceeds.bind (P := fun _ => True) (proceeds_mapError fun _ _ => trivial) ?_
        intro c _
        have hflags : Proceeds (fun t' => t'.choices.Fits conv) (c.flags.foldlM flag t.interrupt) :=
          proceeds_flags h
        split
        · split
          · refine hflags.bind fun u hu => (proceeds_valued hu).bind fun w hw => ?_
            exact ih _ (by rw [List.length_cons, List.length_cons]; omega) hw rfl
          · exact nofun
        · exact hflags.bind fun u hu => hrest hu
        · exact hflags.bind fun u hu => (proceeds_valued hu).bind fun w hw => hrest hw

end Taken

/-! ## Settings -/

theorem dumps_of_settings {c : Choices} {s : Settings} (h : c.settings = .ok s) :
    s.dumps = c.dumps.map Given.render := by
  rw [Choices.settings] at h
  obtain ⟨deadline, _, h⟩ := bind_eq_ok.mp h
  dsimp only at h
  split at h
  · cases h
  obtain ⟨jobs, _, h⟩ := bind_eq_ok.mp h
  split at h
  · cases h
  cases h
  rfl

/-- A number is needed only where one may have been left empty. -/
theorem empty_of_settings {c : Choices} (h : c.settings = .error .emptyNumber) :
    c.deadline = some .nothing ∨ c.jobs = .nothing := by
  rw [Choices.settings] at h
  cases hdeadline : c.deadline with
  | none =>
    cases hjobs : c.jobs with
    | nothing => exact .inr rfl
    | value n =>
      rw [hdeadline, hjobs] at h
      change (if n < 1 then _ else _) = _ at h
      split at h <;> cases h
  | some d =>
    cases d with
    | nothing => exact .inl rfl
    | value d =>
      cases hjobs : c.jobs with
      | nothing => exact .inr rfl
      | value n =>
        rw [hdeadline, hjobs] at h
        change (if (some d).any Seconds.isNegative then _ else (if n < 1 then _ else _)) = _ at h
        split at h
        · cases h
        · split at h <;> cases h

theorem settings_of_finish {t : Taken} {c : Command} (h : t.finish = .ok c) :
    t.choices.settings = .ok c.settings := by
  rw [Taken.finish] at h
  split at h
  · cases h
  dsimp only at h
  split at h
  · cases h
  obtain ⟨s, hs, h⟩ := bind_eq_ok.mp h
  cases h
  exact hs

theorem empty_of_finish {t : Taken} (h : t.finish = .error .emptyNumber) :
    t.choices.deadline = some .nothing ∨ t.choices.jobs = .nothing := by
  rw [Taken.finish] at h
  split at h
  · cases h
  dsimp only at h
  split at h
  · cases h
  cases hs : t.choices.settings with
  | ok s =>
    rw [hs] at h
    cases h
  | error fault =>
    rw [hs] at h
    cases h
    exact empty_of_settings hs

/-! ## Arguments -/

/-- **The tables of an accepted command** are those that there are, and the empty one where it is
    let through. -/
theorem dumps_of_parse {args : List String} {c : Command} (h : Command.parse args conv = .ok c) :
    ∀ kind ∈ c.settings.dumps, kind ∈ Analysis.dumpKinds ∨
      kind = "[]" ∧ conv.dashIsEmpty = true := by
  obtain ⟨slots, _, h⟩ := bind_eq_ok.mp h
  obtain ⟨taken, htaken, h⟩ := bind_eq_ok.mp h
  have hfits := (Taken.proceeds_consume Choices.fits_default).of_ok htaken
  rw [dumps_of_settings (settings_of_finish h)]
  intro kind hkind
  obtain ⟨g, hg, rfl⟩ := List.mem_map.mp hkind
  cases g with
  | value kind => exact .inl (hfits.known kind hg)
  | nothing => exact .inr ⟨rfl, hfits.dumps hg⟩

/-- Some number is given and left empty. -/
def LeavesEmpty (conv : Conventions) (args : List String) : Prop :=
  conv.dashIsEmpty = true ∧ ∃ (slots : List Slot) (t : Taken),
    CommandLine.slots args = .ok slots ∧ Taken.consume conv {} slots = .ok t ∧
      (t.choices.deadline = some .nothing ∨ t.choices.jobs = .nothing)

/-- **Only an empty number** stops a command that is neither misused nor a call for help. -/
theorem leavesEmpty_of_parse {args : List String}
    (h : Command.parse args conv = .error .emptyNumber) : LeavesEmpty conv args := by
  rw [Command.parse] at h
  cases hslots : slots args with
  | error fault =>
    rw [hslots] at h
    cases h
  | ok slots =>
    rw [hslots] at h
    change (Taken.consume conv {} slots >>= fun t => t.finish) = _ at h
    have hproceeds : Proceeds (fun t => t.choices.Fits conv) (Taken.consume conv {} slots) :=
      Taken.proceeds_consume Choices.fits_default
    cases htaken : Taken.consume conv {} slots with
    | error halt =>
      rw [htaken] at h hproceeds
      cases h
      exact absurd rfl hproceeds
    | ok t =>
      rw [htaken] at h hproceeds
      have hempty := empty_of_finish h
      refine ⟨?_, slots, t, hslots, htaken, hempty⟩
      rcases hempty with hdeadline | hjobs
      · exact hproceeds.deadline hdeadline
      · exact hproceeds.jobs hjobs

end BorrowFlow.CommandLine
