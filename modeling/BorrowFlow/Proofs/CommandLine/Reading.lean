import BorrowFlow.Proofs.CommandLine.Verdict
import BorrowFlow.Proofs.Text.Utf8

/-! # Files that are not text

    Whatever is wrong with a text is a finding.  What is wrong with a file may be that it
    is no text at all, and this is not a finding: it breaks the run off.  Which of the two
    happens is told by the bytes of the file alone (`Input.answered_iff_text`).
-/

namespace BorrowFlow.CommandLine

open Text

namespace Input

/-- **A file of text** is read as that text, its line ends unified. -/
theorem bodies_of_text {i : Input} (hpath : i.path.hasNull = false) {text : List Char}
    (hcontent : i.content = .ok (encodeUtf8 text)) :
    i.bodies = .ok (Source.read (String.ofList (unifyLineEnds text)) (some i.path.render)) :=
  bodies_of_fileText hpath hcontent (fileText_of_decode (decodeUtf8_eq_ok_iff.mpr rfl))

/-- A file that is not text breaks the run. -/
theorem bodies_of_fault {i : Input} (hpath : i.path.hasNull = false) {bytes : List UInt8}
    (hcontent : i.content = .ok bytes) {f : Utf8Fault} (hfault : decodeUtf8 bytes = .error f) :
    i.bodies = .error (.encoding f) := by
  have htext : fileText bytes = .error (.encoding f) := by
    rw [fileText, hfault]
    rfl
  rw [bodies, if_neg (by simp [hpath]), hcontent]
  simp only [htext]
  rfl

/-- What reading a file may give: its bodies, or one finding of the parser. -/
def Answered (i : Input) : Prop :=
  (∃ found, i.bodies = .ok (.ok found)) ∨
    ∃ d, i.bodies = .ok (.error d) ∧ d.phase = some "parser"

theorem not_answered_of_error {i : Input} {fault : RunFault} (h : i.bodies = .error fault) :
    ¬ i.Answered := by
  rw [Answered, h]
  simp

/-- **A file is answered exactly if it is text.**  Any other file breaks the run, at the end
    of the longest text that the file begins with. -/
theorem answered_iff_text {i : Input} (hpath : i.path.hasNull = false) {bytes : List UInt8}
    (hcontent : i.content = .ok bytes) :
    (i.Answered ↔ ∃ text, bytes = encodeUtf8 text) ∧
      (¬ i.Answered → ∃ f, i.bodies = .error (.encoding f) ∧
        (∃ text, encodeUtf8 text <+: bytes ∧ (encodeUtf8 text).length = f.position) ∧
        ∀ text, encodeUtf8 text <+: bytes → (encodeUtf8 text).length ≤ f.position) := by
  cases hdecoded : decodeUtf8 bytes with
  | ok text =>
    obtain rfl := decodeUtf8_eq_ok_iff.mp hdecoded
    have hanswered : i.Answered := by
      have hreadable := Source.readable_read (String.ofList (unifyLineEnds text)) (some i.path.render)
      rw [Answered, bodies_of_text hpath hcontent]
      generalize Source.read (String.ofList (unifyLineEnds text)) (some i.path.render) = r at hreadable ⊢
      cases hreadable with
      | finding hphase _ => exact Or.inr ⟨_, rfl, hphase⟩
      | bodies _ => exact Or.inl ⟨_, rfl⟩
    exact ⟨⟨fun _ => ⟨text, rfl⟩, fun _ => hanswered⟩, fun hnot => absurd hanswered hnot⟩
  | error f =>
    have hbroken := bodies_of_fault hpath hcontent hdecoded
    have hnot := not_answered_of_error hbroken
    refine ⟨⟨fun hanswered => absurd hanswered hnot, ?_⟩, fun _ => ⟨f, hbroken, ?_⟩⟩
    · rintro ⟨text, htext⟩
      rw [decodeUtf8_eq_ok_iff.mpr htext] at hdecoded
      cases hdecoded
    · exact position_of_decodeUtf8 hdecoded

end Input

/-! ## A comment in two encodings -/

/-- A text of characters that take one byte each, as bytes. -/
def ascii (text : String) : List UInt8 := text.toList.map fun ch => ch.toNat.toUInt8

/-- A function after a comment whose last letter is given by its bytes. -/
def commented (letter : List UInt8) : List UInt8 :=
  ascii "# caf" ++ letter ++ ascii "\nfn f() \x7b bb0: \x7b return; \x7d \x7d"

/-- A file with these bytes. -/
def noteFile (bytes : List UInt8) : Input where
  path := { names := ["note.cfg"] }
  content := .ok bytes

/-- In UTF-8 the comment is no obstacle; in Latin-1 it breaks the run. -/
theorem commented_answered : (noteFile (commented [0xc3, 0xa9])).Answered ∧
    ¬ (noteFile (commented [0xe9])).Answered ∧
    ∃ f, (noteFile (commented [0xe9])).bodies = .error (.encoding f) := by
  have htext : commented [0xc3, 0xa9] =
      encodeUtf8 "# café\nfn f() \x7b bb0: \x7b return; \x7d \x7d".toList := by decide +kernel
  have hutf := Input.answered_iff_text (i := noteFile (commented [0xc3, 0xa9])) (by decide) rfl
  have hlatin := Input.answered_iff_text (i := noteFile (commented [0xe9])) (by decide) rfl
  have hnot : ¬ (noteFile (commented [0xe9])).Answered := by
    rw [hlatin.1]
    rintro ⟨text, hspelled⟩
    have hdecoded := decodeUtf8_eq_ok_iff.mpr hspelled
    cases hdecoded
  obtain ⟨f, hf, _⟩ := hlatin.2 hnot
  exact ⟨hutf.1.mpr ⟨_, htext⟩, hnot, f, hf⟩

/-- A file that is read, and whose reading ends neither with bodies nor with a finding. -/
theorem commented_unanswered : ∃ (i : Input) (bytes : List UInt8),
    i.path.hasNull = false ∧ i.content = .ok bytes ∧
    i.bodies = .error (.encoding ⟨5, [0xe9], .badContinuation⟩) ∧ ¬ i.Answered := by
  have hbroken : (noteFile (commented [0xe9])).bodies =
      .error (.encoding ⟨5, [0xe9], .badContinuation⟩) :=
    Input.bodies_of_fault (by decide) rfl rfl
  exact ⟨noteFile (commented [0xe9]), _, by decide, rfl, hbroken, Input.not_answered_of_error hbroken⟩

end BorrowFlow.CommandLine
