import BorrowFlow.Proofs.Except
import BorrowFlow.Text.Utf8
import Mathlib.Data.List.Basic

/-! # Decoding is the inverse of spelling

    A text is spelled character by character, and decoded byte by byte.  The two meet
    in `Lead.Completes`, which says what may follow the first byte of a character and
    which character that makes.

    * `Utf8.spells_of_completes`, `Utf8.completes_of_spells`: a first byte and those that
      complete it are the spelling of a character, and every character is spelled so.
    * `decodeUtf8_eq_ok_iff`: bytes are decoded if and only if they spell a text.
    * `position_of_decodeUtf8`: if they spell none, the fault stands right after the
      longest text that they begin with.
-/

namespace BorrowFlow.Text

/-- The bytes that spell a text. -/
def encodeUtf8 (text : List Char) : List UInt8 := text.flatMap String.utf8EncodeChar

theorem encodeUtf8_append (s t : List Char) : encodeUtf8 (s ++ t) = encodeUtf8 s ++ encodeUtf8 t :=
  List.flatMap_append

theorem encodeUtf8_singleton (c : Char) : encodeUtf8 [c] = String.utf8EncodeChar c :=
  List.flatMap_singleton _ _

namespace Utf8

/-! ## One character -/

/-- What is promised still, after one more byte. -/
def Lead.next (l : Lead) (b : UInt8) : Lead where
  bits := l.bits * 0x40 + b.toNat % 0x40
  more := l.more - 1

/-- **The bytes that complete a character**, and its number. -/
def Lead.Completes (l : Lead) : List UInt8 → Nat → Prop
  | [], v => l.more = 0 ∧ l.bits = v
  | b :: rest, v =>
    l.more ≠ 0 ∧ l.low ≤ b.toNat ∧ b.toNat ≤ l.high ∧ (l.next b).Completes rest v

theorem Lead.Completes.length_eq {l : Lead} {rest : List UInt8} {v : Nat} (h : l.Completes rest v) :
    rest.length = l.more := by
  induction rest generalizing l with
  | nil => exact h.1.symm
  | cons b rest ih =>
    obtain ⟨hmore, _, _, hrest⟩ := h
    have hlength : rest.length = l.more - 1 := ih hrest
    rw [List.length_cons]
    omega

theorem toNat_ofNat {v : Nat} (hv : v.isValidChar) : (Char.ofNat v).val.toNat = v := by
  rw [Char.ofNat, dif_pos hv]
  rfl

theorem ofNat_eq_iff {n : Nat} {b : UInt8} : UInt8.ofNat n = b ↔ n % 256 = b.toNat := by
  rw [← UInt8.toNat_inj, UInt8.toNat_ofNat']

/-- Any byte but the first carries six bits. -/
theorem toNat_tail (n : Nat) : (UInt8.ofNat (n % 0x40 + 0x80)).toNat = n % 0x40 + 0x80 := by
  rw [UInt8.toNat_ofNat']
  omega

/-- A bound that depends on the first byte, as two bounds. -/
theorem ite_le_iff {c : Prop} [Decidable c] {m n k : Nat} :
    (if c then m else n) ≤ k ↔ (c → m ≤ k) ∧ (¬ c → n ≤ k) := by
  by_cases h : c <;> simp [h]

theorem le_ite_iff {c : Prop} [Decidable c] {m n k : Nat} :
    k ≤ (if c then m else n) ↔ (c → k ≤ m) ∧ (¬ c → k ≤ n) := by
  by_cases h : c <;> simp [h]

/-- What a first byte promises is a character that is spelled that way. -/
theorem spells_of_completes {b : UInt8} {rest : List UInt8} {l : Lead} {v : Nat}
    (hlead : lead? b.toNat = some l) (h : l.Completes rest v) :
    v.isValidChar ∧ String.utf8EncodeChar (Char.ofNat v) = b :: rest := by
  have hlength := h.length_eq
  have hb := b.toNat_lt
  -- one case for each number of bytes; the bounds on the second one keep `v` out of the
  -- shorter spellings and out of the surrogates
  rw [lead?] at hlead
  split at hlead
  · obtain rfl := Option.some.inj hlead
    obtain rfl : rest = [] := List.length_eq_zero_iff.mp hlength
    obtain rfl : b.toNat = v := h.2
    have hv : b.toNat.isValidChar := Or.inl (by omega)
    refine ⟨hv, ?_⟩
    simp only [String.utf8EncodeChar, toNat_ofNat hv]
    rw [if_pos (by omega), UInt8.ofNat_toNat]
  split at hlead
  · cases hlead
  split at hlead
  · obtain rfl := Option.some.inj hlead
    obtain ⟨b₁, rfl⟩ := List.length_eq_one_iff.mp hlength
    simp only [Lead.Completes, Lead.next] at h
    have hv : v.isValidChar := Or.inl (by omega)
    refine ⟨hv, ?_⟩
    simp only [String.utf8EncodeChar, toNat_ofNat hv]
    rw [if_neg (by omega), if_pos (by omega)]
    simp only [List.cons.injEq, ofNat_eq_iff, and_true]
    omega
  split at hlead
  · obtain rfl := Option.some.inj hlead
    obtain ⟨b₁, b₂, rfl⟩ := List.length_eq_two.mp hlength
    simp only [Lead.Completes, Lead.next, ite_le_iff, le_ite_iff] at h
    have hv : v.isValidChar := by
      show v < 0xd800 ∨ 0xdfff < v ∧ v < 0x110000
      omega
    refine ⟨hv, ?_⟩
    simp only [String.utf8EncodeChar, toNat_ofNat hv]
    rw [if_neg (by omega), if_neg (by omega), if_pos (by omega)]
    have h₀ : v / 0x1000 = b.toNat - 0xe0 := by omega
    have h₁ : v / 0x40 = v / 0x1000 * 0x40 + b₁.toNat % 0x40 := by omega
    simp only [List.cons.injEq, ofNat_eq_iff, and_true]
    exact ⟨by omega, by omega, by omega⟩
  split at hlead
  · obtain rfl := Option.some.inj hlead
    obtain ⟨b₁, b₂, b₃, rfl⟩ := List.length_eq_three.mp hlength
    simp only [Lead.Completes, Lead.next, ite_le_iff, le_ite_iff] at h
    have hv : v.isValidChar := by
      show v < 0xd800 ∨ 0xdfff < v ∧ v < 0x110000
      omega
    refine ⟨hv, ?_⟩
    simp only [String.utf8EncodeChar, toNat_ofNat hv]
    rw [if_neg (by omega), if_neg (by omega), if_neg (by omega)]
    -- the digits of `v` to the base 64 are what the bytes carry
    have h₀ : v / 0x40000 = b.toNat - 0xf0 := by omega
    have h₁ : v / 0x1000 = v / 0x40000 * 0x40 + b₁.toNat % 0x40 := by omega
    have h₂ : v / 0x40 = v / 0x1000 * 0x40 + b₂.toNat % 0x40 := by omega
    simp only [List.cons.injEq, ofNat_eq_iff, and_true]
    exact ⟨by omega, by omega, by omega, by omega⟩
  · cases hlead

/-- The first byte of a character promises it. -/
theorem completes_of_spells {b : UInt8} {rest : List UInt8} {v : Nat} (hv : v.isValidChar)
    (h : String.utf8EncodeChar (Char.ofNat v) = b :: rest) :
    ∃ l, lead? b.toNat = some l ∧ l.Completes rest v := by
  have hrange : v < 0xd800 ∨ 0xdfff < v ∧ v < 0x110000 := hv
  simp only [String.utf8EncodeChar, toNat_ofNat hv] at h
  split at h
  · obtain ⟨hb, rfl⟩ := List.cons.inj h
    rw [ofNat_eq_iff] at hb
    refine ⟨_, by rw [lead?, if_pos (by omega)], rfl, ?_⟩
    show b.toNat = v
    omega
  split at h
  · obtain ⟨hb, rfl⟩ := List.cons.inj h
    rw [ofNat_eq_iff] at hb
    refine ⟨_, by rw [lead?, if_neg (by omega), if_neg (by omega), if_pos (by omega)], ?_⟩
    simp only [Lead.Completes, Lead.next, toNat_tail, true_and]
    omega
  split at h
  · obtain ⟨hb, rfl⟩ := List.cons.inj h
    rw [ofNat_eq_iff] at hb
    have hfirst : b.toNat = v / 0x1000 + 0xe0 := by omega
    refine ⟨_, by rw [lead?, if_neg (by omega), if_neg (by omega), if_neg (by omega),
      if_pos (by omega)], ?_⟩
    simp only [Lead.Completes, Lead.next, ite_le_iff, le_ite_iff, toNat_tail, true_and]
    omega
  · obtain ⟨hb, rfl⟩ := List.cons.inj h
    rw [ofNat_eq_iff] at hb
    have hfirst : b.toNat = v / 0x40000 + 0xf0 := by omega
    refine ⟨_, by rw [lead?, if_neg (by omega), if_neg (by omega), if_neg (by omega),
      if_neg (by omega), if_pos (by omega)], ?_⟩
    simp only [Lead.Completes, Lead.next, ite_le_iff, le_ite_iff, toNat_tail, true_and]
    omega

/-! ## Reading on -/

/-- Read some bytes and finish. -/
def decodeFrom (d : Decoder) (bytes : List UInt8) : Except Utf8Fault (List Char) :=
  bytes.foldlM step d >>= finish

theorem decodeFrom_nil (d : Decoder) : decodeFrom d [] = finish d := rfl

theorem decodeFrom_cons (d : Decoder) (b : UInt8) (bytes : List UInt8) :
    decodeFrom d (b :: bytes) = step d b >>= fun d' => decodeFrom d' bytes := by
  rw [decodeFrom, List.foldlM_cons, bind_assoc]
  rfl

/-- A byte within the bounds goes on with the character under way. -/
theorem step_advance {d : Decoder} {p : Pending} {b : UInt8} (hmore : p.rest.more ≠ 0)
    (hlow : p.rest.low ≤ b.toNat) (hhigh : b.toNat ≤ p.rest.high) :
    step (d.advance p) b = .ok (d.advance ⟨p.seen ++ [b], p.rest.next b⟩) := by
  have hpending : d.advance p = { d with pending := some p } := if_neg hmore
  rw [hpending]
  show (if p.rest.low ≤ b.toNat ∧ b.toNat ≤ p.rest.high then _ else _) = _
  rw [if_pos ⟨hlow, hhigh⟩]
  rfl

/-- The bytes that complete a character are read to its end. -/
theorem decodeFrom_advance {d : Decoder} {p : Pending} {rest more : List UInt8} {v : Nat}
    (h : p.rest.Completes rest v) :
    decodeFrom (d.advance p) (rest ++ more) = decodeFrom {
      text := Char.ofNat v :: d.text
      position := d.position + p.seen.length + rest.length } more := by
  induction rest generalizing p with
  | nil =>
    obtain ⟨hmore, rfl⟩ := h
    rw [Decoder.advance, if_pos hmore]
    rfl
  | cons b rest ih =>
    obtain ⟨hmore, hlow, hhigh, hrest⟩ := h
    rw [List.cons_append, decodeFrom_cons, step_advance hmore hlow hhigh]
    show decodeFrom (d.advance ⟨p.seen ++ [b], p.rest.next b⟩) (rest ++ more) = _
    rw [ih hrest]
    congr 2
    simp only [List.length_append, List.length_cons, List.length_nil]
    omega

/-- **The spelling of a character is read as that character.** -/
theorem decodeFrom_encodeChar (text : List Char) (position : Nat) (c : Char) (more : List UInt8) :
    decodeFrom { text, position } (String.utf8EncodeChar c ++ more) = decodeFrom {
      text := c :: text
      position := position + (String.utf8EncodeChar c).length } more := by
  cases hspelled : String.utf8EncodeChar c with
  | nil =>
    have hlength : c.utf8Size = 0 := by rw [← String.length_utf8EncodeChar, hspelled]; rfl
    exact absurd hlength (Nat.ne_of_gt c.utf8Size_pos)
  | cons b rest =>
    have hc : String.utf8EncodeChar (Char.ofNat c.toNat) = b :: rest := by
      rw [Char.ofNat_toNat, hspelled]
    obtain ⟨l, hlead, hcompletes⟩ := completes_of_spells (v := c.toNat) c.valid hc
    have hstep : step { text, position } b = .ok (Decoder.advance { text, position } ⟨[b], l⟩) := by
      simp only [step, hlead]
    rw [List.cons_append, decodeFrom_cons, hstep]
    show decodeFrom (Decoder.advance { text, position } ⟨[b], l⟩) (rest ++ more) = _
    rw [decodeFrom_advance hcompletes, Char.ofNat_toNat]
    congr 2
    simp only [List.length_cons, List.length_nil]
    omega

/-- **The spelling of a text is read as that text.** -/
theorem decodeFrom_encode (read text : List Char) (position : Nat) (more : List UInt8) :
    decodeFrom { text := read, position } (encodeUtf8 text ++ more) = decodeFrom {
      text := text.reverse ++ read
      position := position + (encodeUtf8 text).length } more := by
  induction text generalizing read position with
  | nil => rfl
  | cons c text ih =>
    have hcons : encodeUtf8 (c :: text) = String.utf8EncodeChar c ++ encodeUtf8 text := rfl
    rw [hcons, List.append_assoc, decodeFrom_encodeChar, ih, List.reverse_cons, List.append_assoc,
      List.length_append, Nat.add_assoc]
    rfl

/-! ## Looking back -/

/-- However it goes on, the character under way is one that the bytes seen begin. -/
def Pending.Begun (p : Pending) : Prop :=
  ∀ rest v, p.rest.Completes rest v →
    v.isValidChar ∧ String.utf8EncodeChar (Char.ofNat v) = p.seen ++ rest

/-- **Where a decoder stands** after some bytes: they spell the text that it has read, and
    begin the character that is under way. -/
structure Decoder.Stands (d : Decoder) (bytes : List UInt8) : Prop where
  bytes_eq : bytes = encodeUtf8 d.text.reverse ++ d.pending.elim [] Pending.seen
  position_eq : d.position = (encodeUtf8 d.text.reverse).length
  begun : ∀ p, d.pending = some p → p.rest.more ≠ 0 ∧ p.Begun

theorem stands_start : Decoder.Stands {} [] where
  bytes_eq := rfl
  position_eq := rfl
  begun := by simp

/-- What has been read of a text is a text that the bytes begin with. -/
theorem Decoder.Stands.encode_prefix {d : Decoder} {bytes : List UInt8} (h : d.Stands bytes) :
    encodeUtf8 d.text.reverse <+: bytes := by
  rw [h.bytes_eq]
  exact List.prefix_append _ _

theorem Decoder.Stands.advance {d : Decoder} {bytes : List UInt8} (h : d.Stands bytes)
    {p : Pending} {b : UInt8} (hseen : p.seen = d.pending.elim [] Pending.seen ++ [b])
    (hbegun : p.Begun) : (d.advance p).Stands (bytes ++ [b]) := by
  have hbytes : bytes ++ [b] = encodeUtf8 d.text.reverse ++ p.seen := by
    rw [hseen, ← List.append_assoc, ← h.bytes_eq]
  by_cases hmore : p.rest.more = 0
  · -- the character is complete
    obtain ⟨_, hspelled⟩ := hbegun [] p.rest.bits ⟨hmore, rfl⟩
    rw [List.append_nil] at hspelled
    have htext : encodeUtf8 (Char.ofNat p.rest.bits :: d.text).reverse =
        encodeUtf8 d.text.reverse ++ p.seen := by
      rw [List.reverse_cons, encodeUtf8_append, encodeUtf8_singleton, hspelled]
    rw [Decoder.advance, if_pos hmore]
    refine ⟨?_, ?_, by simp⟩
    · show _ = encodeUtf8 (Char.ofNat p.rest.bits :: d.text).reverse ++ []
      rw [List.append_nil, htext, hbytes]
    · show d.position + p.seen.length = _
      rw [htext, List.length_append, h.position_eq]
  · rw [Decoder.advance, if_neg hmore]
    refine ⟨hbytes, h.position_eq, fun q hq => ?_⟩
    obtain rfl : p = q := Option.some.inj hq
    exact ⟨hmore, hbegun⟩

/-- **What one byte can do**: begin a character, go on with one, or be out of place. -/
theorem step_cases (d : Decoder) (b : UInt8) :
    (∃ p, step d b = .ok (d.advance p) ∧ p.seen = d.pending.elim [] Pending.seen ++ [b] ∧
      (d.pending = none ∧ lead? b.toNat = some p.rest ∨
        ∃ q, d.pending = some q ∧ q.rest.low ≤ b.toNat ∧ b.toNat ≤ q.rest.high ∧
          p.rest = q.rest.next b)) ∨
    ∃ bytes reason, step d b = .error ⟨d.position, bytes, reason⟩ := by
  rw [step]
  cases hpending : d.pending with
  | none =>
    cases hlead : lead? b.toNat with
    | none => exact Or.inr ⟨_, _, rfl⟩
    | some l => exact Or.inl ⟨⟨[b], l⟩, rfl, rfl, Or.inl ⟨rfl, rfl⟩⟩
  | some q =>
    dsimp only
    split
    · next hbounds =>
      exact Or.inl ⟨_, rfl, rfl, Or.inr ⟨q, rfl, hbounds.1, hbounds.2, rfl⟩⟩
    · exact Or.inr ⟨_, _, rfl⟩

/-- **One byte** takes the decoder from where it stands to where it stands after the byte. -/
theorem Decoder.Stands.step {d d' : Decoder} {bytes : List UInt8} {b : UInt8} (h : d.Stands bytes)
    (hstep : Utf8.step d b = .ok d') : d'.Stands (bytes ++ [b]) := by
  rcases step_cases d b with ⟨p, hok, hseen, hwhich⟩ | ⟨_, _, herror⟩
  · obtain rfl : d.advance p = d' := Except.ok.inj (hok.symm.trans hstep)
    refine h.advance hseen fun rest v hcompletes => ?_
    rcases hwhich with ⟨hpending, hlead⟩ | ⟨q, hpending, hlow, hhigh, hnext⟩
    · rw [hseen, hpending]
      exact spells_of_completes hlead hcompletes
    · obtain ⟨hmore, hbegun⟩ := h.begun q hpending
      rw [hnext] at hcompletes
      rw [hseen, hpending, List.append_assoc]
      exact hbegun (b :: rest) v ⟨hmore, hlow, hhigh, hcompletes⟩
  · rw [herror] at hstep
    cases hstep

/-- A fault stands where the character begins that cannot be read. -/
theorem position_of_step {d : Decoder} {b : UInt8} {f : Utf8Fault}
    (h : step d b = .error f) : f.position = d.position := by
  rcases step_cases d b with ⟨p, hok, _⟩ | ⟨_, _, herror⟩
  · rw [hok] at h
    cases h
  · rw [herror] at h
    cases h
    rfl

theorem position_le_of_step {d d' : Decoder} {b : UInt8} (h : step d b = .ok d') :
    d.position ≤ d'.position := by
  rcases step_cases d b with ⟨p, hok, _⟩ | ⟨_, _, herror⟩
  · obtain rfl : d.advance p = d' := Except.ok.inj (hok.symm.trans h)
    rw [Decoder.advance]
    split
    · exact Nat.le_add_right _ _
    · exact Nat.le_refl _
  · rw [herror] at h
    cases h

theorem position_of_finish {d : Decoder} {f : Utf8Fault} (h : finish d = .error f) :
    f.position = d.position := by
  rw [finish] at h
  split at h
  · cases h
  · cases h
    rfl

/-- What is read in the end is spelled by all of the bytes. -/
theorem Decoder.Stands.eq_of_decodeFrom {d : Decoder} {bytes more : List UInt8} {text : List Char}
    (h : d.Stands bytes) (hread : decodeFrom d more = .ok text) :
    bytes ++ more = encodeUtf8 text := by
  induction more generalizing d bytes with
  | nil =>
    rw [decodeFrom_nil, finish] at hread
    cases hpending : d.pending with
    | none =>
      rw [hpending] at hread
      cases hread
      rw [h.bytes_eq, hpending]
      simp
    | some p =>
      rw [hpending] at hread
      cases hread
  | cons b more ih =>
    rw [decodeFrom_cons] at hread
    obtain ⟨d', hstep, hread⟩ := bind_eq_ok.mp hread
    rw [← ih (h.step hstep) hread, List.append_assoc]
    rfl

/-- A fault stands after a text, and no earlier than where the decoder stands. -/
theorem Decoder.Stands.position_of_decodeFrom {d : Decoder} {bytes more : List UInt8} {f : Utf8Fault}
    (h : d.Stands bytes) (hfault : decodeFrom d more = .error f) :
    d.position ≤ f.position ∧
      ∃ text, encodeUtf8 text <+: bytes ++ more ∧ (encodeUtf8 text).length = f.position := by
  induction more generalizing d bytes with
  | nil =>
    have hposition := position_of_finish hfault
    refine ⟨Nat.le_of_eq hposition.symm, d.text.reverse, ?_, ?_⟩
    · rw [List.append_nil]
      exact h.encode_prefix
    · rw [hposition, h.position_eq]
  | cons b more ih =>
    rw [decodeFrom_cons] at hfault
    cases hstep : Utf8.step d b with
    | error f' =>
      rw [hstep] at hfault
      obtain rfl : f' = f := Except.error.inj hfault
      have hposition := position_of_step hstep
      refine ⟨Nat.le_of_eq hposition.symm, d.text.reverse, ?_, ?_⟩
      · exact h.encode_prefix.trans (List.prefix_append _ _)
      · rw [hposition, h.position_eq]
    | ok d' =>
      rw [hstep] at hfault
      obtain ⟨hlater, text, htext, hlength⟩ := ih (h.step hstep) hfault
      refine ⟨Nat.le_trans (position_le_of_step hstep) hlater, text, ?_, hlength⟩
      rw [List.append_assoc] at htext
      exact htext

end Utf8

open Utf8

/-! ## Whole files -/

/-- **Bytes are decoded exactly if they spell a text**, and then to that text. -/
theorem decodeUtf8_eq_ok_iff {bytes : List UInt8} {text : List Char} :
    decodeUtf8 bytes = .ok text ↔ bytes = encodeUtf8 text := by
  have hrun : decodeUtf8 bytes = decodeFrom {} bytes := rfl
  rw [hrun]
  constructor
  · exact fun hread => stands_start.eq_of_decodeFrom hread
  · rintro rfl
    have hall := decodeFrom_encode [] text 0 []
    rw [List.append_nil, List.append_nil] at hall
    rw [hall, decodeFrom_nil]
    show Except.ok text.reverse.reverse = _
    rw [List.reverse_reverse]

/-- **The fault stands right after the longest text** that the bytes begin with. -/
theorem position_of_decodeUtf8 {bytes : List UInt8} {f : Utf8Fault}
    (h : decodeUtf8 bytes = .error f) :
    (∃ text, encodeUtf8 text <+: bytes ∧ (encodeUtf8 text).length = f.position) ∧
      ∀ text, encodeUtf8 text <+: bytes → (encodeUtf8 text).length ≤ f.position := by
  have hrun : decodeUtf8 bytes = decodeFrom {} bytes := rfl
  rw [hrun] at h
  refine ⟨(stands_start.position_of_decodeFrom h).2, ?_⟩
  rintro text ⟨more, rfl⟩
  -- the text is read first, and a fault is never behind the decoder
  rw [decodeFrom_encode] at h
  have hstands : Decoder.Stands
      { text := text.reverse ++ [], position := 0 + (encodeUtf8 text).length } (encodeUtf8 text) := by
    refine ⟨?_, ?_, by simp⟩
    · simp
    · simp
  have hlater := (hstands.position_of_decodeFrom h).1
  rw [Nat.zero_add] at hlater
  exact hlater

end BorrowFlow.Text
