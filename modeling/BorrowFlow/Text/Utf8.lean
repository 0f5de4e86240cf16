import BorrowFlow.Text.Quoted

/-! # Reading UTF-8

  A text file is a row of bytes.  The decoder takes them one at a time and keeps
  the character that is under way, so that a fault is reported with exactly those
  bytes that could have begun a character.

  - `Utf8.Lead`: what the first byte of a character promises.
  - `Utf8.step`: one byte.
  - `Text.decodeUtf8`: a whole file.
-/

namespace BorrowFlow.Text

/-- Why some bytes are not a character. -/
inductive Utf8Reason where
  /-- No character begins with this byte. -/
  | badStart
  /-- The byte after them does not go on with the character. -/
  | badContinuation
  /-- The file ends inside the character. -/
  | truncated
  deriving DecidableEq

/-- The bytes of a file that are not a character. -/
structure Utf8Fault where
  /-- How many bytes stand before them. -/
  position : Nat
  bytes : List UInt8
  reason : Utf8Reason
  deriving DecidableEq

/-- The reason in words. -/
def Utf8Reason.message : Utf8Reason → String
  | .badStart => "invalid start byte"
  | .badContinuation => "invalid continuation byte"
  | .truncated => "unexpected end of data"

/-- The wording of a fault: a single byte is shown, several are counted. -/
def Utf8Fault.message (f : Utf8Fault) : String :=
  let what := match f.bytes with
    | [b] => "byte 0x" ++ String.ofList (hex 2 b.toNat) ++ " in position " ++
        toString f.position
    | bs => "bytes in position " ++ toString f.position ++ "-" ++
        toString (f.position + bs.length - 1)
  "'utf-8' codec can't decode " ++ what ++ ": " ++ f.reason.message

namespace Utf8

/-- What the first byte of a character promises. -/
structure Lead where
  /-- The bits of the character that the byte carries. -/
  bits : Nat
  /-- How many bytes follow. -/
  more : Nat
  /-- The least value of the next byte. -/
  low : Nat := 0x80
  /-- The greatest value of the next byte. -/
  high : Nat := 0xbf

/-- The promise of a first byte.  The bounds on the next byte leave out spellings
    that are longer than needed, surrogates, and values past the last character. -/
def lead? (b : Nat) : Option Lead :=
  if b < 0x80 then some { bits := b, more := 0 }
  else if b < 0xc2 then none
  else if b < 0xe0 then some { bits := b - 0xc0, more := 1 }
  else if b < 0xf0 then some {
    bits := b - 0xe0
    more := 2
    low := if b = 0xe0 then 0xa0 else 0x80
    high := if b = 0xed then 0x9f else 0xbf }
  else if b < 0xf5 then some {
    bits := b - 0xf0
    more := 3
    low := if b = 0xf0 then 0x90 else 0x80
    high := if b = 0xf4 then 0x8f else 0xbf }
  else none

/-- A character of which some bytes have been read. -/
structure Pending where
  /-- The bytes read, in order. -/
  seen : List UInt8
  /-- What is known of the character. -/
  rest : Lead

/-- Where a decoder stands. -/
structure Decoder where
  /-- The characters read, the last one first. -/
  text : List Char := []
  /-- How many bytes these characters took. -/
  position : Nat := 0
  /-- The character under way. -/
  pending : Option Pending := none

/-- Go on with a character, which is complete once nothing more is promised. -/
def Decoder.advance (d : Decoder) (p : Pending) : Decoder :=
  if p.rest.more = 0 then {
    text := Char.ofNat p.rest.bits :: d.text
    position := d.position + p.seen.length }
  else { d with pending := some p }

/-- Read one byte. -/
def step (d : Decoder) (b : UInt8) : Except Utf8Fault Decoder :=
  match d.pending with
  | none =>
    match lead? b.toNat with
    | some lead => .ok (d.advance ⟨[b], lead⟩)
    | none => .error ⟨d.position, [b], .badStart⟩
  | some p =>
    if p.rest.low ≤ b.toNat ∧ b.toNat ≤ p.rest.high then
      -- six more bits; only the byte after the first has bounds of its own
      .ok (d.advance ⟨p.seen ++ [b], {
        bits := p.rest.bits * 0x40 + b.toNat % 0x40
        more := p.rest.more - 1 }⟩)
    -- the byte itself is not at fault: it may begin another character
    else .error ⟨d.position, p.seen, .badContinuation⟩

/-- The characters read, unless one is still under way. -/
def finish (d : Decoder) : Except Utf8Fault (List Char) :=
  match d.pending with
  | none => .ok d.text.reverse
  | some p => .error ⟨d.position, p.seen, .truncated⟩

end Utf8

/-- The text that some bytes spell. -/
def decodeUtf8 (bytes : List UInt8) : Except Utf8Fault (List Char) := do
  Utf8.finish (← bytes.foldlM Utf8.step {})

end BorrowFlow.Text
