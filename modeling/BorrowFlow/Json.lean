/-! # JSON values and their written form

  The reports of the checker are JSON values.  A value is written in one of two
  styles, which differ in spacing and in which characters are escaped:

  - `Style.canonical`: no blanks, characters beyond ASCII as they are.
  - `Style.spaced`: a blank after `,` and `:`, everything beyond printable ASCII
    escaped.

  Both write the fields of an object in the order of their keys, so that equal
  reports are equal texts.
-/

namespace BorrowFlow

/-- A JSON value; reports hold no fractions. -/
inductive Json where
  | null
  | bool (b : Bool)
  | int (n : Int)
  | str (s : String)
  | arr (items : List Json)
  | obj (fields : List (String × Json))
  deriving Inhabited

namespace Json

/-- An optional text; a missing one is `null`. -/
def ofString? : Option String → Json
  | none => .null
  | some s => .str s

/-- An optional number; a missing one is `null`. -/
def ofInt? : Option Int → Json
  | none => .null
  | some n => .int n

/-- A list of texts. -/
def strs (l : List String) : Json := .arr (l.map .str)

/-! ## Escapes -/

/-- Four hexadecimal digits, in lower case. -/
def hex4 (n : Nat) : String :=
  let digits := Nat.toDigits 16 n
  String.ofList (List.replicate (4 - digits.length) '0' ++ digits)

/-- The escape of a code point by its UTF-16 units: one for the basic plane, a
    pair of surrogates beyond it. -/
def unitEscape (c : Char) : String :=
  let n := c.toNat
  if n < 0x10000 then "\\u" ++ hex4 n
  else
    let m := n - 0x10000
    "\\u" ++ hex4 (0xd800 + m / 0x400) ++ "\\u" ++ hex4 (0xdc00 + m % 0x400)

/-- One character of a quoted text.  Quote, backslash and control characters are
    always escaped, the common ones by a letter. -/
def escapeChar (ascii : Bool) (c : Char) : String :=
  if c = '"' then "\\\""
  else if c = '\\' then "\\\\"
  else if c = '\n' then "\\n"
  else if c = '\r' then "\\r"
  else if c = '\t' then "\\t"
  else if c.toNat = 8 then "\\b"
  else if c.toNat = 12 then "\\f"
  else if c.toNat < 0x20 then unitEscape c
  else if ascii && 0x7f ≤ c.toNat then unitEscape c
  else String.singleton c

/-- A text between double quotes. -/
def quote (ascii : Bool) (s : String) : String :=
  "\"" ++ String.join (s.toList.map (escapeChar ascii)) ++ "\""

/-! ## Writing -/

/-- What the two written forms decide differently. -/
structure Style where
  /-- Between two items or fields. -/
  itemSep : String
  /-- Between a key and its value. -/
  keySep : String
  /-- Escape everything beyond printable ASCII? -/
  ascii : Bool

/-- No blanks; characters beyond ASCII stand for themselves. -/
def Style.canonical : Style := ⟨",", ":", false⟩

/-- A blank after each separator; ASCII only. -/
def Style.spaced : Style := ⟨", ", ": ", true⟩

mutual

/-- The written form of a value. -/
def write (style : Style) : Json → String
  | .null => "null"
  | .bool true => "true"
  | .bool false => "false"
  | .int n => toString n
  | .str s => quote style.ascii s
  | .arr items => "[" ++ style.itemSep.intercalate (writeItems style items) ++ "]"
  | .obj fields =>
    let entries := (writeFields style fields).mergeSort fun a b => decide (a.1 ≤ b.1)
    let texts := entries.map fun e => quote style.ascii e.1 ++ style.keySep ++ e.2
    "\x7b" ++ style.itemSep.intercalate texts ++ "\x7d"

/-- The written forms of the items of an array. -/
def writeItems (style : Style) : List Json → List String
  | [] => []
  | v :: rest => v.write style :: writeItems style rest

/-- The keys of an object with the written forms of their values. -/
def writeFields (style : Style) : List (String × Json) → List (String × String)
  | [] => []
  | (k, v) :: rest => (k, v.write style) :: writeFields style rest

end

end Json

end BorrowFlow
