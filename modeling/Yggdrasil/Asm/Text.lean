import Mathlib.Data.List.DropRight
import Yggdrasil.Term.Word

/-!
# Text

What the assembler uses of strings: lines, trimming, splitting and numerals.
-/

namespace Yggdrasil

namespace Asm

/-- `char::is_whitespace`: the characters with the property `White_Space`. -/
def isWhitespace (c : Char) : Bool :=
  (9 ≤ c.toNat && c.toNat ≤ 13) || c.toNat == 32 || c.toNat == 0x85 || c.toNat == 0xA0 ||
    c.toNat == 0x1680 || (0x2000 ≤ c.toNat && c.toNat ≤ 0x200A) || c.toNat == 0x2028 ||
    c.toNat == 0x2029 || c.toNat == 0x202F || c.toNat == 0x205F || c.toNat == 0x3000

/-- `split_inclusive`: pieces that end behind each separator. -/
def splitInclusive (sep : Char) : List Char → List (List Char)
  | [] => []
  | c :: cs =>
    if c = sep then [c] :: splitInclusive sep cs
    else match splitInclusive sep cs with
      | [] => [[c]]
      | piece :: pieces => (c :: piece) :: pieces

/-- `strip_suffix` with a character. -/
def stripEnd (c : Char) (l : List Char) : Option (List Char) :=
  if l.getLast? = some c then some l.dropLast else none

/-- `strip_prefix`. -/
def stripStart (start l : List Char) : Option (List Char) :=
  if start.isPrefixOf l then some (l.drop start.length) else none

/-- `lines`: a line ends at a newline, which may have a carriage return before it. -/
def lines (src : List Char) : List (List Char) :=
  (splitInclusive '\n' src).map fun piece =>
    match stripEnd '\n' piece with
    | none => piece
    | some line => (stripEnd '\r' line).getD line

/-- `trim`. -/
def trim (l : List Char) : List Char := (l.dropWhile isWhitespace).rdropWhile isWhitespace

/-- `split_once`: the text before and behind the first separator. -/
def splitOnce (sep : Char → Bool) (l : List Char) : Option (List Char × List Char) :=
  match l.dropWhile fun c => !sep c with
  | [] => none
  | _ :: rest => some (l.takeWhile fun c => !sep c, rest)

/-- The number decimal digits spell. -/
def parseDigits (l : List Char) : Option ℕ :=
  if l = [] then none
  else l.foldlM (fun n c => if c.isDigit then some (10 * n + (c.toNat - '0'.toNat)) else none) 0

/-- Parse a `u8`. -/
def parseU8 (s : String) : Option UInt8 := do
  let n ← parseDigits ((stripStart ['+'] s.toList).getD s.toList)
  if n < 2 ^ 8 then some (UInt8.ofNat n) else none

/-- Parse an `i64`. -/
def parseI64 (s : String) : Option Word :=
  match stripStart ['-'] s.toList with
  | some digits => do
    let n ← parseDigits digits
    if n ≤ 2 ^ 63 then some (BitVec.ofInt 64 (-n)) else none
  | none => do
    let n ← parseDigits ((stripStart ['+'] s.toList).getD s.toList)
    if n < 2 ^ 63 then some (BitVec.ofNat 64 n) else none

end Asm

end Yggdrasil
