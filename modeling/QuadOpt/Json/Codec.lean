/-
# Writing and reading values

A `Codec` writes values of a type as tokens and reads them back from the front
of a list of tokens. A value is read as far as it is well formed, so that of
several faults the first one counts.

Key definitions: `Reader`, `Codec`, `Numeral`, `Codec.float`, `Codec.natBelow`,
`Codec.bool`, `Codec.array`.
-/
import QuadOpt.Decimal.Layout
import QuadOpt.Decimal.Nearest
import QuadOpt.Json.Token

namespace QuadOpt.Json

/-- Reads a value from the front of the tokens of a text with the given tail,
and gives the tokens after it. -/
abbrev Reader (β : Type) := Tail → List Token → Except Fault (β × List Token)

/-- A way to write values and to read them. -/
structure Codec (β : Type) where
  write : β → List Token
  read : Reader β

/-- A decimal number as it is spelled. -/
structure Numeral where
  negative : Bool
  magnitude : Decimal
  /-- there is neither a point nor an exponent -/
  whole : Bool
  deriving DecidableEq, Repr

namespace Numeral

/-- The number that digits spell. -/
def digitsValue (ds : List Char) : Nat :=
  ds.foldl (fun n d => n * 10 + (d.toNat - '0'.toNat)) 0

/-- The number that the digits of an exponent spell, with their sign. -/
def exponentValue : List Char → Int
  | '-' :: ds => -(digitsValue ds : Int)
  | '+' :: ds => digitsValue ds
  | ds => digitsValue ds

/-- The mark of an exponent. -/
def isExponentMark (c : Char) : Bool := c = 'e' || c = 'E'

/-- The number that a literal spells. -/
def ofLiteral (literal : List Char) : Numeral :=
  let negative := literal.head? == some '-'
  let body := if negative then literal.drop 1 else literal
  let mantissa := body.takeWhile fun c => !isExponentMark c
  let exponent := (body.dropWhile fun c => !isExponentMark c).drop 1
  let places := (mantissa.dropWhile Char.isDigit).drop 1
  { negative := negative
    magnitude := ⟨digitsValue (mantissa.takeWhile Char.isDigit ++ places),
      exponentValue exponent - places.length⟩
    whole := body.all Char.isDigit }

/-- The nearest binary64 number. -/
def toFloat (x : Numeral) : Float :=
  if x.negative then -x.magnitude.toFloat else x.magnitude.toFloat

end Numeral

/-- The parts of a list, with commas between them. -/
def separate : List (List Token) → List Token
  | [] => []
  | [part] => part
  | part :: parts => part ++ .comma :: separate parts

/-- Reads items, with commas between them, up to the end of an array. There are
at most `limit`. -/
def readItems {β : Type} (item : Reader β) (tail : Tail) :
    (limit : Nat) → List Token → Except Fault (List β × List Token)
  | 0, _ => .error .malformed
  | limit + 1, ts => do
    let (x, ts) ← item tail ts
    match ts with
    | .comma :: ts =>
      let (xs, ts) ← readItems item tail limit ts
      return (x :: xs, ts)
    | .closeBracket :: ts => return ([x], ts)
    | [] => throw tail.atMark
    | _ => throw .malformed

namespace Codec

/-- Numbers are written with the fewest digits that read back. There is no text
for those that are not finite. -/
def float : Codec Float where
  write x := [if x.isFinite then .number (Layout.document.write x).toList else .word .null]
  read tail
    | .number literal :: ts =>
      let x := (Numeral.ofLiteral literal).toFloat
      if x.isFinite then .ok (x, ts) else .error .malformed
    | [] => .error tail.atValue
    | _ => .error .malformed

/-- Whole numbers below a limit, without a sign. -/
def natBelow (limit : Nat) : Codec Nat where
  write k := [.number (Nat.toDigits 10 k)]
  read tail
    | .number literal :: ts =>
      let x := Numeral.ofLiteral literal
      if x.whole ∧ ¬x.negative ∧ x.magnitude.digits < limit then .ok (x.magnitude.digits, ts)
      else .error .malformed
    | [] => .error tail.atValue
    | _ => .error .malformed

/-- Whole numbers of thirty-two bits. -/
def uint32 : Codec UInt32 where
  write k := (natBelow 4294967296).write k.toNat
  read tail ts := do
    let (k, ts) ← (natBelow 4294967296).read tail ts
    return (k.toUInt32, ts)

/-- Truth values. -/
def bool : Codec Bool where
  write b := [.word (if b then .true else .false)]
  read tail
    | .word .true :: ts => .ok (true, ts)
    | .word .false :: ts => .ok (false, ts)
    | [] => .error tail.atValue
    | _ => .error .malformed

/-- Arrays of values. -/
def array {β : Type} (c : Codec β) : Codec (Array β) where
  write xs := .openBracket :: separate (xs.toList.map c.write) ++ [.closeBracket]
  read tail
    | .openBracket :: .closeBracket :: ts => .ok (#[], ts)
    | .openBracket :: ts => do
      let (xs, ts) ← readItems c.read tail ts.length.succ ts
      return (xs.toArray, ts)
    | [] => .error tail.atValue
    | _ => .error .malformed

end Codec
end QuadOpt.Json
