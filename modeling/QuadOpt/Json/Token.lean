/-
# Tokens of JSON text

Texts are written and read as lists of tokens. A number keeps its literal, so
that writing it does not change it, and a string keeps its escapes of single
UTF-16 units, which stand for characters only if surrogates pair up.

Key definitions: `Token`, `Token.write`, `Token.writeAll`, `Tail`, `Fault`,
`decodeUnits`.
-/

namespace QuadOpt.Json

/-- A piece of a string: a character, or an escaped UTF-16 unit. -/
inductive StringUnit where
  | char (c : Char)
  | unit (u : Nat)
  deriving DecidableEq, Repr

/-- A word with a meaning of its own. -/
inductive Word where
  | null
  | true
  | false
  deriving DecidableEq, Repr

/-- The characters of a word. -/
def Word.chars : Word → List Char
  | .null => ['n', 'u', 'l', 'l']
  | .true => ['t', 'r', 'u', 'e']
  | .false => ['f', 'a', 'l', 's', 'e']

/-- A token. -/
inductive Token where
  | openBrace
  | closeBrace
  | openBracket
  | closeBracket
  | comma
  | colon
  | word (w : Word)
  | number (literal : List Char)
  | string (units : List StringUnit)
  deriving DecidableEq, Repr

/-- Why a text was not read. -/
inductive Fault where
  /-- it ended too early -/
  | ended
  /-- it is not what was expected -/
  | malformed
  deriving DecidableEq, Repr

/-- What follows the last token of a text. -/
inductive Tail where
  /-- nothing -/
  | done
  /-- something that begins no token -/
  | stray
  /-- the beginning of a word, and then the end of the text -/
  | cutWord
  /-- the beginning of a number, and then the end of the text -/
  | cutNumber
  /-- the beginning of a string, and then the end of the text -/
  | cutString (units : List StringUnit)
  deriving DecidableEq, Repr

/-- The hexadecimal digit of a number below sixteen. -/
def hexDigit (k : Nat) : Char := (Nat.digitChar k)

/-- The escape of a UTF-16 unit. -/
def writeUnit (u : Nat) : List Char :=
  ['\\', 'u', hexDigit (u / 4096 % 16), hexDigit (u / 256 % 16), hexDigit (u / 16 % 16),
    hexDigit (u % 16)]

/-- The text of a piece of a string. Quotes, backslashes and control characters
are escaped. -/
def StringUnit.write : StringUnit → List Char
  | .char c =>
    if c = '"' ∨ c = '\\' then ['\\', c]
    else if c.toNat < 32 then writeUnit c.toNat
    else [c]
  | .unit u => writeUnit u

namespace Token

/-- The text of a token. -/
def write : Token → List Char
  | openBrace => ['\x7b']
  | closeBrace => ['\x7d']
  | openBracket => ['[']
  | closeBracket => [']']
  | comma => [',']
  | colon => [':']
  | word w => w.chars
  | number literal => literal
  | string units => '"' :: units.flatMap StringUnit.write ++ ['"']

/-- The text of a list of tokens, without blanks. -/
def writeAll (ts : List Token) : String := String.ofList (ts.flatMap write)

/-- The string token of a text. -/
def ofString (s : String) : Token := string (s.toList.map StringUnit.char)

end Token

/-- A UTF-16 unit that begins a pair. -/
def isHighSurrogate (u : Nat) : Bool := 0xD800 ≤ u && u < 0xDC00

/-- A UTF-16 unit that ends a pair. -/
def isLowSurrogate (u : Nat) : Bool := 0xDC00 ≤ u && u < 0xE000

/-- The characters of a string in which surrogates pair up. If the string is cut
off, a pair may still be incomplete at its end. -/
def decodeUnits (cut : Bool) : List StringUnit → Except Fault (List Char)
  | [] => if cut then .error .ended else .ok []
  | .char c :: rest => (decodeUnits cut rest).map (c :: ·)
  | .unit u :: rest =>
    if isLowSurrogate u then .error .malformed
    else if isHighSurrogate u then
      match rest with
      | .unit w :: rest =>
        if isLowSurrogate w then
          (decodeUnits cut rest).map
            (Char.ofNat (0x10000 + (u - 0xD800) * 0x400 + (w - 0xDC00)) :: ·)
        else .error .malformed
      | [] => .error (if cut then .ended else .malformed)
      | .char _ :: _ => .error .malformed
    else (decodeUnits cut rest).map (Char.ofNat u :: ·)

namespace Tail

/-- The fault of a string that is cut off. -/
def cutStringFault (units : List StringUnit) : Fault :=
  match decodeUnits true units with
  | .error e => e
  | .ok _ => .ended

/-- The fault if punctuation was expected where the tokens end. -/
def atMark : Tail → Fault
  | done => .ended
  | _ => .malformed

/-- The fault if a value was expected where the tokens end. -/
def atValue : Tail → Fault
  | done | cutWord | cutNumber => .ended
  | cutString units => cutStringFault units
  | stray => .malformed

/-- The fault if the name of a field was expected where the tokens end. -/
def atKey : Tail → Fault
  | done => .ended
  | cutString units => cutStringFault units
  | _ => .malformed

/-- The fault if a value that is skipped was expected where the tokens end. Here
a number that is cut off is taken for a bad one, and surrogates are not looked
at. -/
def atSkippedValue : Tail → Fault
  | done | cutWord | cutString _ => .ended
  | cutNumber | stray => .malformed

/-- The fault if a name in a skipped value was expected where the tokens end. -/
def atSkippedKey : Tail → Fault
  | done | cutString _ => .ended
  | _ => .malformed

end Tail
end QuadOpt.Json
