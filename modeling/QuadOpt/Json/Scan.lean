/-
# Scanning

A text is a list of tokens, blanks between them, and a tail that tells how the
tokens end.

Key definitions: `scanWord`, `scanNumber`, `scanString`, `scan`.
-/
import QuadOpt.Json.Token

namespace QuadOpt.Json

/-- What a token at the front of a text turns out to be. -/
inductive Scanned (β : Type) where
  /-- a token, and the text after it -/
  | found (token : β) (rest : List Char)
  /-- the text ends within the token -/
  | cut (token : β)
  /-- no token -/
  | stray

/-- The given characters at the front of a text. -/
def scanWord (expected : List Char) : List Char → Scanned Unit :=
  match expected with
  | [] => fun cs => .found () cs
  | e :: es => fun
    | [] => .cut ()
    | c :: cs => if c = e then scanWord es cs else .stray

/-- Digits at the front of a text, and the text after them. -/
def spanDigits (cs : List Char) : List Char × List Char :=
  (cs.takeWhile Char.isDigit, cs.dropWhile Char.isDigit)

/-- One digit or more. -/
def scanDigits (cs : List Char) : Scanned (List Char) :=
  match spanDigits cs with
  | ([], []) => .cut []
  | ([], _ :: _) => .stray
  | (ds, rest) => .found ds rest

/-- The whole part of a number, in which no zero leads other digits. -/
def scanWhole : List Char → Scanned (List Char)
  | [] => .cut []
  | '0' :: rest => if rest.head?.any Char.isDigit then .stray else .found ['0'] rest
  | cs => scanDigits cs

/-- The point and the digits after it, if there is a point. -/
def scanFraction : List Char → Scanned (List Char)
  | '.' :: cs =>
    match scanDigits cs with
    | .found ds rest => .found ('.' :: ds) rest
    | .cut ds => .cut ('.' :: ds)
    | .stray => .stray
  | cs => .found [] cs

/-- The sign of an exponent, if there is one. -/
def spanSign : List Char → List Char × List Char
  | '+' :: cs => (['+'], cs)
  | '-' :: cs => (['-'], cs)
  | cs => ([], cs)

/-- The exponent of a number, if there is one. -/
def scanExponent : List Char → Scanned (List Char)
  | c :: cs =>
    if c = 'e' ∨ c = 'E' then
      let (sign, cs) := spanSign cs
      match scanDigits cs with
      | .found ds rest => .found (c :: sign ++ ds) rest
      | .cut ds => .cut (c :: sign ++ ds)
      | .stray => .stray
    else .found [] (c :: cs)
  | [] => .found [] []

namespace Scanned

/-- One token after another, joined. -/
def andThen (first : Scanned (List Char)) (next : List Char → Scanned (List Char)) :
    Scanned (List Char) :=
  match first with
  | .stray => .stray
  | .cut ds => .cut ds
  | .found ds cs =>
    match next cs with
    | .stray => .stray
    | .cut es => .cut (ds ++ es)
    | .found es rest => .found (ds ++ es) rest

end Scanned

/-- The minus of a number, if there is one. -/
def scanMinus : List Char → Scanned (List Char)
  | '-' :: cs => .found ['-'] cs
  | cs => .found [] cs

/-- The literal of a number at the front of a text. -/
def scanNumber (cs : List Char) : Scanned (List Char) :=
  (((scanMinus cs).andThen scanWhole).andThen scanFraction).andThen scanExponent

/-- The value of a hexadecimal digit. -/
def hexValue? (c : Char) : Option Nat :=
  if '0' ≤ c ∧ c ≤ '9' then some (c.toNat - '0'.toNat)
  else if 'a' ≤ c ∧ c ≤ 'f' then some (c.toNat - 'a'.toNat + 10)
  else if 'A' ≤ c ∧ c ≤ 'F' then some (c.toNat - 'A'.toNat + 10)
  else none

/-- The unit that four hexadecimal digits stand for. -/
def hexUnit? (a b c d : Char) : Option Nat := do
  return ((← hexValue? a) * 16 + (← hexValue? b)) * 256 +
    ((← hexValue? c) * 16 + (← hexValue? d))

/-- The length of a text in UTF-8. -/
def utf8Length : List Char → Nat
  | [] => 0
  | c :: cs => c.utf8Size + utf8Length cs

/-- The character that a short escape stands for. -/
def shortEscape? : Char → Option Char
  | '"' => some '"'
  | '\\' => some '\\'
  | '/' => some '/'
  | 'b' => some '\x08'
  | 'f' => some '\x0c'
  | 'n' => some '\n'
  | 'r' => some '\r'
  | 't' => some '\t'
  | _ => none

namespace Scanned

/-- Puts a piece in front of the rest of a string. -/
def prepend (u : StringUnit) : Scanned (List StringUnit) → Scanned (List StringUnit)
  | found us rest => found (u :: us) rest
  | cut us => cut (u :: us)
  | stray => stray

end Scanned

/-- The rest of a string after its opening quote. An escape of which four bytes
are missing at the end of the text is cut off, whatever it begins with. -/
def scanString : List Char → Scanned (List StringUnit)
  | [] => .cut []
  | '"' :: rest => .found [] rest
  | ['\\'] => .cut []
  | '\\' :: 'u' :: rest =>
    match rest with
    | a :: b :: c :: d :: rest' =>
      match hexUnit? a b c d with
      | some u => (scanString rest').prepend (.unit u)
      | none => .stray
    | _ => if utf8Length rest < 4 then .cut [] else .stray
  | '\\' :: e :: rest =>
    match shortEscape? e with
    | some c => (scanString rest).prepend (.char c)
    | none => .stray
  | c :: rest => if c.toNat < 32 then .stray else (scanString rest).prepend (.char c)

/-- Blanks separate tokens. -/
def isBlank (c : Char) : Bool := c = ' ' || c = '\n' || c = '\t' || c = '\r'

/-- The token that a character other than a blank begins, and the text after it,
or else the tail that begins there. -/
def scanToken (c : Char) (cs : List Char) : Except Tail (Token × List Char) :=
  let word (w : Word) : Except Tail (Token × List Char) :=
    match scanWord w.chars (c :: cs) with
    | .found () rest => .ok (.word w, rest)
    | .cut () => .error .cutWord
    | .stray => .error .stray
  match c with
  | '\x7b' => .ok (.openBrace, cs)
  | '\x7d' => .ok (.closeBrace, cs)
  | '[' => .ok (.openBracket, cs)
  | ']' => .ok (.closeBracket, cs)
  | ',' => .ok (.comma, cs)
  | ':' => .ok (.colon, cs)
  | 'n' => word .null
  | 't' => word .true
  | 'f' => word .false
  | '"' =>
    match scanString cs with
    | .found us rest => .ok (.string us, rest)
    | .cut us => .error (.cutString us)
    | .stray => .error .stray
  | c =>
    if c = '-' ∨ c.isDigit then
      match scanNumber (c :: cs) with
      | .found ds rest => .ok (.number ds, rest)
      | .cut _ => .error .cutNumber
      | .stray => .error .stray
    else .error .stray

/-- The tokens at the front of a text, at most `limit`, and the tail. -/
def scanUpTo (limit : Nat) (cs : List Char) : List Token × Tail :=
  match limit with
  | 0 => ([], .stray)
  | limit + 1 =>
    match cs.dropWhile isBlank with
    | [] => ([], .done)
    | c :: cs =>
      match scanToken c cs with
      | .error tail => ([], tail)
      | .ok (t, rest) =>
        let (ts, tail) := scanUpTo limit rest
        (t :: ts, tail)

/-- The tokens of a text and its tail. There are no more tokens than
characters. -/
def scan (cs : List Char) : List Token × Tail := scanUpTo (cs.length + 1) cs

end QuadOpt.Json
