/-
# Skipping values

A value that nobody asked for is skipped, however deeply it is nested: all that
is kept of it is the stack of the arrays and objects that are open.

Key definitions: `Frame`, `Expecting`, `skipToken`, `skipFrom`, `skip`.
-/
import QuadOpt.Json.Codec

namespace QuadOpt.Json

/-- Something that is open. -/
inductive Frame where
  | array
  | object
  deriving DecidableEq, Repr

/-- What has to follow. -/
inductive Expecting where
  | value
  /-- a value, or the end of the array -/
  | itemOrClose
  | key
  /-- the name of a field, or the end of the object -/
  | keyOrClose
  | colon
  /-- a comma, or the end of what is open -/
  | commaOrClose
  deriving DecidableEq, Repr

/-- The fault if the tokens end here. -/
def Expecting.fault : Expecting → Tail → Fault
  | value, tail | itemOrClose, tail => tail.atSkippedValue
  | key, tail | keyOrClose, tail => tail.atSkippedKey
  | colon, tail | commaOrClose, tail => tail.atMark

/-- What follows a complete value: nothing, if nothing is open. -/
def afterValue : List Frame → Option (List Frame × Expecting)
  | [] => none
  | frames => some (frames, .commaOrClose)

/-- What follows the first token of a value. -/
def skipValueToken (frames : List Frame) : Token → Except Fault (Option (List Frame × Expecting))
  | .openBracket => .ok (some (.array :: frames, .itemOrClose))
  | .openBrace => .ok (some (.object :: frames, .keyOrClose))
  | .word _ | .number _ | .string _ => .ok (afterValue frames)
  | _ => .error .malformed

/-- What follows a token, if the value is not complete with it. -/
def skipToken (frames : List Frame) (e : Expecting) (t : Token) :
    Except Fault (Option (List Frame × Expecting)) :=
  match e, frames, t with
  | .value, _, t => skipValueToken frames t
  | .itemOrClose, .array :: rest, .closeBracket => .ok (afterValue rest)
  | .itemOrClose, _, t => skipValueToken frames t
  | .keyOrClose, .object :: rest, .closeBrace => .ok (afterValue rest)
  | .keyOrClose, _, .string _ | .key, _, .string _ => .ok (some (frames, .colon))
  | .colon, _, .colon => .ok (some (frames, .value))
  | .commaOrClose, .array :: _, .comma => .ok (some (frames, .value))
  | .commaOrClose, .object :: _, .comma => .ok (some (frames, .key))
  | .commaOrClose, .array :: rest, .closeBracket => .ok (afterValue rest)
  | .commaOrClose, .object :: rest, .closeBrace => .ok (afterValue rest)
  | _, _, _ => .error .malformed

/-- Skips the rest of a value. -/
def skipFrom (tail : Tail) (frames : List Frame) (e : Expecting) :
    List Token → Except Fault (List Token)
  | [] => .error (e.fault tail)
  | t :: ts =>
    match skipToken frames e t with
    | .error f => .error f
    | .ok (some (frames, e)) => skipFrom tail frames e ts
    | .ok none => .ok ts

/-- Skips a value. -/
def skip (tail : Tail) (ts : List Token) : Except Fault (List Token) :=
  skipFrom tail [] .value ts

end QuadOpt.Json
