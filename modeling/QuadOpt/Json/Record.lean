/-
# Records

A record is written as an object with its fields in order. It is read from an
object with its fields in any order, some of them unknown and skipped, or from an
array of its fields in order. While it is read, its fields are collected in a
draft.

Key definitions: `Field`, `Field.of`, `Record`, `Record.codec`.
-/
import QuadOpt.Json.Skip

namespace QuadOpt.Json

/-- A field of records of type `ρ` that have drafts of type `σ`. -/
structure Field (ρ σ : Type) where
  name : String
  write : ρ → List Token
  /-- the draft has a value for the field -/
  isSet : σ → Bool
  /-- reads a value for the field into the draft -/
  read : σ → Reader σ

/-- The field with the given codec, of which `get` is the value in a record and
`slot` the value in a draft. -/
def Field.of {ρ σ β : Type} (name : String) (c : Codec β) (get : ρ → β)
    (slot : σ → Option β) (put : σ → β → σ) : Field ρ σ where
  name := name
  write r := c.write (get r)
  isSet s := (slot s).isSome
  read s tail ts := do
    let (x, ts) ← c.read tail ts
    return (put s x, ts)

/-- A kind of record. -/
structure Record (ρ σ : Type) where
  fields : List (Field ρ σ)
  /-- the draft without fields -/
  blank : σ
  /-- the record of a draft that has all the fields it needs -/
  finish : σ → Option ρ

namespace Record

variable {ρ σ : Type}

/-- The name and the value of a field. -/
def writeField (r : ρ) (f : Field ρ σ) : List Token :=
  .ofString f.name :: .colon :: f.write r

/-- Reads a colon. -/
def readColon (tail : Tail) : List Token → Except Fault (List Token)
  | .colon :: ts => .ok ts
  | [] => .error tail.atMark
  | _ => .error .malformed

/-- Reads the name of a field, which is the next token. -/
def readKey (tail : Tail) : List Token → Except Fault (String × List Token)
  | .string units :: ts => do
    let name ← decodeUnits false units
    return (String.ofList name, ts)
  | [] => .error tail.atKey
  | _ => .error .malformed

/-- Reads the value of the field with the given name. A field may be given once
only; one without a meaning is skipped. -/
def readMember (fields : List (Field ρ σ)) (name : String) (s : σ) (tail : Tail)
    (ts : List Token) : Except Fault (σ × List Token) :=
  match fields.find? fun f => f.name == name with
  | some f => do
    if f.isSet s then throw .malformed
    let ts ← readColon tail ts
    f.read s tail ts
  | none => do
    let ts ← readColon tail ts
    let ts ← skip tail ts
    return (s, ts)

/-- Reads fields, with commas between them, up to the end of an object. There
are at most `limit`. -/
def readMembers (fields : List (Field ρ σ)) (tail : Tail) :
    (limit : Nat) → σ → List Token → Except Fault (σ × List Token)
  | 0, _, _ => .error .malformed
  | limit + 1, s, ts => do
    let (name, ts) ← readKey tail ts
    let (s, ts) ← readMember fields name s tail ts
    match ts with
    | .comma :: ts => readMembers fields tail limit s ts
    | .closeBrace :: ts => return (s, ts)
    | [] => throw tail.atMark
    | _ => throw .malformed

/-- Reads the remaining fields from an array of which some items were read.
Fields at the end may be missing. -/
def readRest (tail : Tail) :
    List (Field ρ σ) → σ → List Token → Except Fault (σ × List Token)
  | _, s, .closeBracket :: ts => .ok (s, ts)
  | f :: fs, s, .comma :: ts => do
    let (s, ts) ← f.read s tail ts
    readRest tail fs s ts
  | _, _, [] => .error tail.atMark
  | _, _, _ => .error .malformed

/-- Reads fields in order from an array. -/
def readSequence (tail : Tail) :
    List (Field ρ σ) → σ → List Token → Except Fault (σ × List Token)
  | _, s, .closeBracket :: ts => .ok (s, ts)
  | f :: fs, s, ts => do
    let (s, ts) ← f.read s tail ts
    readRest tail fs s ts
  | [], _, [] => .error tail.atMark
  | [], _, _ => .error .malformed

/-- Reads a draft. -/
def readDraft (R : Record ρ σ) (tail : Tail) : List Token → Except Fault (σ × List Token)
  | .openBrace :: .closeBrace :: ts => .ok (R.blank, ts)
  | .openBrace :: ts => readMembers R.fields tail ts.length.succ R.blank ts
  | .openBracket :: ts => readSequence tail R.fields R.blank ts
  | [] => .error tail.atValue
  | _ => .error .malformed

/-- How records are written and read. -/
def codec (R : Record ρ σ) : Codec ρ where
  write r := .openBrace :: separate (R.fields.map (writeField r)) ++ [.closeBrace]
  read tail ts := do
    let (s, ts) ← R.readDraft tail ts
    match R.finish s with
    | some r => return (r, ts)
    | none => throw .malformed

end Record
end QuadOpt.Json
