/-
# Output

Reports are written line by line to an output, which keeps the text. A stream
may accept a limited number of lines; what comes after them is refused.

Key definitions: `OutputKind`, `Output`, `Output.writeLines`,
`Output.bufferText`.
-/
import QuadOpt.Model.Error

namespace QuadOpt

/-- Where output goes. -/
inductive OutputKind where
  | console
  | file
  | buffer
  /-- a stream that accepts a number of further lines, or any number -/
  | stream (left : Option Nat)
  | sink
  deriving DecidableEq, Repr

/-- An output, and the text it was given. -/
structure Output where
  kind : OutputKind
  text : String := ""
  deriving DecidableEq, Repr

namespace Output

/-- Writes a line. -/
def writeLine (o : Output) (line : String) : Except OutputError Unit × Output :=
  match o.kind with
  | .sink => (.ok (), o)
  | .stream (some 0) => (.error .streamClosed, o)
  | .stream (some (left + 1)) =>
    (.ok (), ⟨.stream (some left), o.text ++ line ++ "\n"⟩)
  | _ => (.ok (), { o with text := o.text ++ line ++ "\n" })

/-- Writes lines, up to the first that is refused. -/
def writeLines (o : Output) : List String → Except OutputError Unit × Output
  | [] => (.ok (), o)
  | line :: lines =>
    match o.writeLine line with
    | (.ok (), o) => o.writeLines lines
    | (.error e, o) => (.error e, o)

/-- The text in a buffer. -/
def bufferText (o : Output) : Except OutputError String :=
  match o.kind with
  | .buffer => .ok o.text
  | _ => .error .notBuffered

end Output
end QuadOpt
