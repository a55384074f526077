import TextOrigin.Bytes.Decimal
import TextOrigin.Registry

/-!
Diagnostics: a severity, a message and perhaps a place. The heading line of a diagnostic starts
with path, row and column, both counted from one, when the registry knows a path for its place.
The snippet shows the line of the place with a run of carets under the span, as wide as the
characters that start in it and at least one wide.
-/

namespace TextOrigin

inductive Severity where
  | note
  | warning
  | error
  /-- A code that names no severity. -/
  | other (code : Nat)
deriving DecidableEq, Repr

namespace Severity

def ofCode : Nat → Severity
  | 0 => note
  | 1 => warning
  | 2 => error
  | code => other code

def name : Severity → Bytes
  | note => ascii "note"
  | warning => ascii "warning"
  | error => ascii "error"
  | other _ => []

end Severity

structure Diagnostic where
  severity : Severity
  message : Bytes
  location : Location := Location.unknown
  /-- Number of bytes covered, zero for a single point. -/
  length : Word := 0
deriving DecidableEq, Repr

namespace Diagnostic

def error (location : Location) (message : Bytes) : Diagnostic :=
  { severity := .error, message, location }

def placeText (diagnostic : Diagnostic) : Option Registry → Bytes
  | none => []
  | some registry =>
    let path := registry.path diagnostic.location.file
    if diagnostic.location.file.isKnown ∧ path ≠ [] then
      path ++ ascii ":" ++ decimal (diagnostic.location.position.row + 1).toNat ++ ascii ":" ++
        decimal (diagnostic.location.position.column + 1).toNat ++ ascii ": "
    else []

def heading (diagnostic : Diagnostic) (files? : Option Registry) : Bytes :=
  diagnostic.placeText files? ++ diagnostic.severity.name ++ ascii ": " ++ diagnostic.message

/-- Number of carets under the span of a diagnostic whose line has `size` bytes and whose first
character stands in column `first`. -/
def caretCount (diagnostic : Diagnostic) (registry : Registry) (size first : Word) : Word :=
  if diagnostic.length = 0 then 1
  else
    let place := diagnostic.location.position
    let stop := min (place.column + diagnostic.length) size
    match registry.displayColumn? diagnostic.location.file place.row stop with
    | some last => if first < last then last - first else 1
    | none => 1

/-- The line of a diagnostic and its carets, each with a newline. It is empty if the place is
unknown or its file retains no text. -/
def snippet (diagnostic : Diagnostic) (registry : Registry) : Bytes :=
  let place := diagnostic.location.position
  if diagnostic.location.file.isKnown then
    match registry.lineText? diagnostic.location.file place.row,
      registry.displayColumn? diagnostic.location.file place.row place.column with
    | some line, some first =>
      let carets := diagnostic.caretCount registry (UInt64.ofNat line.length) first
      line ++ [Bytes.newline] ++ List.replicate first.toNat Bytes.space ++
        List.replicate carets.toNat 94 ++ [Bytes.newline]
    | _, _ => []
  else []

end Diagnostic

end TextOrigin
