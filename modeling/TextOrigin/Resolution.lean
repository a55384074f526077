import TextOrigin.Diagnostic
import TextOrigin.Record.Descent

/-!
Resolution of record offsets to locations in files. An offset descends through the record graph, and
the registry turns the place where it lands into a row and a column. The end of a range is resolved
through its last byte: the byte after a range may belong to another record, the byte after its last
byte does not.
-/

namespace TextOrigin.Record

def resolve (registry : Registry) (settings : Settings) (mode : Mode) (record : Record)
    (offset : Word) : Traced (Option Location) := do
  let descent := record.descend settings mode offset
  if settings.trace then Traced.report descent.lines
  return descent.landing.bind fun (file, place) => registry.place? mode file place

/-- The location one byte further in the same file. Past the end of the file it stays on its row. -/
def nextLocation (registry : Registry) (location : Location) : Location :=
  let place := location.position
  match registry.positionAt? location.file (place.offset + 1) with
  | some position => ⟨location.file, position⟩
  | none => ⟨location.file, ⟨place.offset + 1, place.row, place.column + 1⟩⟩

def resolveRange (registry : Registry) (settings : Settings) (mode : Mode) (record : Record)
    (start stop : Word) : Traced (Option (Location × Location)) := do
  if stop < start then return none
  match ← record.resolve registry settings mode start with
  | none => return none
  | some first =>
    if start = stop then return some (first, first)
    let last ← record.resolve registry settings mode (stop - 1)
    return last.map fun l => (first, nextLocation registry l)

def locate (registry : Registry) (record : Record) (offset : Word) : Location :=
  ((record.resolve registry {} .closest offset).value).getD Location.unknown

def errorAt (registry : Registry) (record : Record) (offset : Word) (message : Bytes) :
    Diagnostic :=
  Diagnostic.error (record.locate registry offset) message

end TextOrigin.Record
