import TextOrigin.Pool.Entry

/-!
The text form of pools. A header line names the format and its version, and each entry has one line:
its index, the name of its kind, the six numbers of its range and its link, with single spaces
between. The pieces of a concatenation and the entries of a mapping are groups of numbers joined by
colons, and their count stands before them. Every line ends with a newline.
-/

namespace TextOrigin

def Pool.header : Bytes := ascii "lineage-pool 1"

namespace Pool.Printer

def number (value : Word) : Bytes := decimal value.toNat

def group (fields : List Word) : Bytes :=
  Bytes.join Bytes.colon (fields.map number)

def positionTokens (position : Position) : List Bytes :=
  [number position.offset, number position.row, number position.column]

def pieceToken (piece : Piece EntryId) : Bytes :=
  group [piece.source.toUInt64, piece.offset, piece.length]

def mapToken (entry : MapEntry) : Bytes :=
  group [entry.fromStart, entry.fromStop, entry.toStart, entry.toStop]

def linkTokens : Link EntryId → List Bytes
  | .leaf file => [ascii "file", decimal file.value.toNat]
  | .substring parent offset =>
    [ascii "parent", decimal parent.toNat, ascii "offset", number offset]
  | .concat pieces =>
    [ascii "pieces", decimal pieces.length] ++ pieces.map pieceToken
  | .transformed parent mapping =>
    [ascii "parent", decimal parent.toNat, ascii "map", decimal mapping.length] ++
      mapping.map mapToken

/-- The tokens of an entry's line. An entry of unknown kind has an empty name and no link. -/
def entryTokens (id : EntryId) (entry : Entry) : List Bytes :=
  [decimal id.toNat, Kind.nameOfCode entry.kind] ++ positionTokens entry.range.start ++
    positionTokens entry.range.stop ++
    match entry.link? with
    | some link => linkTokens link
    | none => []

def entryLine (id : EntryId) (entry : Entry) : Bytes :=
  Bytes.join Bytes.space (entryTokens id entry)

end Pool.Printer

def Pool.print (pool : Pool) : Bytes :=
  let lines := pool.toList.zipIdx.map fun (entry, id) =>
    Printer.entryLine (UInt32.ofNat id) entry
  (header :: lines).flatMap (· ++ [Bytes.newline])

end TextOrigin
