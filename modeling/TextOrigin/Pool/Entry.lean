import TextOrigin.Record

/-!
Entries of pools. A pool is the flat form of a record graph: one entry for each node, with links
that refer to entries by index. An entry has the fields of all kinds of link, and only those of its
own kind mean something; `ofLink` leaves the others at their defaults and `link?` reads the link
back.
-/

namespace TextOrigin

abbrev EntryId := UInt32

structure Entry where
  range : Range
  /-- Code of the kind, which need not be the code of any. -/
  kind : UInt8
  file : FileId := FileId.unknown
  parent : EntryId := 0
  offset : Word := 0
  pieces : List (Piece EntryId) := []
  mapping : Mapping := []
deriving DecidableEq, Repr

abbrev Pool := Array Entry

namespace Entry

def length (entry : Entry) : Word := entry.range.length

def ofLink (range : Range) (link : Link EntryId) : Entry :=
  let bare : Entry := { range, kind := link.kind.code }
  match link with
  | .leaf file => { bare with file }
  | .substring parent offset => { bare with parent, offset }
  | .concat pieces => { bare with pieces }
  | .transformed parent mapping => { bare with parent, mapping }

def link? (entry : Entry) : Option (Link EntryId) :=
  (Kind.ofCode? entry.kind).map fun
    | .leaf => .leaf entry.file
    | .substring => .substring entry.parent entry.offset
    | .concat => .concat entry.pieces
    | .transformed => .transformed entry.parent entry.mapping

theorem link?_ofLink (range : Range) (link : Link EntryId) :
    (ofLink range link).link? = some link := by
  cases link <;> rfl

end Entry

end TextOrigin
