import TextOrigin.Pool.Entry
import Std.Data.HashMap

/-!
Writing record graphs into pools. A writer gives every node one entry, after the entries of
everything that the node refers to, so every reference points to a smaller index. A node that was
written before keeps its entry. Nodes are told apart by identity: records with equal content and
different nodes have entries of their own.
-/

namespace TextOrigin

structure Writer where
  ids : Std.HashMap NodeId EntryId := {}
  entries : Pool := #[]

namespace Writer

def empty : Writer := {}

def append (writer : Writer) (node : NodeId) (entry : Entry) : EntryId × Writer :=
  let id := UInt32.ofNat writer.entries.size
  (id, ⟨writer.ids.insert node id, writer.entries.push entry⟩)

mutual

/-- Adds a record and everything that it refers to, and returns the index of its entry. -/
def intern (writer : Writer) (record : Record) : EntryId × Writer :=
  match record with
  | .mk node range link =>
    match writer.ids[node]? with
    | some id => (id, writer)
    | none =>
      let (flat, writer) := writer.internLink link
      writer.append node (Entry.ofLink range flat)

def internLink (writer : Writer) (link : Link Record) : Link EntryId × Writer :=
  match link with
  | .leaf file => (.leaf file, writer)
  | .substring parent offset =>
    let (id, writer) := writer.intern parent
    (.substring id offset, writer)
  | .concat pieces =>
    let (flat, writer) := writer.internPieces pieces
    (.concat flat, writer)
  | .transformed parent mapping =>
    let (id, writer) := writer.intern parent
    (.transformed id mapping, writer)

def internPieces (writer : Writer) (pieces : List (Piece Record)) :
    List (Piece EntryId) × Writer :=
  match pieces with
  | [] => ([], writer)
  | ⟨source, offset, length⟩ :: rest =>
    let (id, writer) := writer.intern source
    let (flat, writer) := writer.internPieces rest
    (⟨id, offset, length⟩ :: flat, writer)

end

def internAll (writer : Writer) : List Record → List EntryId × Writer
  | [] => ([], writer)
  | record :: rest =>
    let (id, writer) := writer.intern record
    let (ids, writer) := writer.internAll rest
    (id :: ids, writer)

def take (writer : Writer) : Pool × Writer := (writer.entries, empty)

end Writer

/-- The pool of everything that the roots refer to, and the index of each root. -/
def Pool.encode (roots : List Record) : Pool × List EntryId :=
  let (ids, writer) := Writer.empty.internAll roots
  (writer.entries, ids)

end TextOrigin
