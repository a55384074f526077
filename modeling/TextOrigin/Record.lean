import TextOrigin.Mapping
import TextOrigin.Position

/-!
Provenance records. A record pairs a range in its own coordinates with a link that says where its
text comes from: a slice of a file, a slice of a parent record, the pieces of several records in
order, or a transformation of a parent's text. Every record carries the identity of its node, so
that records can be shared and sharing can be told from equality. Links are generic in what they
refer to: records refer to records, and pool entries to entry ids. A link refers only to records of
lesser height, which is why no chain of links returns to its start.
-/

namespace TextOrigin

inductive Kind where
  | leaf
  | substring
  | concat
  | transformed
deriving DecidableEq, Repr

namespace Kind

def code : Kind → UInt8
  | leaf => 0
  | substring => 1
  | concat => 2
  | transformed => 3

def ofCode? : UInt8 → Option Kind
  | 0 => some leaf
  | 1 => some substring
  | 2 => some concat
  | 3 => some transformed
  | _ => none

def name : Kind → Bytes
  | leaf => ascii "original"
  | substring => ascii "substring"
  | concat => ascii "concat"
  | transformed => ascii "transformed"

def ofName? (name : Bytes) : Option Kind :=
  [leaf, substring, concat, transformed].find? (·.name == name)

theorem ofName?_name (kind : Kind) : ofName? kind.name = some kind := by
  cases kind <;> decide

def nameOfCode (code : UInt8) : Bytes :=
  match ofCode? code with
  | some kind => kind.name
  | none => []

end Kind

/-- A contribution to a concatenation: the first `length` bytes of `source`, placed at `offset`. -/
structure Piece (ρ : Type) where
  source : ρ
  offset : Word
  length : Word
deriving DecidableEq, Repr

inductive Link (ρ : Type) where
  | leaf (file : FileId)
  | substring (parent : ρ) (offset : Word)
  | concat (pieces : List (Piece ρ))
  | transformed (parent : ρ) (mapping : Mapping)
deriving DecidableEq, Repr

namespace Link

def kind {ρ : Type} : Link ρ → Kind
  | leaf _ => .leaf
  | substring _ _ => .substring
  | concat _ => .concat
  | transformed _ _ => .transformed

def refs {ρ : Type} : Link ρ → List ρ
  | leaf _ => []
  | substring parent _ => [parent]
  | concat pieces => pieces.map (·.source)
  | transformed parent _ => [parent]

def mapM {m : Type → Type} [Monad m] {ρ σ : Type} (f : ρ → m σ) : Link ρ → m (Link σ)
  | leaf file => pure (leaf file)
  | substring parent offset => do return substring (← f parent) offset
  | concat pieces => do
    return concat (← pieces.mapM fun piece => do
      return { source := ← f piece.source, offset := piece.offset, length := piece.length })
  | transformed parent mapping => do return transformed (← f parent) mapping

end Link

structure NodeId where
  index : Nat
deriving DecidableEq, Hashable, Repr

/-- A source of node ids that are all different. -/
structure NodeSupply where
  next : Nat := 0

namespace NodeSupply

def fresh (supply : NodeSupply) : NodeId × NodeSupply :=
  (⟨supply.next⟩, ⟨supply.next + 1⟩)

end NodeSupply

inductive Record where
  | mk (node : NodeId) (range : Range) (link : Link Record)

namespace Record

def node : Record → NodeId
  | mk node _ _ => node

def range : Record → Range
  | mk _ range _ => range

def link : Record → Link Record
  | mk _ _ link => link

def length (record : Record) : Word := record.range.length

mutual

def height : Record → Nat
  | mk _ _ link => linkHeight link

def linkHeight : Link Record → Nat
  | .leaf _ => 0
  | .substring parent _ => parent.height + 1
  | .concat pieces => piecesHeight pieces
  | .transformed parent _ => parent.height + 1

def piecesHeight : List (Piece Record) → Nat
  | [] => 0
  | ⟨source, _, _⟩ :: rest => max (source.height + 1) (piecesHeight rest)

end

theorem height_lt_piecesHeight {piece : Piece Record} {pieces : List (Piece Record)}
    (h : piece ∈ pieces) : piece.source.height < piecesHeight pieces := by
  induction pieces with
  | nil => simp at h
  | cons head rest ih =>
    rw [piecesHeight]
    rcases List.mem_cons.1 h with rfl | h
    · omega
    · have := ih h
      omega

theorem height_lt_of_mem_refs {child record : Record} (h : child ∈ record.link.refs) :
    child.height < record.height := by
  obtain ⟨node, range, link⟩ := record
  cases link with
  | leaf file => simp [Record.link, Link.refs] at h
  | substring parent offset =>
    obtain rfl : child = parent := by simpa [Record.link, Link.refs] using h
    simp [height, linkHeight]
  | concat pieces =>
    obtain ⟨piece, hp, rfl⟩ := List.mem_map.1 h
    exact height_lt_piecesHeight hp
  | transformed parent mapping =>
    obtain rfl : child = parent := by simpa [Record.link, Link.refs] using h
    simp [height, linkHeight]

mutual

/-- Equality of content: equal ranges and links whose records are equal in content again. Records of
one node are equal at once. -/
def alike (first second : Record) : Bool :=
  match first with
  | mk node range link =>
    node == second.node || (range == second.range && alikeLinks link second.link)

def alikeLinks (first second : Link Record) : Bool :=
  match first with
  | .leaf file =>
    match second with
    | .leaf file' => file == file'
    | _ => false
  | .substring parent offset =>
    match second with
    | .substring parent' offset' => offset == offset' && parent.alike parent'
    | _ => false
  | .concat pieces =>
    match second with
    | .concat pieces' => pieces.length == pieces'.length && alikePieces pieces pieces'
    | _ => false
  | .transformed parent mapping =>
    match second with
    | .transformed parent' mapping' => mapping == mapping' && parent.alike parent'
    | _ => false

def alikePieces (first second : List (Piece Record)) : Bool :=
  match first with
  | [] => second.isEmpty
  | ⟨source, offset, length⟩ :: rest =>
    match second with
    | ⟨source', offset', length'⟩ :: rest' =>
      offset == offset' && length == length' && source.alike source' && alikePieces rest rest'
    | [] => false

end

instance : BEq Record := ⟨alike⟩

theorem alike_self (record : Record) : record.alike record = true := by
  obtain ⟨node, range, link⟩ := record
  simp [alike, Record.node]

instance : ReflBEq Record := ⟨fun {record} => alike_self record⟩

end Record

end TextOrigin
