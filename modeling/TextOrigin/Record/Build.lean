import TextOrigin.Alignment.Frontier
import TextOrigin.Record

/-!
Builders of records. Each takes the identity of the new node and checks the bounds that resolution
relies on, and none clamps. A derived record covers the range `[0, length)` in its own coordinates.
-/

namespace TextOrigin

inductive BuildError where
  | sliceOutside (start stop length : Word)
  | pieceTooLong (index : Nat) (claimed covered : Word)
  | mapEntry (index : Nat) (entry : MapEntry) (fault : MapFault)
  | textLength (given covered : Word)
  | alignment (fault : AlignmentFault)
deriving DecidableEq, Repr

def BuildError.message : BuildError → Bytes
  | sliceOutside start stop length =>
    ascii "substring [" ++ decimal start.toNat ++ ascii ", " ++ decimal stop.toNat ++
      ascii ") out of range for record of length " ++ decimal length.toNat
  | pieceTooLong index claimed covered =>
    ascii "concat piece " ++ decimal index ++ ascii " claims " ++ decimal claimed.toNat ++
      ascii " bytes but its record covers " ++ decimal covered.toNat
  | mapEntry index entry fault =>
    ascii "mapping entry " ++ decimal index ++ ascii " (" ++ decimal entry.fromStart.toNat ++
      ascii ", " ++ decimal entry.fromStop.toNat ++ ascii ", " ++ decimal entry.toStart.toNat ++
      ascii ", " ++ decimal entry.toStop.toNat ++ ascii ") " ++ fault.message
  | textLength given covered =>
    ascii "original text has " ++ decimal given.toNat ++ ascii " bytes but its record covers " ++
      decimal covered.toNat
  | alignment _ => ascii "alignment left the edit grid"

namespace Record

def unknown (node : NodeId) : Record :=
  mk node ⟨Position.zero, Position.zero⟩ (.leaf FileId.unknown)

def leaf (node : NodeId) (file : FileId) (range : Range) : Record :=
  mk node range (.leaf file)

def substring (node : NodeId) (parent : Record) (start stop : Word) : Except BuildError Record :=
  if stop < start ∨ parent.length < stop then
    .error (.sliceOutside start stop parent.length)
  else .ok (mk node (Range.ofLength (stop - start)) (.substring parent start))

/-- Lays contributions out back to back from `offset` on and returns the pieces with the offset at
which they end. `index` counts the contributions before them. -/
def layOut (index : Nat) (offset : Word) :
    List (Record × Word) → Except BuildError (List (Piece Record) × Word)
  | [] => .ok ([], offset)
  | (source, length) :: rest =>
    if source.length < length then .error (.pieceTooLong index length source.length)
    else
      match layOut (index + 1) (offset + length) rest with
      | .ok (pieces, total) => .ok (⟨source, offset, length⟩ :: pieces, total)
      | .error e => .error e

/-- The first bytes of each contribution, in order. A contribution may use less than its record but
not more. -/
def concat (node : NodeId) (contributions : List (Record × Word)) : Except BuildError Record :=
  match layOut 0 0 contributions with
  | .ok (pieces, total) => .ok (mk node (Range.ofLength total) (.concat pieces))
  | .error e => .error e

def transformed (node : NodeId) (parent : Record) (mapping : Mapping) (length : Word) :
    Except BuildError Record :=
  match mapping.firstFault? parent.length length with
  | some (index, entry, fault) => .error (.mapEntry index entry fault)
  | none => .ok (mk node (Range.ofLength length) (.transformed parent mapping))

end Record

end TextOrigin
